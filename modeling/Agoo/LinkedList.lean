import Mathlib.Data.List.Nodup
import Mathlib.Logic.Function.Basic
import Mathlib.Tactic.Common

/-!
# Doubly linked lists in a heap

Cells with pointers to the next and the previous one; a pointer is an address or none for NULL, and an access
to an address that holds no cell fails. `Follows` is what a loop along `next` meets, `Linked` that the cells of
a list point at each other, with any pointers at the two ends. A program that changes pointers one at a time is
followed with `linked_append`, which cuts a list anywhere, the two rules for the pointers at the ends of a part,
and `linked_congr`, by which the cells outside of the parts do not matter.
-/

namespace Agoo.LinkedList

variable {ι α : Type*}

structure Cell (ι α : Type*) where
  next : Option ι
  prev : Option ι
  val : α

abbrev Heap (ι α : Type*) := ι → Option (Cell ι α)

/-- The pointers of a cell: to the next one and to the previous one. -/
def links (h : Heap ι α) (a : ι) : Option (Option ι × Option ι) := (h a).map fun c => (c.next, c.prev)

/-- What a cell holds. -/
def val (h : Heap ι α) (a : ι) : Option α := (h a).map Cell.val

/-- From the pointer on, `next` leads over the cells of the list to NULL. -/
def Follows (h : Heap ι α) : Option ι → List ι → Prop
  | p, [] => p = none
  | p, a :: l => p = some a ∧ ∃ c, h a = some c ∧ Follows h c.next l

/-- The cells of the list point at each other; `b` is before the first one and `q` behind the last one. -/
def Linked (h : Heap ι α) : Option ι → List ι → Option ι → Prop
  | _, [], _ => True
  | b, a :: l, q => links h a = some (l.head?.or q, b) ∧ Linked h (some a) l q

theorem links_isSome (h : Heap ι α) (a : ι) : (links h a).isSome = (h a).isSome := Option.isSome_map

theorem val_isSome (h : Heap ι α) (a : ι) : (val h a).isSome = (h a).isSome := Option.isSome_map

/-! ## Lists and their parts -/

variable {h h' : Heap ι α} {a : ι} {b q : Option ι} {l l₁ l₂ : List ι}

theorem linked_append : Linked h b (l₁ ++ l₂) q ↔
    Linked h b l₁ (l₂.head?.or q) ∧ Linked h (l₁.getLast?.or b) l₂ q := by
  induction l₁ generalizing b with
  | nil => simp [Linked]
  | cons a l₁ ih =>
    simp only [List.cons_append, Linked, ih, List.head?_append, Option.or_assoc, List.getLast?_cons,
      Option.or_some, Option.some_or, and_assoc]

/-- Only the pointers of its own cells matter to a list. -/
theorem linked_congr (hsame : ∀ a ∈ l, links h' a = links h a) : Linked h' b l q ↔ Linked h b l q := by
  induction l generalizing b with
  | nil => rfl
  | cons a l ih =>
    obtain ⟨hfirst, hrest⟩ := List.forall_mem_cons.mp hsame
    rw [Linked, Linked, hfirst, ih hrest]

/-- The pointers of a cell in a list. -/
theorem Linked.links_mid (hl : Linked h b (l₁ ++ a :: l₂) q) :
    links h a = some (l₂.head?.or q, l₁.getLast?.or b) := (linked_append.mp hl).2.1

theorem Linked.exists_cell (hl : Linked h b l q) (ha : a ∈ l) : ∃ c, h a = some c := by
  obtain ⟨l₁, l₂, rfl⟩ := List.append_of_mem ha
  obtain ⟨c, hc, -⟩ := Option.map_eq_some_iff.mp hl.links_mid
  exact ⟨c, hc⟩

/-- A loop from the first cell meets the cells of the list. -/
theorem Linked.follows (hl : Linked h b l none) : Follows h l.head? l := by
  induction l generalizing b with
  | nil => rfl
  | cons a l ih =>
    obtain ⟨c, hc, hlinks⟩ := Option.map_eq_some_iff.mp hl.1
    refine ⟨rfl, c, hc, ?_⟩
    rw [show c.next = l.head? from (congrArg Prod.fst hlinks).trans Option.or_none]
    exact ih hl.2

/-- A loop from any cell meets what is left of the list. -/
theorem Linked.follows_suffix (hl : Linked h b l none) (hsuffix : l₂ <:+ l) : Follows h l₂.head? l₂ := by
  obtain ⟨l₁, rfl⟩ := hsuffix
  exact (linked_append.mp hl).2.follows

theorem Follows.congr {p : Option ι} (hl : Follows h p l) (hsame : ∀ a ∈ l, h' a = h a) : Follows h' p l := by
  induction l generalizing p with
  | nil => exact hl
  | cons a l ih =>
    obtain ⟨hp, c, hc, hrest⟩ := hl
    obtain ⟨hfirst, hothers⟩ := List.forall_mem_cons.mp hsame
    exact ⟨hp, c, hfirst.trans hc, ih hrest hothers⟩

theorem Follows.unique {p : Option ι} (hl : Follows h p l) (hl' : Follows h p l₂) : l = l₂ := by
  induction l generalizing p l₂ with
  | nil =>
    cases l₂ with
    | nil => rfl
    | cons a l₂ => rw [show p = none from hl] at hl'; cases hl'.1
  | cons a l ih =>
    obtain ⟨rfl, c, hc, hrest⟩ := hl
    cases l₂ with
    | nil => cases hl'
    | cons a' l₂ =>
      obtain ⟨hsame, c', hc', hrest'⟩ := hl'
      obtain rfl := Option.some.inj hsame
      obtain rfl := Option.some.inj (hc.symm.trans hc')
      rw [ih hrest hrest']

/-! ## The two directions -/

section Whole

variable {p : Option ι × Option ι} {a' : ι} {p' : Option ι × Option ι} (hl : Linked h none l none)

include hl

/-- The previous cell of the next one is the cell itself, and the other way round. -/
theorem Linked.next_iff_prev (ha : a ∈ l) (ha' : a' ∈ l) (hp : links h a = some p) (hp' : links h a' = some p') :
    p.1 = some a' ↔ p'.2 = some a := by
  constructor
  · intro hnext
    obtain ⟨l₁, l₂, rfl⟩ := List.append_of_mem ha
    obtain rfl := Option.some.inj (hp.symm.trans hl.links_mid)
    obtain ⟨l₃, rfl⟩ := List.head?_eq_some_iff.mp (Option.or_none.symm.trans hnext)
    rw [List.append_cons] at hl
    obtain rfl := Option.some.inj (hp'.symm.trans hl.links_mid)
    simp
  · intro hprev
    obtain ⟨l₁, l₂, rfl⟩ := List.append_of_mem ha'
    obtain rfl := Option.some.inj (hp'.symm.trans hl.links_mid)
    obtain ⟨l₃, rfl⟩ := List.getLast?_eq_some_iff.mp (Option.or_none.symm.trans hprev)
    rw [← List.append_cons] at hl
    obtain rfl := Option.some.inj (hp.symm.trans hl.links_mid)
    rfl

/-- The first cell, and no other one, has none before it. -/
theorem Linked.prev_eq_none_iff (hnodup : l.Nodup) (ha : a ∈ l) (hp : links h a = some p) :
    p.2 = none ↔ l.head? = some a := by
  obtain ⟨l₁, l₂, rfl⟩ := List.append_of_mem ha
  obtain rfl := Option.some.inj (hp.symm.trans hl.links_mid)
  cases l₁ with
  | nil => simp
  | cons d l₁ =>
    have hne : d ≠ a := by
      rintro rfl
      simp at hnodup
    simp [List.getLast?_cons, hne]

/-- The pointers of the list do not lead out of it. -/
theorem Linked.closed (ha : a ∈ l) (hp : links h a = some p) (hto : p.1 = some a' ∨ p.2 = some a') : a' ∈ l := by
  obtain ⟨l₁, l₂, rfl⟩ := List.append_of_mem ha
  obtain rfl := Option.some.inj (hp.symm.trans hl.links_mid)
  simp only [Option.or_none] at hto
  rcases hto with hnext | hprev
  · exact List.mem_append_right _ (List.mem_cons_of_mem _ (List.mem_of_head? hnext))
  · exact List.mem_append_left _ (List.mem_of_getLast? hprev)

end Whole

/-! ## What is not changed -/

/-- What the cells hold is not changed, and neither is a cell outside of the list. -/
structure Relinks (l : List ι) (h h' : Heap ι α) : Prop where
  cell : ∀ a ∉ l, h' a = h a
  val : ∀ a, val h' a = val h a

theorem Relinks.refl (l : List ι) (h : Heap ι α) : Relinks l h h := ⟨fun _ _ => rfl, fun _ => rfl⟩

theorem Relinks.trans {k : Heap ι α} (hk : Relinks l₁ h k) (hk' : Relinks l₂ k h') : Relinks (l₁ ++ l₂) h h' where
  cell a ha := by
    rw [List.mem_append, not_or] at ha
    rw [hk'.cell a ha.2, hk.cell a ha.1]
  val a := by rw [hk'.val a, hk.val a]

theorem Relinks.links (hrel : Relinks l h h') (ha : a ∉ l) : links h' a = links h a :=
  congrArg (Option.map _) (hrel.cell a ha)

/-- A list none of whose cells is changed. -/
theorem Relinks.linked (hrel : Relinks l₁ h h') (hapart : ∀ a ∈ l₂, a ∉ l₁) :
    Linked h' b l₂ q ↔ Linked h b l₂ q := linked_congr fun a ha => hrel.links (hapart a ha)

/-! ## Programs -/

variable [DecidableEq ι]

/-- Change a cell. -/
def modify (h : Heap ι α) (a : ι) (f : Cell ι α → Cell ι α) : Option (Heap ι α) :=
  (h a).map fun c => Function.update h a (some (f c))

/-- `a->next = p`. -/
def setNext (h : Heap ι α) (a : ι) (p : Option ι) : Option (Heap ι α) := modify h a fun c => { c with next := p }

/-- `a->prev = p`. -/
def setPrev (h : Heap ι α) (a : ι) (p : Option ι) : Option (Heap ι α) := modify h a fun c => { c with prev := p }

/-- `if (NULL != r) r->prev = p`. -/
def setPrevOf (h : Heap ι α) (r p : Option ι) : Option (Heap ι α) :=
  match r with
  | none => some h
  | some a => setPrev h a p

theorem modify_of_cell {c : Cell ι α} (hc : h a = some c) (f : Cell ι α → Cell ι α) :
    modify h a f = some (Function.update h a (some (f c))) := by
  rw [modify, hc]
  rfl

theorem relinks_update {c d : Cell ι α} (hc : h a = some c) (hval : d.val = c.val) :
    Relinks [a] h (Function.update h a (some d)) where
  cell x hx := Function.update_of_ne (List.mem_singleton.not.mp hx) _ _
  val x := by
    by_cases hx : x = a
    · subst hx
      simp [val, hc, hval]
    · simp [val, Function.update_of_ne hx]

theorem links_update (h : Heap ι α) (a : ι) (d : Cell ι α) :
    links (Function.update h a (some d)) a = some (d.next, d.prev) := by
  rw [links, Function.update_self]
  rfl

/-- What is before a list changes; an empty list has no first cell. -/
theorem Linked.setPrevOf_head (hl : Linked h b l q) (hnodup : l.Nodup) (p : Option ι) :
    ∃ h', setPrevOf h l.head? p = some h' ∧ Linked h' p l q ∧ Relinks l h h' := by
  cases l with
  | nil => exact ⟨h, rfl, trivial, Relinks.refl _ _⟩
  | cons a l =>
    obtain ⟨hfirst, hrest⟩ := hl
    obtain ⟨c, hc, hlinks⟩ := Option.map_eq_some_iff.mp hfirst
    have hnext : c.next = l.head?.or q := congrArg Prod.fst hlinks
    have hrel : Relinks [a] h (Function.update h a (some { c with prev := p })) := relinks_update hc rfl
    have hapart : ∀ x ∈ l, x ∉ [a] := fun x hx hxa =>
      (List.nodup_cons.mp hnodup).1 (List.mem_singleton.mp hxa ▸ hx)
    refine ⟨_, modify_of_cell hc _, ⟨?_, (hrel.linked hapart).mpr hrest⟩, fun x hx => ?_, hrel.val⟩
    · rw [links_update, hnext]
    · exact hrel.cell x fun hxa => hx (List.mem_singleton.mp hxa ▸ List.mem_cons_self)

/-- What is behind a list changes. -/
theorem Linked.setNext_last (hl : Linked h b (l ++ [a]) q) (hnodup : (l ++ [a]).Nodup) (p : Option ι) :
    ∃ h', setNext h a p = some h' ∧ Linked h' b (l ++ [a]) p ∧ Relinks (l ++ [a]) h h' := by
  obtain ⟨hfront, hlast⟩ := linked_append.mp hl
  obtain ⟨c, hc, hlinks⟩ := Option.map_eq_some_iff.mp hlast.1
  have hprev : c.prev = l.getLast?.or b := congrArg Prod.snd hlinks
  have hrel : Relinks [a] h (Function.update h a (some { c with next := p })) := relinks_update hc rfl
  have hapart : ∀ x ∈ l, x ∉ [a] := fun x hx => List.disjoint_of_nodup_append hnodup hx
  refine ⟨_, modify_of_cell hc _, linked_append.mpr ⟨(hrel.linked hapart).mpr hfront, ?_, trivial⟩,
    fun x hx => ?_, hrel.val⟩
  · rw [links_update, hprev]
    rfl
  · exact hrel.cell x fun hxa => hx (List.mem_append_right _ hxa)

/-! ### A cell put in front, a cell taken out -/

/-- `a->prev->next = a->next` and `a->next->prev = a->prev`, where there are such, for the cell `c` at `a`. The
pointer to the first cell is moved on if nothing is before. -/
def unlink (h : Heap ι α) (first : Option ι) (c : Cell ι α) : Option (Heap ι α × Option ι) :=
  match c.prev with
  | none => (setPrevOf h c.next none).map fun h => (h, c.next)
  | some p => do
    let h ← setNext h p c.next
    let h ← setPrevOf h c.next (some p)
    pure (h, first)

/-- **A new cell is put in front.** -/
theorem Linked.push (hl : Linked h none l none) (hnodup : l.Nodup) (ha : a ∉ l) (v : α) :
    ∃ k, setPrevOf (Function.update h a (some ⟨l.head?, none, v⟩)) l.head? (some a) = some k ∧
      Linked k none (a :: l) none ∧ Relinks l (Function.update h a (some ⟨l.head?, none, v⟩)) k := by
  have hother : ∀ x ∈ l, links (Function.update h a (some ⟨l.head?, none, v⟩)) x = links h x := fun x hx => by
    rw [links, Function.update_of_ne (fun hxa : x = a => ha (hxa ▸ hx)), links]
  obtain ⟨k, hk, hlinked, hrel⟩ := ((linked_congr hother).mpr hl).setPrevOf_head hnodup (some a)
  refine ⟨k, hk, ⟨?_, hlinked⟩, hrel⟩
  rw [hrel.links ha, links_update, Option.or_none]

/-- **A cell is taken out.** -/
theorem Linked.unlink {c : Cell ι α} (hl : Linked h none (l₁ ++ a :: l₂) none) (hnodup : (l₁ ++ a :: l₂).Nodup)
    (hc : h a = some c) : ∃ k, LinkedList.unlink h (l₁ ++ a :: l₂).head? c = some (k, (l₁ ++ l₂).head?) ∧
      Linked k none (l₁ ++ l₂) none ∧ Relinks (l₁ ++ l₂) h k := by
  obtain ⟨hfront, hlinks, hback⟩ := linked_append.mp hl
  simp only [links, hc, Option.map_some, Option.or_none, Option.some.injEq, Prod.mk.injEq] at hlinks
  obtain ⟨hnext, hprev⟩ := hlinks
  have hrest : (l₁ ++ l₂).Nodup := hnodup.sublist ((List.sublist_cons_self a l₂).append_left l₁)
  have hdisjoint := List.disjoint_of_nodup_append hrest
  rw [LinkedList.unlink, hprev, hnext]
  rcases List.eq_nil_or_concat l₁ with rfl | ⟨l₀, p, rfl⟩
  · obtain ⟨k, hk, hlinked, hrel⟩ := hback.setPrevOf_head hrest none
    exact ⟨k, by simp [hk], hlinked, hrel⟩
  · rw [List.concat_eq_append] at hfront hrest hdisjoint ⊢
    have hsplit := List.nodup_append.mp hrest
    obtain ⟨k, hk, hbefore, hrel⟩ := hfront.setNext_last hsplit.1 l₂.head?
    have hbehind := (hrel.linked (q := none) fun a ha ha' => hdisjoint ha' ha).mpr hback
    obtain ⟨k', hk', hbehind', hrel'⟩ := hbehind.setPrevOf_head hsplit.2.1 (some p)
    have hbefore' := (hrel'.linked (b := none) fun a ha ha' => hdisjoint ha ha').mpr hbefore
    refine ⟨k', ?_, linked_append.mpr ⟨?_, ?_⟩, hrel.trans hrel'⟩
    · simp [hk, hk']
    · rwa [Option.or_none]
    · rwa [List.getLast?_concat]

/-! ### All of a memory -/

/-- The memory holds the cells of the list, linked in its order, and no others. -/
structure Stores (h : Heap ι α) (l : List (ι × α)) : Prop where
  linked : Linked h none (l.map Prod.fst) none
  nodup : (l.map Prod.fst).Nodup
  holds : ∀ e ∈ l, val h e.1 = some e.2
  empty : ∀ a ∉ l.map Prod.fst, h a = none

namespace Stores

variable {m m₁ m₂ : List (ι × α)} {v v' : α}

omit [DecidableEq ι] in
theorem nil (h : Heap ι α) (hh : ∀ a, h a = none) : Stores h [] :=
  ⟨trivial, List.nodup_nil, nofun, fun a _ => hh a⟩

omit [DecidableEq ι] in
theorem exists_cell (hm : Stores h m) {e : ι × α} (he : e ∈ m) : ∃ c, h e.1 = some c ∧ c.val = e.2 :=
  Option.map_eq_some_iff.mp (hm.holds e he)

omit [DecidableEq ι] in
/-- A memory stores one list. -/
theorem unique {m' : List (ι × α)} (hm : Stores h m) (hm' : Stores h m')
    (hfirst : (m.map Prod.fst).head? = (m'.map Prod.fst).head?) : m = m' := by
  have hmap : m.map Prod.fst = m'.map Prod.fst := hm.linked.follows.unique (hfirst ▸ hm'.linked.follows)
  refine List.ext_getElem ?_ fun i hi hi' => ?_
  · rw [← List.length_map (f := Prod.fst), hmap, List.length_map]
  · have haddress : m[i].1 = m'[i].1 := by
      rw [← List.getElem_map Prod.fst (h := by rwa [List.length_map]), ← List.getElem_map Prod.fst
        (h := by rwa [List.length_map])]
      simp only [hmap]
    have hheld := hm.holds m[i] (List.getElem_mem hi)
    rw [haddress, hm'.holds m'[i] (List.getElem_mem hi')] at hheld
    exact Prod.ext haddress (Option.some.inj hheld).symm

omit [DecidableEq ι] in
/-- The cell at the front of what is left of a list, and where it leads. -/
theorem cell_suffix (hm : Stores h m) {e : ι × α} (hsuffix : e :: m₂ <:+ m) :
    ∃ c, h e.1 = some c ∧ c.val = e.2 ∧ c.next = (m₂.map Prod.fst).head? := by
  obtain ⟨c, hc, hval⟩ := hm.exists_cell (hsuffix.subset List.mem_cons_self)
  obtain ⟨-, c', hc', hrest⟩ := hm.linked.follows_suffix (hsuffix.map Prod.fst)
  obtain rfl := Option.some.inj (hc.symm.trans hc')
  refine ⟨c, hc, hval, ?_⟩
  cases hm₂ : m₂ with
  | nil =>
    rw [hm₂] at hrest
    exact hrest
  | cons d m₂ =>
    rw [hm₂] at hrest
    exact hrest.1

omit [DecidableEq ι] in
/-- The parts of a list have different addresses. -/
theorem apart (hm : Stores h (m₁ ++ (a, v) :: m₂)) : a ∉ (m₁ ++ m₂).map Prod.fst := by
  have hnodup := hm.nodup
  rw [List.map_append, List.map_cons] at hnodup
  rw [List.map_append]
  exact (List.nodup_cons.mp (List.nodup_middle.mp hnodup)).1

theorem push (hm : Stores h m) (ha : a ∉ m.map Prod.fst) (v : α) :
    ∃ k, setPrevOf (Function.update h a (some ⟨(m.map Prod.fst).head?, none, v⟩)) (m.map Prod.fst).head? (some a) =
      some k ∧ Stores k ((a, v) :: m) := by
  obtain ⟨k, hk, hlinked, hrel⟩ := hm.linked.push hm.nodup ha v
  refine ⟨k, hk, hlinked, List.nodup_cons.mpr ⟨ha, hm.nodup⟩, fun e he => (hrel.val e.1).trans ?_, fun x hx => ?_⟩
  · rcases List.mem_cons.mp he with rfl | he
    · rw [val, Function.update_self]
      rfl
    · have hne : e.1 ≠ a := fun hea => ha (hea ▸ List.mem_map_of_mem he)
      rw [val, Function.update_of_ne hne]
      exact hm.holds e he
  · rw [List.map_cons, List.mem_cons, not_or] at hx
    rw [hrel.cell x hx.2, Function.update_of_ne hx.1, hm.empty x hx.2]

/-- A cell is taken out and freed. -/
theorem free (hm : Stores h (m₁ ++ (a, v) :: m₂)) {c : Cell ι α} (hc : h a = some c) :
    ∃ k, LinkedList.unlink h ((m₁ ++ (a, v) :: m₂).map Prod.fst).head? c =
      some (k, ((m₁ ++ m₂).map Prod.fst).head?) ∧ Stores (Function.update k a none) (m₁ ++ m₂) := by
  have hgone := hm.apart
  have hlinked := hm.linked
  have hnodup := hm.nodup
  rw [List.map_append, List.map_cons] at hlinked hnodup
  rw [List.map_append, List.map_cons]
  obtain ⟨k, hk, hlinked', hrel⟩ := hlinked.unlink hnodup hc
  have hsame : ∀ x ∈ (m₁ ++ m₂).map Prod.fst, Function.update k a none x = k x := fun x hx =>
    Function.update_of_ne (fun hxa : x = a => hgone (hxa ▸ hx)) ..
  rw [← List.map_append] at hk hlinked' hrel
  refine ⟨k, hk, ?_, ?_, fun e he => ?_, fun x hx => ?_⟩
  · exact (linked_congr fun x hx => by rw [links, hsame x hx, links]).mpr hlinked'
  · rw [List.map_append]
    exact hnodup.sublist ((List.sublist_cons_self _ _).append_left _)
  · rw [val, hsame e.1 (List.mem_map_of_mem he)]
    exact (hrel.val e.1).trans (hm.holds e (((List.sublist_cons_self _ _).append_left _).subset he))
  · by_cases hxa : x = a
    · rw [hxa, Function.update_self]
    · rw [Function.update_of_ne hxa]
      refine (hrel.cell x hx).trans (hm.empty x ?_)
      rw [List.map_append, List.mem_append, not_or] at hx
      rw [List.map_append, List.map_cons, List.mem_append, List.mem_cons]
      rintro (hx' | hx' | hx')
      · exact hx.1 hx'
      · exact hxa hx'
      · exact hx.2 hx'

/-- What a cell holds is changed. -/
theorem setVal (hm : Stores h (m₁ ++ (a, v) :: m₂)) {c : Cell ι α} (hc : h a = some c) (v' : α) :
    Stores (Function.update h a (some { c with val := v' })) (m₁ ++ (a, v') :: m₂) := by
  have hgone := hm.apart
  have hmap : (m₁ ++ (a, v') :: m₂).map Prod.fst = (m₁ ++ (a, v) :: m₂).map Prod.fst := by
    rw [List.map_append, List.map_append, List.map_cons, List.map_cons]
  refine ⟨?_, ?_, fun e he => ?_, fun x hx => ?_⟩
  · rw [hmap]
    refine (linked_congr fun x _ => ?_).mpr hm.linked
    by_cases hxa : x = a
    · rw [hxa, links_update, links, hc]
      rfl
    · rw [links, Function.update_of_ne hxa, links]
  · rw [hmap]
    exact hm.nodup
  · by_cases hea : e = (a, v')
    · rw [hea, val, Function.update_self]
      rfl
    · have he' : e ∈ m₁ ++ m₂ := by
        rcases List.mem_append.mp he with he | he
        · exact List.mem_append_left _ he
        · exact List.mem_append_right _ ((List.mem_cons.mp he).resolve_left hea)
      have hne : e.1 ≠ a := fun hea => hgone (hea ▸ List.mem_map_of_mem he')
      rw [val, Function.update_of_ne hne]
      exact hm.holds e (((List.sublist_cons_self _ _).append_left _).subset he')
  · rw [hmap] at hx
    have hne : x ≠ a := fun hxa => hx (by rw [hxa, List.map_append, List.map_cons]; simp)
    rw [Function.update_of_ne hne, hm.empty x hx]

end Stores

end Agoo.LinkedList
