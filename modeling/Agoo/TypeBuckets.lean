import Agoo.PageCache
import Agoo.Runs
import Agoo.TypeTable
import Mathlib.Data.List.Nodup

/-!
# The buckets of the type registry (`graphql.c`)

`gql_type_set` and `type_remove` work on chains of slots, found by the hash of a name and then by the name itself,
which is read from the type. `registry_iff`: when a run of calls keeps the registry a map from names to types.
-/

namespace Agoo

namespace TypeBuckets

/-! ## The code -/

/-- `struct _slot`; types are numbered. -/
structure Slot where
  type : ℕ
  hash : UInt64
  deriving DecidableEq, Repr

/-- `get_bucketp`. -/
def bucketOf (h : UInt64) : Fin 64 := ⟨(63 &&& mixHash h).toNat, mask_lt _ _ (by decide)⟩

/-- The buckets, and the types that `gql_type_set` destroyed. -/
structure Registry where
  buckets : Fin 64 → List Slot
  freed : List ℕ

/-- What becomes of a call. A type that was destroyed must not be read. -/
inductive Result
  | ok
  | error
  | fault
  deriving DecidableEq, Repr

variable (names : ℕ → Bytes) (static : ℕ → Bool)

/-- The search in a chain; without a value, it reads a destroyed type. -/
def scan (freed : List ℕ) (h : UInt64) (name : Bytes) : List Slot → Option (Option Slot)
  | [] => some none
  | s :: ss =>
    if h = s.hash then
      if s.type ∈ freed then none
      else if names s.type = name then some (some s)
      else scan freed h name ss
    else scan freed h name ss

/-- `gql_type_get`; without a value, it reads a destroyed type. -/
def typeGet (r : Registry) (name : Bytes) : Option (Option ℕ) :=
  let h := TypeTable.calcHash name
  if h = 0 then some none
  else (scan names r.freed h name (r.buckets (bucketOf h))).map fun found => found.map (·.type)

/-- The slot of the name, in its chain. -/
def isSlot (name : Bytes) (s : Slot) : Bool := s.hash == TypeTable.calcHash name && names s.type == name

/-- The chain of the name of a type, with that type in the slot of the name or in a new one. -/
def putSlot (t : ℕ) (chain : List Slot) : List Slot :=
  Chain.put (isSlot names (names t)) (fun s => { s with type := t }) ⟨t, TypeTable.calcHash (names t)⟩ chain

/-- `gql_type_set`. The type that is replaced is destroyed, unless it is one of `gqlvalue.c`. -/
def typeSet (r : Registry) (t : ℕ) : Result × Registry :=
  if t ∈ r.freed then (.fault, r)
  else
    let name := names t
    let h := TypeTable.calcHash name
    if h = 0 then (.error, r)
    else
      let b := bucketOf h
      match scan names r.freed h name (r.buckets b) with
      | none => (.fault, r)
      | some found =>
        let freed := match found with
          | none => r.freed
          | some s => if static s.type then r.freed else s.type :: r.freed
        (.ok, ⟨Function.update r.buckets b (putSlot names t (r.buckets b)), freed⟩)

/-- `type_remove`. -/
def typeRemove (r : Registry) (t : ℕ) : Result × Registry :=
  if t ∈ r.freed then (.fault, r)
  else
    let name := names t
    let h := TypeTable.calcHash name
    if h = 0 then (.ok, r)
    else
      let b := bucketOf h
      match scan names r.freed h name (r.buckets b) with
      | none => (.fault, r)
      | some _ =>
        let chain := Chain.removeFirst (isSlot names name) (r.buckets b)
        (.ok, { r with buckets := Function.update r.buckets b chain })

inductive Call
  | set (t : ℕ)
  | remove (t : ℕ)
  deriving DecidableEq, Repr

/-! ## What the registry is for -/

/-- A map from names to types. -/
abbrev NameMap := Bytes → Option ℕ

def Call.onMap (m : NameMap) : Call → NameMap
  | .set t => Function.update m (names t) (some t)
  | .remove t => Function.update m (names t) none

/-- The registry, the map that it should be, and whether each call so far succeeded. -/
structure State where
  registry : Registry
  map : NameMap
  fine : Bool

def start : State := ⟨⟨fun _ => [], []⟩, fun _ => none, true⟩

/-- One call. -/
def step (s : State) (c : Call) : Option State :=
  let r := match c with
    | .set t => typeSet names static s.registry t
    | .remove t => typeRemove names s.registry t
  some ⟨r.2, c.onMap names s.map, s.fine && r.1 == .ok⟩

/-- Each call succeeded, and a lookup gives what the map has. -/
def Right (s : State) : Prop := s.fine = true ∧ ∀ name, typeGet names s.registry name = some (s.map name)

/-- The type was not destroyed; a set is not of a name with hash 0, and not of the very type that is there, except
that those of `gqlvalue.c` may be set again. -/
def Careful (s : State) : Call → Prop
  | .set t => t ∉ s.registry.freed ∧ TypeTable.calcHash (names t) ≠ 0 ∧
      (s.map (names t) = some t → static t = true)
  | .remove t => t ∉ s.registry.freed

/-! ## Chains -/

variable {names : ℕ → Bytes} {static : ℕ → Bool} {freed : List ℕ} {name : Bytes} {chain : List Slot} {s : Slot}
  {t : ℕ}

/-- A slot in its place. -/
structure Slot.Placed (names : ℕ → Bytes) (freed : List ℕ) (b : Fin 64) (s : Slot) : Prop where
  live : s.type ∉ freed
  hash : s.hash = TypeTable.calcHash (names s.type)
  nonzero : s.hash ≠ 0
  bucket : bucketOf s.hash = b

theorem isSlot_iff {b : Fin 64} (hs : s.Placed names freed b) :
    isSlot names name s = true ↔ names s.type = name := by
  unfold isSlot
  rw [Bool.and_eq_true, beq_iff_eq, beq_iff_eq, hs.hash]
  exact and_iff_right_of_imp fun h => h ▸ rfl

/-- In a chain of placed slots the search reads live types only. -/
theorem scan_eq (name : Bytes) {b : Fin 64} (h : ∀ s ∈ chain, s.Placed names freed b) :
    scan names freed (TypeTable.calcHash name) name chain = some (chain.find? (isSlot names name)) := by
  induction chain with
  | nil => rfl
  | cons s ss ih =>
    obtain ⟨hs, hss⟩ := List.forall_mem_cons.mp h
    unfold scan
    rw [if_neg hs.live, ih hss]
    by_cases hname : names s.type = name
    · rw [if_pos (by rw [hs.hash, hname]), if_pos hname, List.find?_cons_of_pos ((isSlot_iff hs).mpr hname)]
    · rw [if_neg hname, ite_self, List.find?_cons_of_neg fun h => hname ((isSlot_iff hs).mp h)]

/-- With distinct names a name has one slot. -/
theorem find_isSlot {b : Fin 64} (h : ∀ s ∈ chain, s.Placed names freed b)
    (hdistinct : (chain.map fun s => names s.type).Nodup) (hs : s ∈ chain) :
    chain.find? (isSlot names (names s.type)) = some s := by
  obtain ⟨e, he⟩ := Option.isSome_iff_exists.mp
    (List.find?_isSome.mpr ⟨s, hs, (isSlot_iff (h s hs)).mpr rfl⟩)
  have hmem := List.mem_of_find?_eq_some he
  have hname := (isSlot_iff (h e hmem)).mp (List.find?_some he)
  rw [he, List.inj_on_of_nodup_map hdistinct hmem hs hname]

theorem Slot.Placed.other {b : Fin 64} {u : ℕ} (hs : s.Placed names freed b) (hu : s.type ≠ u) :
    s.Placed names (u :: freed) b :=
  ⟨fun hmem => (List.mem_cons.mp hmem).elim hu hs.live, hs.hash, hs.nonzero, hs.bucket⟩

/-! ## The invariant -/

/-- The slots are placed, their names are distinct, and they are the map. -/
structure Inv (names : ℕ → Bytes) (s : State) : Prop where
  placed : ∀ b, ∀ e ∈ s.registry.buckets b, e.Placed names s.registry.freed b
  distinct : ∀ b, ((s.registry.buckets b).map fun e => names e.type).Nodup
  map : ∀ name, s.map name =
    ((s.registry.buckets (bucketOf (TypeTable.calcHash name))).find? (isSlot names name)).map (·.type)
  fine : s.fine = true

theorem inv_start : Inv names start where
  placed _ _ h := absurd h List.not_mem_nil
  distinct _ := List.nodup_nil
  map _ := rfl
  fine := rfl

theorem Inv.map_zero {s : State} (h : Inv names s) (hzero : TypeTable.calcHash name = 0) : s.map name = none := by
  have hnone : (s.registry.buckets (bucketOf (TypeTable.calcHash name))).find? (isSlot names name) = none := by
    refine List.find?_eq_none.mpr fun e he hslot => ?_
    have hplaced := h.placed _ e he
    exact hplaced.nonzero (by rw [hplaced.hash, (isSlot_iff hplaced).mp hslot, hzero])
  rw [h.map name, hnone]
  rfl

theorem Inv.right {s : State} (h : Inv names s) : Right names s := by
  refine ⟨h.fine, fun name => ?_⟩
  unfold typeGet
  dsimp only
  by_cases hzero : TypeTable.calcHash name = 0
  · rw [if_pos hzero, h.map_zero hzero]
  · rw [if_neg hzero, scan_eq _ (h.placed _), h.map name]
    rfl

/-! ## The steps -/

theorem isSlot_other {name' : Bytes} (hne : name' ≠ name) {e : Slot} (he : isSlot names name e) :
    isSlot names name' e = false := by
  unfold isSlot at he ⊢
  rw [Bool.and_eq_true, beq_iff_eq, beq_iff_eq] at he
  rw [he.2, Bool.and_eq_false_iff]
  exact .inr (beq_eq_false_iff_ne.mpr hne.symm)

/-- The names of a chain stay distinct when a name is stored. -/
theorem distinct_put {b : Fin 64} (h : ∀ s ∈ chain, s.Placed names freed b)
    (hdistinct : (chain.map fun e => names e.type).Nodup) :
    ((putSlot names t chain).map fun e => names e.type).Nodup := by
  unfold putSlot
  rw [Chain.map_put]
  · split_ifs with hfound
    · exact hdistinct
    · refine List.nodup_cons.mpr ⟨fun hmem => hfound ?_, hdistinct⟩
      obtain ⟨e, he, hname⟩ := List.mem_map.mp hmem
      exact List.find?_isSome.mpr ⟨e, he, (isSlot_iff (h e he)).mpr hname⟩
  · intro e he
    unfold isSlot at he
    rw [Bool.and_eq_true, beq_iff_eq, beq_iff_eq] at he
    exact he.2.symm

/-- A removed name is found no more. -/
theorem find_removeFirst_self {b : Fin 64} (h : ∀ s ∈ chain, s.Placed names freed b)
    (hdistinct : (chain.map fun e => names e.type).Nodup) :
    (Chain.removeFirst (isSlot names name) chain).find? (isSlot names name) = none := by
  induction chain with
  | nil => rfl
  | cons e es ih =>
    obtain ⟨he, hes⟩ := List.forall_mem_cons.mp h
    obtain ⟨hnot, hdistinct⟩ := List.nodup_cons.mp hdistinct
    unfold Chain.removeFirst
    by_cases hslot : isSlot names name e = true
    · rw [if_pos hslot]
      refine List.find?_eq_none.mpr fun d hd hother => hnot ?_
      have hname : names e.type = names d.type :=
        ((isSlot_iff he).mp hslot).trans ((isSlot_iff (hes d hd)).mp hother).symm
      exact List.mem_map.mpr ⟨d, hd, hname.symm⟩
    · rw [if_neg hslot, List.find?_cons_of_neg hslot, ih hes hdistinct]

/-- What a store leaves is placed. -/
theorem placed_put {b : Fin 64} (h : ∀ s ∈ chain, s.Placed names freed b) (hlive : t ∉ freed)
    (hzero : TypeTable.calcHash (names t) ≠ 0) (hb : bucketOf (TypeTable.calcHash (names t)) = b) :
    ∀ e ∈ putSlot names t chain, e.Placed names freed b := by
  intro e he
  rcases Chain.mem_put he with rfl | he | ⟨d, hd, hslot, rfl⟩
  · exact ⟨hlive, rfl, hzero, hb⟩
  · exact h e he
  · have hplaced := h d hd
    have hname := (isSlot_iff hplaced).mp hslot
    exact ⟨hlive, hplaced.hash.trans (by rw [hname]), hplaced.nonzero, hplaced.bucket⟩

/-- A lookup after a store. -/
theorem find_put (names : ℕ → Bytes) (t : ℕ) (chain : List Slot) (name' : Bytes) :
    ((putSlot names t chain).find? (isSlot names name')).map (·.type) =
      if name' = names t then some t else (chain.find? (isSlot names name')).map (·.type) := by
  have hupd : ∀ e : Slot, isSlot names (names t) e → isSlot names (names t) { e with type := t } := by
    intro e he
    unfold isSlot at he ⊢
    rw [Bool.and_eq_true] at he ⊢
    exact ⟨he.1, beq_self_eq_true _⟩
  have hnew : isSlot names (names t) ⟨t, TypeTable.calcHash (names t)⟩ = true := by
    unfold isSlot
    rw [beq_self_eq_true, beq_self_eq_true]
    rfl
  unfold putSlot
  split_ifs with hname
  · rw [hname, Chain.find_put_self hnew hupd]
    cases chain.find? (isSlot names (names t)) <;> rfl
  · rw [Chain.find_put_other (fun e he => isSlot_other hname he) (fun e he => isSlot_other hname (hupd e he))
      (isSlot_other hname hnew)]

theorem Inv.set {s : State} (h : Inv names s) (hlive : t ∉ s.registry.freed)
    (hzero : TypeTable.calcHash (names t) ≠ 0) (hself : s.map (names t) = some t → static t = true) :
    ∃ r, typeSet names static s.registry t = (.ok, r) ∧
      Inv names ⟨r, Function.update s.map (names t) (some t), true⟩ := by
  have hscan := scan_eq (names t) (h.placed (bucketOf (TypeTable.calcHash (names t))))
  have hmap := h.map (names t)
  have hput := placed_put (h.placed _) hlive hzero rfl
  have hdistinct := distinct_put (t := t) (h.placed _) (h.distinct (bucketOf (TypeTable.calcHash (names t))))
  have hplaced : ∀ b, ∀ e ∈ Function.update s.registry.buckets (bucketOf (TypeTable.calcHash (names t)))
      (putSlot names t (s.registry.buckets (bucketOf (TypeTable.calcHash (names t))))) b,
      e.Placed names s.registry.freed b := by
    intro b e he
    by_cases hb : b = bucketOf (TypeTable.calcHash (names t))
    · subst hb
      rw [Function.update_self] at he
      exact hput e he
    · rw [Function.update_of_ne hb] at he
      exact h.placed b e he
  unfold typeSet
  rw [if_neg hlive]
  dsimp only
  rw [if_neg hzero, hscan]
  refine ⟨_, rfl, ?_, ?_, ?_, rfl⟩
  · intro b e he
    dsimp only at he ⊢
    have hfreed := hplaced b e he
    generalize hfound :
      (s.registry.buckets (bucketOf (TypeTable.calcHash (names t)))).find? (isSlot names (names t)) = found
    cases found with
    | none => exact hfreed
    | some old =>
      by_cases hstatic : static old.type = true
      · simp only [hstatic, if_true]
        exact hfreed
      · simp only [hstatic]
        refine hfreed.other fun htype => ?_
        -- the slot of the name has the new type, which is not the old one
        have hold := (isSlot_iff (h.placed _ old (List.mem_of_find?_eq_some hfound))).mp (List.find?_some hfound)
        have hname : names e.type = names t := by rw [htype, hold]
        have hb : bucketOf (TypeTable.calcHash (names t)) = b := by rw [← hname, ← hfreed.hash, hfreed.bucket]
        subst hb
        rw [Function.update_self] at he
        have hfind := find_put names t
          (s.registry.buckets (bucketOf (TypeTable.calcHash (names t)))) (names t)
        have hthis := find_isSlot hput hdistinct he
        rw [hname] at hthis
        rw [if_pos rfl, hthis] at hfind
        rw [hfound] at hmap
        have hsame : e.type = t := Option.some.inj hfind
        exact hstatic (htype ▸ hsame ▸ hself (hmap.trans (congrArg some (htype.symm.trans hsame))))
  · intro b
    dsimp only
    by_cases hb : b = bucketOf (TypeTable.calcHash (names t))
    · subst hb
      rw [Function.update_self]
      exact hdistinct
    · rw [Function.update_of_ne hb]
      exact h.distinct b
  · intro name'
    dsimp only
    by_cases hb : bucketOf (TypeTable.calcHash name') = bucketOf (TypeTable.calcHash (names t))
    · rw [hb, Function.update_self, find_put, Function.update_apply, h.map name', hb]
    · rw [Function.update_of_ne hb, Function.update_of_ne (fun hname => hb (by rw [hname])), h.map name']

theorem Inv.remove {s : State} (h : Inv names s) (hlive : t ∉ s.registry.freed) :
    ∃ r, typeRemove names s.registry t = (.ok, r) ∧
      Inv names ⟨r, Function.update s.map (names t) none, true⟩ := by
  have hscan := scan_eq (names t) (h.placed (bucketOf (TypeTable.calcHash (names t))))
  have hmap := h.map (names t)
  unfold typeRemove
  rw [if_neg hlive]
  dsimp only
  by_cases hzero : TypeTable.calcHash (names t) = 0
  · rw [if_pos hzero]
    refine ⟨_, rfl, h.placed, h.distinct, ?_, rfl⟩
    rw [← h.map_zero hzero, Function.update_eq_self]
    exact h.map
  · rw [if_neg hzero, hscan]
    refine ⟨_, rfl, ?_, ?_, ?_, rfl⟩
    · intro b e he
      dsimp only at he
      by_cases hb : b = bucketOf (TypeTable.calcHash (names t))
      · subst hb
        rw [Function.update_self] at he
        exact h.placed _ e ((Chain.removeFirst_sublist _).subset he)
      · rw [Function.update_of_ne hb] at he
        exact h.placed b e he
    · intro b
      dsimp only
      by_cases hb : b = bucketOf (TypeTable.calcHash (names t))
      · subst hb
        rw [Function.update_self]
        exact (h.distinct _).sublist ((Chain.removeFirst_sublist _).map _)
      · rw [Function.update_of_ne hb]
        exact h.distinct b
    · intro name'
      dsimp only
      by_cases hname : name' = names t
      · subst hname
        rw [Function.update_self, Function.update_self, find_removeFirst_self (h.placed _) (h.distinct _)]
        rfl
      · rw [Function.update_of_ne hname, h.map name']
        by_cases hb : bucketOf (TypeTable.calcHash name') = bucketOf (TypeTable.calcHash (names t))
        · rw [hb, Function.update_self, Chain.find_removeFirst_other fun e he => isSlot_other hname he]
        · rw [Function.update_of_ne hb]

/-- A search that comes to a destroyed type. -/
theorem scan_fault {h : UInt64} (hname : ∀ s ∈ chain, names s.type = name → s.type ∈ freed)
    (hs : ∃ s ∈ chain, s.hash = h ∧ s.type ∈ freed) : scan names freed h name chain = none := by
  induction chain with
  | nil =>
    obtain ⟨s, hs, -⟩ := hs
    exact absurd hs List.not_mem_nil
  | cons e es ih =>
    obtain ⟨he, hes⟩ := List.forall_mem_cons.mp hname
    unfold scan
    by_cases hhash : h = e.hash
    · rw [if_pos hhash]
      by_cases hfreed : e.type ∈ freed
      · rw [if_pos hfreed]
      · obtain ⟨s, hs, hsame, hdead⟩ := hs
        rcases List.mem_cons.mp hs with rfl | hs
        · exact absurd hdead hfreed
        · rw [if_neg hfreed, if_neg fun hn => hfreed (he hn)]
          exact ih hes ⟨s, hs, hsame, hdead⟩
    · rw [if_neg hhash]
      obtain ⟨s, hs, hsame, hdead⟩ := hs
      rcases List.mem_cons.mp hs with rfl | hs
      · exact absurd hsame.symm hhash
      · exact ih hes ⟨s, hs, hsame, hdead⟩

/-- A type that is set where it is already is destroyed, and is found. -/
theorem Inv.set_same {s : State} (h : Inv names s) (hlive : t ∉ s.registry.freed)
    (hzero : TypeTable.calcHash (names t) ≠ 0) (hself : s.map (names t) = some t) (hstatic : static t = false) :
    typeGet names (typeSet names static s.registry t).2 (names t) = none := by
  have hscan := scan_eq (names t) (h.placed (bucketOf (TypeTable.calcHash (names t))))
  have hmap := h.map (names t)
  have hput := placed_put (h.placed _) hlive hzero rfl
  have hdistinct := distinct_put (t := t) (h.placed _) (h.distinct (bucketOf (TypeTable.calcHash (names t))))
  have hfind := find_put names t
    (s.registry.buckets (bucketOf (TypeTable.calcHash (names t)))) (names t)
  rw [if_pos rfl] at hfind
  rw [hself] at hmap
  obtain ⟨old, hold, htype⟩ := Option.map_eq_some_iff.mp hmap.symm
  obtain ⟨new, hnew, hnewt⟩ := Option.map_eq_some_iff.mp hfind
  unfold typeSet
  rw [if_neg hlive]
  dsimp only
  rw [if_neg hzero, hscan]
  unfold typeGet
  dsimp only
  rw [if_neg hzero, Function.update_self, hold]
  simp only [htype, hstatic]
  rw [scan_fault]
  · rfl
  · intro e he hname
    have hthis := find_isSlot hput hdistinct he
    rw [hname, hnew] at hthis
    have hsame : new = e := Option.some.inj hthis
    exact hsame ▸ hnewt ▸ List.mem_cons_self
  · have hmem := List.mem_of_find?_eq_some hnew
    refine ⟨new, hmem, ?_, hnewt ▸ List.mem_cons_self⟩
    rw [(hput new hmem).hash, hnewt]

/-! ## Runs -/

theorem Inv.keeps {s s' : State} {c : Call} (h : Inv names s) (hc : Careful names static s c)
    (hstep : step names static s c = some s') : Inv names s' := by
  obtain rfl := Option.some.inj hstep
  cases c with
  | set t =>
    obtain ⟨hlive, hzero, hself⟩ := hc
    obtain ⟨r, hr, hinv⟩ := h.set hlive hzero hself
    simp only [hr, h.fine]
    exact hinv
  | remove t =>
    obtain ⟨r, hr, hinv⟩ := h.remove hc
    simp only [hr, h.fine]
    exact hinv

theorem Inv.wrong {s s' : State} {c : Call} (h : Inv names s) (hc : ¬ Careful names static s c)
    (hstep : step names static s c = some s') : ¬ Right names s' := by
  obtain rfl := Option.some.inj hstep
  rintro ⟨hfine, hget⟩
  cases c with
  | set t =>
    dsimp only at hfine hget
    by_cases hlive : t ∈ s.registry.freed
    · simp [typeSet, hlive] at hfine
    · by_cases hzero : TypeTable.calcHash (names t) = 0
      · simp [typeSet, hlive, hzero] at hfine
      · have hself : ¬ (s.map (names t) = some t → static t = true) := fun hself => hc ⟨hlive, hzero, hself⟩
        rw [Classical.not_imp, Bool.not_eq_true] at hself
        have hnone := h.set_same hlive hzero hself.1 hself.2
        rw [hget] at hnone
        cases hnone
  | remove t =>
    have hlive : t ∈ s.registry.freed := not_not.mp hc
    simp [typeRemove, hlive] at hfine

/-- **The registry is a map from names to types exactly in the runs whose calls are careful.** -/
theorem registry_iff (names : ℕ → Bytes) (static : ℕ → Bool) (calls : List Call) :
    Always (step names static) (Right names) start calls ↔
      Along (step names static) (Careful names static) start calls :=
  always_iff_along (Inv names) (fun _ _ _ h _ hc hstep => h.keeps hc hstep) (fun _ h => h.right)
    (fun _ _ _ h _ hc hstep => h.wrong hc hstep) inv_start (along_true start calls)

/-- `ILRGMMFWREF59` has the hash 0 and is refused, and a type that is set twice is destroyed. -/
theorem registry_breaks :
    ¬ Always (step (fun _ => bytes "ILRGMMFWREF59") fun _ => false) (Right fun _ => bytes "ILRGMMFWREF59") start
      [.set 0] ∧
    ¬ Always (step (fun _ => bytes "A") fun _ => false) (Right fun _ => bytes "A") start [.set 0, .set 0] := by
  constructor
  · intro h
    exact absurd ((always_cons rfl).mp h).2.1 (by decide)
  · intro h
    have hlast := ((always_cons rfl).mp ((always_cons rfl).mp h).2).2.2 (bytes "A")
    exact absurd hlast (by decide)

end TypeBuckets

end Agoo
