import Agoo.LinkedList
import Agoo.Publish

/-!
# The list of upgraded connections (`server.c`, `upgraded.c`, `con.c`)

`agoo_server.up_list` is linked in both directions. `agoo_server_add_upgraded` and the two releases change it
behind `up_lock`, so each of them is one step; the loops of `publish_pub` and `unsubscribe_pub` go over it
without the lock, so each round of them is a step. Memory that was freed can be given out again.

`Listed` is the invariant, with the list of the live connections; each step has a rule that says what it does to
that list. `Listed.wellFormed`: the list is well formed.
-/

namespace Agoo

namespace UpList

open Publish LinkedList

/-! ## The code -/

/-- What a con loop is doing with a publication. `up` is the variable of the loop in `publish_pub` or
`unsubscribe_pub`. The rest is not in the code: `seen` are the connections that had a round, and `due` those
that were live when the publication was taken and since. -/
structure Walk where
  pub : Pub
  up : Option ℕ
  seen : List ℕ
  due : ℕ → Bool

/-- A connection is not live any more. -/
def Walk.forget (w : Walk) (u : ℕ) : Walk := { w with due := Function.update w.due u false }

/-- The state of all threads. `creating` are the upgraded connections inside of `rupgraded_create` that are not
added yet; `loop` tells the loop of a connection and `conUp` its `up`; `working` is what each con loop is at, and
`sent` the responses appended to each connection. -/
structure State where
  heap : Heap ℕ Upgraded
  upList : Option ℕ
  creating : List ℕ
  loop : ℕ → ℕ
  conUp : ℕ → Option ℕ
  working : ℕ → Option Walk
  sent : ℕ → List Sent

namespace State

variable (s : State)

/-- Added and not destroyed. -/
def live (u : ℕ) : Bool := (s.heap u).isSome && decide (u ∉ s.creating)

/-- Change what is not a link. -/
def modify (u : ℕ) (f : Upgraded → Upgraded) : Option State :=
  (LinkedList.modify s.heap u fun c => { c with val := f c.val }).map fun heap => { s with heap := heap }

/-- `agoo_upgraded_create`, when `calloc` gives `u`: the links are NULL. -/
def create (u c : ℕ) (h : Handler) : Option State :=
  if (s.heap u).isSome then none
  else some { s with
    heap := Function.update s.heap u (some ⟨none, none, upgradedCreate c h⟩)
    creating := u :: s.creating }

/-- The first statement of `agoo_server_add_upgraded`. -/
def beforeFirst (u : ℕ) : Option (Heap ℕ Upgraded) :=
  match s.upList with
  | none => setNext s.heap u none
  | some first => setPrev s.heap first (some u)

/-- `agoo_server_add_upgraded`. -/
def addUpgraded (u : ℕ) : Option State := do
  let heap ← s.beforeFirst u
  let heap ← setNext heap u s.upList
  let up ← heap u
  let c ← up.val.con
  pure { s with
    heap := heap
    upList := some u
    creating := s.creating.erase u
    conUp := Function.update s.conUp c (some u) }

def forget (u : ℕ) (i : ℕ) : Option Walk := (s.working i).map fun w => w.forget u

/-- The links that `destroy` changes, and `up_list`. -/
def unlink (up : Cell ℕ Upgraded) : Option (Heap ℕ Upgraded × Option ℕ) :=
  match up.prev with
  | none => (setPrevOf s.heap up.next none).map fun heap => (heap, up.next)
  | some p => do
    let heap ← setNext s.heap p up.next
    let heap ← setPrevOf heap up.next up.prev
    pure (heap, s.upList)

/-- `destroy`. The wrapper that its callback clears is not part of the state; the subjects go with the memory. -/
def destroy (u : ℕ) : Option State := do
  let up ← s.heap u
  let (heap, upList) ← s.unlink up
  pure { s with
    heap := Function.update heap u none
    upList := upList
    working := s.forget u }

/-- The reference that a release gives up is the last. -/
def lastRef (u : ℕ) : Bool := (s.heap u).any fun up => up.val.isLast

/-- `agoo_upgraded_release`. -/
def release (u : ℕ) : Option State := do
  let t ← s.modify u Upgraded.unref
  if s.lastRef u then t.destroy u else pure t

/-- `agoo_upgraded_release_con`. -/
def releaseCon (u : ℕ) : Option State := do
  let t ← s.modify u fun up => { up with con := none }
  t.release u

/-! ### The loops over the list -/

/-- `agoo_res_create` and `agoo_con_res_append`. -/
def append (c : ℕ) (r : Sent) : State := { s with sent := Function.update s.sent c (s.sent c ++ [r]) }

/-- The connection, if `NULL != up->con && up->con->loop == loop`. -/
def onLoop (up : Upgraded) (loop : ℕ) : Option ℕ := up.con.filter fun c => s.loop c = loop

/-- A response is appended to a connection that is on the loop. -/
def appendHere (up : Upgraded) (loop : ℕ) (r : Sent) : State :=
  match s.onLoop up loop with
  | none => s
  | some c => s.append c r

/-- A round of the loop in `publish_pub`. -/
def publishOne (subject : Bytes) (msg : Option Message) (loop : ℕ) (up : Upgraded) : State :=
  match s.onLoop up loop with
  | none => s
  | some c => if up.isMatch subject then s.append c (.message msg) else s

/-- What a loop has to do with one connection. -/
def visit (pub : Pub) (loop u : ℕ) (up : Upgraded) : Option State :=
  match pub.kind with
  | .msg => pub.subject.map fun subject => s.publishOne subject pub.msg loop up
  | _ => s.modify u fun up => up.delSubject pub.subject

/-- A round of the loop in `publish_pub` or `unsubscribe_pub`. -/
def round (loop : ℕ) : Option State := do
  let w ← s.working loop
  let u ← w.up
  let up ← s.heap u
  let t ← s.visit w.pub loop u up.val
  pure { t with working := Function.update t.working loop (some { w with up := up.next, seen := w.seen ++ [u] }) }

/-- `unsubscribe_pub`, and where its loop begins. -/
def unsubscribePub (pub : Pub) : Option (State × Option ℕ) :=
  match pub.up with
  | none => some (s, s.upList)
  | some u => (s.modify u fun up => up.delSubject pub.subject).map fun t => (t, none)

/-- The switch of `process_pub_con`, and where a loop begins. What comes before it concerns `pending` and a
reference, and no link. -/
def processKind (pub : Pub) (loop : ℕ) : Option (State × Option ℕ) :=
  match pub.kind with
  | .close => do
    let up ← s.heap (← pub.up)
    pure (s.appendHere up.val loop .close, none)
  | .write => do
    let up ← s.heap (← pub.up)
    pure (s.appendHere up.val loop (.message pub.msg), none)
  | .sub =>
    match pub.up with
    | none => some (s, none)
    | some u => do
      let up ← s.heap u
      let c ← up.val.con
      if s.loop c = loop then
        let subject ← pub.subject
        let t ← s.modify u fun up => up.addSubject subject
        pure (t, none)
      else pure (s, none)
  | .un =>
    match pub.up with
    | none => some (s, none)
    | some u => do
      let up ← s.heap u
      let c ← up.val.con
      if s.loop c = loop then s.unsubscribePub pub else pure (s, none)
  | .msg => some (s, s.upList)

/-- The publication is for all connections. -/
def isGlobal (r : Request) : Bool := r.pub.up.isNone

/-- `process_pub_con` up to the first round. -/
def processPubCon (r : Request) (loop : ℕ) : Option State := do
  let (t, up) ← s.processKind r.pub loop
  let w : Walk := ⟨r.pub, up, [], fun u => isGlobal r && s.live u⟩
  pure { t with working := Function.update t.working loop (some w) }

/-- `process_pub_con` ends, apart from the release of `pub->up`. -/
def finish (loop : ℕ) : Option State := do
  let w ← s.working loop
  if w.up = none then some { s with working := Function.update s.working loop none } else none

end State

/-! ## Runs -/

inductive Action
  /-- The two halves of `rupgraded_create`. -/
  | create (u c : ℕ) (h : Handler)
  | add (u : ℕ)
  | ref (u : ℕ)
  /-- A reference is given up without a test, as `rup_pending` does. -/
  | unref (u : ℕ)
  | release (u : ℕ)
  | releaseCon (u : ℕ)
  /-- A con loop takes a publication. -/
  | take (loop : ℕ) (r : Request)
  | round (loop : ℕ)
  | finish (loop : ℕ)

/-- References are held on live connections only. -/
def step (s : State) : Action → Option State
  | .create u c h => s.create u c h
  | .add u => if u ∈ s.creating then s.addUpgraded u else none
  | .ref u => if s.live u then s.modify u Upgraded.ref else none
  | .unref u => if s.live u then s.modify u Upgraded.unref else none
  | .release u => if s.live u then s.release u else none
  | .releaseCon u => if s.live u then s.releaseCon u else none
  | .take loop r => if (s.working loop).isNone then s.processPubCon r loop else none
  | .round loop => s.round loop
  | .finish loop => s.finish loop

/-- The server before the first upgrade. -/
def start (loop : ℕ → ℕ) : State := ⟨fun _ => none, none, [], loop, fun _ => none, fun _ => none, fun _ => []⟩

/-! ## What should hold -/

/-- `next` leads from `up_list` over the live connections, once over each, and `prev` back. No call that adds,
releases or destroys a connection follows a null pointer or one to freed memory. -/
structure State.WellFormed (s : State) : Prop where
  visits : ∃ l, Follows s.heap s.upList l ∧ l.Nodup ∧ ∀ u, u ∈ l ↔ s.live u = true
  inverse : ∀ u v up vp, s.live u = true → s.live v = true → s.heap u = some up → s.heap v = some vp →
    (up.next = some v ↔ vp.prev = some u)
  closed : ∀ u v up, s.live u = true → s.heap u = some up → up.next = some v ∨ up.prev = some v → s.live v = true
  head : ∀ u up, s.live u = true → s.heap u = some up → (up.prev = none ↔ s.upList = some u)
  releases : ∀ u, s.live u = true → (s.release u).isSome = true ∧ (s.releaseCon u).isSome = true
  adds : ∀ u ∈ s.creating, (s.addUpgraded u).isSome = true

namespace State

/-! ## The list -/

variable {s s' : State} {l : List ℕ} {u : ℕ}

/-- The list of the live connections, and the connections that are not in it yet. -/
structure Listed (s : State) (l : List ℕ) : Prop where
  head : s.upList = l.head?
  linked : Linked s.heap none l none
  nodup : l.Nodup
  mem : ∀ u, u ∈ l ↔ s.live u = true
  creating : ∀ u ∈ s.creating, ∃ up, s.heap u = some up ∧ up.prev = none ∧ up.val.con ≠ none
  once : s.creating.Nodup

theorem live_iff : s.live u = true ↔ (s.heap u).isSome = true ∧ u ∉ s.creating := by
  rw [live, Bool.and_eq_true, decide_eq_true_eq]

theorem Listed.not_mem (h : Listed s l) (hu : u ∈ s.creating) : u ∉ l := by
  rw [h.mem, live_iff]
  exact fun hlive => hlive.2 hu

/-- Neither the list nor what is created and what the loops are at changes. -/
structure Stays (s s' : State) : Prop where
  upList : s'.upList = s.upList
  creating : s'.creating = s.creating
  working : s'.working = s.working
  links : ∀ a, links s'.heap a = links s.heap a
  con : ∀ a ∈ s.creating, ∀ up up', s.heap a = some up → s'.heap a = some up' → up'.val.con = up.val.con

theorem stays_of_heap (hlist : s'.upList = s.upList) (hcreating : s'.creating = s.creating)
    (hworking : s'.working = s.working) (hheap : s'.heap = s.heap) : Stays s s' where
  upList := hlist
  creating := hcreating
  working := hworking
  links a := by rw [hheap]
  con a _ up up' hup hup' := by
    rw [hheap, hup] at hup'
    rw [Option.some.inj hup']

theorem Stays.live (hs : Stays s s') (u : ℕ) : s'.live u = s.live u := by
  rw [State.live, State.live, ← links_isSome, ← links_isSome, hs.links, hs.creating]

theorem Stays.listed (hs : Stays s s') (h : Listed s l) : Listed s' l where
  head := hs.upList.trans h.head
  linked := (linked_congr fun a _ => hs.links a).mpr h.linked
  nodup := h.nodup
  mem u := by rw [hs.live, h.mem]
  creating u hu := by
    rw [hs.creating] at hu
    obtain ⟨up, hup, hprev, hcon⟩ := h.creating u hu
    have hlinks := hs.links u
    simp only [LinkedList.links, hup, Option.map_some, Option.map_eq_some_iff] at hlinks
    obtain ⟨up', hup', hpair⟩ := hlinks
    refine ⟨up', hup', (congrArg Prod.snd hpair).trans hprev, ?_⟩
    rwa [hs.con u hu up up' hup hup']
  once := hs.creating.symm ▸ h.once

theorem modify_eq_some {f : Upgraded → Upgraded} (h : s.modify u f = some s') :
    ∃ up, s.heap u = some up ∧
      s' = { s with heap := Function.update s.heap u (some { up with val := f up.val }) } := by
  obtain ⟨k, hk, rfl⟩ := Option.map_eq_some_iff.mp h
  obtain ⟨up, hup, rfl⟩ := Option.map_eq_some_iff.mp hk
  exact ⟨up, hup, rfl⟩

/-- What is not a link changes; when a connection is created but not added, its `con` does not. -/
theorem stays_modify {f : Upgraded → Upgraded} (h : s.modify u f = some s')
    (hcon : u ∈ s.creating → ∀ up, (f up).con = up.con) : Stays s s' := by
  obtain ⟨up, hup, rfl⟩ := modify_eq_some h
  refine ⟨rfl, rfl, rfl, fun a => ?_, fun a ha x x' hx hx' => ?_⟩
  · by_cases hau : a = u
    · subst hau
      simp [LinkedList.links, hup]
    · simp [LinkedList.links, Function.update_of_ne hau]
  · by_cases hau : a = u
    · subst hau
      obtain rfl := Option.some.inj (hup.symm.trans hx)
      simp only [Function.update_self, Option.some.injEq] at hx'
      subst hx'
      exact hcon ha _
    · rw [show s.heap a = some x' from (Function.update_of_ne hau ..).symm.trans hx'] at hx
      rw [Option.some.inj hx]

theorem modify_isSome {f : Upgraded → Upgraded} (h : s.live u = true) : (s.modify u f).isSome = true := by
  obtain ⟨up, hup⟩ := Option.isSome_iff_exists.mp (live_iff.mp h).1
  simp [State.modify, LinkedList.modify, hup]

/-! ### Adding -/

/-- The first half of `agoo_server_add_upgraded`: the new connection will be before the first one. -/
theorem Listed.before_first (h : Listed s l) (hu : u ∈ s.creating) {up : Cell ℕ Upgraded}
    (hup : s.heap u = some up) :
    ∃ k up', s.beforeFirst u = some k ∧ Linked k (some u) l none ∧
      k u = some up' ∧ up'.prev = up.prev ∧ up'.val = up.val ∧ Relinks (u :: l) s.heap k := by
  have hnot := h.not_mem hu
  rw [beforeFirst, h.head]
  cases l with
  | nil =>
    exact ⟨_, _, modify_of_cell hup _, trivial, Function.update_self .., rfl, rfl, relinks_update hup rfl⟩
  | cons first l =>
    obtain ⟨k, hk, hlinked, hrel⟩ := h.linked.setPrevOf_head h.nodup (some u)
    exact ⟨k, up, hk, hlinked, (hrel.cell u hnot).trans hup, rfl, rfl,
      fun a ha => hrel.cell a fun hal => ha (List.mem_cons_of_mem _ hal), hrel.val⟩

/-- **A connection is added in front.** -/
theorem Listed.addUpgraded (h : Listed s l) (hu : u ∈ s.creating) :
    ∃ k conUp, s.addUpgraded u = some { s with
        heap := k, upList := some u, creating := s.creating.erase u, conUp := conUp } ∧
      Linked k none (u :: l) none ∧ Relinks (u :: l) s.heap k := by
  obtain ⟨up, hup, hprev, hcon⟩ := h.creating u hu
  obtain ⟨c, hc⟩ := Option.ne_none_iff_exists'.mp hcon
  obtain ⟨k, up', hk, hlinked, hup', hprev', hval, hrel⟩ := h.before_first hu hup
  have hapart : ∀ a ∈ l, a ∉ [u] := fun a ha hau => h.not_mem hu (List.mem_singleton.mp hau ▸ ha)
  have hrel' : Relinks [u] k (Function.update k u (some { up' with next := s.upList })) := relinks_update hup' rfl
  refine ⟨_, Function.update s.conUp c (some u), ?_, ⟨?_, (hrel'.linked hapart).mpr hlinked⟩, fun a ha => ?_,
    fun a => ?_⟩
  · simp [State.addUpgraded, hk, setNext, modify_of_cell hup', hval, hc]
  · rw [links_update, hprev', hprev, h.head, Option.or_none]
  · rw [hrel'.cell a fun hau => ha (List.mem_singleton.mp hau ▸ List.mem_cons_self), hrel.cell a ha]
  · rw [hrel'.val, hrel.val]

/-! ### Destroying -/

/-- The links around a connection that goes. -/
theorem Listed.unlink {l₁ l₂ : List ℕ} (h : Listed s (l₁ ++ u :: l₂)) {up : Cell ℕ Upgraded}
    (hup : s.heap u = some up) : ∃ k, s.unlink up = some (k, (l₁ ++ l₂).head?) ∧
      Linked k none (l₁ ++ l₂) none ∧ Relinks (l₁ ++ l₂) s.heap k := by
  obtain ⟨hfront, hlinks, hback⟩ := linked_append.mp h.linked
  simp only [LinkedList.links, hup, Option.map_some, Option.or_none, Option.some.injEq, Prod.mk.injEq] at hlinks
  obtain ⟨hnext, hprev⟩ := hlinks
  have hnodup : (l₁ ++ l₂).Nodup := h.nodup.sublist ((List.sublist_cons_self u l₂).append_left l₁)
  have hdisjoint := List.disjoint_of_nodup_append hnodup
  rw [State.unlink, hprev, hnext]
  rcases List.eq_nil_or_concat l₁ with rfl | ⟨l₀, p, rfl⟩
  · obtain ⟨k, hk, hlinked, hrel⟩ := hback.setPrevOf_head hnodup none
    exact ⟨k, by simp [hk], hlinked, hrel⟩
  · rw [List.concat_eq_append] at hfront hnodup hdisjoint ⊢
    have hsplit := List.nodup_append.mp hnodup
    obtain ⟨k, hk, hbefore, hrel⟩ := hfront.setNext_last hsplit.1 l₂.head?
    have hbehind := (hrel.linked (q := none) fun a ha ha' => hdisjoint ha' ha).mpr hback
    obtain ⟨k', hk', hbehind', hrel'⟩ := hbehind.setPrevOf_head hsplit.2.1 (some p)
    have hbefore' := (hrel'.linked (b := none) fun a ha ha' => hdisjoint ha ha').mpr hbefore
    refine ⟨k', ?_, linked_append.mpr ⟨?_, ?_⟩, hrel.trans hrel'⟩
    · simp [hk, hk', h.head]
    · rwa [Option.or_none]
    · rwa [List.getLast?_concat]

/-- **A connection is destroyed.** The others stay in the list, with what they hold. -/
theorem Listed.destroy (h : Listed s l) (hu : u ∈ l) :
    ∃ k, s.destroy u = some { s with
        heap := Function.update k u none, upList := (l.erase u).head?, working := s.forget u } ∧
      Linked k none (l.erase u) none ∧ Relinks (l.erase u) s.heap k := by
  obtain ⟨up, hup⟩ := h.linked.exists_cell hu
  obtain ⟨l₁, l₂, rfl⟩ := List.append_of_mem hu
  have hnot : u ∉ l₁ := fun hmem => List.disjoint_of_nodup_append h.nodup hmem List.mem_cons_self
  have herase : (l₁ ++ u :: l₂).erase u = l₁ ++ l₂ := by
    rw [List.erase_append_right _ hnot, List.erase_cons_head]
  obtain ⟨k, hk, hlinked, hrel⟩ := h.unlink hup
  rw [herase]
  exact ⟨k, by simp [State.destroy, hup, hk], hlinked, hrel⟩

/-! ### The list after a step -/

theorem Listed.create (h : Listed s l) {c : ℕ} {hd : Handler} (hstep : s.create u c hd = some s') :
    Listed s' l ∧ s'.working = s.working := by
  obtain ⟨hfree, hstep⟩ := Option.ite_none_left_eq_some.mp hstep
  obtain rfl := Option.some.inj hstep
  rw [Bool.not_eq_true, Option.isSome_eq_false_iff, Option.isNone_iff_eq_none] at hfree
  have hnew : ∀ a, s.heap a ≠ none → a ≠ u := by
    rintro a ha rfl
    exact ha hfree
  have hcreating : u ∉ s.creating := fun hu => by
    obtain ⟨up, hup, -⟩ := h.creating u hu
    rw [hfree] at hup
    cases hup
  have hlist : ∀ a ∈ l, a ≠ u := fun a ha => hnew a (Option.isSome_iff_ne_none.mp
    (Option.isSome_iff_exists.mpr (h.linked.exists_cell ha)))
  refine ⟨⟨h.head, (linked_congr fun a ha => ?_).mpr h.linked, h.nodup, fun a => ?_, fun a ha => ?_,
    List.nodup_cons.mpr ⟨hcreating, h.once⟩⟩, rfl⟩
  · simp [LinkedList.links, Function.update_of_ne (hlist a ha)]
  · rw [h.mem]
    by_cases hau : a = u
    · subst hau
      simp [live, hfree]
    · simp [live, hau]
  · rcases List.mem_cons.mp ha with rfl | ha
    · exact ⟨_, Function.update_self .., rfl, Option.some_ne_none c⟩
    · obtain ⟨up, hup, hrest⟩ := h.creating a ha
      have hau : a ≠ u := fun heq => hcreating (heq ▸ ha)
      exact ⟨up, (Function.update_of_ne hau ..).trans hup, hrest⟩

theorem Listed.add (h : Listed s l) (hu : u ∈ s.creating) (hstep : s.addUpgraded u = some s') :
    Listed s' (u :: l) ∧ s'.working = s.working := by
  obtain ⟨k, conUp, hadd, hlinked, hrel⟩ := h.addUpgraded hu
  obtain rfl := Option.some.inj (hadd.symm.trans hstep)
  have hlive : ∀ a, (k a).isSome = (s.heap a).isSome := fun a => by rw [← val_isSome, hrel.val, val_isSome]
  obtain ⟨up, hup, -⟩ := h.creating u hu
  refine ⟨⟨rfl, hlinked, List.nodup_cons.mpr ⟨h.not_mem hu, h.nodup⟩, fun a => ?_, fun a ha => ?_,
    h.once.erase u⟩, rfl⟩
  · rw [List.mem_cons, h.mem, live_iff, live_iff, h.once.mem_erase_iff, hlive]
    by_cases hau : a = u
    · subst hau
      simp [hup]
    · simp [hau]
  · obtain ⟨hau, ha⟩ := h.once.mem_erase_iff.mp ha
    have hout : a ∉ u :: l := by
      rw [List.mem_cons, not_or]
      exact ⟨hau, h.not_mem ha⟩
    obtain ⟨up, hup, hrest⟩ := h.creating a ha
    exact ⟨up, (hrel.cell a hout).trans hup, hrest⟩

theorem Listed.destroyed (h : Listed s l) (hu : u ∈ l) (hstep : s.destroy u = some s') :
    Listed s' (l.erase u) ∧ s'.working = s.forget u ∧ s'.heap u = none := by
  obtain ⟨k, hdestroy, hlinked, hrel⟩ := h.destroy hu
  obtain rfl := Option.some.inj (hdestroy.symm.trans hstep)
  have hlive : ∀ a, (k a).isSome = (s.heap a).isSome := fun a => by rw [← val_isSome, hrel.val, val_isSome]
  refine ⟨⟨rfl, (linked_congr fun a ha => ?_).mpr hlinked, h.nodup.erase u, fun a => ?_, fun a ha => ?_, h.once⟩,
    rfl, Function.update_self ..⟩
  · have hau := (h.nodup.mem_erase_iff.mp ha).1
    simp [LinkedList.links, Function.update_of_ne hau]
  · rw [h.nodup.mem_erase_iff, h.mem, live_iff, live_iff]
    by_cases hau : a = u
    · subst hau
      simp
    · simp [hlive, hau]
  · have hout := h.not_mem ha
    have hau : a ≠ u := fun heq => hout (heq ▸ hu)
    obtain ⟨up, hup, hrest⟩ := h.creating a ha
    have hcell := hrel.cell a fun hmem => hout (List.mem_of_mem_erase hmem)
    exact ⟨up, (Function.update_of_ne hau ..).trans (hcell.trans hup), hrest⟩

theorem forget_congr (h : s'.working = s.working) (u : ℕ) : s'.forget u = s.forget u := by
  funext i
  rw [forget, forget, h]

/-- A release changes no link, or it destroys the connection when its reference was the last. -/
theorem Listed.release (h : Listed s l) (hu : s.live u = true) (hstep : s.release u = some s') :
    (s.lastRef u = false ∧ Stays s s') ∨
      (s.lastRef u = true ∧ Listed s' (l.erase u) ∧ s'.working = s.forget u ∧ s'.heap u = none) := by
  obtain ⟨t, ht, hstep⟩ := Option.bind_eq_some_iff.mp hstep
  have hstays : Stays s t := stays_modify ht fun hcreating => absurd hcreating (live_iff.mp hu).2
  cases hlast : s.lastRef u with
  | false =>
    rw [hlast] at hstep
    obtain rfl := Option.some.inj hstep
    exact .inl ⟨rfl, hstays⟩
  | true =>
    rw [hlast] at hstep
    obtain ⟨hlisted, hworking, hfree⟩ := (hstays.listed h).destroyed ((h.mem u).mpr hu) hstep
    exact .inr ⟨rfl, hlisted, hworking.trans (forget_congr hstays.working u), hfree⟩

theorem Listed.releaseCon (h : Listed s l) (hu : s.live u = true) (hstep : s.releaseCon u = some s') :
    (s.lastRef u = false ∧ Listed s' l ∧ s'.working = s.working) ∨
      (s.lastRef u = true ∧ Listed s' (l.erase u) ∧ s'.working = s.forget u ∧ s'.heap u = none) := by
  obtain ⟨t, ht, hstep⟩ := Option.bind_eq_some_iff.mp hstep
  have hstays : Stays s t := stays_modify ht fun hcreating => absurd hcreating (live_iff.mp hu).2
  have hlast : t.lastRef u = s.lastRef u := by
    obtain ⟨up, hup, rfl⟩ := modify_eq_some ht
    simp [lastRef, hup, Upgraded.isLast]
  rw [← hlast]
  rcases (hstays.listed h).release ((hstays.live u).trans hu) hstep with
    ⟨hmore, hstays'⟩ | ⟨hone, hlisted, hworking, hfree⟩
  · exact .inl ⟨hmore, hstays'.listed (hstays.listed h), hstays'.working.trans hstays.working⟩
  · exact .inr ⟨hone, hlisted, hworking.trans (forget_congr hstays.working u), hfree⟩

/-! ### What the con loops do -/

/-- What the loops are at is no part of the list. -/
theorem Listed.setWorking (h : Listed s l) (working : ℕ → Option Walk) : Listed { s with working := working } l :=
  ⟨h.head, h.linked, h.nodup, h.mem, h.creating, h.once⟩

theorem stays_appendHere (s : State) (up : Upgraded) (loop : ℕ) (r : Sent) : Stays s (s.appendHere up loop r) := by
  unfold appendHere
  split
  · exact stays_of_heap rfl rfl rfl rfl
  · exact stays_of_heap rfl rfl rfl rfl

theorem stays_publishOne (s : State) (subject : Bytes) (msg : Option Message) (loop : ℕ) (up : Upgraded) :
    Stays s (s.publishOne subject msg loop up) := by
  unfold publishOne
  split
  · exact stays_of_heap rfl rfl rfl rfl
  · split_ifs <;> exact stays_of_heap rfl rfl rfl rfl

theorem delSubject_con (up : Upgraded) (subject : Option Bytes) : (up.delSubject subject).con = up.con := by
  cases subject <;> rfl

theorem addSubject_con (up : Upgraded) (subject : Bytes) : (up.addSubject subject).con = up.con := by
  unfold Upgraded.addSubject
  split_ifs <;> rfl

theorem stays_visit {pub : Pub} {loop : ℕ} {up : Upgraded} (h : s.visit pub loop u up = some s') : Stays s s' := by
  unfold visit at h
  split at h
  · obtain ⟨subject, -, rfl⟩ := Option.map_eq_some_iff.mp h
    exact stays_publishOne ..
  · exact stays_modify h fun _ up => delSubject_con up _

theorem stays_unsubscribePub {pub : Pub} {first : Option ℕ} (hu : pub.up = some u)
    (h : s.unsubscribePub pub = some (s', first)) : Stays s s' ∧ first = none := by
  rw [unsubscribePub, hu] at h
  obtain ⟨t, ht, hpair⟩ := Option.map_eq_some_iff.mp h
  obtain ⟨rfl, rfl⟩ := Prod.mk.inj hpair
  exact ⟨stays_modify ht fun _ up => delSubject_con up _, rfl⟩

/-- Where a loop over the list begins. A global unsubscribe has none. -/
def firstOf (s : State) : Request → Option ℕ
  | .publish _ _ => s.upList
  | _ => none

theorem processKind_spec {r : Request} {loop : ℕ} {t : State} {first : Option ℕ}
    (h : s.processKind r.pub loop = some (t, first)) : Stays s t ∧ first = s.firstOf r := by
  have hpure : ∀ {t' : State}, Stays s t' → some (t', none) = some (t, first) → Stays s t ∧ first = none := by
    rintro t' ht' heq
    obtain ⟨rfl, rfl⟩ := Prod.mk.inj (Option.some.inj heq)
    exact ⟨ht', rfl⟩
  have hsame : Stays s s := stays_of_heap rfl rfl rfl rfl
  cases r with
  | close u =>
    obtain ⟨up, -, h⟩ := Option.bind_eq_some_iff.mp h
    exact hpure (stays_appendHere ..) h
  | write u message bin =>
    obtain ⟨up, -, h⟩ := Option.bind_eq_some_iff.mp h
    exact hpure (stays_appendHere ..) h
  | subscribe u subject =>
    obtain ⟨up, -, h⟩ := Option.bind_eq_some_iff.mp h
    obtain ⟨c, -, h⟩ := Option.bind_eq_some_iff.mp h
    split_ifs at h
    · obtain ⟨pattern, -, h⟩ := Option.bind_eq_some_iff.mp h
      obtain ⟨t', ht', h⟩ := Option.bind_eq_some_iff.mp h
      exact hpure (stays_modify ht' fun _ up => addSubject_con up _) h
    · exact hpure hsame h
  | unsubscribe u subject =>
    obtain ⟨up, -, h⟩ := Option.bind_eq_some_iff.mp h
    obtain ⟨c, -, h⟩ := Option.bind_eq_some_iff.mp h
    split_ifs at h
    · exact stays_unsubscribePub rfl h
    · exact hpure hsame h
  | unsubscribeAll subject => exact hpure hsame h
  | publish subject message =>
    obtain ⟨rfl, rfl⟩ := Prod.mk.inj (Option.some.inj h)
    exact ⟨hsame, rfl⟩

/-- A con loop takes a publication. -/
theorem Listed.take (h : Listed s l) {r : Request} {loop : ℕ} (hstep : s.processPubCon r loop = some s') :
    Listed s' l ∧ s'.working = Function.update s.working loop
      (some ⟨r.pub, s.firstOf r, [], fun u => isGlobal r && s.live u⟩) := by
  obtain ⟨⟨t, first⟩, ht, hstep⟩ := Option.bind_eq_some_iff.mp hstep
  obtain ⟨hstays, rfl⟩ := processKind_spec ht
  obtain rfl := Option.some.inj hstep
  exact ⟨(hstays.listed h).setWorking _, by rw [hstays.working]⟩

theorem Listed.round (h : Listed s l) {loop : ℕ} (hstep : s.round loop = some s') :
    ∃ w u up, s.working loop = some w ∧ w.up = some u ∧ s.heap u = some up ∧ Listed s' l ∧
      s'.working = Function.update s.working loop (some { w with up := up.next, seen := w.seen ++ [u] }) := by
  obtain ⟨w, hw, hstep⟩ := Option.bind_eq_some_iff.mp hstep
  obtain ⟨u, hu, hstep⟩ := Option.bind_eq_some_iff.mp hstep
  obtain ⟨up, hup, hstep⟩ := Option.bind_eq_some_iff.mp hstep
  obtain ⟨t, ht, hstep⟩ := Option.bind_eq_some_iff.mp hstep
  obtain rfl := Option.some.inj hstep
  have hstays := stays_visit ht
  exact ⟨w, u, up, hw, hu, hup, (hstays.listed h).setWorking _, by rw [hstays.working]⟩

/-! ## The list is well formed -/

theorem Listed.release_isSome (h : Listed s l) (hu : s.live u = true) : (s.release u).isSome = true := by
  obtain ⟨t, ht⟩ := Option.isSome_iff_exists.mp (modify_isSome (f := Upgraded.unref) hu)
  have hlisted := (stays_modify ht fun _ _ => rfl).listed h
  obtain ⟨k, hdestroy, -⟩ := hlisted.destroy ((h.mem u).mpr hu)
  rw [State.release, ht]
  cases s.lastRef u with
  | false => rfl
  | true => exact Option.isSome_of_eq_some hdestroy

theorem Listed.releaseCon_isSome (h : Listed s l) (hu : s.live u = true) : (s.releaseCon u).isSome = true := by
  obtain ⟨t, ht⟩ := Option.isSome_iff_exists.mp (modify_isSome (f := fun up => { up with con := none }) hu)
  have hstays : Stays s t := stays_modify ht fun hcreating => absurd hcreating (live_iff.mp hu).2
  rw [State.releaseCon, ht]
  exact (hstays.listed h).release_isSome ((hstays.live u).trans hu)

theorem Listed.wellFormed (h : Listed s l) : s.WellFormed := by
  have hlinks : ∀ {u up}, s.heap u = some up → LinkedList.links s.heap u = some (up.next, up.prev) := by
    intro u up hup
    rw [LinkedList.links, hup]
    rfl
  constructor
  case visits => exact ⟨l, h.head ▸ h.linked.follows, h.nodup, h.mem⟩
  case inverse =>
    intro u v up vp hu hv hup hvp
    exact h.linked.next_iff_prev ((h.mem u).mpr hu) ((h.mem v).mpr hv) (hlinks hup) (hlinks hvp)
  case closed =>
    intro u v up hu hup hto
    exact (h.mem v).mp (h.linked.closed ((h.mem u).mpr hu) (hlinks hup) hto)
  case head =>
    intro u up hu hup
    rw [h.head]
    exact h.linked.prev_eq_none_iff h.nodup ((h.mem u).mpr hu) (hlinks hup)
  case releases => exact fun u hu => ⟨h.release_isSome hu, h.releaseCon_isSome hu⟩
  case adds =>
    intro u hu
    obtain ⟨k, conUp, hadd, -⟩ := h.addUpgraded hu
    exact Option.isSome_of_eq_some hadd

end State

end UpList

end Agoo
