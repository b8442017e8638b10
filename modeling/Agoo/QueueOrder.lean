import Agoo.Excl
import Agoo.Queue
import Agoo.Runs
import Mathlib.Algebra.Ring.Divisibility.Basic
import Mathlib.Data.Int.ModEq

/-!
# The order of the items of a queue

`Good s A P`: `head` was moved `A` times and `tail` `P` times, and of the slots exactly those from the
item popped next to the item pushed last hold items. `queue_keeps`: the items popped are a beginning of
those pushed, no slot with an item is written, and a call that does not time out returns an item.
-/

namespace Agoo

namespace Queue

variable {α : Type}

/-! ## Slots -/

@[simp] theorem setSlot_size (q : AgooQueue α) (i : ℕ) (item : Option α) :
    (q.setSlot i item).size = q.size := List.length_set

theorem slotAt_setSlot_self {q : AgooQueue α} {i : ℕ} (h : i < q.size) (item : Option α) :
    (q.setSlot i item).slotAt i = item := by
  unfold AgooQueue.slotAt AgooQueue.setSlot
  rw [List.getElem?_set_self h]
  rfl

theorem slotAt_setSlot_other {q : AgooQueue α} {i j : ℕ} (h : i ≠ j) (item : Option α) :
    (q.setSlot i item).slotAt j = q.slotAt j := by
  unfold AgooQueue.slotAt AgooQueue.setSlot
  rw [List.getElem?_set_ne h]

theorem next_mod {q : AgooQueue α} (hsize : 0 < q.size) (n : ℕ) :
    q.next (n % q.size) = (n + 1) % q.size := by
  have hlt := Nat.mod_lt n hsize
  unfold AgooQueue.next
  rw [← Nat.mod_add_mod n q.size 1]
  split_ifs with h
  · have heq : n % q.size + 1 = q.size := by omega
    rw [heq, Nat.mod_self]
  · exact (Nat.mod_eq_of_lt (by omega)).symm

/-- Numbers less than the size apart are at different slots. -/
theorem mod_ne {a b size : ℕ} (h : a < b) (hb : b < a + size) : b % size ≠ a % size := by
  intro heq
  have hdvd := (Nat.modEq_iff_dvd' h.le).mp heq.symm
  exact Nat.not_dvd_of_pos_of_lt (by omega) (by omega) hdvd

/-- The slots hold the items from the number `E` on, and no others. -/
structure Holds (q : AgooQueue α) (pushed : List α) (E : ℕ) : Prop where
  item : ∀ n, E ≤ n → n < pushed.length → q.slotAt ((n + 1) % q.size) = pushed[n]?
  gap : ∀ i < q.size, (∀ n, E ≤ n → n < pushed.length → (n + 1) % q.size ≠ i) → q.slotAt i = none

theorem Holds.write {q : AgooQueue α} {pushed : List α} {E : ℕ} (h : Holds q pushed E)
    (hsize : 0 < q.size) (hE : E ≤ pushed.length) (hroom : pushed.length < E + q.size) (item : α) :
    Holds (q.setSlot ((pushed.length + 1) % q.size) (some item)) (pushed ++ [item]) E := by
  have hlt := Nat.mod_lt (pushed.length + 1) hsize
  constructor
  · intro n hn hlen
    rw [List.length_append, List.length_singleton] at hlen
    rw [setSlot_size]
    rcases Nat.lt_succ_iff_lt_or_eq.mp hlen with hlt' | rfl
    · rw [slotAt_setSlot_other (mod_ne (by omega) (by omega)), List.getElem?_append_left hlt']
      exact h.item n hn hlt'
    · rw [slotAt_setSlot_self hlt]
      simp
  · intro i hi hno
    rw [setSlot_size] at hi hno
    have hlast := hno pushed.length hE (by simp)
    rw [slotAt_setSlot_other hlast]
    refine h.gap i hi fun n hn hlen => hno n hn ?_
    rw [List.length_append]
    omega

theorem Holds.erase {q : AgooQueue α} {pushed : List α} {E : ℕ} (h : Holds q pushed E)
    (hsize : 0 < q.size) (hroom : pushed.length < E + 1 + q.size) :
    Holds (q.setSlot ((E + 1) % q.size) none) pushed (E + 1) := by
  have hlt := Nat.mod_lt (E + 1) hsize
  constructor
  · intro n hn hlen
    rw [setSlot_size, slotAt_setSlot_other (mod_ne (by omega) (by omega)).symm]
    exact h.item n (by omega) hlen
  · intro i hi hno
    rw [setSlot_size] at hi hno
    by_cases heq : (E + 1) % q.size = i
    · subst heq
      exact slotAt_setSlot_self hlt none
    · rw [slotAt_setSlot_other heq]
      refine h.gap i hi fun n hn hlen => ?_
      rcases Nat.eq_or_lt_of_le hn with rfl | hn
      · exact heq
      · exact hno n hn hlen

/-- A slot behind the items is empty. -/
theorem Holds.none_of_room {q : AgooQueue α} {pushed : List α} {E : ℕ} (h : Holds q pushed E)
    (hsize : 0 < q.size) (hroom : pushed.length < E + q.size) :
    q.slotAt ((pushed.length + 1) % q.size) = none :=
  h.gap _ (Nat.mod_lt _ hsize) fun _ _ _ => (mod_ne (by omega) (by omega)).symm

/-- The slot of the last item popped is empty. -/
theorem Holds.none_at_head {q : AgooQueue α} {pushed : List α} {E : ℕ} (h : Holds q pushed E)
    (hsize : 0 < q.size) (hroom : pushed.length < E + q.size) : q.slotAt (E % q.size) = none :=
  h.gap _ (Nat.mod_lt _ hsize) fun _ _ _ => mod_ne (by omega) (by omega)

/-! ## Where threads are -/

/-- What a thread that pushes knows: `tail` was moved `P` times, and `U` items are in the slots. -/
def PushOk (size A P U : ℕ) : PushPc α → Prop
  | .idle => True
  | .lock _ => True
  | .full _ => U = P
  | .fullHead _ head => U = P ∧ ∃ a ≤ A, head = a % size ∧ P < a + size
  | .slot _ => U = P ∧ P + 1 < A + size
  | .write _ tail => U = P ∧ P + 1 < A + size ∧ tail = (P + 1) % size
  | .advance => U = P + 1
  | .store tail => U = P + 1 ∧ tail = (P + 2) % size
  | .unlock => U = P
  | .wake => True
  | .notify => True

/-- A result is an item, or the call timed out. -/
def ResultOk (pushed : List α) (timedOut : Bool) (item : Option α) : Prop :=
  timedOut = false → ∃ x ∈ pushed, item = some x

/-- What a thread that pops knows: `head` was moved `A` times, and `E` slots were cleared. -/
def PopOk (size A P E : ℕ) (pushed : List α) : PopPc α → Prop
  | .idle => True
  | .lock _ => True
  | .first _ => E = A
  | .read _ head => E = A ∧ head = A % size
  | .clear _ => False
  | .clearAt _ _ => False
  | .next _ => E = A
  | .wait _ next => E = A ∧ next = (A + 1) % size
  | .listen _ next => E = A ∧ next = (A + 1) % size
  | .poll _ next => E = A ∧ next = (A + 1) % size
  | .release _ next => E = A ∧ next = (A + 1) % size
  | .advance next => E = A ∧ next = (A + 1) % size ∧ A < P
  | .take next => E + 1 = A ∧ next = A % size
  | .erase next item => E + 1 = A ∧ next = A % size ∧ item = pushed[E]?
  | .unlock timedOut item => E = A ∧ ResultOk pushed timedOut item
  | .done timedOut item => ResultOk pushed timedOut item

/-- The state of the system in numbers: `head` was moved `A` times, `tail` `P` times. -/
structure Good (s : Sys α) (A P : ℕ) : Prop where
  size : 2 ≤ s.queue.size
  head : s.queue.head = A % s.queue.size
  tail : s.queue.tail = (P + 1) % s.queue.size
  order : A ≤ P ∧ P < A + s.queue.size
  cleared : s.popped.length ≤ A ∧ A ≤ s.popped.length + 1
  written : P ≤ s.pushed.length ∧ s.pushed.length < A + s.queue.size
  slots : Holds s.queue s.pushed s.popped.length
  popped : s.popped = (s.pushed.take s.popped.length).map some
  pushExcl : Excl PushPc.inside PushPc.isIdle s.queue.multiPush s.queue.pushLock s.pushers
  popExcl : Excl PopPc.inside PopPc.isIdle s.queue.multiPop s.queue.popLock s.poppers
  pushing : ∀ i, PushOk s.queue.size A P s.pushed.length (s.pushers i)
  popping : ∀ i, PopOk s.queue.size A P s.popped.length s.pushed (s.poppers i)
  noPush : (∀ i, (s.pushers i).inside = false) → s.pushed.length = P
  noPop : (∀ i, (s.poppers i).inside = false) → s.popped.length = A

/-! ## Other threads -/

theorem pushOk_outside {size A P U : ℕ} {pc : PushPc α} (h : pc.inside = false) : PushOk size A P U pc := by
  cases pc with
  | idle => trivial
  | lock item => trivial
  | wake => trivial
  | notify => trivial
  | _ => cases h

theorem pushInside_idle {pc : PushPc α} (h : pc.isIdle = true) : pc.inside = false := by
  cases pc with
  | idle => rfl
  | _ => cases h

theorem popInside_idle {pc : PopPc α} (h : pc.isIdle = true) : pc.inside = false := by
  cases pc with
  | idle => rfl
  | done timedOut item => rfl
  | _ => cases h

theorem PushOk.mono {size A A' P U : ℕ} {pc : PushPc α} (h : PushOk size A P U pc) (hA : A ≤ A') :
    PushOk size A' P U pc := by
  cases pc with
  | fullHead item head =>
    obtain ⟨hU, a, ha, hhead, hP⟩ := h
    exact ⟨hU, a, ha.trans hA, hhead, hP⟩
  | slot item => exact ⟨h.1, by have := h.2; omega⟩
  | write item tail => exact ⟨h.1, by have := h.2.1; omega, h.2.2⟩
  | _ => exact h

theorem popOk_outside {size A A' P P' E E' : ℕ} {pushed : List α} {pc : PopPc α}
    (h : PopOk size A P E pushed pc) (hout : pc.inside = false) : PopOk size A' P' E' pushed pc := by
  cases pc with
  | idle => trivial
  | lock cnt => trivial
  | done timedOut item => exact h
  | _ => cases hout

theorem ResultOk.append {pushed : List α} {timedOut : Bool} {item : Option α}
    (h : ResultOk pushed timedOut item) (x : α) : ResultOk (pushed ++ [x]) timedOut item := by
  intro ht
  obtain ⟨y, hy, hitem⟩ := h ht
  exact ⟨y, List.mem_append_left _ hy, hitem⟩

/-- What a thread that pops knows stays so when an item is pushed. -/
theorem PopOk.append {size A P P' E : ℕ} {pushed : List α} {pc : PopPc α}
    (h : PopOk size A P E pushed pc) (hP : P ≤ P') (hA : A ≤ pushed.length) (x : α) :
    PopOk size A P' E (pushed ++ [x]) pc := by
  cases pc with
  | advance next => exact ⟨h.1, h.2.1, h.2.2.trans_le hP⟩
  | erase next item =>
    obtain ⟨hE, hnext, hitem⟩ := h
    refine ⟨hE, hnext, ?_⟩
    rw [List.getElem?_append_left (by omega)]
    exact hitem
  | unlock timedOut item => exact ⟨h.1, h.2.append x⟩
  | done timedOut item => exact ResultOk.append h x
  | _ => exact h

theorem PopOk.mono {size A P P' E : ℕ} {pushed : List α} {pc : PopPc α}
    (h : PopOk size A P E pushed pc) (hP : P ≤ P') : PopOk size A P' E pushed pc := by
  cases pc with
  | advance next => exact ⟨h.1, h.2.1, h.2.2.trans_le hP⟩
  | _ => exact h

/-! ## Steps that move no item -/

/-- The queues differ in the locks and in what concerns waiting at most. -/
structure SameItems (q q' : AgooQueue α) : Prop where
  slots : q'.slots = q.slots
  head : q'.head = q.head
  tail : q'.tail = q.tail
  multiPush : q'.multiPush = q.multiPush
  multiPop : q'.multiPop = q.multiPop

theorem SameItems.refl (q : AgooQueue α) : SameItems q q := ⟨rfl, rfl, rfl, rfl, rfl⟩

theorem SameItems.size {q q' : AgooQueue α} (h : SameItems q q') : q'.size = q.size :=
  congrArg List.length h.slots

theorem SameItems.holds {q q' : AgooQueue α} (h : SameItems q q') {pushed : List α} {E : ℕ}
    (hq : Holds q pushed E) : Holds q' pushed E := by
  have hslot : ∀ i, q'.slotAt i = q.slotAt i := fun i => by
    unfold AgooQueue.slotAt
    rw [h.slots]
  constructor
  · intro n hn hlen
    rw [hslot, h.size]
    exact hq.item n hn hlen
  · intro i hi hno
    rw [hslot]
    rw [h.size] at hi hno
    exact hq.gap i hi hno

section Move

variable {s : Sys α} {A P : ℕ} (h : Good s A P) {i : ℕ} {q : AgooQueue α} (hq : SameItems s.queue q)

include h hq

/-- A thread that pushes takes a step that moves no item. -/
theorem Good.movePush {pc : PushPc α} (hlock : q.popLock = s.queue.popLock)
    (hexcl : Excl PushPc.inside PushPc.isIdle s.queue.multiPush q.pushLock (Function.update s.pushers i pc))
    (hok : PushOk s.queue.size A P s.pushed.length pc)
    (hno : (∀ j, (Function.update s.pushers i pc j).inside = false) → s.pushed.length = P) :
    Good { s with queue := q, pushers := Function.update s.pushers i pc } A P where
  size := hq.size ▸ h.size
  head := by rw [hq.head, hq.size, h.head]
  tail := by rw [hq.tail, hq.size, h.tail]
  order := hq.size ▸ h.order
  cleared := h.cleared
  written := hq.size ▸ h.written
  slots := hq.holds h.slots
  popped := h.popped
  pushExcl := hq.multiPush ▸ hexcl
  popExcl := by
    rw [hq.multiPop, hlock]
    exact h.popExcl
  pushing := by
    rw [hq.size]
    exact (Function.forall_update_iff _ fun _ pc => PushOk _ _ _ _ pc).mpr ⟨hok, fun j _ => h.pushing j⟩
  popping j := by
    rw [hq.size]
    exact h.popping j
  noPush := hno
  noPop := h.noPop

/-- A thread that pops takes a step that moves no item. -/
theorem Good.movePop {pc : PopPc α} (hlock : q.pushLock = s.queue.pushLock)
    (hexcl : Excl PopPc.inside PopPc.isIdle s.queue.multiPop q.popLock (Function.update s.poppers i pc))
    (hok : PopOk s.queue.size A P s.popped.length s.pushed pc)
    (hno : (∀ j, (Function.update s.poppers i pc j).inside = false) → s.popped.length = A) :
    Good { s with queue := q, poppers := Function.update s.poppers i pc } A P where
  size := hq.size ▸ h.size
  head := by rw [hq.head, hq.size, h.head]
  tail := by rw [hq.tail, hq.size, h.tail]
  order := hq.size ▸ h.order
  cleared := h.cleared
  written := hq.size ▸ h.written
  slots := hq.holds h.slots
  popped := h.popped
  pushExcl := by
    rw [hq.multiPush, hlock]
    exact h.pushExcl
  popExcl := hq.multiPop ▸ hexcl
  pushing j := by
    rw [hq.size]
    exact h.pushing j
  popping := by
    rw [hq.size]
    exact (Function.forall_update_iff _ fun _ pc => PopOk _ _ _ _ _ pc).mpr ⟨hok, fun j _ => h.popping j⟩
  noPush := h.noPush
  noPop := hno

end Move

/-! ## Steps of threads that push -/

section Push

variable {s : Sys α} {A P : ℕ} (h : Good s A P) {i : ℕ}

include h

/-- The others are outside. -/
theorem Good.push_outside (hin : (s.pushers i).inside = true) {j : ℕ} (hj : j ≠ i) :
    (s.pushers j).inside = false :=
  Bool.eq_false_iff.mpr fun hjin => hj (h.pushExcl.unique j i hjin hin)

theorem Good.pop_outside (hin : (s.poppers i).inside = true) {j : ℕ} (hj : j ≠ i) :
    (s.poppers j).inside = false :=
  Bool.eq_false_iff.mpr fun hjin => hj (h.popExcl.unique j i hjin hin)

/-- The slot at `tail` is empty, and the item goes there. -/
theorem Good.write {item : α} {tail : ℕ} (hpc : s.pushers i = .write item tail) :
    Good { s with
      queue := s.queue.setSlot tail (some item)
      pushers := Function.update s.pushers i .advance
      pushed := s.pushed ++ [item] } A P := by
  have hin : (s.pushers i).inside = true := by rw [hpc]; rfl
  have hidle : (s.pushers i).isIdle = false := by rw [hpc]; rfl
  have hok := h.pushing i
  rw [hpc] at hok
  obtain ⟨hU, hroom, rfl⟩ := hok
  have hsize := h.size
  have horder := h.order
  have hcleared := h.cleared
  have hlen : (s.pushed ++ [item]).length = s.pushed.length + 1 := by simp
  refine ⟨?_, ?_, ?_, ?_, h.cleared, ?_, ?_, ?_, ?_, h.popExcl, ?_, ?_, ?_, h.noPop⟩
  · rw [setSlot_size]
    exact h.size
  · rw [setSlot_size]
    exact h.head
  · rw [setSlot_size]
    exact h.tail
  · rw [setSlot_size]
    exact h.order
  · rw [setSlot_size, hlen]
    omega
  · rw [← hU]
    exact h.slots.write (by omega) (by omega) (by omega) item
  · dsimp only
    rw [List.take_append_of_le_length (by omega)]
    exact h.popped
  · exact h.pushExcl.stay (fun _ => hin) fun _ => hidle
  · rw [setSlot_size]
    refine (Function.forall_update_iff _ fun _ pc => PushOk _ _ _ _ pc).mpr ⟨?_, fun j hj => ?_⟩
    · unfold PushOk
      rw [hlen, hU]
    · exact pushOk_outside (h.push_outside hin hj)
  · rw [setSlot_size]
    exact fun j => (h.popping j).append le_rfl (by omega) item
  · intro hno
    have hi := hno i
    dsimp only at hi
    rw [Function.update_self] at hi
    cases hi

/-- `tail` is moved past the item. -/
theorem Good.store {tail : ℕ} (hpc : s.pushers i = .store tail) :
    Good { s with
      queue := { s.queue with tail := tail }
      pushers := Function.update s.pushers i .unlock } A (P + 1) := by
  have hin : (s.pushers i).inside = true := by rw [hpc]; rfl
  have hidle : (s.pushers i).isIdle = false := by rw [hpc]; rfl
  have hok := h.pushing i
  rw [hpc] at hok
  obtain ⟨hU, rfl⟩ := hok
  have hwritten := h.written
  have horder := h.order
  refine ⟨h.size, h.head, rfl, ?_, h.cleared, ?_, ?_, h.popped, ?_, h.popExcl, ?_, ?_, fun _ => hU, h.noPop⟩
  · change A ≤ P + 1 ∧ P + 1 < A + s.queue.size
    omega
  · change P + 1 ≤ s.pushed.length ∧ s.pushed.length < A + s.queue.size
    omega
  · exact ⟨h.slots.item, h.slots.gap⟩
  · exact h.pushExcl.stay (fun _ => hin) fun _ => hidle
  · refine (Function.forall_update_iff _ fun _ pc => PushOk _ _ _ _ pc).mpr ⟨hU, fun j hj => ?_⟩
    exact pushOk_outside (h.push_outside hin hj)
  · exact fun j => (h.popping j).mono P.le_succ

/-- A thread that is inside takes a step inside that moves no item and leaves the queue. -/
theorem Good.pushInside (hin : (s.pushers i).inside = true) {pc : PushPc α} (hpc : pc.inside = true)
    (hidle : (s.pushers i).isIdle = false) (hok : PushOk s.queue.size A P s.pushed.length pc) :
    Good { s with pushers := Function.update s.pushers i pc } A P :=
  h.movePush (SameItems.refl s.queue) rfl (h.pushExcl.stay (fun _ => hin) fun _ => hidle) hok
    fun hno => absurd hno (not_all_outside hpc)

/-- A step of `agoo_queue_push` keeps the state good. -/
theorem Good.pushStep {pc : PushPc α} {q : AgooQueue α}
    (hstep : Queue.pushStep s.queue (s.pushers i) = some (pc, q)) :
    ∃ P', Good { s with
      queue := q
      pushers := Function.update s.pushers i pc
      pushed := s.pushed ++ (s.pushers i).pushes } A P' := by
  have hok := h.pushing i
  have hsize := h.size
  have hpos : 0 < s.queue.size := by omega
  cases hpc : s.pushers i with
  | idle =>
    rw [hpc] at hstep
    cases hstep
  | lock item =>
    have hout : (s.pushers i).inside = false := by rw [hpc]; rfl
    have hidle : (s.pushers i).isIdle = false := by rw [hpc]; rfl
    have hactive : ∀ p : PushPc α, p.inside = true → p.isIdle = false := by
      intro p hp
      cases p with
      | idle => cases hp
      | _ => rfl
    rw [hpc] at hstep
    simp only [PushPc.pushes, List.append_nil]
    unfold Queue.pushStep at hstep
    dsimp only at hstep
    split_ifs at hstep with hmulti hlock
    · obtain ⟨rfl, rfl⟩ := Prod.mk.inj (Option.some.inj hstep)
      exact ⟨P, h.movePush (SameItems.refl _) rfl (h.pushExcl.stay nofun fun _ => hidle) trivial
        fun hno => h.noPush (all_outside_before hout hno)⟩
    · obtain ⟨rfl, rfl⟩ := Prod.mk.inj (Option.some.inj hstep)
      have hnone := h.pushExcl.none_inside hout hidle hactive fun _ => Bool.eq_false_iff.mpr hlock
      have hsame : SameItems s.queue { s.queue with pushLock := true } := ⟨rfl, rfl, rfl, rfl, rfl⟩
      exact ⟨P, h.movePush hsame rfl (h.pushExcl.enter hnone hidle fun _ => rfl) (h.noPush hnone)
        fun hno => absurd hno (not_all_outside rfl)⟩
    · obtain ⟨rfl, rfl⟩ := Prod.mk.inj (Option.some.inj hstep)
      have hnone := h.pushExcl.none_inside hout hidle hactive fun hm => absurd hm hmulti
      exact ⟨P, h.movePush (SameItems.refl _) rfl
        (h.pushExcl.enter hnone hidle fun hm => absurd hm hmulti) (h.noPush hnone)
        fun hno => absurd hno (not_all_outside rfl)⟩
  | full item =>
    rw [hpc] at hstep hok
    obtain ⟨rfl, rfl⟩ := Prod.mk.inj (Option.some.inj hstep)
    simp only [PushPc.pushes, List.append_nil]
    exact ⟨P, h.pushInside (by rw [hpc]; rfl) rfl (by rw [hpc]; rfl)
      ⟨hok, A, le_rfl, h.head, h.order.2⟩⟩
  | fullHead item head =>
    rw [hpc] at hstep hok
    obtain ⟨rfl, rfl⟩ := Prod.mk.inj (Option.some.inj hstep)
    obtain ⟨hU, a, ha, rfl, hP⟩ := hok
    simp only [PushPc.pushes, List.append_nil]
    split_ifs with htail
    · exact ⟨P, h.pushInside (by rw [hpc]; rfl) rfl (by rw [hpc]; rfl) hU⟩
    · -- `head` is not where `tail` is, nor was moved back since it was loaded.
      have hne : P + 1 ≠ a + s.queue.size := by
        intro heq
        apply htail
        rw [h.tail, heq, Nat.add_mod_right]
      exact ⟨P, h.pushInside (by rw [hpc]; rfl) rfl (by rw [hpc]; rfl) ⟨hU, by omega⟩⟩
  | slot item =>
    rw [hpc] at hstep hok
    obtain ⟨rfl, rfl⟩ := Prod.mk.inj (Option.some.inj hstep)
    simp only [PushPc.pushes, List.append_nil]
    exact ⟨P, h.pushInside (by rw [hpc]; rfl) rfl (by rw [hpc]; rfl) ⟨hok.1, hok.2, h.tail⟩⟩
  | write item tail =>
    rw [hpc] at hstep
    obtain ⟨rfl, rfl⟩ := Prod.mk.inj (Option.some.inj hstep)
    exact ⟨P, h.write hpc⟩
  | advance =>
    rw [hpc] at hstep hok
    obtain ⟨rfl, rfl⟩ := Prod.mk.inj (Option.some.inj hstep)
    simp only [PushPc.pushes, List.append_nil]
    refine ⟨P, h.pushInside (by rw [hpc]; rfl) rfl (by rw [hpc]; rfl) ⟨hok, ?_⟩⟩
    rw [h.tail, next_mod hpos]
  | store tail =>
    rw [hpc] at hstep
    obtain ⟨rfl, rfl⟩ := Prod.mk.inj (Option.some.inj hstep)
    simp only [PushPc.pushes, List.append_nil]
    exact ⟨P + 1, h.store hpc⟩
  | unlock =>
    have hin : (s.pushers i).inside = true := by rw [hpc]; rfl
    have hidle : (s.pushers i).isIdle = false := by rw [hpc]; rfl
    rw [hpc] at hstep hok
    obtain ⟨rfl, rfl⟩ := Prod.mk.inj (Option.some.inj hstep)
    simp only [PushPc.pushes, List.append_nil]
    have hexcl : ∀ lock, Excl PushPc.inside PushPc.isIdle s.queue.multiPush lock
        (Function.update s.pushers i .wake) := h.pushExcl.leave hin hidle rfl
    have hsame : SameItems s.queue { s.queue with pushLock := false } := ⟨rfl, rfl, rfl, rfl, rfl⟩
    split_ifs
    · exact ⟨P, h.movePush hsame rfl (hexcl _) trivial fun _ => hok⟩
    · exact ⟨P, h.movePush (SameItems.refl _) rfl (hexcl _) trivial fun _ => hok⟩
  | wake =>
    have hout : (s.pushers i).inside = false := by rw [hpc]; rfl
    have hidle : (s.pushers i).isIdle = false := by rw [hpc]; rfl
    rw [hpc] at hstep
    obtain ⟨rfl, rfl⟩ := Prod.mk.inj (Option.some.inj hstep)
    simp only [PushPc.pushes, List.append_nil]
    split_ifs
    · exact ⟨P, h.movePush (SameItems.refl _) rfl (h.pushExcl.stay nofun fun _ => hidle) trivial
        fun hno => h.noPush (all_outside_before hout hno)⟩
    · exact ⟨P, h.movePush (SameItems.refl _) rfl (h.pushExcl.stay nofun nofun) trivial
        fun hno => h.noPush (all_outside_before hout hno)⟩
  | notify =>
    have hout : (s.pushers i).inside = false := by rw [hpc]; rfl
    rw [hpc] at hstep
    obtain ⟨rfl, rfl⟩ := Prod.mk.inj (Option.some.inj hstep)
    simp only [PushPc.pushes, List.append_nil]
    have hsame : SameItems s.queue { s.queue with waitState := .notified } := ⟨rfl, rfl, rfl, rfl, rfl⟩
    exact ⟨P, h.movePush hsame rfl (h.pushExcl.stay nofun nofun) trivial
      fun hno => h.noPush (all_outside_before hout hno)⟩

end Push

/-! ## Steps of threads that pop -/

section Pop

variable {s : Sys α} {A P : ℕ} (h : Good s A P) {i : ℕ}

include h

/-- `head` is moved to the next item. -/
theorem Good.advance {next : ℕ} (hpc : s.poppers i = .advance next) :
    Good { s with
      queue := { s.queue with head := next }
      poppers := Function.update s.poppers i (.take next) } (A + 1) P := by
  have hin : (s.poppers i).inside = true := by rw [hpc]; rfl
  have hidle : (s.poppers i).isIdle = false := by rw [hpc]; rfl
  have hok := h.popping i
  rw [hpc] at hok
  obtain ⟨hE, rfl, hlt⟩ := hok
  have hwritten := h.written
  have horder := h.order
  refine ⟨h.size, rfl, h.tail, ?_, ?_, ?_, ?_, h.popped, h.pushExcl, ?_, ?_, ?_, h.noPush, ?_⟩
  · change A + 1 ≤ P ∧ P < A + 1 + s.queue.size
    omega
  · change s.popped.length ≤ A + 1 ∧ A + 1 ≤ s.popped.length + 1
    omega
  · change P ≤ s.pushed.length ∧ s.pushed.length < A + 1 + s.queue.size
    omega
  · exact ⟨h.slots.item, h.slots.gap⟩
  · exact h.popExcl.stay (fun _ => hin) fun _ => hidle
  · exact fun j => (h.pushing j).mono A.le_succ
  · refine (Function.forall_update_iff _ fun _ pc => PopOk _ _ _ _ _ pc).mpr ⟨⟨?_, rfl⟩, fun j hj => ?_⟩
    · rw [hE]
    · exact popOk_outside (h.popping j) (h.pop_outside hin hj)
  · exact fun hno => absurd hno (not_all_outside rfl)

/-- The slot of the item is cleared. -/
theorem Good.erase {next : ℕ} {item : Option α} (hpc : s.poppers i = .erase next item) :
    Good { s with
      queue := s.queue.setSlot next none
      poppers := Function.update s.poppers i (.unlock false item)
      popped := s.popped ++ [item] } A P := by
  have hin : (s.poppers i).inside = true := by rw [hpc]; rfl
  have hidle : (s.poppers i).isIdle = false := by rw [hpc]; rfl
  have hok := h.popping i
  rw [hpc] at hok
  obtain ⟨hE, rfl, rfl⟩ := hok
  have hwritten := h.written
  have horder := h.order
  have hsize := h.size
  have hlt : s.popped.length < s.pushed.length := by omega
  have hitem : s.pushed[s.popped.length]? = some s.pushed[s.popped.length] :=
    List.getElem?_eq_getElem hlt
  have hlen : (s.popped ++ [s.pushed[s.popped.length]?]).length = A := by
    rw [List.length_append, List.length_singleton]
    exact hE
  refine ⟨?_, ?_, ?_, ?_, ?_, ?_, ?_, ?_, h.pushExcl, ?_, ?_, ?_, h.noPush, fun _ => hlen⟩
  · rw [setSlot_size]
    exact h.size
  · rw [setSlot_size]
    exact h.head
  · rw [setSlot_size]
    exact h.tail
  · rw [setSlot_size]
    exact h.order
  · rw [hlen]
    omega
  · rw [setSlot_size]
    exact h.written
  · rw [hlen, ← hE]
    exact h.slots.erase (by omega) (by omega)
  · rw [hlen, ← hE, List.take_add_one, hitem, List.map_append, ← h.popped]
    rfl
  · exact h.popExcl.stay (fun _ => hin) fun _ => hidle
  · rw [setSlot_size]
    exact h.pushing
  · rw [setSlot_size]
    refine (Function.forall_update_iff _ fun _ pc => PopOk _ _ _ _ _ pc).mpr ⟨⟨hlen, ?_⟩, fun j hj => ?_⟩
    · exact fun _ => ⟨_, List.getElem_mem hlt, hitem⟩
    · exact popOk_outside (h.popping j) (h.pop_outside hin hj)

/-- A thread that is inside takes a step inside that moves no item and leaves the queue. -/
theorem Good.popInside (hin : (s.poppers i).inside = true) {pc : PopPc α} (hpc : pc.inside = true)
    (hidle : (s.poppers i).isIdle = false)
    (hok : PopOk s.queue.size A P s.popped.length s.pushed pc) :
    Good { s with poppers := Function.update s.poppers i pc } A P :=
  h.movePop (SameItems.refl s.queue) rfl (h.popExcl.stay (fun _ => hin) fun _ => hidle) hok
    fun hno => absurd hno (not_all_outside hpc)

/-- A step of `agoo_queue_pop` keeps the state good. -/
theorem Good.popStep {ready : Bool} {pc : PopPc α} {q : AgooQueue α}
    (hstep : Queue.popStep s.queue ready (s.poppers i) = some (pc, q)) :
    ∃ A', Good { s with
      queue := q
      poppers := Function.update s.poppers i pc
      popped := s.popped ++ (s.poppers i).pops } A' P := by
  have hok := h.popping i
  have hsize := h.size
  have hpos : 0 < s.queue.size := by omega
  have hwritten := h.written
  cases hpc : s.poppers i with
  | idle =>
    rw [hpc] at hstep
    cases hstep
  | done timedOut item =>
    rw [hpc] at hstep
    cases hstep
  | lock cnt =>
    have hout : (s.poppers i).inside = false := by rw [hpc]; rfl
    have hidle : (s.poppers i).isIdle = false := by rw [hpc]; rfl
    have hactive : ∀ p : PopPc α, p.inside = true → p.isIdle = false := by
      intro p hp
      cases p with
      | idle => cases hp
      | done timedOut item => cases hp
      | _ => rfl
    rw [hpc] at hstep
    simp only [PopPc.pops, List.append_nil]
    unfold Queue.popStep at hstep
    dsimp only at hstep
    split_ifs at hstep with hmulti hlock
    · obtain ⟨rfl, rfl⟩ := Prod.mk.inj (Option.some.inj hstep)
      exact ⟨A, h.movePop (SameItems.refl _) rfl (h.popExcl.stay nofun fun _ => hidle) trivial
        fun hno => h.noPop (all_outside_before hout hno)⟩
    · obtain ⟨rfl, rfl⟩ := Prod.mk.inj (Option.some.inj hstep)
      have hnone := h.popExcl.none_inside hout hidle hactive fun _ => Bool.eq_false_iff.mpr hlock
      have hsame : SameItems s.queue { s.queue with popLock := true } := ⟨rfl, rfl, rfl, rfl, rfl⟩
      exact ⟨A, h.movePop hsame rfl (h.popExcl.enter hnone hidle fun _ => rfl) (h.noPop hnone)
        fun hno => absurd hno (not_all_outside rfl)⟩
    · obtain ⟨rfl, rfl⟩ := Prod.mk.inj (Option.some.inj hstep)
      have hnone := h.popExcl.none_inside hout hidle hactive fun hm => absurd hm hmulti
      exact ⟨A, h.movePop (SameItems.refl _) rfl
        (h.popExcl.enter hnone hidle fun hm => absurd hm hmulti) (h.noPop hnone)
        fun hno => absurd hno (not_all_outside rfl)⟩
  | first cnt =>
    rw [hpc] at hstep hok
    obtain ⟨rfl, rfl⟩ := Prod.mk.inj (Option.some.inj hstep)
    simp only [PopPc.pops, List.append_nil]
    exact ⟨A, h.popInside (by rw [hpc]; rfl) rfl (by rw [hpc]; rfl) ⟨hok, h.head⟩⟩
  | read cnt head =>
    rw [hpc] at hstep hok
    obtain ⟨hE, rfl⟩ := hok
    have hnone : s.queue.slotAt (A % s.queue.size) = none := by
      rw [← hE]
      exact h.slots.none_at_head hpos (by omega)
    unfold Queue.popStep at hstep
    dsimp only at hstep
    rw [hnone] at hstep
    obtain ⟨rfl, rfl⟩ := Prod.mk.inj (Option.some.inj hstep)
    simp only [PopPc.pops, List.append_nil]
    exact ⟨A, h.popInside (by rw [hpc]; rfl) rfl (by rw [hpc]; rfl) hE⟩
  | clear item =>
    rw [hpc] at hok
    exact hok.elim
  | clearAt item head =>
    rw [hpc] at hok
    exact hok.elim
  | next cnt =>
    rw [hpc] at hstep hok
    obtain ⟨rfl, rfl⟩ := Prod.mk.inj (Option.some.inj hstep)
    simp only [PopPc.pops, List.append_nil]
    refine ⟨A, h.popInside (by rw [hpc]; rfl) rfl (by rw [hpc]; rfl) ⟨hok, ?_⟩⟩
    rw [h.head, next_mod hpos]
  | wait cnt next =>
    rw [hpc] at hstep hok
    have hnext := hok.2
    unfold Queue.popStep at hstep
    dsimp only at hstep
    simp only [PopPc.pops, List.append_nil]
    split_ifs at hstep with htail hcnt
    · obtain ⟨rfl, rfl⟩ := Prod.mk.inj (Option.some.inj hstep)
      exact ⟨A, h.popInside (by rw [hpc]; rfl) rfl (by rw [hpc]; rfl) ⟨hok.1, nofun⟩⟩
    · obtain ⟨rfl, rfl⟩ := Prod.mk.inj (Option.some.inj hstep)
      exact ⟨A, h.popInside (by rw [hpc]; rfl) rfl (by rw [hpc]; rfl) hok⟩
    · obtain ⟨rfl, rfl⟩ := Prod.mk.inj (Option.some.inj hstep)
      -- `tail` was moved more often than `head`.
      have hlt : A < P := by
        refine lt_of_le_of_ne h.order.1 ?_
        rintro rfl
        exact htail (h.tail.trans hnext.symm)
      exact ⟨A, h.popInside (by rw [hpc]; rfl) rfl (by rw [hpc]; rfl) ⟨hok.1, hok.2, hlt⟩⟩
  | listen cnt next =>
    rw [hpc] at hstep hok
    obtain ⟨rfl, rfl⟩ := Prod.mk.inj (Option.some.inj hstep)
    simp only [PopPc.pops, List.append_nil]
    have hsame : SameItems s.queue { s.queue with sockets := true, waitState := .waiting } :=
      ⟨rfl, rfl, rfl, rfl, rfl⟩
    have hin : (s.poppers i).inside = true := by rw [hpc]; rfl
    have hidle : (s.poppers i).isIdle = false := by rw [hpc]; rfl
    exact ⟨A, h.movePop hsame rfl (h.popExcl.stay (fun _ => hin) fun _ => hidle) hok
      fun hno => absurd hno (not_all_outside rfl)⟩
  | poll cnt next =>
    rw [hpc] at hstep hok
    obtain ⟨rfl, rfl⟩ := Prod.mk.inj (Option.some.inj hstep)
    simp only [PopPc.pops, List.append_nil]
    split_ifs
    · exact ⟨A, h.popInside (by rw [hpc]; rfl) rfl (by rw [hpc]; rfl) hok⟩
    · exact ⟨A, h.popInside (by rw [hpc]; rfl) rfl (by rw [hpc]; rfl) hok⟩
  | release cnt next =>
    rw [hpc] at hstep hok
    obtain ⟨rfl, rfl⟩ := Prod.mk.inj (Option.some.inj hstep)
    simp only [PopPc.pops, List.append_nil]
    have hsame : SameItems s.queue { s.queue with waitState := .notWaiting } := ⟨rfl, rfl, rfl, rfl, rfl⟩
    have hin : (s.poppers i).inside = true := by rw [hpc]; rfl
    have hidle : (s.poppers i).isIdle = false := by rw [hpc]; rfl
    exact ⟨A, h.movePop hsame rfl (h.popExcl.stay (fun _ => hin) fun _ => hidle) hok
      fun hno => absurd hno (not_all_outside rfl)⟩
  | advance next =>
    rw [hpc] at hstep
    obtain ⟨rfl, rfl⟩ := Prod.mk.inj (Option.some.inj hstep)
    simp only [PopPc.pops, List.append_nil]
    exact ⟨A + 1, h.advance hpc⟩
  | take next =>
    rw [hpc] at hstep hok
    obtain ⟨hE, rfl⟩ := hok
    obtain ⟨rfl, rfl⟩ := Prod.mk.inj (Option.some.inj hstep)
    simp only [PopPc.pops, List.append_nil]
    have horder := h.order
    refine ⟨A, h.popInside (by rw [hpc]; rfl) rfl (by rw [hpc]; rfl) ⟨hE, rfl, ?_⟩⟩
    rw [← hE]
    exact h.slots.item s.popped.length le_rfl (by omega)
  | erase next item =>
    rw [hpc] at hstep
    obtain ⟨rfl, rfl⟩ := Prod.mk.inj (Option.some.inj hstep)
    exact ⟨A, h.erase hpc⟩
  | unlock timedOut item =>
    have hin : (s.poppers i).inside = true := by rw [hpc]; rfl
    have hidle : (s.poppers i).isIdle = false := by rw [hpc]; rfl
    rw [hpc] at hstep hok
    obtain ⟨rfl, rfl⟩ := Prod.mk.inj (Option.some.inj hstep)
    simp only [PopPc.pops, List.append_nil]
    have hexcl : ∀ lock, Excl PopPc.inside PopPc.isIdle s.queue.multiPop lock
        (Function.update s.poppers i (.done timedOut item)) := h.popExcl.leave hin hidle rfl
    have hsame : SameItems s.queue { s.queue with popLock := false } := ⟨rfl, rfl, rfl, rfl, rfl⟩
    split_ifs
    · exact ⟨A, h.movePop hsame rfl (hexcl _) hok.2 fun _ => hok.1⟩
    · exact ⟨A, h.movePop (SameItems.refl _) rfl (hexcl _) hok.2 fun _ => hok.1⟩

end Pop

/-! ## Runs -/

theorem good_start (α : Type) (qsize : ℕ) (multiPush multiPop : Bool) :
    Good (start α qsize multiPush multiPop) 0 0 := by
  have hsize : 4 ≤ (multiInit α qsize multiPush multiPop).size := by
    unfold multiInit AgooQueue.size
    rw [List.length_replicate]
    split_ifs
    · exact le_rfl
    · omega
  have hslot : ∀ i, (multiInit α qsize multiPush multiPop).slotAt i = none := by
    intro i
    unfold multiInit AgooQueue.slotAt
    rw [List.getElem?_replicate]
    generalize (if qsize < 4 then 4 else qsize) = n
    split_ifs
    · rfl
    · rfl
  refine ⟨?_, ?_, ?_, ?_, ⟨le_rfl, Nat.zero_le _⟩, ?_, ⟨nofun, fun i _ _ => hslot i⟩, rfl, ?_, ?_,
    fun _ => trivial, fun _ => trivial, fun _ => rfl, fun _ => rfl⟩
  · change 2 ≤ (multiInit α qsize multiPush multiPop).size
    omega
  · exact (Nat.zero_mod _).symm
  · change 1 = (0 + 1) % (multiInit α qsize multiPush multiPop).size
    rw [Nat.mod_eq_of_lt (by omega)]
  · change 0 ≤ 0 ∧ 0 < 0 + (multiInit α qsize multiPush multiPop).size
    omega
  · change 0 ≤ 0 ∧ 0 < 0 + (multiInit α qsize multiPush multiPop).size
    omega
  · exact ⟨nofun, nofun, nofun⟩
  · exact ⟨nofun, nofun, nofun⟩

/-- What a step of the system preserves. -/
theorem good_step {s s' : Sys α} (a : Action α) (h : ∃ A P, Good s A P) (hstep : step s a = some s') :
    ∃ A P, Good s' A P := by
  obtain ⟨A, P, h⟩ := h
  cases a with
  | push i item =>
    unfold step at hstep
    dsimp only at hstep
    split_ifs at hstep with hcall
    obtain rfl := Option.some.inj hstep
    rw [Bool.and_eq_true, Bool.or_eq_true, decide_eq_true_eq] at hcall
    have hout : (s.pushers i).inside = false := by
      cases hpc : s.pushers i with
      | idle => rfl
      | _ =>
        rw [hpc] at hcall
        cases hcall.1
    exact ⟨A, P, h.movePush (SameItems.refl _) rfl (h.pushExcl.call rfl hcall.2) trivial
      fun hno => h.noPush (all_outside_before hout hno)⟩
  | pop i cnt =>
    unfold step at hstep
    dsimp only at hstep
    split_ifs at hstep with hcall
    obtain rfl := Option.some.inj hstep
    rw [Bool.and_eq_true, Bool.or_eq_true, decide_eq_true_eq] at hcall
    have hout : (s.poppers i).inside = false := by
      cases hpc : s.poppers i with
      | idle => rfl
      | done timedOut item => rfl
      | _ =>
        rw [hpc] at hcall
        cases hcall.1
    exact ⟨A, P, h.movePop (SameItems.refl _) rfl (h.popExcl.call rfl hcall.2) trivial
      fun hno => h.noPop (all_outside_before hout hno)⟩
  | pushStep i =>
    obtain ⟨r, hr, rfl⟩ := Option.map_eq_some_iff.mp hstep
    obtain ⟨P', hP⟩ := h.pushStep hr
    exact ⟨A, P', hP⟩
  | popStep i ready =>
    obtain ⟨r, hr, rfl⟩ := Option.map_eq_some_iff.mp hstep
    obtain ⟨A', hA⟩ := h.popStep hr
    exact ⟨A', P, hA⟩

/-- The state is good in every run. -/
theorem always_good (qsize : ℕ) (multiPush multiPop : Bool) (as : List (Action α)) :
    Always step (fun s => ∃ A P, Good s A P) (start α qsize multiPush multiPop) as :=
  always_of_along _ (fun _ a _ h _ hstep => good_step a h hstep)
    ⟨0, 0, good_start α qsize multiPush multiPop⟩ (along_true _ as)

/-- The distance of the cursors is one more than the number of items, or that less the size. -/
theorem Good.distance {s : Sys α} {A P : ℕ} (h : Good s A P) :
    (s.queue.tail : ℤ) - s.queue.head = (P - A : ℕ) + 1 ∨
      (s.queue.tail : ℤ) - s.queue.head = (P - A : ℕ) + 1 - s.queue.size := by
  have hsize := h.size
  obtain ⟨hAP, hPA⟩ := h.order
  have hlt := Nat.mod_lt A (by omega : 0 < s.queue.size)
  have htail : s.queue.tail = (s.queue.head + (P - A) + 1) % s.queue.size := by
    have hP : P + 1 = A + (P - A + 1) := by omega
    rw [h.tail, h.head, hP, ← Nat.mod_add_mod, Nat.add_assoc]
  rw [← h.head] at hlt
  rcases Nat.lt_or_ge (s.queue.head + (P - A) + 1) s.queue.size with hin | hwrap
  · rw [Nat.mod_eq_of_lt hin] at htail
    omega
  · rw [Nat.mod_eq_sub_mod hwrap, Nat.mod_eq_of_lt (by omega)] at htail
    omega

/-- The cursors are next to each other when there is no item. -/
theorem Good.tail_next {s : Sys α} {A P : ℕ} (h : Good s A P) :
    s.queue.tail = s.queue.next s.queue.head ↔ P - A = 0 := by
  have hsize := h.size
  obtain ⟨hAP, hPA⟩ := h.order
  rw [h.tail, h.head, next_mod (by omega)]
  constructor
  · intro heq
    by_contra hne
    exact mod_ne (a := A + 1) (b := P + 1) (by omega) (by omega) heq
  · intro h0
    rw [show P = A by omega]

/-- The size as an `int` and what was cut off. -/
theorem intSize_spec (q : AgooQueue α) :
    ∃ m : ℤ, 0 ≤ m ∧ (q.size : ℤ) = q.intSize + 2 ^ 32 * m ∧ -2 ^ 31 ≤ q.intSize ∧ q.intSize < 2 ^ 31 := by
  have hlow : -2 ^ 31 ≤ q.intSize := Int.le_bmod (by decide)
  have hhigh : q.intSize < 2 ^ 31 := Int.bmod_lt (by decide)
  have hadd : q.intSize + 2 ^ 32 * (q.size : ℤ).bdiv (2 ^ 32) = q.size := Int.bmod_add_bdiv _ _
  refine ⟨(q.size : ℤ).bdiv (2 ^ 32), ?_, hadd.symm, hlow, hhigh⟩
  have := Int.natCast_nonneg q.size
  omega

/-- A remainder is right for no items at most. -/
theorem tmod_count {T m d k : ℤ} {size : ℕ} (hm : 0 ≤ m) (hT : (size : ℤ) = T + 2 ^ 32 * m) (hsize : 2 ≤ size)
    (hlow : -2 ^ 31 ≤ T) (hhigh : T < 2 ^ 31) (hk : 0 ≤ k) (hd : d = k + 1 ∨ d = k + 1 - size) :
    (T ≠ 0 ∧ (d + T).tmod T = k) ↔ k = 0 ∧ T ∣ d := by
  constructor
  · rintro ⟨hT0, hcount⟩
    have hdvd : T ∣ d - k := by
      have h := @Int.dvd_self_sub_tmod (d + T) T
      have hsub : d + T - k = d - k + T := by omega
      rw [hcount, hsub, dvd_add_self_right] at h
      exact h
    have hk0 : k = 0 := by
      by_contra hne
      have hpos : 0 < d + T := by
        by_contra hneg
        have h := Int.tmod_nonneg T (a := -(d + T)) (by omega)
        rw [Int.neg_tmod, hcount] at h
        omega
      have hless : k < T.natAbs := by
        have h := Int.natAbs_tmod (d + T) T
        have hlt := Nat.mod_lt (d + T).natAbs (Int.natAbs_pos.mpr hT0)
        rw [hcount] at h
        omega
      have hone : T ∣ 1 := by
        rcases hd with rfl | rfl
        · simpa using hdvd
        · have hm0 : m = 0 := by omega
          rw [show k + 1 - (size : ℤ) - k = 1 - T by omega, dvd_sub_self_right] at hdvd
          exact hdvd
      have hle := Nat.le_of_dvd one_pos (Int.natAbs_dvd_natAbs.mpr hone)
      omega
    exact ⟨hk0, by simpa [hk0] using hdvd⟩
  · rintro ⟨rfl, hdvd⟩
    refine ⟨?_, Int.tmod_eq_zero_of_dvd (dvd_add_self_right.mpr hdvd)⟩
    rintro rfl
    rw [zero_dvd_iff] at hdvd
    omega

/-- **In every run, when all calls are over the queue is said to be empty if and only if there is no
item. The count is right if and only if there is no item and the size as an `int` divides the distance
of the cursors, so that it is never right for a size that is an `int`.** -/
theorem observers_iff (qsize : ℕ) (multiPush multiPop : Bool) (as : List (Action α)) :
    Always step (fun s => Quiescent s →
        (queueEmpty s.queue = true ↔ s.unpopped = 0) ∧
          (queueCount s.queue = some (s.unpopped : ℤ) ↔
            s.unpopped = 0 ∧ s.queue.intSize ∣ (s.queue.tail : ℤ) - s.queue.head) ∧
          (s.queue.size < 2 ^ 31 → queueCount s.queue ≠ some (s.unpopped : ℤ)))
      (start α qsize multiPush multiPop) as := by
  refine (always_good qsize multiPush multiPop as).mono fun s hs hquiet => ?_
  obtain ⟨A, P, h⟩ := hs
  have hsize := h.size
  obtain ⟨hAP, hPA⟩ := h.order
  have hE : s.popped.length = A := h.noPop fun i => popInside_idle (hquiet.2 i)
  have hU : s.pushed.length = P := h.noPush fun i => pushInside_idle (hquiet.1 i)
  have hk : s.unpopped = P - A := by rw [Sys.unpopped, hE, hU]
  have hcount : queueCount s.queue = some (s.unpopped : ℤ) ↔
      s.unpopped = 0 ∧ s.queue.intSize ∣ (s.queue.tail : ℤ) - s.queue.head := by
    obtain ⟨m, hm, hT, hlow, hhigh⟩ := intSize_spec s.queue
    have hspec := tmod_count hm hT hsize hlow hhigh (Int.natCast_nonneg s.unpopped) (hk ▸ h.distance)
    rw [Int.natCast_eq_zero] at hspec
    rw [← hspec, queueCount]
    split_ifs with h0
    · simp [h0]
    · simp [h0]
  refine ⟨?_, hcount, fun hsmall hright => ?_⟩
  · have hnone : s.queue.slotAt s.queue.head = none := by
      rw [h.head, ← hE]
      exact h.slots.none_at_head (by omega) (by omega)
    rw [queueEmpty, hnone, hk, ← h.tail_next]
    simp
  · obtain ⟨h0, hdvd⟩ := hcount.mp hright
    obtain ⟨m, hm, hT, hlow, hhigh⟩ := intSize_spec s.queue
    have hTs : s.queue.intSize = s.queue.size := by omega
    rw [hTs] at hdvd
    have hone : (s.queue.size : ℤ) ∣ 1 := by
      rcases h.distance with hd | hd
      · simpa [hd, ← hk, h0] using hdvd
      · simpa [hd, ← hk, h0, dvd_sub_self_right] using hdvd
    have := Int.le_of_dvd one_pos hone
    omega

/-- The count of a new queue is 1. -/
theorem count_new : ¬ ∀ (qsize : ℕ) (multiPush multiPop : Bool) (as : List (Action ℕ)),
    Always step (fun s => Quiescent s → queueCount s.queue = some (s.unpopped : ℤ))
      (start ℕ qsize multiPush multiPop) as := by
  intro h
  have hcount := h 4 false false [] ⟨fun _ => rfl, fun _ => rfl⟩
  exact absurd hcount (by decide)

end Queue

end Agoo
