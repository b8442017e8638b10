import Mathlib.Data.Int.Notation
import Mathlib.Data.List.Basic
import Mathlib.Logic.Function.Basic

/-!
# The item queue (`queue.c`)

Any number of threads push and pop, one at a time on each side: behind a lock, or because there is one
thread only. A step is one atomic load or store, or one access to a slot.

`head` is the slot last popped and `tail` the next free one; between them lie the items, and `head`
itself is a gap. Only a thread that pushes moves `tail`, so that it does not matter in which order the
operands of its comparison are loaded.
-/

namespace Agoo

namespace Queue

variable {α : Type}

/-! ## The queue -/

inductive WaitState
  | notWaiting | waiting | notified
  deriving DecidableEq

/-- `struct _agooQueue`: pointers are indices of slots, and NULL is none. `sockets` is whether there
is a pipe. -/
structure AgooQueue (α : Type) where
  slots : List (Option α)
  head : ℕ
  tail : ℕ
  multiPush : Bool
  multiPop : Bool
  pushLock : Bool
  popLock : Bool
  waitState : WaitState
  sockets : Bool

/-- `q->end - q->q`. -/
def AgooQueue.size (q : AgooQueue α) : ℕ := q.slots.length

/-- `agoo_queue_multi_init`. -/
def multiInit (α : Type) (qsize : ℕ) (multiPush multiPop : Bool) : AgooQueue α where
  slots := List.replicate (if qsize < 4 then 4 else qsize) none
  head := 0
  tail := 1
  multiPush := multiPush
  multiPop := multiPop
  pushLock := false
  popLock := false
  waitState := .notWaiting
  sockets := false

def AgooQueue.slotAt (q : AgooQueue α) (i : ℕ) : Option α := q.slots[i]?.join

def AgooQueue.setSlot (q : AgooQueue α) (i : ℕ) (item : Option α) : AgooQueue α :=
  { q with slots := q.slots.set i item }

/-- The slot behind another. -/
def AgooQueue.next (q : AgooQueue α) (i : ℕ) : ℕ := if q.size ≤ i + 1 then 0 else i + 1

/-! ## Threads -/

/-- Where a thread is in `agoo_queue_push`. -/
inductive PushPc (α : Type)
  | idle
  /-- Before the lock. -/
  | lock (item : α)
  /-- Before the load of `head`, and with what was loaded before that of `tail`. -/
  | full (item : α)
  | fullHead (item : α) (head : ℕ)
  /-- Before the load of `tail`, and before the slot is written. -/
  | slot (item : α)
  | write (item : α) (tail : ℕ)
  /-- Before the load of `tail`, and before it is stored. -/
  | advance
  | store (tail : ℕ)
  | unlock
  /-- Before the load of `wait_state`, and before it is stored. -/
  | wake
  | notify

/-- One step of `agoo_queue_push`. -/
def pushStep (q : AgooQueue α) : PushPc α → Option (PushPc α × AgooQueue α)
  | .idle => none
  | .lock item =>
    if q.multiPush then
      if q.pushLock then some (.lock item, q) else some (.full item, { q with pushLock := true })
    else some (.full item, q)
  | .full item => some (.fullHead item q.head, q)
  | .fullHead item head => some (if head = q.tail then .full item else .slot item, q)
  | .slot item => some (.write item q.tail, q)
  | .write item tail => some (.advance, q.setSlot tail (some item))
  | .advance => some (.store (q.next q.tail), q)
  | .store tail => some (.unlock, { q with tail := tail })
  | .unlock => some (.wake, if q.multiPush then { q with pushLock := false } else q)
  | .wake => some (if q.sockets && q.waitState = .waiting then .notify else .idle, q)
  | .notify => some (.idle, { q with waitState := .notified })

/-- Where a thread is in `agoo_queue_pop`; `cnt` are the waits left. -/
inductive PopPc (α : Type)
  | idle
  /-- Before the lock. -/
  | lock (cnt : ℤ)
  /-- Before the load of `head`, and before its slot is read. -/
  | first (cnt : ℤ)
  | read (cnt : ℤ) (head : ℕ)
  /-- There was an item at `head`: before the load of `head`, and before its slot is cleared. -/
  | clear (item : α)
  | clearAt (item : α) (head : ℕ)
  /-- Before the load of `head`. -/
  | next (cnt : ℤ)
  /-- Before the load of `tail`. -/
  | wait (cnt : ℤ) (next : ℕ)
  | listen (cnt : ℤ) (next : ℕ)
  | poll (cnt : ℤ) (next : ℕ)
  | release (cnt : ℤ) (next : ℕ)
  /-- Before `head` is stored, before the slot is read, and before it is cleared. -/
  | advance (next : ℕ)
  | take (next : ℕ)
  | erase (next : ℕ) (item : Option α)
  /-- Before the lock is cleared, and after the return. -/
  | unlock (timedOut : Bool) (item : Option α)
  | done (timedOut : Bool) (item : Option α)

/-- One step of `agoo_queue_pop`; `ready` is what `poll` finds. -/
def popStep (q : AgooQueue α) (ready : Bool) : PopPc α → Option (PopPc α × AgooQueue α)
  | .idle => none
  | .done _ _ => none
  | .lock cnt =>
    if q.multiPop then
      if q.popLock then some (.lock cnt, q) else some (.first cnt, { q with popLock := true })
    else some (.first cnt, q)
  | .first cnt => some (.read cnt q.head, q)
  | .read cnt head =>
    match q.slotAt head with
    | some item => some (.clear item, q)
    | none => some (.next cnt, q)
  | .clear item => some (.clearAt item q.head, q)
  | .clearAt item head => some (.unlock false (some item), q.setSlot head none)
  | .next cnt => some (.wait cnt (q.next q.head), q)
  | .wait cnt next =>
    if q.tail = next then
      if cnt ≤ 0 then some (.unlock true none, q) else some (.listen cnt next, q)
    else some (.advance next, q)
  | .listen cnt next => some (.poll cnt next, { q with sockets := true, waitState := .waiting })
  | .poll cnt next => some (if ready then .release cnt next else .wait (cnt - 1) next, q)
  | .release cnt next => some (.wait (cnt - 1) next, { q with waitState := .notWaiting })
  | .advance next => some (.take next, { q with head := next })
  | .take next => some (.erase next (q.slotAt next), q)
  | .erase next item => some (.unlock false item, q.setSlot next none)
  | .unlock timedOut item =>
    some (.done timedOut item, if q.multiPop then { q with popLock := false } else q)

/-! ## Observers -/

/-- `agoo_queue_empty`. -/
def queueEmpty (q : AgooQueue α) : Bool := (q.slotAt q.head).isNone && q.tail = q.next q.head

/-- The number of slots as an `int`. -/
def AgooQueue.intSize (q : AgooQueue α) : ℤ := (q.size : ℤ).bmod 0x100000000

/-- `agoo_queue_count`: the remainder has the sign of what is divided, and a division by 0 has no
result. -/
def queueCount (q : AgooQueue α) : Option ℤ :=
  if q.intSize = 0 then none else some (((q.tail : ℤ) - q.head + q.intSize).tmod q.intSize)

/-! ## The system -/

/-- The queue and its threads, with the items that were pushed and popped so far. -/
structure Sys (α : Type) where
  queue : AgooQueue α
  pushers : ℕ → PushPc α
  poppers : ℕ → PopPc α
  pushed : List α
  popped : List (Option α)

/-- A thread calls, or takes a step in its call. -/
inductive Action (α : Type)
  | push (i : ℕ) (item : α)
  | pushStep (i : ℕ)
  | pop (i : ℕ) (cnt : ℤ)
  | popStep (i : ℕ) (ready : Bool)

/-- The item that the next step pushes. -/
def PushPc.pushes : PushPc α → List α
  | .write item _ => [item]
  | _ => []

/-- The item that the next step pops. -/
def PopPc.pops : PopPc α → List (Option α)
  | .clearAt item _ => [some item]
  | .erase _ item => [item]
  | _ => []

/-- The thread is in no call. -/
def PushPc.isIdle : PushPc α → Bool
  | .idle => true
  | _ => false

def PopPc.isIdle : PopPc α → Bool
  | .idle => true
  | .done _ _ => true
  | _ => false

/-- A step of the system. Without a lock there is one thread, with the number 0. -/
def step (s : Sys α) : Action α → Option (Sys α)
  | .push i item =>
    if (s.pushers i).isIdle && (s.queue.multiPush || i = 0) then
      some { s with pushers := Function.update s.pushers i (.lock item) }
    else none
  | .pushStep i => (pushStep s.queue (s.pushers i)).map fun r =>
    { s with
      queue := r.2
      pushers := Function.update s.pushers i r.1
      pushed := s.pushed ++ (s.pushers i).pushes }
  | .pop i cnt =>
    if (s.poppers i).isIdle && (s.queue.multiPop || i = 0) then
      some { s with poppers := Function.update s.poppers i (.lock cnt) }
    else none
  | .popStep i ready => (popStep s.queue ready (s.poppers i)).map fun r =>
    { s with
      queue := r.2
      poppers := Function.update s.poppers i r.1
      popped := s.popped ++ (s.poppers i).pops }

/-- All calls are over. -/
def Quiescent (s : Sys α) : Prop :=
  (∀ i, (s.pushers i).isIdle = true) ∧ ∀ i, (s.poppers i).isIdle = true

/-- The number of items that were pushed and not popped. -/
def Sys.unpopped (s : Sys α) : ℕ := s.pushed.length - s.popped.length

/-- A new queue. -/
def start (α : Type) (qsize : ℕ) (multiPush multiPop : Bool) : Sys α :=
  ⟨multiInit α qsize multiPush multiPop, fun _ => .idle, fun _ => .idle, [], []⟩

/-- The thread holds the lock, or needs none. -/
def PushPc.inside : PushPc α → Bool
  | .idle => false
  | .lock _ => false
  | .wake => false
  | .notify => false
  | _ => true

def PopPc.inside : PopPc α → Bool
  | .idle => false
  | .lock _ => false
  | .done _ _ => false
  | _ => true

end Queue

end Agoo
