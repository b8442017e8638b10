import Agoo.Bytes
import Agoo.Queue

/-!
# The log queue (`log.c`)

Any number of threads append entries to a ring, one at a time behind `push_lock`; the log thread pops
them, prints them from the slots of the ring and then frees their long texts; other threads wait for the
ring to be empty. A step is one atomic load or store, or one access to a field of an entry.

`head` is the slot last popped, from which the loop prints, and `tail` the next free one. A rotation
leaves the file open, and what was printed is in it or in an archive.
-/

namespace Agoo

namespace Log

/-! ## Entries -/

/-- `struct _agooLogCat`: what is printed of it. -/
structure AgooLogCat where
  label : Bytes
  level : ℕ
  color : Bytes
  deriving DecidableEq

/-- `whatp` and `tidp`: a text in memory of its own, and whether that was freed. -/
inductive Long
  | null
  | text (s : Bytes)
  | freed
  deriving DecidableEq

/-- `NULL == p ? s : p`: there is nothing to print in memory that was freed. -/
def Long.orElse (p : Long) (s : Bytes) : Option Bytes :=
  match p with
  | null => some s
  | text t => some t
  | freed => none

/-- `AGOO_FREE`. -/
def Long.free (p : Long) : Long :=
  match p with
  | null => null
  | text _ => freed
  | freed => freed

/-- `struct _agooLogEntry`. -/
structure AgooLogEntry where
  cat : Option AgooLogCat
  when : ℤ
  whatp : Long
  what : Bytes
  ready : Bool
  tidp : Long
  tid : Bytes
  deriving DecidableEq

/-- An entry of new memory. -/
def AgooLogEntry.calloc : AgooLogEntry := ⟨none, 0, .null, [], false, .null, []⟩

def AgooLogEntry.printedWhat (e : AgooLogEntry) : Option Bytes := e.whatp.orElse e.what

def AgooLogEntry.printedTid (e : AgooLogEntry) : Option Bytes := e.tidp.orElse e.tid

/-- The fields that are printed of an entry. -/
structure LogLine where
  when : ℤ
  cat : Option AgooLogCat
  tid : Option Bytes
  what : Option Bytes
  deriving DecidableEq

/-- A call of `agoo_log_catv`: the arguments, with the format filled in, what is read of the category and
the clock, and whether there is memory for long texts. -/
structure Call where
  cat : AgooLogCat
  on : Bool
  tid : Option Bytes
  what : Bytes
  now : ℤ
  whatMem : Bool
  tidMem : Bool
  deriving DecidableEq

/-! `set_entry`, field by field. -/

def setCat (c : Call) (e : AgooLogEntry) : AgooLogEntry := { e with cat := some c.cat }

def setWhen (c : Call) (e : AgooLogEntry) : AgooLogEntry := { e with when := c.now }

def setWhat (c : Call) (e : AgooLogEntry) : AgooLogEntry :=
  if c.what.length < 104 then { e with whatp := .null, what := c.what }
  else { e with whatp := if c.whatMem then .text c.what else .null, what := c.what.take 103 }

def setTid (c : Call) (e : AgooLogEntry) : AgooLogEntry :=
  match c.tid with
  | some tid =>
    if tid.length < 40 then { e with tidp := .null, tid }
    else if c.tidMem then { e with tidp := .text tid, tid := [] }
    else { e with tidp := .null }
  | none => { e with tidp := .null, tid := [] }

/-- `set_entry`. -/
def setEntry (c : Call) (e : AgooLogEntry) : AgooLogEntry := setTid c (setWhat c (setWhen c (setCat c e)))

/-! ## The ring -/

/-- `struct _agooLog`: pointers are indices of entries, `file` is whether there is one. -/
structure AgooLog where
  q : List AgooLogEntry
  head : ℕ
  tail : ℕ
  pushLock : Bool
  waitState : Queue.WaitState
  wsock : Bool
  done : Bool
  thread : Bool
  console : Bool
  file : Bool

/-- `agoo_log.end - agoo_log.q`. -/
def AgooLog.size (log : AgooLog) : ℕ := log.q.length

/-- `agoo_log_init`. -/
def agooLogInit (qsize : ℕ) (console file : Bool) : AgooLog where
  q := List.replicate qsize .calloc
  head := 0
  tail := 1
  pushLock := false
  waitState := .notWaiting
  wsock := false
  done := false
  thread := false
  console := console
  file := file

def AgooLog.entry (log : AgooLog) (i : ℕ) : AgooLogEntry := log.q.getD i .calloc

def AgooLog.modify (log : AgooLog) (i : ℕ) (f : AgooLogEntry → AgooLogEntry) : AgooLog :=
  { log with q := log.q.modify i f }

/-- The slot behind another. -/
def AgooLog.next (log : AgooLog) (i : ℕ) : ℕ := if log.size ≤ i + 1 then 0 else i + 1

/-! ## Threads that append -/

/-- Where a thread is in `agoo_log_catv`. -/
inductive CatvPc
  | idle
  /-- Before `on` and `done` are read. -/
  | check (c : Call)
  | lock (c : Call)
  /-- Before `thread` is read, before the entry is printed at once, and before the lock is cleared. -/
  | thread (c : Call)
  | direct (c : Call)
  | release
  /-- Before the load of `head`, and with what was loaded before that of `tail`. -/
  | full (c : Call)
  | fullHead (c : Call) (head : ℕ)
  /-- Before the load of `tail`, and before each field is set. -/
  | slot (c : Call)
  | setCat (c : Call) (tail : ℕ)
  | setWhen (c : Call) (tail : ℕ)
  | setWhat (c : Call) (tail : ℕ)
  | setTid (c : Call) (tail : ℕ)
  /-- Before `tail` is stored, and before the lock is cleared. -/
  | store (c : Call) (tail : ℕ)
  | unlock
  /-- Before the load of `wait_state`, and before it is stored. -/
  | wake
  | notify
  deriving DecidableEq

/-- One step of `agoo_log_catv`. -/
def catvStep (log : AgooLog) : CatvPc → Option (CatvPc × AgooLog)
  | .idle => none
  | .check c => some (if c.on && !log.done then .lock c else .idle, log)
  | .lock c =>
    if log.pushLock then some (.lock c, log) else some (.thread c, { log with pushLock := true })
  | .thread c => some (if log.thread then .full c else .direct c, log)
  | .direct _ => some (.release, log)
  | .release => some (.idle, { log with pushLock := false })
  | .full c => some (.fullHead c log.head, log)
  | .fullHead c head => some (if head = log.tail then .full c else .slot c, log)
  | .slot c => some (.setCat c log.tail, log)
  | .setCat c tail => some (.setWhen c tail, log.modify tail (setCat c))
  | .setWhen c tail => some (.setWhat c tail, log.modify tail (setWhen c))
  | .setWhat c tail => some (.setTid c tail, log.modify tail (setWhat c))
  | .setTid c tail => some (.store c tail, log.modify tail (setTid c))
  | .store _ tail => some (.unlock, { log with tail := log.next tail })
  | .unlock => some (.wake, { log with pushLock := false })
  | .wake => some (if log.wsock && log.waitState = .waiting then .notify else .idle, log)
  | .notify => some (.idle, { log with waitState := .notified })

/-! ## The log thread -/

/-- Where an entry is printed. -/
inductive Out
  | stdout | file
  deriving DecidableEq

/-- Where the log thread is in `loop`; `cnt` are the waits left in `agoo_log_queue_pop`. -/
inductive LoopPc
  /-- Before `done` is read. -/
  | start
  /-- In `agoo_log_queue_empty`: before the load of `head`, before `ready` is read, and before the load of
  `tail`. -/
  | emptyHead
  | emptyReady (head : ℕ)
  | emptyTail (head : ℕ)
  /-- In `agoo_log_queue_pop`: before the load of `head`, before `ready` is read, and before `head` is
  loaded once more. -/
  | first
  | read (head : ℕ)
  | next
  /-- Before the load of `tail`. -/
  | wait (cnt : ℤ) (next : ℕ)
  | listen (cnt : ℤ) (next : ℕ)
  | poll (cnt : ℤ) (next : ℕ)
  | release (cnt : ℤ) (next : ℕ)
  /-- Before `head` is stored. -/
  | advance (next : ℕ)
  /-- Before `console` and before `file` are read. -/
  | console (e : ℕ)
  | file (e : ℕ)
  /-- Before each field is read, and before the line is printed. -/
  | printWhen (out : Out) (e : ℕ)
  | printCat (out : Out) (e : ℕ) (when : ℤ)
  | printTid (out : Out) (e : ℕ) (when : ℤ) (cat : Option AgooLogCat)
  | printWhat (out : Out) (e : ℕ) (when : ℤ) (cat : Option AgooLogCat) (tid : Option Bytes)
  | printLine (out : Out) (e : ℕ) (line : LogLine)
  /-- Before the size of the file is looked at. -/
  | size (e : ℕ)
  /-- Before the texts are freed, and before `ready` is stored. -/
  | freeWhat (e : ℕ)
  | freeTid (e : ℕ)
  | clear (e : ℕ)
  | ended
  deriving DecidableEq

/-- One step of `loop`; `event` is what `poll` finds. -/
def loopStep (log : AgooLog) (event : Bool) : LoopPc → Option (LoopPc × AgooLog)
  | .start => some (if log.done then .emptyHead else .first, log)
  | .emptyHead => some (.emptyReady log.head, log)
  | .emptyReady head => some (if (log.entry head).ready then .first else .emptyTail head, log)
  | .emptyTail head => some (if log.tail = log.next head then .ended else .first, log)
  | .first => some (.read log.head, log)
  | .read head => some (if (log.entry head).ready then .console head else .next, log)
  | .next => some (.wait 5 (log.next log.head), log)
  | .wait cnt next =>
    if log.tail = next then some (if cnt ≤ 0 then .start else .listen cnt next, log)
    else some (.advance next, log)
  | .listen cnt next => some (.poll cnt next, { log with wsock := true, waitState := .waiting })
  | .poll cnt next => some (if event then .release cnt next else .wait (cnt - 1) next, log)
  | .release cnt next => some (.wait (cnt - 1) next, { log with waitState := .notWaiting })
  | .advance next => some (.console next, { log with head := next })
  | .console e => some (if log.console then .printWhen .stdout e else .file e, log)
  | .file e => some (if log.file then .printWhen .file e else .freeWhat e, log)
  | .printWhen out e => some (.printCat out e (log.entry e).when, log)
  | .printCat out e when => some (.printTid out e when (log.entry e).cat, log)
  | .printTid out e when cat => some (.printWhat out e when cat (log.entry e).printedTid, log)
  | .printWhat out e when cat tid =>
    some (.printLine out e ⟨when, cat, tid, (log.entry e).printedWhat⟩, log)
  | .printLine .stdout e _ => some (.file e, log)
  | .printLine .file e _ => some (.size e, log)
  | .size e => some (.freeWhat e, log)
  | .freeWhat e => some (.freeTid e, log.modify e fun x => { x with whatp := x.whatp.free })
  | .freeTid e => some (.clear e, log.modify e fun x => { x with tidp := x.tidp.free })
  | .clear e => some (.start, log.modify e fun x => { x with ready := false })
  | .ended => none

/-! ## Threads that flush -/

/-- Where a thread is in `agoo_log_flush`, with the number of entries stored before the call; `popped` is
how many were popped when `head` was loaded, and `lapped` whether a round of the ring more than these were
stored when `tail` was. -/
inductive FlushPc
  | idle
  /-- Before `done` is read. -/
  | done (before : ℕ)
  | head (before : ℕ)
  | ready (before head popped : ℕ)
  | tail (before head popped : ℕ)
  /-- Before the clock is read. -/
  | timeout (before : ℕ)
  /-- Before `fflush` and the return. -/
  | fflush (before : ℕ) (lapped : Bool)
  deriving DecidableEq

/-- One step of `agoo_log_flush`, with the numbers of entries stored and popped. -/
def flushStep (log : AgooLog) (timedOut : Bool) (stored popped : ℕ) : FlushPc → Option FlushPc
  | .idle => none
  | .done before => some (if log.done then .fflush before false else .head before)
  | .head before => some (.ready before log.head popped)
  | .ready before head popped =>
    some (if (log.entry head).ready then .timeout before else .tail before head popped)
  | .tail before head popped =>
    some (if log.tail = log.next head then .fflush before (popped + log.size ≤ stored)
      else .timeout before)
  | .timeout before => some (if timedOut then .idle else .done before)
  | .fflush _ _ => some .idle

/-! ## The system -/

/-- The log and its threads: the calls whose entries were stored, how many entries were popped, the lines
printed by the log thread, how many of those in the file were written out of its buffer, the lines printed
by other threads, and for each flush that succeeded while the log was not done how many entries had been
stored before the call and how many lines were in the file at the return. -/
structure Sys where
  log : AgooLog
  catv : ℕ → CatvPc
  loop : LoopPc
  flush : ℕ → FlushPc
  stored : List Call
  popped : ℕ
  stdout : List LogLine
  file : List LogLine
  synced : ℕ
  direct : List Call
  flushed : List (ℕ × ℕ)

/-- A thread calls or takes a step in its call, the log thread takes one, `agoo_log_start` stores the
thread, or `agoo_log_close` sets `done`. -/
inductive Action
  | catv (i : ℕ) (c : Call)
  | catvStep (i : ℕ)
  | loopStep (event : Bool)
  | flush (i : ℕ)
  | flushStep (i : ℕ) (timedOut : Bool)
  | start
  | close
  deriving DecidableEq

/-- The call whose entry the next step stores. -/
def CatvPc.stores : CatvPc → List Call
  | .store c _ => [c]
  | _ => []

/-- The call whose entry the next step prints. -/
def CatvPc.prints : CatvPc → List Call
  | .direct c => [c]
  | _ => []

/-- The line that the next step prints. -/
def LoopPc.prints (out : Out) : LoopPc → List LogLine
  | .printLine out' _ line => if out = out' then [line] else []
  | _ => []

/-- How many entries the next step pops. -/
def LoopPc.pops : LoopPc → ℕ
  | .advance _ => 1
  | _ => 0

/-- How many lines are in the file after the next step: a rotation, when the file has become too long,
writes those that were printed. -/
def LoopPc.syncs (full : Bool) (synced printed : ℕ) : LoopPc → ℕ
  | .size _ => if full then printed else synced
  | _ => synced

/-- A flush that succeeds in the next step, with the lines that are in the file then. -/
def FlushPc.returns (done : Bool) (synced : ℕ) : FlushPc → List (ℕ × ℕ)
  | .fflush before _ => if done then [] else [(before, synced)]
  | _ => []

/-- How many lines are in the file after the next step: `fflush` writes all that were printed. -/
def FlushPc.syncs (synced printed : ℕ) : FlushPc → ℕ
  | .fflush _ _ => printed
  | _ => synced

/-- A step of the system; `event` is what `poll` finds, or whether the file is to be rotated. -/
def step (s : Sys) : Action → Option Sys
  | .catv i c =>
    if s.catv i = .idle then some { s with catv := Function.update s.catv i (.check c) } else none
  | .catvStep i => (catvStep s.log (s.catv i)).map fun r =>
    { s with
      log := r.2
      catv := Function.update s.catv i r.1
      stored := s.stored ++ (s.catv i).stores
      direct := s.direct ++ (s.catv i).prints }
  | .loopStep event => (loopStep s.log event s.loop).map fun r =>
    { s with
      log := r.2
      loop := r.1
      popped := s.popped + s.loop.pops
      stdout := s.stdout ++ s.loop.prints .stdout
      file := s.file ++ s.loop.prints .file
      synced := s.loop.syncs event s.synced s.file.length }
  | .flush i =>
    if s.flush i = .idle then
      some { s with flush := Function.update s.flush i (.done s.stored.length) }
    else none
  | .flushStep i timedOut =>
    (flushStep s.log timedOut s.stored.length s.popped (s.flush i)).map fun pc =>
      { s with
        flush := Function.update s.flush i pc
        synced := (s.flush i).syncs s.synced s.file.length
        flushed := s.flushed ++
          (s.flush i).returns s.log.done ((s.flush i).syncs s.synced s.file.length) }
  | .start => some { s with log := { s.log with thread := true } }
  | .close => some { s with log := { s.log with done := true } }

/-- A log with no entries yet, after `agoo_log_init`. -/
def start (qsize : ℕ) (console file : Bool) : Sys :=
  ⟨agooLogInit qsize console file, fun _ => .idle, .start, fun _ => .idle, [], 0, [], [], 0, [], []⟩

end Log

end Agoo
