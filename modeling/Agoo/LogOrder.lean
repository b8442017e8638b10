import Agoo.Excl
import Agoo.Log
import Agoo.QueueOrder
import Mathlib.Data.List.Forall2

/-!
# The order of the lines of a log

`Good s`: the slots behind the last one popped hold the entries of the calls stored and not popped, and
until it was printed also the last one popped does. `log_writes`: the lines printed are those of the calls
stored first, in their order, and no thread that appends writes to the entry that is printed.
-/

namespace Agoo

namespace Log

/-! ## Lines and calls -/

/-- The text printed for a call: cut off without memory for a long one. -/
def Call.printedWhat (c : Call) : Bytes :=
  if c.what.length < 104 ∨ c.whatMem = true then c.what else c.what.take 103

/-- What is printed for the thread of a call; without memory for a long one it is what the slot held. -/
def TidOf (tid : Option Bytes) (c : Call) : Prop :=
  tid = some (c.tid.getD []) ∨ c.tidMem = false ∧ tid.isSome = true

/-- The line is the one of the call. -/
structure LogLine.Of (line : LogLine) (c : Call) : Prop where
  when : line.when = c.now
  cat : line.cat = some c.cat
  tid : TidOf line.tid c
  what : line.what = some c.printedWhat

def AgooLogEntry.line (e : AgooLogEntry) : LogLine := ⟨e.when, e.cat, e.printedTid, e.printedWhat⟩

theorem setWhat_printed (c : Call) (e : AgooLogEntry) :
    (setWhat c e).printedWhat = some c.printedWhat := by
  unfold setWhat Call.printedWhat AgooLogEntry.printedWhat
  by_cases hlen : c.what.length < 104
  · rw [if_pos hlen, if_pos (Or.inl hlen)]
    rfl
  · rw [if_neg hlen]
    cases hmem : c.whatMem with
    | true => simp [Long.orElse]
    | false => simp [Long.orElse, hlen]

theorem setWhat_cat (c : Call) (e : AgooLogEntry) : (setWhat c e).cat = e.cat := by
  unfold setWhat
  split_ifs <;> rfl

theorem setWhat_when (c : Call) (e : AgooLogEntry) : (setWhat c e).when = e.when := by
  unfold setWhat
  split_ifs <;> rfl

/-- The thread is set last. -/
theorem setTid_of {c : Call} {e : AgooLogEntry} (hwhen : e.when = c.now) (hcat : e.cat = some c.cat)
    (hwhat : e.printedWhat = some c.printedWhat) : (setTid c e).line.Of c := by
  unfold setTid
  cases htid : c.tid with
  | none => exact ⟨hwhen, hcat, Or.inl (by rw [htid]; rfl), hwhat⟩
  | some tid =>
    dsimp only
    split_ifs with hlen hmem
    · exact ⟨hwhen, hcat, Or.inl (by rw [htid]; rfl), hwhat⟩
    · exact ⟨hwhen, hcat, Or.inl (by rw [htid]; rfl), hwhat⟩
    · exact ⟨hwhen, hcat, Or.inr ⟨Bool.eq_false_iff.mpr hmem, rfl⟩, hwhat⟩

/-- No field that is set says that the entry is ready. -/
theorem set_ready (c : Call) (e : AgooLogEntry) :
    (setCat c e).ready = e.ready ∧ (setWhen c e).ready = e.ready ∧ (setWhat c e).ready = e.ready ∧
      (setTid c e).ready = e.ready := by
  refine ⟨rfl, rfl, ?_, ?_⟩
  · unfold setWhat
    split_ifs <;> rfl
  · unfold setTid
    cases c.tid with
    | none => rfl
    | some tid =>
      dsimp only
      split_ifs <;> rfl

/-! ## Slots -/

@[simp] theorem modify_size (log : AgooLog) (i : ℕ) (f : AgooLogEntry → AgooLogEntry) :
    (log.modify i f).size = log.size := List.length_modify f log.q i

theorem entry_modify_self {log : AgooLog} {i : ℕ} (h : i < log.size) (f : AgooLogEntry → AgooLogEntry) :
    (log.modify i f).entry i = f (log.entry i) := by
  unfold AgooLog.entry AgooLog.modify
  rw [List.getD_eq_getElem?_getD, List.getD_eq_getElem?_getD, List.getElem?_modify_eq,
    List.getElem?_eq_getElem h]
  rfl

theorem entry_modify_other {log : AgooLog} {i j : ℕ} (h : i ≠ j) (f : AgooLogEntry → AgooLogEntry) :
    (log.modify i f).entry j = log.entry j := by
  unfold AgooLog.entry
  rw [List.getD_eq_getElem?_getD, List.getD_eq_getElem?_getD]
  show (log.q.modify i f)[j]?.getD .calloc = log.q[j]?.getD .calloc
  rw [List.getElem?_modify_ne f log.q h]

theorem next_mod {log : AgooLog} (hsize : 0 < log.size) (n : ℕ) :
    log.next (n % log.size) = (n + 1) % log.size := by
  have hlt := Nat.mod_lt n hsize
  unfold AgooLog.next
  rw [← Nat.mod_add_mod n log.size 1]
  split_ifs with h
  · have heq : n % log.size + 1 = log.size := by omega
    rw [heq, Nat.mod_self]
  · exact (Nat.mod_eq_of_lt (by omega)).symm

/-- What `f` does to a slot does not make it ready. -/
theorem modify_ready {log : AgooLog} (h : ∀ j, (log.entry j).ready = false) {i : ℕ}
    {f : AgooLogEntry → AgooLogEntry} (hf : ∀ e : AgooLogEntry, e.ready = false → (f e).ready = false)
    (j : ℕ) : ((log.modify i f).entry j).ready = false := by
  by_cases hij : i = j
  · subst hij
    rcases lt_or_ge i log.size with hlt | hge
    · rw [entry_modify_self hlt]
      exact hf _ (h i)
    · unfold AgooLog.entry
      rw [List.getD_eq_getElem?_getD, List.getElem?_eq_none]
      · rfl
      · rw [← modify_size log i f] at hge
        exact hge
  · rw [entry_modify_other hij]
    exact h j

/-! ## Where threads are -/

/-- The thread holds the lock. -/
def CatvPc.inside : CatvPc → Bool
  | .idle => false
  | .check _ => false
  | .lock _ => false
  | .wake => false
  | .notify => false
  | _ => true

def CatvPc.isIdle (pc : CatvPc) : Bool := pc = .idle

/-- The entry popped last is yet to be printed. -/
def LoopPc.pending (out : Out) : LoopPc → ℕ
  | .console _ => 1
  | .file _ => if out = .file then 1 else 0
  | .printWhen out' _ => if out = .file ∨ out = out' then 1 else 0
  | .printCat out' _ _ => if out = .file ∨ out = out' then 1 else 0
  | .printTid out' _ _ _ => if out = .file ∨ out = out' then 1 else 0
  | .printWhat out' _ _ _ _ => if out = .file ∨ out = out' then 1 else 0
  | .printLine out' _ _ => if out = .file ∨ out = out' then 1 else 0
  | _ => 0

/-- `tail` is not where `head` is: there is room for one more entry, and `tail` is its slot. -/
def Room (log : AgooLog) (A P tail : ℕ) : Prop := P + 1 < A + log.size ∧ tail = (P + 1) % log.size

/-- What a thread that appends knows: `head` was moved `A` times and `tail` `P` times. -/
def CatvOk (log : AgooLog) (A P : ℕ) : CatvPc → Prop
  | .fullHead _ head => ∃ a ≤ A, head = a % log.size ∧ P < a + log.size
  | .slot _ => P + 1 < A + log.size
  | .setCat _ tail => Room log A P tail
  | .setWhen c tail => Room log A P tail ∧ (log.entry tail).cat = some c.cat
  | .setWhat c tail =>
    Room log A P tail ∧ (log.entry tail).when = c.now ∧ (log.entry tail).cat = some c.cat
  | .setTid c tail => Room log A P tail ∧ (log.entry tail).when = c.now ∧
      (log.entry tail).cat = some c.cat ∧ (log.entry tail).printedWhat = some c.printedWhat
  | .store c tail => Room log A P tail ∧ (log.entry tail).line.Of c
  | _ => True

def AgooLog.on (log : AgooLog) : Out → Bool
  | .stdout => log.console
  | .file => log.file

/-- `e` is the slot of the entry popped last, the one of the call `c`. -/
structure Popped (log : AgooLog) (A : ℕ) (stored : List Call) (e : ℕ) (c : Call) : Prop where
  slot : e = A % log.size
  pos : 0 < A
  call : stored[A - 1]? = some c

/-- What the log thread knows. -/
def LoopOk (log : AgooLog) (A : ℕ) (stored : List Call) : LoopPc → Prop
  | .wait _ next => next = (A + 1) % log.size
  | .listen _ next => next = (A + 1) % log.size
  | .poll _ next => next = (A + 1) % log.size
  | .release _ next => next = (A + 1) % log.size
  | .advance next => next = (A + 1) % log.size ∧ A < stored.length
  | .console e => ∃ c, Popped log A stored e c
  | .file e => ∃ c, Popped log A stored e c
  | .printWhen out e => log.on out = true ∧ ∃ c, Popped log A stored e c
  | .printCat out e when => log.on out = true ∧ ∃ c, Popped log A stored e c ∧ when = c.now
  | .printTid out e when cat =>
    log.on out = true ∧ ∃ c, Popped log A stored e c ∧ when = c.now ∧ cat = some c.cat
  | .printWhat out e when cat tid => log.on out = true ∧
      ∃ c, Popped log A stored e c ∧ when = c.now ∧ cat = some c.cat ∧ TidOf tid c
  | .printLine out e line => log.on out = true ∧ ∃ c, Popped log A stored e c ∧ line.Of c
  | .size e => e = A % log.size
  | .freeWhat e => e = A % log.size
  | .freeTid e => e = A % log.size
  | .clear e => e = A % log.size
  | _ => True

/-- The lines are those of the first `k` calls, if any are printed. -/
def Printed (on : Bool) (lines : List LogLine) (stored : List Call) (k : ℕ) : Prop :=
  if on then List.Forall₂ LogLine.Of lines (stored.take k) else lines = []

def Sys.lines (s : Sys) : Out → List LogLine
  | .stdout => s.stdout
  | .file => s.file

/-- The state of the system: `head` was moved once for each entry popped, `tail` for each stored. -/
structure Good (s : Sys) : Prop where
  size : 2 ≤ s.log.size
  head : s.log.head = s.popped % s.log.size
  tail : s.log.tail = (s.stored.length + 1) % s.log.size
  order : s.popped ≤ s.stored.length ∧ s.stored.length < s.popped + s.log.size
  slots : ∀ n c, s.popped ≤ n + s.loop.pending .file → s.stored[n]? = some c →
    (s.log.entry ((n + 1) % s.log.size)).line.Of c
  ready : ∀ i, (s.log.entry i).ready = false
  excl : Excl CatvPc.inside CatvPc.isIdle true s.log.pushLock s.catv
  catv : ∀ i, CatvOk s.log s.popped s.stored.length (s.catv i)
  loop : LoopOk s.log s.popped s.stored s.loop
  out : ∀ out, Printed (s.log.on out) (s.lines out) s.stored (s.popped - s.loop.pending out)

/-! ## Steps that change no entry -/

/-- The logs differ in the lock, the flags and in what concerns waiting at most. -/
structure SameRing (log log' : AgooLog) : Prop where
  q : log'.q = log.q
  head : log'.head = log.head
  tail : log'.tail = log.tail
  console : log'.console = log.console
  file : log'.file = log.file

theorem SameRing.refl (log : AgooLog) : SameRing log log := ⟨rfl, rfl, rfl, rfl, rfl⟩

theorem SameRing.size {log log' : AgooLog} (h : SameRing log log') : log'.size = log.size :=
  congrArg List.length h.q

theorem SameRing.entry {log log' : AgooLog} (h : SameRing log log') : log'.entry = log.entry := by
  funext i
  unfold AgooLog.entry
  rw [h.q]

theorem SameRing.on {log log' : AgooLog} (h : SameRing log log') : log'.on = log.on := by
  funext out
  cases out with
  | stdout => exact h.console
  | file => exact h.file

theorem SameRing.catvOk {log log' : AgooLog} (h : SameRing log log') (A P : ℕ) :
    CatvOk log' A P = CatvOk log A P := by
  funext pc
  unfold CatvOk Room
  rw [h.size, h.entry]

/-- What the log thread knows depends on the size and on where it prints. -/
theorem loopOk_congr {log log' : AgooLog} (hsize : log'.size = log.size) (hon : log'.on = log.on) :
    LoopOk log' = LoopOk log := by
  funext A stored pc
  have hpopped : ∀ e c, Popped log' A stored e c ↔ Popped log A stored e c := by
    intro e c
    constructor
    · rintro ⟨hslot, hpos, hcall⟩
      exact ⟨hsize ▸ hslot, hpos, hcall⟩
    · rintro ⟨hslot, hpos, hcall⟩
      exact ⟨hsize.symm ▸ hslot, hpos, hcall⟩
  unfold LoopOk
  rw [hsize, hon]
  simp only [hpopped]

section Step

variable {s s' : Sys} (h : Good s)

include h

/-- Nothing but where the threads are changes. -/
theorem Good.move (hring : SameRing s.log s'.log) (hstored : s'.stored = s.stored)
    (hpopped : s'.popped = s.popped) (hlines : s'.lines = s.lines)
    (hpending : ∀ out, s'.loop.pending out = s.loop.pending out)
    (hexcl : Excl CatvPc.inside CatvPc.isIdle true s'.log.pushLock s'.catv)
    (hcatv : ∀ i, CatvOk s.log s.popped s.stored.length (s'.catv i))
    (hloop : LoopOk s.log s.popped s.stored s'.loop) : Good s' where
  size := hring.size ▸ h.size
  head := by rw [hring.head, hring.size, hpopped, h.head]
  tail := by rw [hring.tail, hring.size, hstored, h.tail]
  order := by rw [hring.size, hpopped, hstored]; exact h.order
  slots := by
    rw [hpopped, hstored, hring.entry, hring.size, hpending]
    exact h.slots
  ready := by
    rw [hring.entry]
    exact h.ready
  excl := hexcl
  catv := by
    rw [hring.catvOk, hpopped, hstored]
    exact hcatv
  loop := by
    rw [loopOk_congr hring.size hring.on, hpopped, hstored]
    exact hloop
  out := by
    intro out
    rw [hring.on, hlines, hstored, hpopped, hpending]
    exact h.out out

/-- One entry that is not among those stored changes. -/
theorem Good.modify {j : ℕ} {f : AgooLogEntry → AgooLogEntry} (hlog : s'.log = s.log.modify j f)
    (hf : ∀ e : AgooLogEntry, e.ready = false → (f e).ready = false)
    (hstored : s'.stored = s.stored) (hpopped : s'.popped = s.popped) (hlines : s'.lines = s.lines)
    (hpending : ∀ out, s'.loop.pending out = s.loop.pending out)
    (hother : ∀ n < s.stored.length, s.popped ≤ n + s.loop.pending .file → j ≠ (n + 1) % s.log.size)
    (hexcl : Excl CatvPc.inside CatvPc.isIdle true s.log.pushLock s'.catv)
    (hcatv : ∀ i, CatvOk s'.log s.popped s.stored.length (s'.catv i))
    (hloop : LoopOk s.log s.popped s.stored s'.loop) : Good s' where
  size := by
    rw [hlog, modify_size]
    exact h.size
  head := by
    rw [hlog, modify_size, hpopped]
    exact h.head
  tail := by
    rw [hlog, modify_size, hstored]
    exact h.tail
  order := by
    rw [hlog, modify_size, hpopped, hstored]
    exact h.order
  slots := by
    intro n c hn hc
    rw [hpopped, hpending] at hn
    rw [hstored] at hc
    have hlt := (List.getElem?_eq_some_iff.mp hc).1
    rw [hlog, modify_size, entry_modify_other (hother n hlt hn)]
    exact h.slots n c hn hc
  ready := by
    rw [hlog]
    exact modify_ready h.ready hf
  excl := by
    rw [hlog]
    exact hexcl
  catv := by
    rw [hpopped, hstored]
    exact hcatv
  loop := by
    rw [hlog, loopOk_congr (modify_size s.log j f) rfl, hpopped, hstored]
    exact hloop
  out := by
    intro out
    rw [hlog, hlines, hstored, hpopped, hpending]
    exact h.out out

end Step

/-! ## Steps of threads that append -/

/-- What a thread that appends knows stays so when `head` is moved. -/
theorem CatvOk.mono {log : AgooLog} {A P : ℕ} {pc : CatvPc} (h : CatvOk log A P pc) :
    CatvOk log (A + 1) P pc := by
  have hroom : ∀ {tail}, Room log A P tail → Room log (A + 1) P tail := by
    rintro tail ⟨hlt, htail⟩
    exact ⟨by omega, htail⟩
  cases pc with
  | fullHead c head =>
    obtain ⟨a, ha, hhead, hP⟩ := h
    exact ⟨a, ha.trans A.le_succ, hhead, hP⟩
  | slot c =>
    have hlt : P + 1 < A + log.size := h
    show P + 1 < A + 1 + log.size
    omega
  | setCat c tail => exact hroom h
  | setWhen c tail => exact h.imp_left hroom
  | setWhat c tail => exact h.imp_left hroom
  | setTid c tail => exact h.imp_left hroom
  | store c tail => exact h.imp_left hroom
  | _ => exact h

theorem catvOk_outside {log : AgooLog} {A P : ℕ} {pc : CatvPc} (h : pc.inside = false) :
    CatvOk log A P pc := by
  cases pc with
  | idle => trivial
  | check c => trivial
  | lock c => trivial
  | wake => trivial
  | notify => trivial
  | _ => cases h

theorem idle_outside {pc : CatvPc} (h : pc.inside = true) : pc.isIdle = false := by
  cases pc with
  | idle => cases h
  | _ => rfl

/-- What the log thread knows stays so when an entry is stored. -/
theorem LoopOk.append {log : AgooLog} {A : ℕ} {stored : List Call} {pc : LoopPc}
    (h : LoopOk log A stored pc) (hA : A ≤ stored.length) (c : Call) : LoopOk log A (stored ++ [c]) pc := by
  have hmono : ∀ {e d}, Popped log A stored e d → Popped log A (stored ++ [c]) e d := by
    rintro e d ⟨hslot, hpos, hcall⟩
    exact ⟨hslot, hpos, by rw [List.getElem?_append_left (by omega)]; exact hcall⟩
  cases pc with
  | advance next =>
    refine ⟨h.1, ?_⟩
    have hlt := h.2
    rw [List.length_append]
    omega
  | console e => exact h.imp fun _ => hmono
  | file e => exact h.imp fun _ => hmono
  | printWhen out e => exact ⟨h.1, h.2.imp fun _ => hmono⟩
  | printCat out e when => exact ⟨h.1, h.2.imp fun _ => And.imp_left hmono⟩
  | printTid out e when cat => exact ⟨h.1, h.2.imp fun _ => And.imp_left hmono⟩
  | printWhat out e when cat tid => exact ⟨h.1, h.2.imp fun _ => And.imp_left hmono⟩
  | printLine out e line => exact ⟨h.1, h.2.imp fun _ => And.imp_left hmono⟩
  | _ => exact h

section Catv

variable {s : Sys} (h : Good s) {i : ℕ}

include h

/-- The other threads are outside. -/
theorem Good.outside (hin : (s.catv i).inside = true) {j : ℕ} (hj : j ≠ i) : (s.catv j).inside = false :=
  Bool.eq_false_iff.mpr fun hjin => hj (h.excl.unique j i hjin hin)

/-- A thread takes a step that changes at most the lock, the flags and what concerns waiting. -/
theorem Good.catvMove {log : AgooLog} {pc : CatvPc} {direct : List Call} (hring : SameRing s.log log)
    (hexcl : Excl CatvPc.inside CatvPc.isIdle true log.pushLock (Function.update s.catv i pc))
    (hok : CatvOk s.log s.popped s.stored.length pc) :
    Good { s with
      log := log, catv := Function.update s.catv i pc, stored := s.stored ++ [], direct := direct } :=
  h.move hring (List.append_nil _) rfl rfl (fun _ => rfl) hexcl
    ((Function.forall_update_iff _ fun _ pc => CatvOk _ _ _ pc).mpr ⟨hok, fun j _ => h.catv j⟩) h.loop

/-- A thread that is inside takes a step inside. -/
theorem Good.catvInside {pc : CatvPc} {direct : List Call} (hin : (s.catv i).inside = true)
    (hok : CatvOk s.log s.popped s.stored.length pc) :
    Good { s with
      catv := Function.update s.catv i pc, stored := s.stored ++ [], direct := direct } :=
  h.catvMove (SameRing.refl _) (h.excl.stay (fun _ => hin) fun _ => idle_outside hin) hok

omit h in
/-- The slot at `tail` is none of those stored. -/
theorem Room.ne {log : AgooLog} {A P tail n : ℕ} (hroom : Room log A P tail) (hn : n < P)
    (hpopped : A ≤ n + 1) : tail ≠ (n + 1) % log.size := by
  obtain ⟨hlt, rfl⟩ := hroom
  exact Queue.mod_ne (by omega) (by omega)

/-- A thread sets a field of the entry at `tail`. -/
theorem Good.set {tail : ℕ} {f : AgooLogEntry → AgooLogEntry} {pc : CatvPc} {direct : List Call}
    (hin : (s.catv i).inside = true) (hroom : Room s.log s.popped s.stored.length tail)
    (hf : ∀ e : AgooLogEntry, e.ready = false → (f e).ready = false)
    (hok : CatvOk (s.log.modify tail f) s.popped s.stored.length pc) :
    Good { s with
      log := s.log.modify tail f
      catv := Function.update s.catv i pc
      stored := s.stored ++ []
      direct := direct } := by
  have hle : s.loop.pending .file ≤ 1 := by
    unfold LoopPc.pending
    split <;> simp
  refine h.modify rfl hf (List.append_nil _) rfl rfl (fun _ => rfl)
    (fun n hn hpopped => hroom.ne hn (by omega))
    (h.excl.stay (fun _ => hin) fun _ => idle_outside hin) ?_ h.loop
  refine (Function.forall_update_iff _ fun _ pc => CatvOk _ _ _ pc).mpr ⟨hok, fun j hj => ?_⟩
  exact catvOk_outside (h.outside hin hj)

/-- What is set at `tail` is there. -/
theorem Good.entry_set {tail : ℕ} (hroom : Room s.log s.popped s.stored.length tail)
    (f : AgooLogEntry → AgooLogEntry) : (s.log.modify tail f).entry tail = f (s.log.entry tail) := by
  have hsize := h.size
  obtain ⟨-, rfl⟩ := hroom
  exact entry_modify_self (Nat.mod_lt _ (by omega)) f

/-- `tail` is moved past the entry of the call. -/
theorem Good.store {c : Call} {tail : ℕ} {direct : List Call} (hpc : s.catv i = .store c tail) :
    Good { s with
      log := { s.log with tail := s.log.next tail }
      catv := Function.update s.catv i .unlock
      stored := s.stored ++ [c]
      direct := direct } := by
  have hin : (s.catv i).inside = true := by rw [hpc]; rfl
  have hok := h.catv i
  rw [hpc] at hok
  obtain ⟨⟨hroom, rfl⟩, hof⟩ := hok
  have hsize := h.size
  obtain ⟨hAP, hPA⟩ := h.order
  have hlen : (s.stored ++ [c]).length = s.stored.length + 1 := by simp
  refine ⟨hsize, h.head, ?_, ?_, ?_, h.ready, h.excl.stay (fun _ => hin) fun _ => idle_outside hin, ?_, ?_, ?_⟩
  · show s.log.next ((s.stored.length + 1) % s.log.size) = ((s.stored ++ [c]).length + 1) % s.log.size
    rw [hlen, next_mod (by omega)]
  · show s.popped ≤ (s.stored ++ [c]).length ∧ (s.stored ++ [c]).length < s.popped + s.log.size
    rw [hlen]
    omega
  · intro n d hn hd
    show (s.log.entry ((n + 1) % s.log.size)).line.Of d
    have hlt := (List.getElem?_eq_some_iff.mp hd).1
    rw [hlen] at hlt
    rcases Nat.lt_succ_iff_lt_or_eq.mp hlt with hlt' | rfl
    · rw [List.getElem?_append_left hlt'] at hd
      exact h.slots n d hn hd
    · rw [List.getElem?_concat_length] at hd
      obtain rfl := Option.some.inj hd
      exact hof
  · exact (Function.forall_update_iff _ fun _ pc => CatvOk _ _ _ pc).mpr
      ⟨trivial, fun j hj => catvOk_outside (h.outside hin hj)⟩
  · have hsame : LoopOk { s.log with tail := s.log.next ((s.stored.length + 1) % s.log.size) } =
        LoopOk s.log := loopOk_congr rfl rfl
    dsimp only
    rw [hsame]
    exact h.loop.append hAP c
  · intro out
    have hprinted := h.out out
    unfold Printed at hprinted ⊢
    dsimp only
    rw [List.take_append_of_le_length (by omega)]
    exact hprinted

/-- A step of `agoo_log_catv` keeps the state good. -/
theorem Good.catvStep {pc : CatvPc} {log : AgooLog} {direct : List Call}
    (hstep : Log.catvStep s.log (s.catv i) = some (pc, log)) :
    Good { s with
      log := log
      catv := Function.update s.catv i pc
      stored := s.stored ++ (s.catv i).stores
      direct := direct } := by
  have hok := h.catv i
  have hsize := h.size
  have hkeep := SameRing.refl s.log
  cases hpc : s.catv i with
  | idle =>
    rw [hpc] at hstep
    cases hstep
  | check c =>
    rw [hpc] at hstep
    obtain ⟨rfl, rfl⟩ := Prod.mk.inj (Option.some.inj hstep)
    refine h.catvMove hkeep (h.excl.stay (fun hin => ?_) fun _ => by rw [hpc]; rfl) ?_
    · split_ifs at hin <;> cases hin
    · split_ifs <;> trivial
  | lock c =>
    have hout : (s.catv i).inside = false := by rw [hpc]; rfl
    have hidle : (s.catv i).isIdle = false := by rw [hpc]; rfl
    rw [hpc] at hstep
    unfold Log.catvStep at hstep
    dsimp only at hstep
    split_ifs at hstep with hlock
    · obtain ⟨rfl, rfl⟩ := Prod.mk.inj (Option.some.inj hstep)
      exact h.catvMove hkeep (h.excl.stay nofun fun _ => hidle) trivial
    · obtain ⟨rfl, rfl⟩ := Prod.mk.inj (Option.some.inj hstep)
      have hnone := h.excl.none_inside hout hidle (fun p => idle_outside) fun _ => Bool.eq_false_iff.mpr hlock
      exact h.catvMove ⟨rfl, rfl, rfl, rfl, rfl⟩ (h.excl.enter hnone hidle fun _ => rfl) trivial
  | thread c =>
    rw [hpc] at hstep
    obtain ⟨rfl, rfl⟩ := Prod.mk.inj (Option.some.inj hstep)
    exact h.catvInside (by rw [hpc]; rfl) (by split_ifs <;> trivial)
  | direct c =>
    rw [hpc] at hstep
    obtain ⟨rfl, rfl⟩ := Prod.mk.inj (Option.some.inj hstep)
    exact h.catvInside (by rw [hpc]; rfl) trivial
  | release =>
    have hin : (s.catv i).inside = true := by rw [hpc]; rfl
    rw [hpc] at hstep
    obtain ⟨rfl, rfl⟩ := Prod.mk.inj (Option.some.inj hstep)
    exact h.catvMove ⟨rfl, rfl, rfl, rfl, rfl⟩ (h.excl.leave hin (idle_outside hin) rfl false) trivial
  | full c =>
    rw [hpc] at hstep
    obtain ⟨rfl, rfl⟩ := Prod.mk.inj (Option.some.inj hstep)
    exact h.catvInside (by rw [hpc]; rfl) ⟨s.popped, le_rfl, h.head, h.order.2⟩
  | fullHead c head =>
    rw [hpc] at hstep hok
    obtain ⟨rfl, rfl⟩ := Prod.mk.inj (Option.some.inj hstep)
    obtain ⟨a, ha, rfl, hP⟩ := hok
    refine h.catvInside (by rw [hpc]; rfl) ?_
    split_ifs with htail
    · trivial
    · -- `head` is not where `tail` is, nor was it moved back since it was loaded.
      have hne : s.stored.length + 1 ≠ a + s.log.size := by
        intro heq
        apply htail
        rw [h.tail, heq, Nat.add_mod_right]
      show s.stored.length + 1 < s.popped + s.log.size
      omega
  | slot c =>
    rw [hpc] at hstep hok
    obtain ⟨rfl, rfl⟩ := Prod.mk.inj (Option.some.inj hstep)
    exact h.catvInside (by rw [hpc]; rfl) ⟨hok, h.tail⟩
  | setCat c tail =>
    rw [hpc] at hstep hok
    obtain ⟨rfl, rfl⟩ := Prod.mk.inj (Option.some.inj hstep)
    refine h.set (by rw [hpc]; rfl) hok (fun e he => he) ⟨?_, ?_⟩
    · exact ⟨by rw [modify_size]; exact hok.1, by rw [modify_size]; exact hok.2⟩
    · rw [h.entry_set hok]
      rfl
  | setWhen c tail =>
    rw [hpc] at hstep hok
    obtain ⟨rfl, rfl⟩ := Prod.mk.inj (Option.some.inj hstep)
    obtain ⟨hroom, hcat⟩ := hok
    refine h.set (by rw [hpc]; rfl) hroom (fun e he => he) ⟨?_, ?_⟩
    · exact ⟨by rw [modify_size]; exact hroom.1, by rw [modify_size]; exact hroom.2⟩
    · rw [h.entry_set hroom]
      exact ⟨rfl, hcat⟩
  | setWhat c tail =>
    rw [hpc] at hstep hok
    obtain ⟨rfl, rfl⟩ := Prod.mk.inj (Option.some.inj hstep)
    obtain ⟨hroom, hwhen, hcat⟩ := hok
    refine h.set (by rw [hpc]; rfl) hroom (fun e he => (set_ready c e).2.2.1.trans he) ⟨?_, ?_⟩
    · exact ⟨by rw [modify_size]; exact hroom.1, by rw [modify_size]; exact hroom.2⟩
    · rw [h.entry_set hroom]
      exact ⟨(setWhat_when c _).trans hwhen, (setWhat_cat c _).trans hcat, setWhat_printed c _⟩
  | setTid c tail =>
    rw [hpc] at hstep hok
    obtain ⟨rfl, rfl⟩ := Prod.mk.inj (Option.some.inj hstep)
    obtain ⟨hroom, hwhen, hcat, hwhat⟩ := hok
    refine h.set (by rw [hpc]; rfl) hroom (fun e he => (set_ready c e).2.2.2.trans he) ⟨?_, ?_⟩
    · exact ⟨by rw [modify_size]; exact hroom.1, by rw [modify_size]; exact hroom.2⟩
    · rw [h.entry_set hroom]
      exact setTid_of hwhen hcat hwhat
  | store c tail =>
    rw [hpc] at hstep
    obtain ⟨rfl, rfl⟩ := Prod.mk.inj (Option.some.inj hstep)
    exact h.store hpc
  | unlock =>
    have hin : (s.catv i).inside = true := by rw [hpc]; rfl
    rw [hpc] at hstep
    obtain ⟨rfl, rfl⟩ := Prod.mk.inj (Option.some.inj hstep)
    exact h.catvMove ⟨rfl, rfl, rfl, rfl, rfl⟩ (h.excl.leave hin (idle_outside hin) rfl false) trivial
  | wake =>
    rw [hpc] at hstep
    obtain ⟨rfl, rfl⟩ := Prod.mk.inj (Option.some.inj hstep)
    refine h.catvMove hkeep (h.excl.stay (fun hin => ?_) fun _ => by rw [hpc]; rfl) ?_
    · split_ifs at hin <;> cases hin
    · split_ifs <;> trivial
  | notify =>
    rw [hpc] at hstep
    obtain ⟨rfl, rfl⟩ := Prod.mk.inj (Option.some.inj hstep)
    exact h.catvMove ⟨rfl, rfl, rfl, rfl, rfl⟩ (h.excl.stay nofun nofun) trivial

end Catv

/-! ## Steps of the log thread -/

/-- The next line is that of the next call. -/
theorem Printed.print {lines : List LogLine} {stored : List Call} {A : ℕ} {line : LogLine} {c : Call}
    (h : Printed true lines stored (A - 1)) (hpos : 0 < A) (hcall : stored[A - 1]? = some c)
    (hline : line.Of c) : Printed true (lines ++ [line]) stored A := by
  obtain ⟨n, rfl⟩ : ∃ n, A = n + 1 := ⟨A - 1, by omega⟩
  unfold Printed at h ⊢
  rw [if_pos rfl] at h ⊢
  rw [Nat.add_sub_cancel] at h hcall
  rw [List.take_add_one, hcall]
  exact List.rel_append h (List.Forall₂.cons hline List.Forall₂.nil)

/-- Nothing is printed. -/
theorem Printed.off {on : Bool} {lines : List LogLine} {stored : List Call} {k : ℕ}
    (h : Printed on lines stored k) (hoff : ¬ on = true) (l : ℕ) : Printed on (lines ++ []) stored l := by
  unfold Printed at h ⊢
  rw [if_neg hoff] at h ⊢
  rw [h, List.append_nil]

section Loop

variable {s : Sys} (h : Good s)

include h

/-- A step that changes no entry. -/
theorem Good.loopPrint {log : AgooLog} {pc : LoopPc} {stdout file : List LogLine} {synced : ℕ}
    (hring : SameRing s.log log) (hlock : log.pushLock = s.log.pushLock)
    (hpending : pc.pending .file ≤ s.loop.pending .file)
    (hstdout : Printed s.log.console stdout s.stored (s.popped - pc.pending .stdout))
    (hfile : Printed s.log.file file s.stored (s.popped - pc.pending .file))
    (hok : LoopOk s.log s.popped s.stored pc) :
    Good { s with
      log := log, loop := pc, popped := s.popped + 0, stdout := stdout, file := file, synced := synced } where
  size := by
    show 2 ≤ log.size
    rw [hring.size]
    exact h.size
  head := by
    show log.head = (s.popped + 0) % log.size
    rw [hring.head, hring.size, Nat.add_zero]
    exact h.head
  tail := by
    show log.tail = _ % log.size
    rw [hring.tail, hring.size]
    exact h.tail
  order := by
    show s.popped + 0 ≤ s.stored.length ∧ s.stored.length < s.popped + 0 + log.size
    rw [hring.size]
    exact h.order
  slots := by
    intro n c hn hc
    show (log.entry ((n + 1) % log.size)).line.Of c
    rw [hring.entry, hring.size]
    refine h.slots n c ?_ hc
    have hn' : s.popped ≤ n + pc.pending .file := hn
    omega
  ready := by
    show ∀ i, (log.entry i).ready = false
    rw [hring.entry]
    exact h.ready
  excl := by
    show Excl CatvPc.inside CatvPc.isIdle true log.pushLock s.catv
    rw [hlock]
    exact h.excl
  catv := by
    show ∀ i, CatvOk log s.popped s.stored.length (s.catv i)
    rw [hring.catvOk]
    exact h.catv
  loop := by
    show LoopOk log s.popped s.stored pc
    rw [loopOk_congr hring.size hring.on]
    exact hok
  out := by
    intro out
    show Printed (log.on out) _ s.stored (s.popped - pc.pending out)
    rw [hring.on]
    cases out with
    | stdout => exact hstdout
    | file => exact hfile

/-- A step that prints nothing. -/
theorem Good.loopMove {log : AgooLog} {pc : LoopPc} {synced : ℕ} (hring : SameRing s.log log)
    (hlock : log.pushLock = s.log.pushLock) (hpending : ∀ out, pc.pending out = s.loop.pending out)
    (hok : LoopOk s.log s.popped s.stored pc) :
    Good { s with
      log := log
      loop := pc
      popped := s.popped + 0
      stdout := s.stdout ++ []
      file := s.file ++ []
      synced := synced } := by
  refine h.loopPrint hring hlock (hpending .file).le ?_ ?_ hok
  · rw [List.append_nil, hpending]
    exact h.out .stdout
  · rw [List.append_nil, hpending]
    exact h.out .file

/-- A text of the entry that was printed is freed. -/
theorem Good.loopFree {e : ℕ} {f : AgooLogEntry → AgooLogEntry} {pc : LoopPc} {synced : ℕ}
    (hf : ∀ x : AgooLogEntry, x.ready = false → (f x).ready = false) (he : e = s.popped % s.log.size)
    (hdone : ∀ out, s.loop.pending out = 0) (hpending : ∀ out, pc.pending out = 0)
    (hok : LoopOk s.log s.popped s.stored pc) :
    Good { s with
      log := s.log.modify e f
      loop := pc
      popped := s.popped + 0
      stdout := s.stdout ++ []
      file := s.file ++ []
      synced := synced } := by
  subst he
  obtain ⟨hAP, hPA⟩ := h.order
  have hlines : ({ s with
      log := s.log.modify (s.popped % s.log.size) f
      loop := pc
      popped := s.popped + 0
      stdout := s.stdout ++ []
      file := s.file ++ []
      synced := synced } : Sys).lines = s.lines := by
    funext out
    cases out with
    | stdout => exact List.append_nil _
    | file => exact List.append_nil _
  refine h.modify rfl hf rfl rfl hlines (fun out => (hpending out).trans (hdone out).symm) ?_ h.excl ?_ hok
  · intro n hn hpopped
    rw [hdone] at hpopped
    exact (Queue.mod_ne (by omega) (by omega)).symm
  · -- A thread that appends is at another entry.
    intro i
    have hcatv := h.catv i
    have hentry : ∀ {tail}, Room s.log s.popped s.stored.length tail →
        (s.log.modify (s.popped % s.log.size) f).entry tail = s.log.entry tail := by
      rintro tail ⟨hroom, rfl⟩
      exact entry_modify_other (Queue.mod_ne (by omega) (by omega)).symm f
    have hroom' : ∀ {tail}, Room s.log s.popped s.stored.length tail →
        Room (s.log.modify (s.popped % s.log.size) f) s.popped s.stored.length tail := by
      rintro tail ⟨hroom, htail⟩
      exact ⟨by rw [modify_size]; exact hroom, by rw [modify_size]; exact htail⟩
    dsimp only
    cases hpc : s.catv i with
    | fullHead c head =>
      rw [hpc] at hcatv
      obtain ⟨a, ha, hhead, hP⟩ := hcatv
      exact ⟨a, ha, by rw [modify_size]; exact hhead, by rw [modify_size]; exact hP⟩
    | slot c =>
      rw [hpc] at hcatv
      show s.stored.length + 1 < s.popped + (s.log.modify (s.popped % s.log.size) f).size
      rw [modify_size]
      exact hcatv
    | setCat c tail =>
      rw [hpc] at hcatv
      exact hroom' hcatv
    | setWhen c tail =>
      rw [hpc] at hcatv
      exact ⟨hroom' hcatv.1, by rw [hentry hcatv.1]; exact hcatv.2⟩
    | setWhat c tail =>
      rw [hpc] at hcatv
      exact ⟨hroom' hcatv.1, by rw [hentry hcatv.1]; exact hcatv.2⟩
    | setTid c tail =>
      rw [hpc] at hcatv
      exact ⟨hroom' hcatv.1, by rw [hentry hcatv.1]; exact hcatv.2⟩
    | store c tail =>
      rw [hpc] at hcatv
      exact ⟨hroom' hcatv.1, by rw [hentry hcatv.1]; exact hcatv.2⟩
    | _ => trivial

/-- `head` is moved to the next entry. -/
theorem Good.advance {next synced : ℕ} (hpc : s.loop = .advance next) :
    Good { s with
      log := { s.log with head := next }
      loop := .console next
      popped := s.popped + 1
      stdout := s.stdout ++ []
      file := s.file ++ []
      synced := synced } := by
  have hok := h.loop
  rw [hpc] at hok
  obtain ⟨rfl, hlt⟩ := hok
  have hsize := h.size
  obtain ⟨hAP, hPA⟩ := h.order
  have hslots := h.slots
  have hout := h.out
  rw [hpc] at hslots hout
  refine ⟨hsize, rfl, h.tail, ?_, ?_, h.ready, h.excl, ?_, ?_, ?_⟩
  · show s.popped + 1 ≤ s.stored.length ∧ s.stored.length < s.popped + 1 + s.log.size
    omega
  · intro n c hn hc
    have hn' : s.popped + 1 ≤ n + 1 := hn
    exact hslots n c (by show s.popped ≤ n + 0; omega) hc
  · intro i
    have hcatv := h.catv i
    show CatvOk s.log (s.popped + 1) s.stored.length (s.catv i)
    exact hcatv.mono
  · exact ⟨s.stored[s.popped], rfl, s.popped.succ_pos, List.getElem?_eq_getElem hlt⟩
  · intro out
    have hprinted := hout out
    cases out with
    | stdout =>
      show Printed s.log.console (s.stdout ++ []) s.stored s.popped
      rw [List.append_nil]
      exact hprinted
    | file =>
      show Printed s.log.file (s.file ++ []) s.stored s.popped
      rw [List.append_nil]
      exact hprinted

/-- The slot of the entry popped last holds that entry until it was printed. -/
theorem Good.printed {e : ℕ} {c : Call} (hpending : s.loop.pending .file = 1)
    (hpopped : Popped s.log s.popped s.stored e c) : (s.log.entry e).line.Of c := by
  obtain ⟨rfl, hpos, hcall⟩ := hpopped
  have hof := h.slots (s.popped - 1) c (by omega) hcall
  rwa [Nat.sub_add_cancel hpos] at hof

/-- A step of `loop` keeps the state good. -/
theorem Good.loopStep {pc : LoopPc} {log : AgooLog} {event : Bool} {synced : ℕ}
    (hstep : Log.loopStep s.log event s.loop = some (pc, log)) :
    Good { s with
      log := log
      loop := pc
      popped := s.popped + s.loop.pops
      stdout := s.stdout ++ s.loop.prints .stdout
      file := s.file ++ s.loop.prints .file
      synced := synced } := by
  have hok := h.loop
  have hsize := h.size
  have hkeep := SameRing.refl s.log
  have hready := h.ready
  have hslots := h.slots
  have hout := h.out
  cases hpc : s.loop with
  | start =>
    rw [hpc] at hstep
    obtain ⟨rfl, rfl⟩ := Prod.mk.inj (Option.some.inj hstep)
    refine h.loopMove hkeep rfl ?_ ?_
    · rw [hpc]
      split_ifs <;> exact fun _ => rfl
    · split_ifs <;> trivial
  | emptyHead =>
    rw [hpc] at hstep
    obtain ⟨rfl, rfl⟩ := Prod.mk.inj (Option.some.inj hstep)
    exact h.loopMove hkeep rfl (by rw [hpc]; exact fun _ => rfl) trivial
  | emptyReady head =>
    rw [hpc] at hstep
    obtain ⟨rfl, rfl⟩ := Prod.mk.inj (Option.some.inj hstep)
    rw [hready]
    exact h.loopMove hkeep rfl (by rw [hpc]; exact fun _ => rfl) trivial
  | emptyTail head =>
    rw [hpc] at hstep
    obtain ⟨rfl, rfl⟩ := Prod.mk.inj (Option.some.inj hstep)
    refine h.loopMove hkeep rfl ?_ ?_
    · rw [hpc]
      split_ifs <;> exact fun _ => rfl
    · split_ifs <;> trivial
  | first =>
    rw [hpc] at hstep
    obtain ⟨rfl, rfl⟩ := Prod.mk.inj (Option.some.inj hstep)
    exact h.loopMove hkeep rfl (by rw [hpc]; exact fun _ => rfl) trivial
  | read head =>
    rw [hpc] at hstep
    obtain ⟨rfl, rfl⟩ := Prod.mk.inj (Option.some.inj hstep)
    rw [hready]
    exact h.loopMove hkeep rfl (by rw [hpc]; exact fun _ => rfl) trivial
  | next =>
    rw [hpc] at hstep
    obtain ⟨rfl, rfl⟩ := Prod.mk.inj (Option.some.inj hstep)
    refine h.loopMove hkeep rfl (by rw [hpc]; exact fun _ => rfl) ?_
    show s.log.next s.log.head = (s.popped + 1) % s.log.size
    rw [h.head, next_mod (by omega)]
  | wait cnt next =>
    rw [hpc] at hstep hok
    unfold Log.loopStep at hstep
    dsimp only at hstep
    split_ifs at hstep with htail hcnt
    · obtain ⟨rfl, rfl⟩ := Prod.mk.inj (Option.some.inj hstep)
      exact h.loopMove hkeep rfl (by rw [hpc]; exact fun _ => rfl) trivial
    · obtain ⟨rfl, rfl⟩ := Prod.mk.inj (Option.some.inj hstep)
      exact h.loopMove hkeep rfl (by rw [hpc]; exact fun _ => rfl) hok
    · obtain ⟨rfl, rfl⟩ := Prod.mk.inj (Option.some.inj hstep)
      -- `tail` was moved more often than `head`.
      have hlt : s.popped < s.stored.length := by
        refine lt_of_le_of_ne h.order.1 fun heq => htail ?_
        rw [h.tail, ← heq]
        exact hok.symm
      exact h.loopMove hkeep rfl (by rw [hpc]; exact fun _ => rfl) ⟨hok, hlt⟩
  | listen cnt next =>
    rw [hpc] at hstep hok
    obtain ⟨rfl, rfl⟩ := Prod.mk.inj (Option.some.inj hstep)
    exact h.loopMove ⟨rfl, rfl, rfl, rfl, rfl⟩ rfl (by rw [hpc]; exact fun _ => rfl) hok
  | poll cnt next =>
    rw [hpc] at hstep hok
    obtain ⟨rfl, rfl⟩ := Prod.mk.inj (Option.some.inj hstep)
    refine h.loopMove hkeep rfl ?_ ?_
    · rw [hpc]
      split_ifs <;> exact fun _ => rfl
    · split_ifs <;> exact hok
  | release cnt next =>
    rw [hpc] at hstep hok
    obtain ⟨rfl, rfl⟩ := Prod.mk.inj (Option.some.inj hstep)
    exact h.loopMove ⟨rfl, rfl, rfl, rfl, rfl⟩ rfl (by rw [hpc]; exact fun _ => rfl) hok
  | advance next =>
    rw [hpc] at hstep
    obtain ⟨rfl, rfl⟩ := Prod.mk.inj (Option.some.inj hstep)
    exact h.advance hpc
  | console e =>
    rw [hpc] at hstep hok hout
    obtain ⟨rfl, rfl⟩ := Prod.mk.inj (Option.some.inj hstep)
    split_ifs with hon
    · refine h.loopMove hkeep rfl (fun out => ?_) ⟨hon, hok⟩
      rw [hpc]
      cases out with
      | stdout => rfl
      | file => rfl
    · refine h.loopPrint hkeep rfl (by rw [hpc]; exact le_rfl) ((hout .stdout).off hon _) ?_ hok
      exact (List.append_nil s.file).symm ▸ hout .file
  | file e =>
    rw [hpc] at hstep hok hout
    obtain ⟨rfl, rfl⟩ := Prod.mk.inj (Option.some.inj hstep)
    split_ifs with hon
    · refine h.loopMove hkeep rfl (fun out => ?_) ⟨hon, hok⟩
      rw [hpc]
      cases out with
      | stdout => rfl
      | file => rfl
    · obtain ⟨c, hpopped⟩ := hok
      refine h.loopPrint hkeep rfl (Nat.zero_le _) ?_ ((hout .file).off hon _) hpopped.slot
      exact (List.append_nil s.stdout).symm ▸ hout .stdout
  | printWhen out e =>
    rw [hpc] at hstep hok
    obtain ⟨rfl, rfl⟩ := Prod.mk.inj (Option.some.inj hstep)
    obtain ⟨hon, c, hpopped⟩ := hok
    have hof := h.printed (by rw [hpc]; simp [LoopPc.pending]) hpopped
    exact h.loopMove hkeep rfl (by rw [hpc]; exact fun _ => rfl) ⟨hon, c, hpopped, hof.when⟩
  | printCat out e when =>
    rw [hpc] at hstep hok
    obtain ⟨rfl, rfl⟩ := Prod.mk.inj (Option.some.inj hstep)
    obtain ⟨hon, c, hpopped, hwhen⟩ := hok
    have hof := h.printed (by rw [hpc]; simp [LoopPc.pending]) hpopped
    exact h.loopMove hkeep rfl (by rw [hpc]; exact fun _ => rfl) ⟨hon, c, hpopped, hwhen, hof.cat⟩
  | printTid out e when cat =>
    rw [hpc] at hstep hok
    obtain ⟨rfl, rfl⟩ := Prod.mk.inj (Option.some.inj hstep)
    obtain ⟨hon, c, hpopped, hwhen, hcat⟩ := hok
    have hof := h.printed (by rw [hpc]; simp [LoopPc.pending]) hpopped
    exact h.loopMove hkeep rfl (by rw [hpc]; exact fun _ => rfl) ⟨hon, c, hpopped, hwhen, hcat, hof.tid⟩
  | printWhat out e when cat tid =>
    rw [hpc] at hstep hok
    obtain ⟨rfl, rfl⟩ := Prod.mk.inj (Option.some.inj hstep)
    obtain ⟨hon, c, hpopped, hwhen, hcat, htid⟩ := hok
    have hof := h.printed (by rw [hpc]; simp [LoopPc.pending]) hpopped
    exact h.loopMove hkeep rfl (by rw [hpc]; exact fun _ => rfl)
      ⟨hon, c, hpopped, ⟨hwhen, hcat, htid, hof.what⟩⟩
  | printLine out e line =>
    rw [hpc] at hstep hok hout
    obtain ⟨hon, c, hpopped, hline⟩ := hok
    cases out with
    | stdout =>
      obtain ⟨rfl, rfl⟩ := Prod.mk.inj (Option.some.inj hstep)
      have hprinted := hout .stdout
      rw [hon] at hprinted
      have hprint := hprinted.print hpopped.pos hpopped.call hline
      refine h.loopPrint hkeep rfl (by rw [hpc]; exact le_rfl) ?_ ?_ ⟨c, hpopped⟩
      · show Printed (s.log.on .stdout) (s.stdout ++ [line]) s.stored s.popped
        rw [hon]
        exact hprint
      · exact (List.append_nil s.file).symm ▸ hout .file
    | file =>
      obtain ⟨rfl, rfl⟩ := Prod.mk.inj (Option.some.inj hstep)
      have hprinted := hout .file
      rw [hon] at hprinted
      have hprint := hprinted.print hpopped.pos hpopped.call hline
      refine h.loopPrint hkeep rfl (Nat.zero_le _) ?_ ?_ hpopped.slot
      · exact (List.append_nil s.stdout).symm ▸ hout .stdout
      · show Printed (s.log.on .file) (s.file ++ [line]) s.stored s.popped
        rw [hon]
        exact hprint
  | size e =>
    rw [hpc] at hstep hok
    obtain ⟨rfl, rfl⟩ := Prod.mk.inj (Option.some.inj hstep)
    exact h.loopMove hkeep rfl (by rw [hpc]; exact fun _ => rfl) hok
  | freeWhat e =>
    rw [hpc] at hstep hok
    obtain ⟨rfl, rfl⟩ := Prod.mk.inj (Option.some.inj hstep)
    exact h.loopFree (fun x hx => hx) hok (by rw [hpc]; exact fun _ => rfl) (fun _ => rfl) hok
  | freeTid e =>
    rw [hpc] at hstep hok
    obtain ⟨rfl, rfl⟩ := Prod.mk.inj (Option.some.inj hstep)
    exact h.loopFree (fun x hx => hx) hok (by rw [hpc]; exact fun _ => rfl) (fun _ => rfl) hok
  | clear e =>
    rw [hpc] at hstep hok
    obtain ⟨rfl, rfl⟩ := Prod.mk.inj (Option.some.inj hstep)
    exact h.loopFree (fun x hx => rfl) hok (by rw [hpc]; exact fun _ => rfl) (fun _ => rfl) trivial
  | ended =>
    rw [hpc] at hstep
    cases hstep

end Loop

/-! ## Runs -/

theorem good_start {qsize : ℕ} (hqsize : 2 ≤ qsize) (console file : Bool) :
    Good (start qsize console file) := by
  have hsize : (start qsize console file).log.size = qsize := List.length_replicate
  have hentry : ∀ i, (start qsize console file).log.entry i = .calloc := by
    intro i
    show (List.replicate qsize AgooLogEntry.calloc).getD i .calloc = .calloc
    rw [List.getD_eq_getElem?_getD, List.getElem?_replicate]
    split_ifs <;> rfl
  refine ⟨by rw [hsize]; exact hqsize, (Nat.zero_mod _).symm, ?_, ?_, nofun, fun i => ?_,
    ⟨nofun, nofun, nofun⟩, fun _ => trivial, trivial, fun out => ?_⟩
  · rw [hsize]
    exact (Nat.mod_eq_of_lt hqsize).symm
  · rw [hsize]
    exact ⟨le_rfl, by show 0 < 0 + qsize; omega⟩
  · rw [hentry]
    rfl
  · have hnil : (start qsize console file).lines out = [] := by
      cases out with
      | stdout => rfl
      | file => rfl
    rw [hnil]
    unfold Printed
    split_ifs
    · exact List.Forall₂.nil
    · rfl

/-- What a step of the system preserves. -/
theorem good_step {s s' : Sys} (a : Action) (h : Good s) (hstep : step s a = some s') : Good s' := by
  cases a with
  | catv i c =>
    unfold step at hstep
    dsimp only at hstep
    split_ifs at hstep with hidle
    obtain rfl := Option.some.inj hstep
    exact h.move (SameRing.refl _) rfl rfl rfl (fun _ => rfl) (h.excl.call rfl (Or.inl rfl))
      ((Function.forall_update_iff _ fun _ pc => CatvOk _ _ _ pc).mpr ⟨trivial, fun j _ => h.catv j⟩)
      h.loop
  | catvStep i =>
    obtain ⟨r, hr, rfl⟩ := Option.map_eq_some_iff.mp hstep
    exact h.catvStep hr
  | loopStep event =>
    obtain ⟨r, hr, rfl⟩ := Option.map_eq_some_iff.mp hstep
    exact h.loopStep hr
  | flush i =>
    unfold step at hstep
    dsimp only at hstep
    split_ifs at hstep with hidle
    obtain rfl := Option.some.inj hstep
    exact h.move (SameRing.refl _) rfl rfl rfl (fun _ => rfl) h.excl h.catv h.loop
  | flushStep i timedOut =>
    obtain ⟨r, hr, rfl⟩ := Option.map_eq_some_iff.mp hstep
    exact h.move (SameRing.refl _) rfl rfl rfl (fun _ => rfl) h.excl h.catv h.loop
  | start =>
    obtain rfl := Option.some.inj hstep
    exact h.move ⟨rfl, rfl, rfl, rfl, rfl⟩ rfl rfl rfl (fun _ => rfl) h.excl h.catv h.loop
  | close =>
    obtain rfl := Option.some.inj hstep
    exact h.move ⟨rfl, rfl, rfl, rfl, rfl⟩ rfl rfl rfl (fun _ => rfl) h.excl h.catv h.loop

/-- The state is good in every run. -/
theorem always_good {qsize : ℕ} (hqsize : 2 ≤ qsize) (console file : Bool) (as : List Action) :
    Always step Good (start qsize console file) as :=
  always_of_along _ (fun _ a _ h _ hstep => good_step a h hstep) (good_start hqsize console file)
    (along_true _ as)

/-! ## The entry that is printed -/

/-- The slot of the entry that was popped and is yet to be printed. -/
def LoopPc.entry : LoopPc → Option ℕ
  | .console e => some e
  | .file e => some e
  | .printWhen _ e => some e
  | .printCat _ e _ => some e
  | .printTid _ e _ _ => some e
  | .printWhat _ e _ _ _ => some e
  | .printLine _ e _ => some e
  | _ => none

/-- The slot that the next step of a thread that appends writes to. -/
def CatvPc.sets : CatvPc → Option ℕ
  | .setCat _ tail => some tail
  | .setWhen _ tail => some tail
  | .setWhat _ tail => some tail
  | .setTid _ tail => some tail
  | _ => none

/-- No other entry changes. -/
theorem catvStep_entry {log log' : AgooLog} {pc pc' : CatvPc} (h : catvStep log pc = some (pc', log'))
    {e : ℕ} (hne : pc.sets ≠ some e) : log'.entry e = log.entry e := by
  cases pc with
  | idle => cases h
  | setCat c tail =>
    obtain ⟨rfl, rfl⟩ := Prod.mk.inj (Option.some.inj h)
    exact entry_modify_other (fun heq => hne (congrArg some heq)) _
  | setWhen c tail =>
    obtain ⟨rfl, rfl⟩ := Prod.mk.inj (Option.some.inj h)
    exact entry_modify_other (fun heq => hne (congrArg some heq)) _
  | setWhat c tail =>
    obtain ⟨rfl, rfl⟩ := Prod.mk.inj (Option.some.inj h)
    exact entry_modify_other (fun heq => hne (congrArg some heq)) _
  | setTid c tail =>
    obtain ⟨rfl, rfl⟩ := Prod.mk.inj (Option.some.inj h)
    exact entry_modify_other (fun heq => hne (congrArg some heq)) _
  | lock c =>
    unfold catvStep at h
    dsimp only at h
    split_ifs at h
    · obtain ⟨rfl, rfl⟩ := Prod.mk.inj (Option.some.inj h)
      rfl
    · obtain ⟨rfl, rfl⟩ := Prod.mk.inj (Option.some.inj h)
      rfl
  | _ =>
    obtain ⟨rfl, rfl⟩ := Prod.mk.inj (Option.some.inj h)
    rfl

/-- The slot is the one of the last entry popped. -/
theorem Good.entry_slot {s : Sys} (h : Good s) {e : ℕ} (he : s.loop.entry = some e) :
    e = s.popped % s.log.size ∧ 0 < s.popped := by
  have hok := h.loop
  cases hpc : s.loop with
  | console e' =>
    rw [hpc] at hok he
    obtain rfl := Option.some.inj he
    obtain ⟨c, hslot, hpos, -⟩ := hok
    exact ⟨hslot, hpos⟩
  | file e' =>
    rw [hpc] at hok he
    obtain rfl := Option.some.inj he
    obtain ⟨c, hslot, hpos, -⟩ := hok
    exact ⟨hslot, hpos⟩
  | printWhen out e' =>
    rw [hpc] at hok he
    obtain rfl := Option.some.inj he
    obtain ⟨-, c, hslot, hpos, -⟩ := hok
    exact ⟨hslot, hpos⟩
  | printCat out e' when =>
    rw [hpc] at hok he
    obtain rfl := Option.some.inj he
    obtain ⟨-, c, ⟨hslot, hpos, -⟩, -⟩ := hok
    exact ⟨hslot, hpos⟩
  | printTid out e' when cat =>
    rw [hpc] at hok he
    obtain rfl := Option.some.inj he
    obtain ⟨-, c, ⟨hslot, hpos, -⟩, -⟩ := hok
    exact ⟨hslot, hpos⟩
  | printWhat out e' when cat tid =>
    rw [hpc] at hok he
    obtain rfl := Option.some.inj he
    obtain ⟨-, c, ⟨hslot, hpos, -⟩, -⟩ := hok
    exact ⟨hslot, hpos⟩
  | printLine out e' line =>
    rw [hpc] at hok he
    obtain rfl := Option.some.inj he
    obtain ⟨-, c, ⟨hslot, hpos, -⟩, -⟩ := hok
    exact ⟨hslot, hpos⟩
  | _ =>
    rw [hpc] at he
    cases he

/-- A thread that appends writes where there is room. -/
theorem Good.sets_room {s : Sys} (h : Good s) {i tail : ℕ} (hsets : (s.catv i).sets = some tail) :
    Room s.log s.popped s.stored.length tail := by
  have hok := h.catv i
  cases hpc : s.catv i with
  | setCat c tail' =>
    rw [hpc] at hok hsets
    obtain rfl := Option.some.inj hsets
    exact hok
  | setWhen c tail' =>
    rw [hpc] at hok hsets
    obtain rfl := Option.some.inj hsets
    exact hok.1
  | setWhat c tail' =>
    rw [hpc] at hok hsets
    obtain rfl := Option.some.inj hsets
    exact hok.1
  | setTid c tail' =>
    rw [hpc] at hok hsets
    obtain rfl := Option.some.inj hsets
    exact hok.1
  | _ =>
    rw [hpc] at hsets
    cases hsets

/-- **In every run, in any order of the steps of its threads, the lines printed on the console and in
the file are those of the calls whose entries were stored first, each once and in their order, and no step
of a thread that appends changes the entry that was popped before it is printed.** There are two slots at
least: `tail` begins at the second one. -/
theorem log_writes (qsize : ℕ) (hqsize : 2 ≤ qsize) (console file : Bool) (as : List Action) :
    Always step (fun s =>
        (∀ out, ∃ calls, calls <+: s.stored ∧ List.Forall₂ LogLine.Of (s.lines out) calls) ∧
          ∀ i s', step s (.catvStep i) = some s' → ∀ e, s.loop.entry = some e →
            s'.log.entry e = s.log.entry e)
      (start qsize console file) as := by
  refine (always_good hqsize console file as).mono fun s h => ⟨fun out => ?_, fun i s' hstep e he => ?_⟩
  · have hprinted := h.out out
    unfold Printed at hprinted
    split_ifs at hprinted
    · exact ⟨_, List.take_prefix _ _, hprinted⟩
    · rw [hprinted]
      exact ⟨[], List.nil_prefix, List.Forall₂.nil⟩
  · obtain ⟨r, hr, rfl⟩ := Option.map_eq_some_iff.mp hstep
    obtain ⟨rfl, hpos⟩ := h.entry_slot he
    refine catvStep_entry hr fun hsets => ?_
    have hroom := h.sets_room hsets
    have hne := hroom.ne (n := s.popped - 1) (by have := h.order; omega) (by omega)
    rw [Nat.sub_add_cancel hpos] at hne
    exact hne rfl

/-- An entry that is printed in the file while the next one is set in the slot behind it. -/
def twoCalls : List Action :=
  [.start, .catv 0 ⟨⟨bytes "INFO", 3, []⟩, true, none, bytes "one", 0, true, true⟩] ++
    List.replicate 13 (.catvStep 0) ++ List.replicate 8 (.loopStep false) ++
      [.catv 0 ⟨⟨bytes "INFO", 3, []⟩, true, none, bytes "two", 1, true, true⟩] ++
        List.replicate 9 (.catvStep 0)

theorem twoCalls_writes : Always step (fun s =>
    (∀ out, ∃ calls, calls <+: s.stored ∧ List.Forall₂ LogLine.Of (s.lines out) calls) ∧
      ∀ i s', step s (.catvStep i) = some s' → ∀ e, s.loop.entry = some e →
        s'.log.entry e = s.log.entry e)
    (start 3 false true) twoCalls :=
  log_writes 3 (by decide) false true twoCalls

end Log

end Agoo
