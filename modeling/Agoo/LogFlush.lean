import Agoo.LogOrder

/-!
# Flushing a log

`agoo_log_flush` returns when it finds the ring empty, but an entry is popped before it is printed, and the
loads of the two cursors are not one step. `flush_iff` says when the entries stored before a call are in
the file at its return.
-/

namespace Agoo

namespace Log

/-! ## What does not change -/

/-- The ring has its size, the file stays open, and a log that is done stays so. -/
structure Stays (log log' : AgooLog) : Prop where
  size : log'.size = log.size
  file : log'.file = log.file
  done : log.done = true → log'.done = true

theorem Stays.refl (log : AgooLog) : Stays log log := ⟨rfl, rfl, id⟩

theorem Stays.modify (log : AgooLog) (i : ℕ) (f : AgooLogEntry → AgooLogEntry) :
    Stays log (log.modify i f) := ⟨modify_size log i f, rfl, id⟩

theorem catvStep_stays {log log' : AgooLog} {pc pc' : CatvPc} (h : catvStep log pc = some (pc', log')) :
    Stays log log' := by
  cases pc with
  | idle => cases h
  | lock c =>
    unfold catvStep at h
    dsimp only at h
    split_ifs at h
    · obtain ⟨rfl, rfl⟩ := Prod.mk.inj (Option.some.inj h)
      exact Stays.refl _
    · obtain ⟨rfl, rfl⟩ := Prod.mk.inj (Option.some.inj h)
      exact ⟨rfl, rfl, id⟩
  | setCat c tail =>
    obtain ⟨rfl, rfl⟩ := Prod.mk.inj (Option.some.inj h)
    exact Stays.modify log tail _
  | setWhen c tail =>
    obtain ⟨rfl, rfl⟩ := Prod.mk.inj (Option.some.inj h)
    exact Stays.modify log tail _
  | setWhat c tail =>
    obtain ⟨rfl, rfl⟩ := Prod.mk.inj (Option.some.inj h)
    exact Stays.modify log tail _
  | setTid c tail =>
    obtain ⟨rfl, rfl⟩ := Prod.mk.inj (Option.some.inj h)
    exact Stays.modify log tail _
  | _ =>
    obtain ⟨rfl, rfl⟩ := Prod.mk.inj (Option.some.inj h)
    exact ⟨rfl, rfl, id⟩

theorem loopStep_stays {log log' : AgooLog} {event : Bool} {pc pc' : LoopPc}
    (h : loopStep log event pc = some (pc', log')) : Stays log log' := by
  cases pc with
  | ended => cases h
  | wait cnt next =>
    unfold loopStep at h
    dsimp only at h
    split_ifs at h
    · obtain ⟨rfl, rfl⟩ := Prod.mk.inj (Option.some.inj h)
      exact Stays.refl _
    · obtain ⟨rfl, rfl⟩ := Prod.mk.inj (Option.some.inj h)
      exact Stays.refl _
    · obtain ⟨rfl, rfl⟩ := Prod.mk.inj (Option.some.inj h)
      exact Stays.refl _
  | printLine out e line =>
    cases out with
    | stdout =>
      obtain ⟨rfl, rfl⟩ := Prod.mk.inj (Option.some.inj h)
      exact Stays.refl _
    | file =>
      obtain ⟨rfl, rfl⟩ := Prod.mk.inj (Option.some.inj h)
      exact Stays.refl _
  | freeWhat e =>
    obtain ⟨rfl, rfl⟩ := Prod.mk.inj (Option.some.inj h)
    exact Stays.modify log e _
  | freeTid e =>
    obtain ⟨rfl, rfl⟩ := Prod.mk.inj (Option.some.inj h)
    exact Stays.modify log e _
  | clear e =>
    obtain ⟨rfl, rfl⟩ := Prod.mk.inj (Option.some.inj h)
    exact Stays.modify log e _
  | _ =>
    obtain ⟨rfl, rfl⟩ := Prod.mk.inj (Option.some.inj h)
    exact ⟨rfl, rfl, id⟩

/-! ## What a thread that flushes knows -/

/-- `head` was moved `A` times and `tail` `P` times. -/
def FlushKnows (size A P : ℕ) (done : Bool) : FlushPc → Prop
  | .idle => True
  | .done before => before ≤ P
  | .head before => before ≤ P
  | .ready before head popped => before ≤ P ∧ popped ≤ A ∧ head = popped % size
  | .tail before head popped => before ≤ P ∧ popped ≤ A ∧ head = popped % size
  | .timeout before => before ≤ P
  | .fflush before lapped => done = true ∨ (lapped = false → before ≤ A)

theorem FlushKnows.mono {size A A' P P' : ℕ} {done done' : Bool} {pc : FlushPc}
    (h : FlushKnows size A P done pc) (hA : A ≤ A') (hP : P ≤ P') (hdone : done = true → done' = true) :
    FlushKnows size A' P' done' pc := by
  cases pc with
  | idle => trivial
  | done before => exact h.trans hP
  | head before => exact h.trans hP
  | ready before head popped => exact ⟨h.1.trans hP, h.2.1.trans hA, h.2.2⟩
  | tail before head popped => exact ⟨h.1.trans hP, h.2.1.trans hA, h.2.2⟩
  | timeout before => exact h.trans hP
  | fflush before lapped => exact h.imp hdone fun hb hl => (hb hl).trans hA

/-- A step of `agoo_log_flush`: when no round of the ring was stored between the loads of the cursors, the
entries stored before the call are popped. -/
theorem Good.flushStep {s : Sys} (h : Good s) {pc pc' : FlushPc} {timedOut : Bool}
    (hknows : FlushKnows s.log.size s.popped s.stored.length s.log.done pc)
    (hstep : Log.flushStep s.log timedOut s.stored.length s.popped pc = some pc') :
    FlushKnows s.log.size s.popped s.stored.length s.log.done pc' := by
  have hsize := h.size
  cases pc with
  | idle => cases hstep
  | done before =>
    obtain rfl := Option.some.inj hstep
    split_ifs with hdone
    · exact Or.inl hdone
    · exact hknows
  | head before =>
    obtain rfl := Option.some.inj hstep
    exact ⟨hknows, le_rfl, h.head⟩
  | ready before head popped =>
    obtain rfl := Option.some.inj hstep
    split_ifs
    · exact hknows.1
    · exact hknows
  | tail before head popped =>
    obtain rfl := Option.some.inj hstep
    obtain ⟨hbefore, hpopped, rfl⟩ := hknows
    split_ifs with htail
    · refine Or.inr fun hlap => ?_
      rw [decide_eq_false_iff_not] at hlap
      rw [h.tail, next_mod (by omega)] at htail
      have heq : s.stored.length = popped := by
        by_contra hne
        have horder := h.order
        exact Queue.mod_ne (a := popped + 1) (b := s.stored.length + 1) (by omega) (by omega) htail
      omega
    · exact hbefore
  | timeout before =>
    obtain rfl := Option.some.inj hstep
    split_ifs
    · trivial
    · exact hknows
  | fflush before lapped =>
    obtain rfl := Option.some.inj hstep
    trivial

/-! ## The lines in the file -/

/-- The file holds a line for each entry popped, but for one that is yet to be printed. -/
theorem Good.file_length {s : Sys} (h : Good s) (hfile : s.log.file = true) :
    s.file.length = s.popped - s.loop.pending .file := by
  have hprinted : Printed (s.log.on .file) (s.lines .file) s.stored _ := h.out .file
  have hon : s.log.on .file = true := hfile
  have horder := h.order
  unfold Printed at hprinted
  rw [if_pos hon] at hprinted
  have hlen := hprinted.length_eq
  rw [List.length_take, Nat.min_eq_left (by omega)] at hlen
  exact hlen

/-- An entry that was popped is pending until it is printed in the file. -/
theorem pending_file (pc : LoopPc) : pc.pending .file = if pc.entry.isSome then 1 else 0 := by
  cases pc with
  | _ => rfl

/-! ## Runs -/

/-- A flush that returns now finds the entries stored before the call printed: if the log thread is
between popping an entry and having printed it, that entry was stored later; and if a round of the ring
was stored between the loads of the cursors, the entries are popped. -/
def SettledAt (s : Sys) : FlushPc → Prop
  | .fflush before lapped => s.log.done = false →
      (s.loop.entry ≠ none → before < s.popped) ∧ (lapped = true → before ≤ s.popped)
  | _ => True

instance (s : Sys) : DecidablePred (SettledAt s)
  | .fflush before lapped => inferInstanceAs (Decidable (s.log.done = false →
      (s.loop.entry ≠ none → before < s.popped) ∧ (lapped = true → before ≤ s.popped)))
  | .idle => .isTrue trivial
  | .done _ => .isTrue trivial
  | .head _ => .isTrue trivial
  | .ready _ _ _ => .isTrue trivial
  | .tail _ _ _ => .isTrue trivial
  | .timeout _ => .isTrue trivial

/-- A flush that returns in the step finds the entries printed. -/
def Settled (s : Sys) : Action → Prop
  | .flushStep i _ => SettledAt s (s.flush i)
  | _ => True

instance (s : Sys) : DecidablePred (Settled s)
  | .flushStep i _ => inferInstanceAs (Decidable (SettledAt s (s.flush i)))
  | .catv _ _ => .isTrue trivial
  | .catvStep _ => .isTrue trivial
  | .loopStep _ => .isTrue trivial
  | .flush _ => .isTrue trivial
  | .start => .isTrue trivial
  | .close => .isTrue trivial

/-- The flushes that returned found the entries in the file. -/
def Flushed (s : Sys) : Prop := ∀ r ∈ s.flushed, r.1 ≤ r.2

/-- What holds in each state of a run whose flushes find the entries printed. -/
structure FlushInv (s : Sys) : Prop where
  good : Good s
  file : s.log.file = true
  flush : ∀ i, FlushKnows s.log.size s.popped s.stored.length s.log.done (s.flush i)
  flushed : Flushed s

/-- The lines in the file are those of the entries stored before the call, and maybe more. -/
theorem FlushInv.settled_iff {s : Sys} (h : FlushInv s) {i before : ℕ} {lapped : Bool}
    (hpc : s.flush i = .fflush before lapped) (hdone : s.log.done = false) :
    before ≤ s.file.length ↔
      (s.loop.entry ≠ none → before < s.popped) ∧ (lapped = true → before ≤ s.popped) := by
  have hknows := h.flush i
  rw [hpc] at hknows
  have hpopped : lapped = false → before ≤ s.popped := hknows.resolve_left (by rw [hdone]; exact Bool.false_ne_true)
  rw [h.good.file_length h.file, pending_file]
  cases hentry : s.loop.entry with
  | none =>
    cases lapped with
    | true => simp
    | false => simp [hpopped rfl]
  | some e =>
    have hpos := (h.good.entry_slot hentry).2
    simp only [Option.isSome_some, if_true, ne_eq, reduceCtorEq, not_false_eq_true, true_imp_iff]
    constructor
    · intro hle
      exact ⟨by omega, fun _ => by omega⟩
    · intro hlt
      omega

/-- The entries stored, popped and flushed only become more. -/
theorem FlushInv.of_stays {s s' : Sys} (h : FlushInv s) (hgood : Good s') (hstays : Stays s.log s'.log)
    (hpopped : s.popped ≤ s'.popped) (hstored : s.stored.length ≤ s'.stored.length)
    (hflush : ∀ i, FlushKnows s.log.size s.popped s.stored.length s.log.done (s'.flush i))
    (hflushed : Flushed s') : FlushInv s' where
  good := hgood
  file := hstays.file.trans h.file
  flush i := by
    rw [hstays.size]
    exact (hflush i).mono hpopped hstored hstays.done
  flushed := hflushed

/-- What a step preserves when a flush that returns finds the entries printed. -/
theorem flushInv_step {s s' : Sys} {a : Action} (h : FlushInv s) (hok : Settled s a)
    (hstep : step s a = some s') : FlushInv s' := by
  have hgood := good_step a h.good hstep
  cases a with
  | catv i c =>
    unfold step at hstep
    dsimp only at hstep
    split_ifs at hstep
    obtain rfl := Option.some.inj hstep
    exact h.of_stays hgood (Stays.refl _) le_rfl le_rfl h.flush h.flushed
  | catvStep i =>
    obtain ⟨r, hr, rfl⟩ := Option.map_eq_some_iff.mp hstep
    refine h.of_stays hgood (catvStep_stays hr) le_rfl ?_ h.flush h.flushed
    rw [List.length_append]
    exact Nat.le_add_right _ _
  | loopStep event =>
    obtain ⟨r, hr, rfl⟩ := Option.map_eq_some_iff.mp hstep
    exact h.of_stays hgood (loopStep_stays hr) (Nat.le_add_right _ _) le_rfl h.flush h.flushed
  | flush i =>
    unfold step at hstep
    dsimp only at hstep
    split_ifs at hstep
    obtain rfl := Option.some.inj hstep
    refine h.of_stays hgood (Stays.refl _) le_rfl le_rfl ?_ h.flushed
    exact (Function.forall_update_iff _ fun _ pc => FlushKnows _ _ _ _ pc).mpr
      ⟨le_rfl, fun j _ => h.flush j⟩
  | flushStep i timedOut =>
    obtain ⟨pc, hpc, rfl⟩ := Option.map_eq_some_iff.mp hstep
    refine h.of_stays hgood (Stays.refl _) le_rfl le_rfl ?_ ?_
    · exact (Function.forall_update_iff _ fun _ pc => FlushKnows _ _ _ _ pc).mpr
        ⟨h.good.flushStep (h.flush i) hpc, fun j _ => h.flush j⟩
    · intro r hr
      rcases List.mem_append.mp hr with hr | hr
      · exact h.flushed r hr
      · cases hfl : s.flush i with
        | fflush before lapped =>
          rw [hfl] at hr
          unfold FlushPc.returns at hr
          split_ifs at hr with hdone
          · cases hr
          · rw [Bool.not_eq_true] at hdone
            obtain rfl := List.mem_singleton.mp hr
            have hsettled : SettledAt s (s.flush i) := hok
            rw [hfl] at hsettled
            exact (h.settled_iff hfl hdone).mpr (hsettled hdone)
        | _ =>
          rw [hfl] at hr
          cases hr
  | start =>
    obtain rfl := Option.some.inj hstep
    exact h.of_stays hgood ⟨rfl, rfl, id⟩ le_rfl le_rfl h.flush h.flushed
  | close =>
    obtain rfl := Option.some.inj hstep
    exact h.of_stays hgood ⟨rfl, rfl, fun _ => rfl⟩ le_rfl le_rfl h.flush h.flushed

/-- A flush that returns before the entries are printed is one that failed. -/
theorem not_flushed {s s' : Sys} {a : Action} (h : FlushInv s) (hbad : ¬ Settled s a)
    (hstep : step s a = some s') : ¬ Flushed s' := by
  intro hflushed
  apply hbad
  cases a with
  | flushStep i timedOut =>
    obtain ⟨pc, hpc, rfl⟩ := Option.map_eq_some_iff.mp hstep
    show SettledAt s (s.flush i)
    cases hfl : s.flush i with
    | fflush before lapped =>
      intro hdone
      refine (h.settled_iff hfl hdone).mp (hflushed (before, s.file.length) ?_)
      refine List.mem_append_right _ ?_
      rw [hfl]
      unfold FlushPc.returns FlushPc.syncs
      rw [hdone]
      exact List.mem_singleton.mpr rfl
    | _ => trivial
  | _ => trivial

/-- **In every run of a log with a file, in any order of the steps of its threads: the entries stored
before each flush that returned true while the log was not done are in the file at its return, if and only
if each of them returns when the log thread is not between popping such an entry and having printed it,
and none of them is left in the ring in case a whole round of it was stored between the loads of `head` and
of `tail`.** -/
theorem flush_iff (qsize : ℕ) (hqsize : 2 ≤ qsize) (console : Bool) (as : List Action) :
    Always step Flushed (start qsize console true) as ↔
      Along step Settled (start qsize console true) as := by
  have hinv : FlushInv (start qsize console true) :=
    ⟨good_start hqsize console true, rfl, fun _ => trivial, nofun⟩
  exact always_iff_along FlushInv (fun s a s' h _ hok => flushInv_step h hok) (fun s h => h.flushed)
    (fun s a s' h _ hbad => not_flushed h hbad) hinv (along_true _ as)

/-- An entry is stored and popped, and before it is printed the ring is found empty. -/
def flushEarly : List Action :=
  [.start, .catv 0 ⟨⟨bytes "INFO", 3, []⟩, true, none, bytes "one", 0, true, true⟩] ++
    List.replicate 13 (.catvStep 0) ++ [.flush 0] ++ List.replicate 7 (.loopStep false) ++
      List.replicate 5 (.flushStep 0 false)

theorem flush_early : ¬ ∀ (qsize : ℕ), 2 ≤ qsize → ∀ (console : Bool) (as : List Action),
    Always step Flushed (start qsize console true) as := by
  intro h
  have hlast := (h 3 (by decide) false flushEarly).last
    (Option.some_get (show (runs step (start 3 false true) flushEarly).isSome by decide)).symm
  exact absurd (hlast (1, 0) (by decide)) (by decide)

/-- An entry is stored, popped and printed before the ring is found empty. -/
def flushLate : List Action :=
  [.start, .catv 0 ⟨⟨bytes "INFO", 3, []⟩, true, none, bytes "one", 0, true, true⟩] ++
    List.replicate 13 (.catvStep 0) ++ [.flush 0] ++ List.replicate 17 (.loopStep false) ++
      List.replicate 5 (.flushStep 0 false)

theorem flush_late : Always step Flushed (start 3 false true) flushLate :=
  (flush_iff 3 (by decide) false flushLate).mpr (by decide)

end Log

end Agoo
