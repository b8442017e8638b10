import Agoo.Numbers
import Mathlib.Data.List.Infix

/-!
# Log rotation (`log.c`)

A rotation renames the archives from the last one down, makes the primary file the first archive, opens
an empty one and removes the archives with numbers that are too high. File operations succeed, and a
rename of a file that does not exist does nothing. `rotate_keeps`: the archives are the contents of the
primary file at the last rotations, in order.
-/

namespace Agoo

namespace LogRotate

/-! ## Rotation -/

/-- A directory: the contents of a file, if there is one of the name. -/
abbrev Dir := Bytes → Option Bytes

/-- `rename`: the file replaces one of the new name. -/
def rename (dir : Dir) (src dst : Bytes) : Dir :=
  match dir src with
  | none => dir
  | some contents => if src = dst then dir
    else Function.update (Function.update dir dst (some contents)) src none

/-- What of `struct _agooLog` a rotation reads and writes, and the directory; `file` is what was printed
in the open file and is not written to it yet. -/
structure AgooLog where
  app : Bytes
  withPid : Bool
  pid : ℕ
  maxFiles : ℕ
  file : Option Bytes
  dir : Dir

/-- The name of the primary file. -/
def AgooLog.name (log : AgooLog) : Bytes :=
  if log.withPid then log.app ++ bytes "_" ++ decimal log.pid ++ bytes ".log" else log.app ++ bytes ".log"

/-- What the names of archives begin with. -/
def AgooLog.archives (log : AgooLog) : Bytes := log.name ++ bytes "."

/-- The name of an archive. -/
def AgooLog.archive (log : AgooLog) (seq : ℤ) : Bytes := log.archives ++ intText seq

/-- The file is one that `remove_old_logs` removes. -/
def AgooLog.isOld (log : AgooLog) (name : Bytes) : Bool :=
  at0 name 0 ≠ chr '.' && at0 name 0 ≠ 0 && strncmp log.archives name log.archives.length &&
    !strcmp log.name name && (log.maxFiles : ℤ) < strtol (name.drop log.archives.length)

/-- `remove_old_logs`. -/
def removeOldLogs (log : AgooLog) : AgooLog :=
  { log with dir := fun name => if log.isOld name then none else log.dir name }

/-- The loop over the archives from `seq` down. -/
def renames (log : AgooLog) : ℕ → Dir → Dir
  | 0, dir => dir
  | seq + 1, dir => renames log seq (rename dir (log.archive (seq + 1)) (log.archive (toInt (seq + 1 + 1))))

/-- `fclose` writes what was printed. -/
def fclose (log : AgooLog) : AgooLog :=
  match log.file with
  | none => log
  | some buf =>
    { log with file := none, dir := Function.update log.dir log.name ((log.dir log.name).map (· ++ buf)) }

/-- `fopen` for writing: the file is a new one. -/
def fopen (log : AgooLog) : AgooLog :=
  { log with file := some [], dir := Function.update log.dir log.name (some []) }

/-- `agoo_log_rotate`. -/
def agooLogRotate (log : AgooLog) : AgooLog :=
  let log := fclose log
  let dir := renames log log.maxFiles log.dir
  let dir := rename dir log.name (log.archive 1)
  removeOldLogs (fopen { log with dir })

/-! ## Runs -/

/-- What is done to the log: a line is printed, what was printed is written, or the files are rotated. -/
inductive Action
  | print (line : Bytes)
  | flush
  | rotate

/-- The log, and the contents of the primary file at each rotation, from the last one on. -/
structure Sys where
  log : AgooLog
  rotated : List Bytes

/-- The contents of the primary file, with what was printed. -/
def AgooLog.primary (log : AgooLog) : Bytes := (log.dir log.name).getD [] ++ log.file.getD []

def step (s : Sys) : Action → Sys
  | .print line => { s with log := { s.log with file := s.log.file.map (· ++ line) } }
  | .flush => { s with log :=
    { s.log with
      file := s.log.file.map fun _ => []
      dir := Function.update s.log.dir s.log.name
        ((s.log.dir s.log.name).map (· ++ s.log.file.getD [])) } }
  | .rotate => ⟨agooLogRotate s.log, s.log.primary :: s.rotated⟩

def run (s : Sys) (as : List Action) : Sys := as.foldl step s

/-- The log after `agoo_log_init` and `agoo_log_open_file`. -/
def start (withPid : Bool) (pid maxFiles : ℕ) (dir : Dir) : Sys :=
  ⟨⟨bytes "agoo", withPid, pid, maxFiles, some [], dir⟩, []⟩

/-! ## Names -/

theorem intText_natCast (n : ℕ) : intText n = decimal n := by
  unfold intText
  rw [if_neg (by omega), Int.natAbs_natCast]

theorem archive_inj {log : AgooLog} {j k : ℕ} (h : log.archive j = log.archive k) : j = k := by
  have htext := List.append_cancel_left h
  rw [intText_natCast, intText_natCast] at htext
  exact decimal_inj htext

theorem name_isPre_archives (log : AgooLog) : log.name <+: log.archives := List.prefix_append _ _

theorem name_isPre_archive (log : AgooLog) (seq : ℤ) : log.name <+: log.archive seq :=
  (name_isPre_archives log).trans (List.prefix_append _ _)

theorem archive_ne_name (log : AgooLog) (seq : ℤ) : log.archive seq ≠ log.name := by
  intro h
  have hlen := congrArg List.length h
  have hdot : (bytes ".").length = 1 := rfl
  unfold AgooLog.archive AgooLog.archives at hlen
  rw [List.length_append, List.length_append, hdot] at hlen
  omega

/-! ## Renames -/

theorem rename_src {dir : Dir} {src dst : Bytes} (hne : src ≠ dst) : rename dir src dst src = none := by
  unfold rename
  cases h : dir src with
  | none => exact h
  | some contents =>
    dsimp only
    rw [if_neg hne, Function.update_self]

/-- A file that does not exist leaves the new name free. -/
theorem rename_dst {dir : Dir} {src dst : Bytes} (hne : src ≠ dst) (hfree : dir src = none → dir dst = none) :
    rename dir src dst dst = dir src := by
  unfold rename
  cases h : dir src with
  | none => exact hfree h
  | some contents =>
    dsimp only
    rw [if_neg hne, Function.update_of_ne hne.symm, Function.update_self]

theorem rename_other {dir : Dir} {src dst name : Bytes} (hsrc : name ≠ src) (hdst : name ≠ dst) :
    rename dir src dst name = dir name := by
  unfold rename
  cases dir src with
  | none => rfl
  | some contents =>
    dsimp only
    split_ifs
    · rfl
    · rw [Function.update_of_ne hsrc, Function.update_of_ne hdst]

/-- The loop moves each archive to the next number, if there is no gap between them. -/
theorem renames_spec (log : AgooLog) : ∀ (seq : ℕ) (dir : Dir), seq + 1 < 0x80000000 →
    (∀ k, 1 ≤ k → k ≤ seq → dir (log.archive k) = none → dir (log.archive (k + 1 : ℕ)) = none) →
    (∀ k, 1 ≤ k → k ≤ seq → renames log seq dir (log.archive (k + 1 : ℕ)) = dir (log.archive k)) ∧
      (1 ≤ seq → renames log seq dir (log.archive (1 : ℕ)) = none) ∧
        ∀ name, (∀ k : ℕ, 1 ≤ k → k ≤ seq + 1 → name ≠ log.archive k) → renames log seq dir name = dir name := by
  intro seq
  induction seq with
  | zero =>
    intro dir _ _
    exact ⟨fun k hk hk0 => by omega, fun h => by omega, fun _ _ => rfl⟩
  | succ seq ih =>
    intro dir hint hgap
    have hsrc : (seq : ℤ) + 1 = (seq + 1 : ℕ) := rfl
    have hdst : toInt ((seq + 1 : ℕ) + 1) = (seq + 1 + 1 : ℕ) := toInt_of_int (by omega) (by omega)
    have hne : ∀ {j k : ℕ}, j ≠ k → log.archive j ≠ log.archive k := fun hjk h => hjk (archive_inj h)
    have hstep : renames log (seq + 1) dir =
        renames log seq (rename dir (log.archive (seq + 1 : ℕ)) (log.archive (seq + 1 + 1 : ℕ))) := by
      rw [renames, hsrc, hdst]
    have hlast := hgap (seq + 1) (by omega) le_rfl
    have hnone : rename dir (log.archive (seq + 1 : ℕ)) (log.archive (seq + 1 + 1 : ℕ))
        (log.archive (seq + 1 : ℕ)) = none := rename_src (hne (by omega))
    have hmoved : rename dir (log.archive (seq + 1 : ℕ)) (log.archive (seq + 1 + 1 : ℕ))
        (log.archive (seq + 1 + 1 : ℕ)) = dir (log.archive (seq + 1 : ℕ)) :=
      rename_dst (hne (by omega)) hlast
    have hkept : ∀ k : ℕ, k ≤ seq → rename dir (log.archive (seq + 1 : ℕ)) (log.archive (seq + 1 + 1 : ℕ))
        (log.archive k) = dir (log.archive k) :=
      fun k hk => rename_other (hne (by omega)) (hne (by omega))
    rw [hstep]
    generalize hdir : rename dir (log.archive (seq + 1 : ℕ)) (log.archive (seq + 1 + 1 : ℕ)) = dir' at *
    obtain ⟨hmove, hfirst, hother⟩ := ih dir' (by omega) (by
      intro k hk1 hk hfree
      rw [hkept k hk] at hfree
      rcases Nat.lt_or_eq_of_le hk with hlt | rfl
      · rw [hkept (k + 1) (by omega)]
        exact hgap k hk1 (by omega) hfree
      · exact hnone)
    refine ⟨fun k hk1 hk => ?_, fun _ => ?_, fun name hname => ?_⟩
    · rcases Nat.lt_or_eq_of_le hk with hlt | rfl
      · rw [hmove k hk1 (by omega), hkept k (by omega)]
      · rw [hother _ fun j _ hj => hne (by omega), hmoved]
    · cases seq with
      | zero => exact hnone
      | succ seq => exact hfirst (by omega)
    · rw [hother name fun k hk1 hk => hname k hk1 (by omega), ← hdir]
      exact rename_other (hname _ (by omega) (by omega)) (hname _ (by omega) (by omega))

/-! ## Archives that are removed -/

/-- The name begins as the application does, and has no NUL. -/
theorem archives_text {log : AgooLog} (happ : log.app = bytes "agoo") :
    at0 log.archives 0 = chr 'a' ∧ 0 ∉ log.archives := by
  have hpid : ∀ c ∈ decimal log.pid, c ≠ 0 := fun c hc => (isDigit_plain (isDigit_decimal hc)).2.1
  unfold AgooLog.archives AgooLog.name
  rw [happ]
  split_ifs with hwith
  · refine ⟨rfl, fun h => ?_⟩
    simp only [List.mem_append] at h
    rcases h with (((h | h) | h) | h) | h
    · exact absurd h (by decide)
    · exact absurd h (by decide)
    · exact hpid 0 h rfl
    · exact absurd h (by decide)
    · exact absurd h (by decide)
  · exact ⟨by decide, by decide⟩

/-- An archive is removed if its number is too high. -/
theorem isOld_archive {log : AgooLog} (happ : log.app = bytes "agoo") {k : ℕ} (hk : k < 0x80000000) :
    log.isOld (log.archive k) = decide (log.maxFiles < k) := by
  obtain ⟨hfirst, hzero⟩ := archives_text happ
  have hname : log.archive k = log.archives ++ decimal k := by rw [AgooLog.archive, intText_natCast]
  have hnot : 0 ∉ log.archive k := by
    rw [hname, List.mem_append, not_or]
    exact ⟨hzero, fun h => (isDigit_plain (isDigit_decimal h)).2.1 rfl⟩
  have hlog : 0 ∉ log.name := fun h => hzero ((name_isPre_archives log).subset h)
  have hhead : at0 (log.archive k) 0 = chr 'a' := by
    rw [hname, ← hfirst]
    cases harch : log.archives with
    | nil =>
      rw [harch] at hfirst
      cases hfirst
    | cons c rest => rfl
  have hcmp : strncmp log.archives (log.archive k) log.archives.length = true := by
    unfold strncmp
    rw [cstr_of_not_mem hzero, cstr_of_not_mem hnot, hname, List.take_left, List.take_length]
    exact beq_self_eq_true _
  have hdiff : strcmp log.name (log.archive k) = false := by
    unfold strcmp
    rw [cstr_of_not_mem hlog, cstr_of_not_mem hnot, beq_eq_false_iff_ne]
    exact (archive_ne_name log k).symm
  have hnum : strtol ((log.archive k).drop log.archives.length) = k := by
    rw [hname, List.drop_left]
    exact strtol_decimal (by omega)
  unfold AgooLog.isOld
  rw [hhead, hcmp, hdiff, hnum]
  simp [chr]

/-- Only files with the name of the primary one before theirs are removed. -/
theorem isOld_isPre {log : AgooLog} (happ : log.app = bytes "agoo") {name : Bytes}
    (h : log.isOld name = true) : log.name <+: name ∧ name ≠ log.name := by
  obtain ⟨-, hzero⟩ := archives_text happ
  unfold AgooLog.isOld at h
  simp only [Bool.and_eq_true] at h
  have hcmp := h.1.1.2
  unfold strncmp at hcmp
  rw [beq_iff_eq, cstr_of_not_mem hzero, List.take_length] at hcmp
  have hpre : log.archives <+: name := by
    rw [hcmp]
    exact (List.take_prefix _ _).trans (cstr_isPre name)
  refine ⟨(name_isPre_archives log).trans hpre, ?_⟩
  rintro rfl
  have hlen := hpre.length_le
  have hdot : (bytes ".").length = 1 := rfl
  rw [AgooLog.archives, List.length_append, hdot] at hlen
  omega

/-! ## What a rotation keeps -/

/-- The files of the log: the primary one, archives of the contents it had at the last rotations, and no
others with its name; the other files are those of `dir`. -/
structure Kept (log : AgooLog) (rotated : List Bytes) (dir : Dir) : Prop where
  app : log.app = bytes "agoo"
  file : log.file ≠ none
  primary : log.dir log.name ≠ none
  archive : ∀ k, 1 ≤ k → k ≤ log.maxFiles → log.dir (log.archive k) = rotated[k - 1]?
  rest : ∀ name, log.name <+: name → name ≠ log.name →
    (∀ k : ℕ, 1 ≤ k → k ≤ log.maxFiles → name ≠ log.archive k) → log.dir name = none
  other : ∀ name, ¬ log.name <+: name → log.dir name = dir name

/-- The files after a rotation, in terms of those after the renames. -/
theorem rotate_dir {log : AgooLog} {x buf : Bytes} (hfile : log.file = some buf)
    (hprimary : log.dir log.name = some x) :
    agooLogRotate log = { log with
      file := some []
      dir := fun name => if log.isOld name then none else
        Function.update (rename (renames log log.maxFiles (Function.update log.dir log.name (some (x ++ buf))))
          log.name (log.archive 1)) log.name (some []) name } := by
  have hclose : fclose log =
      { log with file := none, dir := Function.update log.dir log.name (some (x ++ buf)) } := by
    unfold fclose
    rw [hfile]
    dsimp only
    rw [hprimary]
    rfl
  have hrenames : ∀ (file : Option Bytes) (d : Dir) (seq : ℕ) (dir : Dir),
      renames { log with file := file, dir := d } seq dir = renames log seq dir := by
    intro file d seq
    induction seq with
    | zero => exact fun _ => rfl
    | succ seq ih => exact fun dir => ih _
  unfold agooLogRotate
  rw [hclose]
  dsimp only
  rw [hrenames]
  rfl

/-- A rotation leaves an empty primary file. -/
theorem Kept.fresh {log : AgooLog} {rotated : List Bytes} {dir : Dir} (h : Kept log rotated dir) :
    (agooLogRotate log).dir log.name = some [] := by
  obtain ⟨buf, hfile⟩ := Option.ne_none_iff_exists'.mp h.file
  obtain ⟨x, hprimary⟩ := Option.ne_none_iff_exists'.mp h.primary
  rw [rotate_dir hfile hprimary]
  dsimp only
  rw [if_neg fun hold => (isOld_isPre h.app hold).2 rfl, Function.update_self]

/-- **A rotation puts the contents of the primary file before those of the archives.** -/
theorem Kept.rotate {log : AgooLog} {rotated : List Bytes} {dir : Dir} (h : Kept log rotated dir)
    (h1 : 1 ≤ log.maxFiles) (hint : log.maxFiles + 1 < 0x80000000) :
    Kept (agooLogRotate log) (log.primary :: rotated) dir := by
  obtain ⟨buf, hfile⟩ := Option.ne_none_iff_exists'.mp h.file
  obtain ⟨x, hprimary⟩ := Option.ne_none_iff_exists'.mp h.primary
  have hcontents : log.primary = x ++ buf := by
    rw [AgooLog.primary, hfile, hprimary]
    rfl
  have hlast : log.dir (log.archive (log.maxFiles + 1 : ℕ)) = none := by
    refine h.rest _ (name_isPre_archive log _) (archive_ne_name log _) fun k _ hk heq => ?_
    have hk' := archive_inj heq
    omega
  rw [rotate_dir hfile hprimary, hcontents]
  have hclosed : ∀ name, name ≠ log.name →
      Function.update log.dir log.name (some (x ++ buf)) name = log.dir name :=
    fun name hname => Function.update_of_ne hname _ _
  obtain ⟨hmove, hfirst, hother⟩ := renames_spec log log.maxFiles
    (Function.update log.dir log.name (some (x ++ buf))) hint (by
      intro k hk1 hk hfree
      rw [hclosed _ (archive_ne_name log _)] at hfree ⊢
      rcases Nat.lt_or_eq_of_le hk with hlt | rfl
      · rw [h.archive k hk1 hk, List.getElem?_eq_none_iff] at hfree
        rw [h.archive (k + 1) (by omega) hlt, List.getElem?_eq_none_iff]
        omega
      · exact hlast)
  have hnamed : renames log log.maxFiles (Function.update log.dir log.name (some (x ++ buf))) log.name =
      some (x ++ buf) := by
    rw [hother log.name fun k _ _ => (archive_ne_name log k).symm, Function.update_self]
  generalize renames log log.maxFiles (Function.update log.dir log.name (some (x ++ buf))) = moved at *
  have hone : rename moved log.name (log.archive 1) (log.archive 1) = some (x ++ buf) := by
    rw [rename_dst (archive_ne_name log 1).symm (fun hnone => ?_), hnamed]
    rw [hnamed] at hnone
    cases hnone
  have hmoved : ∀ name, name ≠ log.name → name ≠ log.archive 1 →
      Function.update (rename moved log.name (log.archive 1)) log.name (some []) name = moved name := by
    intro name hname hfirst'
    rw [Function.update_of_ne hname, rename_other hname hfirst']
  have hone' : Function.update (rename moved log.name (log.archive 1)) log.name (some []) (log.archive 1) =
      some (x ++ buf) := by
    rw [Function.update_of_ne (archive_ne_name log 1), hone]
  refine ⟨h.app, nofun, ?_, fun k hk1 hk => ?_, fun name hpre hname hnot => ?_, fun name hnot => ?_⟩
  · show (if log.isOld log.name then none else
      Function.update (rename moved log.name (log.archive 1)) log.name (some []) log.name) ≠ none
    rw [if_neg fun hold => (isOld_isPre h.app hold).2 rfl, Function.update_self]
    nofun
  · show (if log.isOld (log.archive k) then none else
      Function.update (rename moved log.name (log.archive 1)) log.name (some []) (log.archive k)) = _
    have hk' : k ≤ log.maxFiles := hk
    rw [isOld_archive h.app (by omega), if_neg (by rw [decide_eq_true_eq]; omega)]
    obtain ⟨j, rfl⟩ : ∃ j, k = j + 1 := ⟨k - 1, by omega⟩
    rw [Nat.add_sub_cancel]
    cases j with
    | zero => exact hone'
    | succ j =>
      rw [List.getElem?_cons_succ, hmoved _ (archive_ne_name log _) fun heq => ?_]
      · rw [hmove (j + 1) (by omega) (by omega), hclosed _ (archive_ne_name log _),
          h.archive (j + 1) (by omega) (by omega)]
        rfl
      · have hj := archive_inj (k := 1) heq
        omega
  · show (if log.isOld name then none else
      Function.update (rename moved log.name (log.archive 1)) log.name (some []) name) = none
    have hname' : name ≠ log.name := hname
    split_ifs with hold
    · rfl
    · have hall : ∀ k : ℕ, 1 ≤ k → k ≤ log.maxFiles + 1 → name ≠ log.archive k := by
        rintro k hk1 hk rfl
        rcases Nat.lt_or_eq_of_le hk with hlt | rfl
        · exact hnot k hk1 (by show k ≤ log.maxFiles; omega) rfl
        · rw [isOld_archive h.app hint, decide_eq_true_eq] at hold
          omega
      rw [hmoved name hname' (hall 1 le_rfl (by omega)), hother name hall, hclosed name hname']
      exact h.rest name hpre hname' fun k hk1 hk => hall k hk1 (by omega)
  · show (if log.isOld name then none else
      Function.update (rename moved log.name (log.archive 1)) log.name (some []) name) = _
    have hnot' : ¬ log.name <+: name := hnot
    have hname : name ≠ log.name := by
      rintro rfl
      exact hnot' (List.prefix_refl _)
    have hall : ∀ k : ℤ, name ≠ log.archive k := by
      rintro k rfl
      exact hnot' (name_isPre_archive log k)
    rw [if_neg fun hold => hnot' (isOld_isPre h.app hold).1, hmoved name hname (hall 1),
      hother name fun k _ _ => hall k, hclosed name hname]
    exact h.other name hnot'

/-! ## Runs -/

/-- What names the files does not change. -/
structure SameNames (log log' : AgooLog) : Prop where
  app : log'.app = log.app
  withPid : log'.withPid = log.withPid
  pid : log'.pid = log.pid
  maxFiles : log'.maxFiles = log.maxFiles

theorem SameNames.name {log log' : AgooLog} (h : SameNames log log') : log'.name = log.name := by
  unfold AgooLog.name
  rw [h.withPid, h.app, h.pid]

theorem SameNames.archive {log log' : AgooLog} (h : SameNames log log') (seq : ℤ) :
    log'.archive seq = log.archive seq := by
  unfold AgooLog.archive AgooLog.archives
  rw [h.name]

theorem fclose_sameNames (log : AgooLog) : SameNames log (fclose log) := by
  unfold fclose
  cases log.file with
  | none => exact ⟨rfl, rfl, rfl, rfl⟩
  | some buf => exact ⟨rfl, rfl, rfl, rfl⟩

theorem step_sameNames (s : Sys) (a : Action) : SameNames s.log (step s a).log := by
  cases a with
  | print line => exact ⟨rfl, rfl, rfl, rfl⟩
  | flush => exact ⟨rfl, rfl, rfl, rfl⟩
  | rotate =>
    have h := fclose_sameNames s.log
    exact ⟨h.app, h.withPid, h.pid, h.maxFiles⟩

/-- What is done to the log keeps its files. -/
theorem Kept.step {s : Sys} {dir : Dir} (h : Kept s.log s.rotated dir) (h1 : 1 ≤ s.log.maxFiles)
    (hint : s.log.maxFiles + 1 < 0x80000000) (a : Action) :
    Kept (LogRotate.step s a).log (LogRotate.step s a).rotated dir := by
  cases a with
  | print line =>
    refine ⟨h.app, fun hnone => h.file ?_, h.primary, h.archive, h.rest, h.other⟩
    exact Option.map_eq_none_iff.mp hnone
  | flush =>
    have hother : ∀ name, name ≠ s.log.name → (LogRotate.step s .flush).log.dir name = s.log.dir name :=
      fun name hname => Function.update_of_ne hname _ _
    refine ⟨h.app, fun hnone => h.file (Option.map_eq_none_iff.mp hnone), fun hnone => ?_, fun k hk1 hk => ?_,
      fun name hpre hname hnot => ?_, fun name hnot => ?_⟩
    · have hself : Function.update s.log.dir s.log.name
          ((s.log.dir s.log.name).map (· ++ s.log.file.getD [])) s.log.name = none := hnone
      rw [Function.update_self] at hself
      exact h.primary (Option.map_eq_none_iff.mp hself)
    · exact (hother _ (archive_ne_name s.log k)).trans (h.archive k hk1 hk)
    · exact (hother name hname).trans (h.rest name hpre hname hnot)
    · refine (hother name ?_).trans (h.other name hnot)
      rintro rfl
      exact hnot (List.prefix_refl _)
  | rotate => exact h.rotate h1 hint

theorem kept_run {s : Sys} {dir : Dir} (h : Kept s.log s.rotated dir) (h1 : 1 ≤ s.log.maxFiles)
    (hint : s.log.maxFiles + 1 < 0x80000000) (as : List Action) :
    Kept (run s as).log (run s as).rotated dir ∧ SameNames s.log (run s as).log := by
  induction as generalizing s with
  | nil => exact ⟨h, rfl, rfl, rfl, rfl⟩
  | cons a as ih =>
    have hsame := step_sameNames s a
    obtain ⟨hkept, hnames⟩ := ih (h.step h1 hint a) (by rw [hsame.maxFiles]; exact h1)
      (by rw [hsame.maxFiles]; exact hint)
    exact ⟨hkept, hnames.app.trans hsame.app, hnames.withPid.trans hsame.withPid,
      hnames.pid.trans hsame.pid, hnames.maxFiles.trans hsame.maxFiles⟩

/-- **In every run of a log that begins with the primary file only: of the files with its name there are
the primary one and as many archives as there were rotations, at most `maxFiles`; each holds the contents
that the primary file had at one of the last rotations, the first archive at the last one; other files
stay as they are; and a rotation leaves an empty primary file.** -/
theorem rotate_keeps (withPid : Bool) (pid maxFiles : ℕ) (h1 : 1 ≤ maxFiles)
    (hint : maxFiles + 1 < 0x80000000) (dir : Dir)
    (hdir : ∀ name, (start withPid pid maxFiles dir).log.name <+: name →
      (dir name ≠ none ↔ name = (start withPid pid maxFiles dir).log.name)) (as : List Action) :
    let log := (start withPid pid maxFiles dir).log
    let s := run (start withPid pid maxFiles dir) as
    (∀ k, 1 ≤ k → k ≤ min s.rotated.length maxFiles →
        s.log.dir (log.archive k) ≠ none ∧ s.log.dir (log.archive k) = s.rotated[k - 1]?) ∧
      (∀ name, log.name <+: name → s.log.dir name ≠ none →
        name = log.name ∨ ∃ k : ℕ, 1 ≤ k ∧ k ≤ min s.rotated.length maxFiles ∧ name = log.archive k) ∧
      (∀ name, ¬ log.name <+: name → s.log.dir name = dir name) ∧
        s.log.dir log.name ≠ none ∧ (agooLogRotate s.log).dir log.name = some [] := by
  intro log s
  have hstart : Kept log [] dir := by
    refine ⟨rfl, nofun, (hdir _ (List.prefix_refl _)).mpr rfl, fun k hk1 hk => ?_,
      fun name hpre hname _ => ?_, fun _ _ => rfl⟩
    · by_contra hne
      exact archive_ne_name log k ((hdir _ (name_isPre_archive log k)).mp hne)
    · by_contra hne
      exact hname ((hdir name hpre).mp hne)
  obtain ⟨hkept, hnames⟩ := kept_run (s := start withPid pid maxFiles dir) hstart h1 hint as
  have hmax : s.log.maxFiles = maxFiles := hnames.maxFiles
  refine ⟨fun k hk1 hk => ?_, fun name hpre hname => ?_, fun name hnot => ?_, ?_, ?_⟩
  · have harchive := hkept.archive k hk1 (by rw [hmax]; omega)
    rw [hnames.archive] at harchive
    refine ⟨fun hnone => ?_, harchive⟩
    rw [hnone, eq_comm, List.getElem?_eq_none_iff] at harchive
    have hlen : s.rotated.length ≤ k - 1 := harchive
    omega
  · by_cases hprimary : name = log.name
    · exact Or.inl hprimary
    · refine Or.inr ?_
      by_contra hno
      refine hname (hkept.rest name (by rw [hnames.name]; exact hpre) (by rw [hnames.name]; exact hprimary)
        fun k hk1 hk heq => hno ⟨k, hk1, ?_, by rw [heq, hnames.archive]⟩)
      have harchive := hkept.archive k hk1 hk
      rw [← heq] at harchive
      have hlen : k - 1 < s.rotated.length := by
        by_contra hge
        exact hname (harchive.trans (List.getElem?_eq_none (Nat.not_lt.mp hge)))
      have hk' : k ≤ s.log.maxFiles := hk
      omega
  · refine hkept.other name ?_
    rw [hnames.name]
    exact hnot
  · have hprimary := hkept.primary
    rwa [hnames.name] at hprimary
  · have hfresh := hkept.fresh
    rwa [hnames.name] at hfresh

/-- Two archives are kept of three rotations. -/
def threeRotations : List Action :=
  [.print (bytes "a"), .rotate, .print (bytes "b"), .flush, .rotate, .print (bytes "c"), .rotate]

/-- A directory with the primary file and one of another name. -/
def oneLog : Dir := fun name =>
  if name = bytes "agoo.log" then some (bytes "old") else if name = bytes "other" then some [] else none

theorem threeRotations_keep :
    let log := (start false 0 2 oneLog).log
    let s := run (start false 0 2 oneLog) threeRotations
    (∀ k, 1 ≤ k → k ≤ min s.rotated.length 2 →
        s.log.dir (log.archive k) ≠ none ∧ s.log.dir (log.archive k) = s.rotated[k - 1]?) ∧
      (∀ name, log.name <+: name → s.log.dir name ≠ none →
        name = log.name ∨ ∃ k : ℕ, 1 ≤ k ∧ k ≤ min s.rotated.length 2 ∧ name = log.archive k) ∧
      (∀ name, ¬ log.name <+: name → s.log.dir name = oneLog name) ∧
        s.log.dir log.name ≠ none ∧ (agooLogRotate s.log).dir log.name = some [] := by
  refine rotate_keeps false 0 2 (by decide) (by decide) oneLog (fun name hpre => ?_) threeRotations
  have hlog : (start false 0 2 oneLog).log.name = bytes "agoo.log" := rfl
  rw [hlog] at hpre ⊢
  unfold oneLog
  split_ifs with hname hother
  · simp [hname]
  · rw [hother] at hpre
    exact absurd hpre (by decide)
  · simp [hname]

end LogRotate

end Agoo
