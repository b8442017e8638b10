import Agoo.Conversion

/-!
# What a conversion frees

The flag that says that a text is in a buffer is the first byte of the union, where a number has its lowest
byte. Four converters write the new value before they look at the flag, so that they look at a byte of the
number (`frees_own_iff`).
-/

namespace Agoo

namespace Convert

/-- The types of texts. -/
def ValueType.IsText (t : ValueType) : Prop := t = core .string ∨ t = core .token ∨ t = core .id

instance (t : ValueType) : Decidable t.IsText := inferInstanceAs (Decidable (_ ∨ _))

/-- A String, Token or ID, in the union or in a buffer. -/
structure TextValue extends Memory where
  isText : cell.type.IsText
  owned : cell.alloced = true → cell.ptr ≠ 0

/-- The value has its buffer still. -/
def Keeps (m : Memory) (o : Outcome) : Prop :=
  o.cell.type.IsText ∧ o.cell.alloced = true ∧ o.cell.ptr = m.cell.ptr

/-- The buffer of the value is freed when it is not kept, and nothing else. -/
structure FreesOwn (m : Memory) (o : Outcome) : Prop where
  frees : o.err = none → m.cell.alloced = true → ¬ Keeps m o → o.freed = [m.cell.ptr]
  keeps : o.err = none → m.cell.alloced = true → Keeps m o → o.freed = []
  inline : m.cell.alloced = false → o.freed = []
  own : ∀ p ∈ o.freed, m.cell.alloced = true ∧ p = m.cell.ptr

/-- The byte that is written over the flag before it is looked at. -/
def newFlag (env : Env) (m : Memory) (type : TargetType) : Option Byte :=
  match type.base.scalarKind, m.cell.type with
  | some .bool, .core .string | some .bool, .core .token =>
    if strcasecmp (bytes "true") (text env m) then some 1
    else if strcasecmp (bytes "false") (text env m) then some 0
    else none
  | some .int, .core .string =>
    (wholeNumber env (text env m)).bind fun i =>
      if i < -0x80000000 ∨ 0x7FFFFFFF < i then none else some (at0 (leBytesInt 4 i) 0)
  | some .i64, .core .string => (wholeNumber env (text env m)).map fun i => at0 (leBytesInt 8 i) 0
  | some .float, .core .string =>
    if at0 (text env m) (env.float.strtod (text env m)).2 ≠ 0 then none
    else some (at0 (leBytes 8 (env.float.strtod (text env m)).1) 0)
  | _, _ => none

/-- The byte says what the flag said, or there is no address behind it. -/
def FlagRight (m : Memory) (b : Byte) : Prop :=
  if m.cell.alloced then b ≠ 0 else b = 0 ∨ m.cell.ptr = 0

variable {env : Env}

/-! ## The union -/

@[simp] theorem withType_type (c : Cell) (t : ValueType) : (c.withType t).type = t := rfl

@[simp] theorem withType_raw (c : Cell) (t : ValueType) : (c.withType t).raw = c.raw := rfl

theorem write_raw (c : Cell) {off : ℕ} {bs : Bytes} (h : off + bs.length ≤ 16) :
    (c.write off bs).raw = patch c.raw off bs := by
  unfold Cell.write
  rw [dif_pos h]

/-- Eight bytes or fewer at the front are the flag, and leave the address. -/
theorem front_written (c : Cell) {b : Byte} {bs : Bytes} (h : bs.length < 8) :
    (c.write 0 (b :: bs)).alloced = (b != 0) ∧ (c.write 0 (b :: bs)).ptr = c.ptr := by
  have hraw : (c.write 0 (b :: bs)).raw = patch c.raw 0 (b :: bs) :=
    write_raw c (by simp only [List.length_cons]; omega)
  unfold Cell.alloced Cell.ptr
  rw [hraw, drop_patch (by simp only [List.length_cons]; omega) (Nat.zero_le _)]
  exact ⟨rfl, rfl⟩

theorem mem_free {p q : ℕ} : q ∈ free p ↔ q = p ∧ p ≠ 0 := by
  unfold free
  split_ifs with h
  · simp [h]
  · simp [h]

/-! ## Single outcomes -/

theorem freesOwn_failed (m : Memory) (e : ErrCode) : FreesOwn m (failed m e) :=
  ⟨nofun, nofun, fun _ => rfl, nofun⟩

/-- The value is kept under another type of text, or as it was. -/
theorem freesOwn_retag (m : Memory) {t : ValueType} (ht : t.IsText) :
    FreesOwn m (done m (m.cell.withType t)) := by
  refine ⟨fun _ halloced hkeeps => absurd ⟨ht, halloced, rfl⟩ hkeeps, fun _ _ _ => rfl, fun _ => rfl, nofun⟩

theorem freesOwn_same (v : TextValue) : FreesOwn v.toMemory (done v.toMemory v.cell) :=
  freesOwn_retag v.toMemory v.isText

/-- When the new value is no text, its buffer is freed, and nothing without one. -/
theorem freesOwn_lost (v : TextValue) {o : Outcome} (ht : ¬ o.cell.type.IsText) (he : o.err = none) :
    FreesOwn v.toMemory o ↔ o.freed = if v.cell.alloced then [v.cell.ptr] else [] := by
  constructor
  · intro hown
    by_cases halloced : v.cell.alloced = true
    · rw [if_pos halloced]
      exact hown.frees he halloced fun hkeeps => ht hkeeps.1
    · rw [if_neg halloced]
      exact hown.inline (Bool.eq_false_iff.mpr halloced)
  · intro heq
    refine ⟨fun _ halloced _ => ?_, fun _ _ hkeeps => absurd hkeeps.1 ht, fun hinline => ?_, fun p hp => ?_⟩
    · exact heq.trans (if_pos halloced)
    · exact heq.trans (if_neg (Bool.eq_false_iff.mp hinline))
    · rw [heq] at hp
      split_ifs at hp with halloced
      · exact ⟨halloced, List.mem_singleton.mp hp⟩
      · cases hp

/-- The flag is looked at before the value is written. -/
theorem freesOwn_release (v : TextValue) {c : Cell} {h : ℕ → Bytes} (hc : ¬ c.type.IsText) :
    FreesOwn v.toMemory ⟨⟨c, h⟩, v.cell.release, none⟩ := by
  refine (freesOwn_lost v hc rfl).mpr ?_
  change v.cell.release = _
  unfold Cell.release free
  split_ifs with halloced hzero
  · exact absurd hzero (v.owned halloced)
  · rfl
  · rfl

/-- A String or Token that is no boolean has its buffer freed, by an error. -/
theorem freesOwn_noWord (v : TextValue) (t : ValueType) :
    FreesOwn v.toMemory ⟨⟨v.cell.withType t, v.heap⟩, (v.cell.withType t).release, some .parse⟩ := by
  refine ⟨nofun, nofun, fun hinline => ?_, fun p hp => ?_⟩
  · exact if_neg (Bool.eq_false_iff.mp hinline)
  · change p ∈ (if v.cell.alloced then free v.cell.ptr else []) at hp
    split_ifs at hp with halloced
    · exact ⟨halloced, (mem_free.mp hp).1⟩
    · cases hp

/-- The flag is looked at behind the write. -/
theorem freesOwn_written (v : TextValue) {t : ValueType} (ht : ¬ t.IsText) {b : Byte} {bs : Bytes}
    (hbs : bs.length < 8) :
    FreesOwn v.toMemory ⟨⟨(v.cell.withType t).write 0 (b :: bs), v.heap⟩,
        ((v.cell.withType t).write 0 (b :: bs)).release, none⟩ ↔ FlagRight v.toMemory b := by
  obtain ⟨hflag, hptr⟩ := front_written (v.cell.withType t) (b := b) hbs
  have hrelease : ((v.cell.withType t).write 0 (b :: bs)).release = if b = 0 then [] else free v.cell.ptr := by
    unfold Cell.release
    rw [hflag, hptr]
    by_cases hb : b = 0
    · simp [hb]
    · simp [hb, Cell.ptr]
  rw [freesOwn_lost v (by simpa using ht) rfl]
  change ((v.cell.withType t).write 0 (b :: bs)).release = _ ↔ _
  rw [hrelease]
  unfold FlagRight free
  by_cases halloced : v.cell.alloced = true
  · rw [if_pos halloced, if_pos halloced, if_neg (v.owned halloced)]
    by_cases hb : b = 0
    · simp [hb]
    · simp [hb]
  · rw [if_neg halloced, if_neg halloced]
    by_cases hb : b = 0
    · simp [hb]
    · simp [hb]

/-! ## The converters -/

theorem cons_at0 {bs : Bytes} (h : 0 < bs.length) : bs = at0 bs 0 :: bs.drop 1 := by
  cases bs with
  | nil => cases h
  | cons b bs => rfl

/-- The write of a number of eight bytes or fewer. -/
theorem freesOwn_number (v : TextValue) {t : ValueType} (ht : ¬ t.IsText) {bs : Bytes} (h0 : 0 < bs.length)
    (h8 : bs.length ≤ 8) :
    FreesOwn v.toMemory ⟨⟨(v.cell.withType t).write 0 bs, v.heap⟩,
        ((v.cell.withType t).write 0 bs).release, none⟩ ↔ FlagRight v.toMemory (at0 bs 0) := by
  have hlen : (bs.drop 1).length < 8 := by
    rw [List.length_drop]
    omega
  have := freesOwn_written v ht (b := at0 bs 0) hlen
  rwa [← cons_at0 h0] at this

theorem freesOwn_word (v : TextValue) (h : v.cell.type = .core .string ∨ v.cell.type = .core .token)
    {type : TargetType} (hk : type.base.scalarKind = some .bool) :
    FreesOwn v.toMemory (convertToBool env v.toMemory) ↔
      ∀ b ∈ newFlag env v.toMemory type, FlagRight v.toMemory b := by
  have hconv : convertToBool env v.toMemory =
      if strcasecmp (bytes "true") (text env v.toMemory) then
        ⟨⟨(v.cell.withType (.core .bool)).write 0 [1], v.heap⟩,
          ((v.cell.withType (.core .bool)).write 0 [1]).release, none⟩
      else if strcasecmp (bytes "false") (text env v.toMemory) then
        ⟨⟨(v.cell.withType (.core .bool)).write 0 [0], v.heap⟩,
          ((v.cell.withType (.core .bool)).write 0 [0]).release, none⟩
      else ⟨⟨v.cell.withType (.core .bool), v.heap⟩, (v.cell.withType (.core .bool)).release, some .parse⟩ := by
    unfold convertToBool
    rcases h with h | h
    all_goals rw [h]; rfl
  have hflag : newFlag env v.toMemory type =
      if strcasecmp (bytes "true") (text env v.toMemory) then some 1
      else if strcasecmp (bytes "false") (text env v.toMemory) then some 0
      else none := by
    unfold newFlag
    rw [hk]
    rcases h with h | h
    all_goals rw [h]
  rw [hconv, hflag]
  split_ifs
  · rw [freesOwn_written v (by decide) (by decide)]
    simp
  · rw [freesOwn_written v (by decide) (by decide)]
    simp
  · exact iff_of_true (freesOwn_noWord v _) (by simp)

theorem freesOwn_bool (v : TextValue) {type : TargetType} (hk : type.base.scalarKind = some .bool) :
    FreesOwn v.toMemory (convertToBool env v.toMemory) ↔
      ∀ b ∈ newFlag env v.toMemory type, FlagRight v.toMemory b := by
  rcases v.isText with h | h | h
  · exact freesOwn_word v (.inl h) hk
  · exact freesOwn_word v (.inr h) hk
  · unfold convertToBool newFlag
    rw [hk, h]
    exact iff_of_true (freesOwn_failed _ _) (by simp)

theorem freesOwn_int (v : TextValue) {type : TargetType} (hk : type.base.scalarKind = some .int) :
    FreesOwn v.toMemory (convertToInt env v.toMemory) ↔
      ∀ b ∈ newFlag env v.toMemory type, FlagRight v.toMemory b := by
  unfold convertToInt newFlag
  rcases v.isText with h | h | h
  · rw [hk, h]
    cases hnum : wholeNumber env (text env v.toMemory) with
    | none => exact iff_of_true (freesOwn_failed _ _) (by simp)
    | some i =>
      simp only [ValueType.scalarKind, Option.bind_some]
      split_ifs
      · exact iff_of_true (freesOwn_failed _ _) (by simp)
      · refine (freesOwn_number v (by decide) ?_ ?_).trans (by simp)
        · simp
        · simp
  · rw [hk, h]
    exact iff_of_true (freesOwn_failed _ _) (by simp)
  · rw [hk, h]
    exact iff_of_true (freesOwn_failed _ _) (by simp)

theorem freesOwn_i64 (v : TextValue) {type : TargetType} (hk : type.base.scalarKind = some .i64) :
    FreesOwn v.toMemory (convertToI64 env v.toMemory) ↔
      ∀ b ∈ newFlag env v.toMemory type, FlagRight v.toMemory b := by
  unfold convertToI64 newFlag
  rcases v.isText with h | h | h
  · rw [hk, h]
    cases hnum : wholeNumber env (text env v.toMemory) with
    | none => exact iff_of_true (freesOwn_failed _ _) (by simp)
    | some i =>
      refine (freesOwn_number v (by decide) ?_ ?_).trans (by simp)
      · simp
      · simp
  · rw [hk, h]
    exact iff_of_true (freesOwn_failed _ _) (by simp)
  · rw [hk, h]
    exact iff_of_true (freesOwn_failed _ _) (by simp)

theorem freesOwn_float (v : TextValue) {type : TargetType} (hk : type.base.scalarKind = some .float) :
    FreesOwn v.toMemory (convertToFloat env v.toMemory) ↔
      ∀ b ∈ newFlag env v.toMemory type, FlagRight v.toMemory b := by
  unfold convertToFloat newFlag
  rcases v.isText with h | h | h
  · rw [hk, h]
    dsimp only [ValueType.scalarKind]
    split_ifs
    · exact iff_of_true (freesOwn_failed _ _) (by simp)
    · refine (freesOwn_number v (by decide) ?_ ?_).trans (by simp)
      · simp
      · simp
  · rw [hk, h]
    exact iff_of_true (freesOwn_failed _ _) (by simp)
  · rw [hk, h]
    exact iff_of_true (freesOwn_failed _ _) (by simp)

/-- The converters to texts keep the buffer, those to Time and Uuid look at the flag first. -/
theorem freesOwn_string (v : TextValue) : FreesOwn v.toMemory (convertToString env v.toMemory) := by
  unfold convertToString
  rcases v.isText with h | h | h
  · rw [h]
    exact freesOwn_failed _ _
  · rw [h]
    exact freesOwn_retag _ (by decide)
  · rw [h]
    exact freesOwn_retag _ (by decide)

theorem freesOwn_token (v : TextValue) : FreesOwn v.toMemory (convertToToken v.toMemory) := by
  unfold convertToToken
  rcases v.isText with h | h | h
  · rw [h]
    exact freesOwn_retag _ (by decide)
  · rw [h]
    exact freesOwn_failed _ _
  · rw [h]
    exact freesOwn_retag _ (by decide)

theorem freesOwn_id (v : TextValue) : FreesOwn v.toMemory (convertToId v.toMemory) := by
  unfold convertToId
  rcases v.isText with h | h | h
  · rw [h]
    exact freesOwn_retag _ (by decide)
  · rw [h]
    exact freesOwn_retag _ (by decide)
  · rw [h]
    exact freesOwn_failed _ _

theorem freesOwn_time (v : TextValue) : FreesOwn v.toMemory (convertToTime env v.toMemory) := by
  unfold convertToTime
  rcases v.isText with h | h | h
  · rw [h]
    dsimp only [ValueType.scalarKind]
    split
    · exact freesOwn_release v (by simp [Cell.setTime, ValueType.IsText])
    · exact freesOwn_failed _ _
  · rw [h]
    exact freesOwn_failed _ _
  · rw [h]
    exact freesOwn_failed _ _

theorem freesOwn_uuid (v : TextValue) : FreesOwn v.toMemory (convertToUuid env v.toMemory) := by
  unfold convertToUuid
  rcases v.isText with h | h | h
  · rw [h]
    dsimp only [ValueType.scalarKind]
    split
    · exact freesOwn_release v (by simp [Cell.setUuid, ValueType.IsText])
    · exact freesOwn_failed _ _
  · rw [h]
    exact freesOwn_failed _ _
  · rw [h]
    exact freesOwn_failed _ _

/-- No number is written over the flag of a text by the other converters. -/
theorem newFlag_none (v : TextValue) {type : TargetType} {k : Option ScalarKind} (hk : type.base.scalarKind = k)
    (h : k ≠ some .bool ∧ k ≠ some .int ∧ k ≠ some .i64 ∧ k ≠ some .float) :
    ∀ b ∈ newFlag env v.toMemory type, FlagRight v.toMemory b := by
  have hnone : newFlag env v.toMemory type = none := by
    unfold newFlag
    rw [hk]
    obtain ⟨hbool, hint, hi64, hfloat⟩ := h
    split
    all_goals first | rfl | contradiction
  rw [hnone]
  nofun

/-- **For every text and type: a conversion frees the buffer of a value that loses it and nothing else, if and
only if the byte that is written over the flag is not zero for a text in a buffer, and for a text in the union
is zero or has only zeros where the address is.** -/
theorem frees_own_iff (env : Env) (v : TextValue) (type : TargetType) :
    FreesOwn v.toMemory (gqlValueConvert env v.toMemory type) ↔
      ∀ b ∈ newFlag env v.toMemory type, FlagRight v.toMemory b := by
  unfold gqlValueConvert
  by_cases hsame : type.base = .value v.cell.type
  · rw [if_pos hsame]
    refine iff_of_true (freesOwn_same v) (newFlag_none v (k := v.cell.type.scalarKind) ?_ ?_)
    · rw [hsame]
      rfl
    · rcases v.isText with h | h | h
      all_goals rw [h]; decide
  rw [if_neg hsame]
  match hk : type.base.scalarKind with
  | some .bool => exact freesOwn_bool v hk
  | some .int => exact freesOwn_int v hk
  | some .i64 => exact freesOwn_i64 v hk
  | some .float => exact freesOwn_float v hk
  | some .string => exact iff_of_true (freesOwn_string v) (newFlag_none v hk (by decide))
  | some .token => exact iff_of_true (freesOwn_token v) (newFlag_none v hk (by decide))
  | some .id => exact iff_of_true (freesOwn_id v) (newFlag_none v hk (by decide))
  | some .time => exact iff_of_true (freesOwn_time v) (newFlag_none v hk (by decide))
  | some .uuid => exact iff_of_true (freesOwn_uuid v) (newFlag_none v hk (by decide))
  | none | some .null | some .var | some .list | some .object =>
    exact iff_of_true (freesOwn_same v) (newFlag_none v hk (by decide))

/-- An inline text of eight digits: its last digit is taken for an address. -/
theorem eight_digits_freed : ∃ v : TextValue, v.toMemory = written (.core .string) 1 (bytes "12345678") ∧
    ¬ FreesOwn v.toMemory (gqlValueConvert bareEnv v.toMemory (.value (.core .int))) := by
  refine ⟨⟨written (.core .string) 1 (bytes "12345678"), .inl rfl, nofun⟩, rfl, fun h => ?_⟩
  have hfreed : (gqlValueConvert bareEnv (written (.core .string) 1 (bytes "12345678"))
      (.value (.core .int))).freed = [56] := by decide +kernel
  have hnone := h.inline rfl
  rw [hfreed] at hnone
  cases hnone

end Convert

end Agoo
