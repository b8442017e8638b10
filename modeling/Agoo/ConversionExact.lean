import Agoo.ConversionFree

/-!
# What a converted value stands for

`strtol` skips blanks, replaces a number that is too large, and reads nothing from an empty text; a zero is
told from that by an `errno` that may be older. A short text is written into the union without its NUL, in
front of what was there (`conversion_exact_iff`).
-/

namespace Agoo

namespace Convert

/-! ## Meanings -/

/-- What a value stands for. -/
inductive Meaning
  | bool (b : Bool)
  | int (z : ℤ)
  | text (t : Bytes)
  deriving DecidableEq

/-- The kinds of values and targets that are meant. -/
inductive Plain
  | bool
  | int
  | i64
  | string
  | token
  | id
  deriving DecidableEq

def Plain.type : Plain → ValueType
  | bool => .core .bool
  | int => .core .int
  | i64 => .core .i64
  | string => .core .string
  | token => .core .token
  | id => .core .id

/-- What a value of a kind stands for. -/
def meaning (env : Env) (m : Memory) : Plain → Meaning
  | .bool => .bool m.cell.b
  | .int => .int m.cell.i
  | .i64 => .int m.cell.i64
  | .string => .text (text env m)
  | .token => .text (text env m)
  | .id => .text (text env m)

/-- The integer that a text is in decimal, with a sign or not. -/
def decimalInt (t : Bytes) : Option ℤ :=
  match t with
  | [] => none
  | c :: ds =>
    if c = chr '-' then if ds ≠ [] ∧ ds.all isDigit then some (-digitsVal ds) else none
    else if c = chr '+' then if ds ≠ [] ∧ ds.all isDigit then some (digitsVal ds) else none
    else if t.all isDigit then some (digitsVal t) else none

/-- The same boolean, integer or text as a value of a kind: a number is true unless it is zero, and a text
is the boolean or the number that it spells. -/
def Meaning.as : Meaning → Plain → Option Meaning
  | bool b, .bool => some (bool b)
  | int z, .bool => some (bool (z ≠ 0))
  | text t, .bool =>
    if strcasecmp (bytes "true") t then some (bool true)
    else if strcasecmp (bytes "false") t then some (bool false)
    else none
  | int z, .int => some (int z)
  | int z, .i64 => some (int z)
  | text t, .int => (decimalInt t).map int
  | text t, .i64 => (decimalInt t).map int
  | bool b, .string => some (text (boolText b))
  | int z, .string => some (text (intText z))
  | text t, .string => some (text t)
  | text t, .token => some (text t)
  | text t, .id => some (text t)
  | _, _ => none

/-- The range of a kind of integers. -/
def Plain.Fits : Plain → ℤ → Prop
  | int, z => -0x80000000 ≤ z ∧ z ≤ 0x7FFFFFFF
  | i64, z => GqlValue.FitsI64 z
  | _, _ => False

instance : (k : Plain) → (z : ℤ) → Decidable (k.Fits z)
  | .int, _ => inferInstanceAs (Decidable (_ ∧ _))
  | .i64, z => inferInstanceAs (Decidable (GqlValue.FitsI64 z))
  | .bool, _ => .isFalse id
  | .string, _ => .isFalse id
  | .token, _ => .isFalse id
  | .id, _ => .isFalse id

/-- A value of one of the kinds. -/
structure PlainValue extends Memory where
  kind : Plain
  type_eq : cell.type = kind.type

/-- A successful conversion keeps the meaning, and a String that is a number in range is converted. -/
structure Exactly (env : Env) (v : PlainValue) (k : Plain) : Prop where
  same : (gqlValueConvert env v.toMemory (.value k.type)).err = none →
    (gqlValueConvert env v.toMemory (.value k.type)).cell.type = k.type ∧
      (meaning env v.toMemory v.kind).as k =
        some (meaning env (gqlValueConvert env v.toMemory (.value k.type)).toMemory k)
  converts : v.kind = .string → ∀ z, decimalInt (text env v.toMemory) = some z → k.Fits z →
    (gqlValueConvert env v.toMemory (.value k.type)).err = none

/-- A text that is read as a number of a kind is one, and a number is read. -/
structure NumberExact (env : Env) (t : Bytes) (k : Plain) : Prop where
  empty : t = [] → env.errno ≠ 0
  blanks : ∀ z, decimalInt (t.dropWhile isSpace) = some z → t.dropWhile isSpace ≠ t →
    z = 0 ∧ env.errno ≠ 0 ∨ k = .int ∧ ¬ Plain.int.Fits z
  zero : decimalInt t = some 0 → env.errno = 0
  large : k = .i64 → ∀ z, decimalInt t = some z → GqlValue.FitsI64 z

/-- Behind a text that is written into the union there is a zero. -/
def EndsInZero (c : Cell) (t : Bytes) : Prop := t.length < 15 → at0 c.raw (1 + t.length) = 0

/-- When a conversion is exact. -/
def ExactWhen (env : Env) (v : PlainValue) (k : Plain) : Prop :=
  match v.kind, k with
  | .string, .int => NumberExact env (text env v.toMemory) .int
  | .string, .i64 => NumberExact env (text env v.toMemory) .i64
  | .bool, .string => EndsInZero v.cell (boolText v.cell.b)
  | .int, .string => EndsInZero v.cell (intText v.cell.i)
  | .i64, .string => EndsInZero v.cell (intText v.cell.i64)
  | _, _ => True

variable {env : Env}

/-! ## Reading a text as a number -/

/-- An integer, or the end of the range that it is behind. -/
def clamp (z : ℤ) : ℤ := max (min z 0x7FFFFFFFFFFFFFFF) (-0x8000000000000000)

/-- The sign and the digits of a text, behind its blanks. -/
structure NumberParts (t : Bytes) (neg : Bool) (front digits : Bytes) : Prop where
  text : t = front ++ digits
  sign : (signAt t).2.1 = neg ∧ (signAt t).1 + (signAt t).2.2 = front.length
  decimal : decimalInt (t.dropWhile isSpace) =
    if digits ≠ [] ∧ digits.all isDigit then some (if neg then -(digitsVal digits : ℤ) else digitsVal digits)
    else none

theorem numberParts {t : Bytes} (h0 : 0 ∉ t) : ∃ neg front digits, NumberParts t neg front digits := by
  have hcstr : cstr t = t := cstr_of_not_mem h0
  have hsplit : t = t.takeWhile isSpace ++ t.dropWhile isSpace := List.takeWhile_append_dropWhile.symm
  generalize hblanks : t.takeWhile isSpace = blanks at hsplit
  generalize hrest : t.dropWhile isSpace = rest at hsplit
  have hat : at0 t blanks.length = at0 rest 0 := by
    rw [hsplit]
    exact at0_append
  have hsign : signAt t = if at0 rest 0 = chr '-' then (blanks.length, true, 1)
      else if at0 rest 0 = chr '+' then (blanks.length, false, 1) else (blanks.length, false, 0) := by
    unfold signAt
    rw [hcstr, hblanks]
    dsimp only
    rw [hat]
  cases rest with
  | nil =>
    refine ⟨false, blanks, [], hsplit, ?_, ?_⟩
    · rw [hsign]
      exact ⟨rfl, rfl⟩
    · rw [hrest]
      rfl
  | cons c ds =>
    change signAt t = (if c = chr '-' then _ else if c = chr '+' then _ else _) at hsign
    by_cases hminus : c = chr '-'
    · rw [if_pos hminus] at hsign
      refine ⟨true, blanks ++ [c], ds, by simp [hsplit], ?_, ?_⟩
      · rw [hsign]
        exact ⟨rfl, by simp⟩
      · rw [hrest, decimalInt, if_pos hminus]
        rfl
    rw [if_neg hminus] at hsign
    by_cases hplus : c = chr '+'
    · rw [if_pos hplus] at hsign
      refine ⟨false, blanks ++ [c], ds, by simp [hsplit], ?_, ?_⟩
      · rw [hsign]
        exact ⟨rfl, by simp⟩
      · rw [hrest, decimalInt, if_neg hminus, if_pos hplus]
        rfl
    · rw [if_neg hplus] at hsign
      refine ⟨false, blanks, c :: ds, hsplit, ?_, ?_⟩
      · rw [hsign]
        exact ⟨rfl, rfl⟩
      · rw [hrest, decimalInt, if_neg hminus, if_neg hplus]
        simp

theorem clamp_neg (n : ℕ) : clamp (-(n : ℤ)) = max (-(n : ℤ)) (-0x8000000000000000) := by
  unfold clamp
  omega

theorem clamp_natCast (n : ℕ) : clamp (n : ℤ) = min (n : ℤ) 0x7FFFFFFFFFFFFFFF := by
  unfold clamp
  omega

/-- `strtol` reads the whole of a text exactly when it is a number behind blanks, or empty. -/
theorem strtol_whole {t : Bytes} (h0 : 0 ∉ t) :
    (∀ z, decimalInt (t.dropWhile isSpace) = some z → at0 t (numberEnd t) = 0 ∧ strtol t = clamp z) ∧
      (decimalInt (t.dropWhile isSpace) = none → t ≠ [] → at0 t (numberEnd t) ≠ 0) := by
  obtain ⟨neg, front, digits, hparts⟩ := numberParts h0
  have hdigits : digitsAt t = digits.takeWhile isDigit := by
    unfold digitsAt
    rw [cstr_of_not_mem h0, hparts.sign.2, hparts.text, List.drop_left]
  have hinside : ∀ k < t.length, at0 t k ≠ 0 := by
    intro k hk hat
    apply h0
    have hget : at0 t k = t[k] := by simp [at0, hk]
    rw [← hat, hget]
    exact List.getElem_mem hk
  constructor
  · intro z hz
    rw [hparts.decimal] at hz
    by_cases hall : digits ≠ [] ∧ digits.all isDigit = true
    · rw [if_pos hall] at hz
      have hwhole : digitsAt t = digits := by
        rw [hdigits]
        exact List.takeWhile_eq_self_iff.mpr (List.all_eq_true.mp hall.2)
      constructor
      · have hend : numberEnd t = t.length := by
          unfold numberEnd
          rw [hwhole, if_neg hall.1, hparts.sign.2]
          conv_rhs => rw [hparts.text, List.length_append]
        rw [hend]
        exact at0_of_le le_rfl
      · obtain rfl := Option.some.inj hz
        unfold strtol
        rw [hwhole, hparts.sign.1]
        cases neg with
        | true => exact (clamp_neg _).symm
        | false => exact (clamp_natCast _).symm
    · rw [if_neg hall] at hz
      cases hz
  · intro hz hne
    rw [hparts.decimal] at hz
    by_cases hall : digits ≠ [] ∧ digits.all isDigit = true
    · rw [if_pos hall] at hz
      cases hz
    · have hpos := List.length_pos_of_ne_nil hne
      unfold numberEnd
      rw [hdigits]
      split_ifs with hnil
      · exact hinside 0 hpos
      · refine hinside _ ?_
        rw [hparts.sign.2]
        conv_rhs => rw [hparts.text, List.length_append]
        have hle := (List.takeWhile_prefix isDigit (l := digits)).length_le
        rcases Nat.lt_or_eq_of_le hle with hlt | heq
        · omega
        · have hself := (List.takeWhile_prefix isDigit (l := digits)).eq_of_length heq
          refine absurd ⟨fun h => hnil (by rw [h]; rfl), ?_⟩ hall
          exact List.all_eq_true.mpr (List.takeWhile_eq_self_iff.mp hself)

theorem clamp_eq_zero_iff {z : ℤ} : clamp z = 0 ↔ z = 0 := by
  unfold clamp
  omega

theorem clamp_eq_self_iff {z : ℤ} : clamp z = z ↔ GqlValue.FitsI64 z := by
  unfold clamp GqlValue.FitsI64
  omega

/-- What is read of a number behind blanks. -/
theorem wholeNumber_some {t : Bytes} {z : ℤ} (h0 : 0 ∉ t) (hz : decimalInt (t.dropWhile isSpace) = some z) :
    wholeNumber env t = if z = 0 ∧ env.errno ≠ 0 then none else some (clamp z) := by
  obtain ⟨hend, hval⟩ := (strtol_whole h0).1 z hz
  unfold wholeNumber
  rw [hend, hval]
  simp only [ne_eq, not_true_eq_false, false_or, clamp_eq_zero_iff]

theorem wholeNumber_none {t : Bytes} (h0 : 0 ∉ t) (hz : decimalInt (t.dropWhile isSpace) = none) (hne : t ≠ []) :
    wholeNumber env t = none := by
  unfold wholeNumber
  rw [if_pos (.inl ((strtol_whole h0).2 hz hne))]

theorem wholeNumber_nil : wholeNumber env [] = if env.errno ≠ 0 then none else some 0 := by
  unfold wholeNumber
  simp [numberEnd, digitsAt, strtol, at0, cstr, digitsVal]

/-- A text that begins with a blank is no number. -/
theorem decimalInt_blank {t : Bytes} (h : t.dropWhile isSpace ≠ t) : decimalInt t = none := by
  cases t with
  | nil => exact absurd rfl h
  | cons c ds =>
    have hspace : isSpace c = true := by
      by_contra hno
      exact h (List.dropWhile_cons_of_neg hno)
    have hdigit : isDigit c = false := by
      refine Bool.eq_false_iff.mpr fun hd => ?_
      rw [(isDigit_plain hd).1] at hspace
      exact Bool.false_ne_true hspace
    have hsign : c ≠ chr '-' ∧ c ≠ chr '+' := by
      constructor
      · rintro rfl
        exact absurd hspace (by decide)
      · rintro rfl
        exact absurd hspace (by decide)
    rw [decimalInt, if_neg hsign.1, if_neg hsign.2, List.all_cons, hdigit, Bool.false_and,
      if_neg Bool.false_ne_true]

/-- What `convert_to_int` and `convert_to_i64` make of a text. -/
def readNumber (env : Env) (t : Bytes) : Plain → Option ℤ
  | .int => (wholeNumber env t).bind fun i => if i < -0x80000000 ∨ 0x7FFFFFFF < i then none else some i
  | .i64 => wholeNumber env t
  | _ => none

/-- What is read is the number, and a number in range is read. -/
structure ReadsNumber (env : Env) (t : Bytes) (k : Plain) : Prop where
  sound : ∀ i, readNumber env t k = some i → decimalInt t = some i
  complete : ∀ z, decimalInt t = some z → k.Fits z → readNumber env t k ≠ none

theorem readNumber_none {t : Bytes} {k : Plain} (h : wholeNumber env t = none) : readNumber env t k = none := by
  cases k
  all_goals simp [readNumber, h]

/-- What is read of a number in decimal. -/
theorem readNumber_clamp {t : Bytes} {k : Plain} {z : ℤ} (hk : k = .int ∨ k = .i64)
    (h : wholeNumber env t = some (clamp z)) :
    readNumber env t k = if k = .int ∧ ¬ Plain.int.Fits z then none else some (clamp z) := by
  rcases hk with rfl | rfl
  · have hrange : clamp z < -0x80000000 ∨ 0x7FFFFFFF < clamp z ↔ ¬ Plain.int.Fits z := by
      unfold clamp Plain.Fits
      omega
    simp only [readNumber, h, Option.bind_some, hrange, true_and]
  · simp [readNumber, h]

/-- Of a number with nothing before it, the value is right unless it is a zero and `errno` is set, or it is
too large for an I64. -/
theorem readsNumber_decimal {t : Bytes} {k : Plain} {z : ℤ} (hk : k = .int ∨ k = .i64)
    (hdec : decimalInt t = some z) (hread : readNumber env t k =
      if z = 0 ∧ env.errno ≠ 0 ∨ k = .int ∧ ¬ Plain.int.Fits z then none else some (clamp z)) :
    ReadsNumber env t k ↔ (z = 0 → env.errno = 0) ∧ (k = .i64 → GqlValue.FitsI64 z) := by
  constructor
  · intro h
    have hzero : z = 0 → env.errno = 0 := by
      intro h0
      by_contra herr
      refine h.complete z hdec ?_ (by rw [hread, if_pos (.inl ⟨h0, herr⟩)])
      rcases hk with rfl | rfl
      all_goals subst h0; decide
    refine ⟨hzero, ?_⟩
    rintro rfl
    have hsome : readNumber env t .i64 = some (clamp z) := by
      rw [hread, if_neg]
      rintro (⟨h0, herr⟩ | ⟨hint, -⟩)
      · exact herr (hzero h0)
      · cases hint
    have := h.sound _ hsome
    rw [hdec] at this
    exact clamp_eq_self_iff.mp (Option.some.inj this).symm
  · rintro ⟨hzero, hlarge⟩
    constructor
    · intro i hi
      rw [hread] at hi
      split_ifs at hi with hno
      rw [hdec, ← Option.some.inj hi, clamp_eq_self_iff.mpr]
      rcases hk with rfl | rfl
      · have hfits : Plain.int.Fits z := by
          by_contra hfits
          exact hno (.inr ⟨rfl, hfits⟩)
        obtain ⟨hlow, hhigh⟩ := hfits
        unfold GqlValue.FitsI64
        omega
      · exact hlarge rfl
    · intro z' hz' hfits
      obtain rfl := Option.some.inj (hdec.symm.trans hz')
      rw [hread, if_neg]
      · nofun
      · rintro (⟨h0, herr⟩ | ⟨rfl, hno⟩)
        · exact herr (hzero h0)
        · exact hno hfits

theorem numberExact_decimal {t : Bytes} {k : Plain} {z : ℤ} (hnil : t ≠ [])
    (hblank : t.dropWhile isSpace = t) (hdec : decimalInt t = some z) :
    NumberExact env t k ↔ (z = 0 → env.errno = 0) ∧ (k = .i64 → GqlValue.FitsI64 z) := by
  constructor
  · intro h
    refine ⟨fun h0 => h.zero (h0 ▸ hdec), fun hk => h.large hk z hdec⟩
  · rintro ⟨hzero, hlarge⟩
    refine ⟨fun h => absurd h hnil, fun _ _ hne => absurd hblank hne, fun h => ?_, fun hk z' hz' => ?_⟩
    · exact hzero (Option.some.inj (hdec.symm.trans h))
    · exact Option.some.inj (hdec.symm.trans hz') ▸ hlarge hk

/-- A number behind blanks is no number, so nothing may be read. -/
theorem readsNumber_blanks {t : Bytes} {k : Plain} {z : ℤ} (hdec : decimalInt t = none)
    (hread : readNumber env t k =
      if z = 0 ∧ env.errno ≠ 0 ∨ k = .int ∧ ¬ Plain.int.Fits z then none else some (clamp z)) :
    ReadsNumber env t k ↔ (z = 0 ∧ env.errno ≠ 0 ∨ k = .int ∧ ¬ Plain.int.Fits z) := by
  constructor
  · intro h
    by_contra hno
    have := h.sound _ (hread.trans (if_neg hno))
    rw [hdec] at this
    cases this
  · intro hno
    refine ⟨fun i hi => ?_, fun z' hz' => ?_⟩
    · rw [hread, if_pos hno] at hi
      cases hi
    · rw [hdec] at hz'
      cases hz'

theorem numberExact_blanks {t : Bytes} {k : Plain} {z : ℤ} (hnil : t ≠ []) (hblank : t.dropWhile isSpace ≠ t)
    (hz : decimalInt (t.dropWhile isSpace) = some z) (hdec : decimalInt t = none) :
    NumberExact env t k ↔ (z = 0 ∧ env.errno ≠ 0 ∨ k = .int ∧ ¬ Plain.int.Fits z) := by
  constructor
  · intro h
    exact h.blanks z hz hblank
  · intro hno
    refine ⟨fun h => absurd h hnil, fun z' hz' _ => ?_, ?_, ?_⟩
    · exact Option.some.inj (hz.symm.trans hz') ▸ hno
    · rw [hdec]
      nofun
    · rw [hdec]
      nofun

theorem readsNumber_iff {t : Bytes} {k : Plain} (hk : k = .int ∨ k = .i64) (h0 : 0 ∉ t) :
    ReadsNumber env t k ↔ NumberExact env t k := by
  by_cases hnil : t = []
  · subst hnil
    have hread : readNumber env [] k = if env.errno ≠ 0 then none else some 0 := by
      rcases hk with rfl | rfl
      · simp only [readNumber, wholeNumber_nil]
        split_ifs
        · rfl
        · rfl
      · exact wholeNumber_nil
    constructor
    · intro h
      refine ⟨fun _ herr => ?_, nofun, nofun, nofun⟩
      have := h.sound 0 (by rw [hread, herr]; rfl)
      cases this
    · intro h
      refine ⟨fun i hi => ?_, nofun⟩
      rw [hread, if_pos (h.empty rfl)] at hi
      cases hi
  cases hz : decimalInt (t.dropWhile isSpace) with
  | none =>
    have hread : readNumber env t k = none := readNumber_none (wholeNumber_none h0 hz hnil)
    have hdec : decimalInt t = none := by
      by_cases hblank : t.dropWhile isSpace = t
      · rwa [hblank] at hz
      · exact decimalInt_blank hblank
    refine iff_of_true ⟨fun i hi => ?_, fun z hz' => ?_⟩ ⟨fun h => absurd h hnil, ?_, ?_, ?_⟩
    · rw [hread] at hi
      cases hi
    · rw [hdec] at hz'
      cases hz'
    · rw [hz]
      nofun
    · rw [hdec]
      nofun
    · rw [hdec]
      nofun
  | some z =>
    have hdec : t.dropWhile isSpace = t ∧ decimalInt t = some z ∨
        t.dropWhile isSpace ≠ t ∧ decimalInt t = none := by
      by_cases hblank : t.dropWhile isSpace = t
      · exact .inl ⟨hblank, by rwa [hblank] at hz⟩
      · exact .inr ⟨hblank, decimalInt_blank hblank⟩
    have hread : readNumber env t k =
        if z = 0 ∧ env.errno ≠ 0 ∨ k = .int ∧ ¬ Plain.int.Fits z then none else some (clamp z) := by
      have hwhole := @wholeNumber_some env _ _ h0 hz
      by_cases hstale : z = 0 ∧ env.errno ≠ 0
      · rw [if_pos hstale] at hwhole
        rw [if_pos (.inl hstale), readNumber_none hwhole]
      · rw [if_neg hstale] at hwhole
        rw [readNumber_clamp hk hwhole]
        simp only [hstale, false_or]
    rcases hdec with ⟨hblank, hdec⟩ | ⟨hblank, hdec⟩
    · exact (readsNumber_decimal hk hdec hread).trans (numberExact_decimal hnil hblank hdec).symm
    · exact (readsNumber_blanks hdec hread).trans (numberExact_blanks hnil hblank hz hdec).symm

/-! ## What was written is read -/

theorem take_written (c : Cell) {bs : Bytes} (h : bs.length ≤ 16) : (c.write 0 bs).raw.take bs.length = bs := by
  rw [write_raw c (by omega)]
  exact patch_at (Nat.zero_le _)

theorem setInt_i (c : Cell) {z : ℤ} (h : Plain.int.Fits z) : (c.setInt z).i = z := by
  obtain ⟨hlow, hhigh⟩ := h
  have htake := @take_written (c.withType (.core .int)) (leBytesInt 4 z) (by simp)
  rw [length_leBytesInt] at htake
  unfold Cell.i Cell.setInt
  rw [htake]
  exact leInt_leBytesInt (by omega) (by omega)

theorem setI64_i64 (c : Cell) {z : ℤ} (h : GqlValue.FitsI64 z) : (c.setI64 z).i64 = z := by
  obtain ⟨hlow, hhigh⟩ := h
  have htake := @take_written (c.withType (.core .i64)) (leBytesInt 8 z) (by simp)
  rw [length_leBytesInt] at htake
  unfold Cell.i64 Cell.setI64
  rw [htake]
  exact leInt_leBytesInt (by omega) (by omega)

theorem write_b (c : Cell) (b : Byte) : (c.write 0 [b]).b = (b != 0) := by
  unfold Cell.b
  rw [write_raw c (by simp)]
  rfl

theorem setBool_b (c : Cell) (b : Bool) : (c.setBool b).b = b := by
  unfold Cell.setBool
  rw [write_b]
  cases b with
  | true => rfl
  | false => rfl

/-- An `int32_t` and an `int64_t` in the union. -/
theorem fits_i (c : Cell) : Plain.int.Fits c.i := by
  have hlen : (c.raw.take 4).length = 4 := by
    rw [List.length_take, c.size]
    rfl
  unfold Cell.i leInt
  rw [hlen]
  have hle := Int.le_bmod (x := (leVal (c.raw.take 4) : ℤ)) (m := 256 ^ 4) (by decide)
  have hlt := Int.bmod_lt (x := (leVal (c.raw.take 4) : ℤ)) (m := 256 ^ 4) (by decide)
  unfold Plain.Fits
  constructor
  · exact le_trans (by decide) hle
  · exact Int.le_of_lt_add_one (lt_of_lt_of_le hlt (by decide))

/-! ## Texts in the union -/

theorem zero_not_mem_intText (z : ℤ) : 0 ∉ intText z := by
  have hdec : 0 ∉ decimal z.natAbs := fun h => (isDigit_plain (isDigit_decimal h)).2.1 rfl
  unfold intText
  split_ifs
  · intro h
    rcases List.mem_append.mp h with h | h
    · exact absurd h (by decide)
    · exact hdec h
  · exact hdec

theorem zero_not_mem_boolText (b : Bool) : 0 ∉ boolText b := by
  cases b with
  | true => decide
  | false => decide

/-- A short text is read with what stands behind it. -/
theorem text_short {m : Memory} {p : Bytes} (h0 : 0 ∉ p) (hlen : p.length < 15) :
    text env (done m (((m.cell.withType (.core .string)).write 1 (strncpy p p.length)).write 0 [0])).toMemory = p ↔
      at0 m.cell.raw (1 + p.length) = 0 := by
  have hsize := m.cell.size
  have hcopy : strncpy p p.length = p := by
    unfold strncpy
    rw [cstr_of_not_mem h0]
    simp
  rw [hcopy]
  generalize hc : ((m.cell.withType (.core .string)).write 1 p).write 0 [0] = c
  have hraw : c.raw = 0 :: (p ++ m.cell.raw.drop (1 + p.length)) := by
    rw [← hc, write_raw _ (by decide), write_raw _ (by omega)]
    match m.cell.raw, hsize with
    | b :: raw, _ => simp [patch]
  have htext : text env (done m c).toMemory = p ++ cstr (m.cell.raw.drop (1 + p.length) ++ env.behind) := by
    have halloced : c.alloced = false := by
      unfold Cell.alloced
      rw [hraw]
      rfl
    change cstr (if c.alloced then m.heap c.ptr else c.raw.drop 1 ++ env.behind) = _
    rw [halloced, hraw, if_neg Bool.false_ne_true, ← cstr_append h0, List.drop_one, List.tail_cons,
      List.append_assoc]
  have hnext : m.cell.raw.drop (1 + p.length) =
      at0 m.cell.raw (1 + p.length) :: m.cell.raw.drop (1 + p.length + 1) := by
    have hlt : 1 + p.length < m.cell.raw.length := by omega
    rw [List.drop_eq_getElem_cons hlt]
    simp [at0, hlt]
  rw [htext, hnext]
  by_cases hzero : at0 m.cell.raw (1 + p.length) = 0
  · simp [hzero, cstr]
  · simp [hzero, cstr]

/-- A long text is in the buffer. -/
theorem text_long {m : Memory} {p : Bytes} {q : ℕ} (h0 : 0 ∉ p) (hq : 0 < q ∧ q < 256 ^ 8) :
    text env ⟨((m.cell.withType (.core .string)).write 0 [1]).write 8 (leBytes 8 q),
      Function.update m.heap q (cstr (p.take p.length))⟩ = p := by
  have hsize := m.cell.size
  generalize hc : ((m.cell.withType (.core .string)).write 0 [1]).write 8 (leBytes 8 q) = c
  have hraw : c.raw = patch (patch m.cell.raw 0 [1]) 8 (leBytes 8 q) := by
    rw [← hc, write_raw _ (by simp), write_raw _ (by decide)]
    rfl
  have hlen : (patch m.cell.raw 0 [1]).length = 16 := by
    rw [length_patch (by simp [hsize]), hsize]
  have hptr : c.ptr = q := by
    unfold Cell.ptr
    have hdrop : c.raw.drop 8 = leBytes 8 q := by
      have hwritten := @patch_at (patch m.cell.raw 0 [1]) (leBytes 8 q) 8 (by omega)
      rw [← hraw, length_leBytes, List.take_of_length_le] at hwritten
      · exact hwritten
      · rw [List.length_drop, c.size]
    rw [hdrop, leVal_leBytes, Nat.mod_eq_of_lt hq.2]
  have halloced : c.alloced = true := by
    unfold Cell.alloced
    rw [hraw]
    match m.cell.raw, hsize with
    | b :: raw, _ => rfl
  unfold text
  rw [halloced, hptr, if_pos rfl]
  change cstr (Function.update m.heap q (cstr (p.take p.length)) q) = p
  rw [Function.update_self, cstr_cstr, List.take_length, cstr_of_not_mem h0]

/-- The text of a value that is printed. -/
theorem gqlStringSet_exact {m : Memory} {p : Bytes} (h0 : 0 ∉ p) :
    ((gqlStringSet env m p).err = none → (gqlStringSet env m p).cell.type = .core .string ∧
      text env (gqlStringSet env m p).toMemory = p) ↔ EndsInZero m.cell p := by
  rw [gqlStringSet_len]
  unfold EndsInZero
  by_cases hlen : p.length < 15
  · simp only [if_pos hlen]
    rw [← @text_short env _ _ h0 hlen]
    simp [done, hlen]
  · simp only [if_neg hlen]
    cases hmalloc : env.malloc with
    | some q =>
      refine iff_of_true (fun _ => ⟨by simp, text_long h0 (env.malloc_pos q hmalloc)⟩) fun h => absurd h hlen
    | none =>
      refine iff_of_true (fun h => ?_) fun h => absurd h hlen
      cases h

/-! ## Every kind and target -/

/-- The converter of a target. -/
def converter (env : Env) (m : Memory) : Plain → Outcome
  | .bool => convertToBool env m
  | .int => convertToInt env m
  | .i64 => convertToI64 env m
  | .string => convertToString env m
  | .token => convertToToken m
  | .id => convertToId m

theorem convert_eq (m : Memory) (k : Plain) :
    gqlValueConvert env m (.value k.type) = if m.cell.type = k.type then done m m.cell else converter env m k := by
  have hbase : (TargetType.value k.type).base = .value k.type := rfl
  unfold gqlValueConvert
  rw [hbase]
  by_cases h : m.cell.type = k.type
  · rw [if_pos h, if_pos (congrArg TargetType.value h.symm)]
  · rw [if_neg h, if_neg fun heq => h (TargetType.value.inj heq).symm]
    cases k
    all_goals rfl

/-- Nothing but a number is expected to be converted. -/
theorem exactly_iff (v : PlainValue) {k : Plain} {o : Outcome}
    (ho : gqlValueConvert env v.toMemory (.value k.type) = o) (hk : v.kind = .string → ∀ z, ¬ k.Fits z) :
    Exactly env v k ↔ (o.err = none → o.cell.type = k.type ∧
      (meaning env v.toMemory v.kind).as k = some (meaning env o.toMemory k)) := by
  subst ho
  exact ⟨fun h => h.same, fun h => ⟨h, fun hs z _ hfits => absurd hfits (hk hs z)⟩⟩

theorem exactly_done (v : PlainValue) {k : Plain} {c : Cell}
    (ho : gqlValueConvert env v.toMemory (.value k.type) = done v.toMemory c)
    (hk : v.kind = .string → ∀ z, ¬ k.Fits z) (htype : c.type = k.type)
    (hmean : (meaning env v.toMemory v.kind).as k = some (meaning env ⟨c, v.heap⟩ k)) : Exactly env v k :=
  (exactly_iff v ho hk).mpr fun _ => ⟨htype, hmean⟩

theorem exactly_failed (v : PlainValue) {k : Plain} {e : ErrCode}
    (ho : gqlValueConvert env v.toMemory (.value k.type) = failed v.toMemory e)
    (hk : v.kind = .string → ∀ z, ¬ k.Fits z) : Exactly env v k :=
  (exactly_iff v ho hk).mpr nofun

/-- A String or a Token that spells a boolean. -/
theorem exactly_word (v : PlainValue) (h : v.kind = .string ∨ v.kind = .token) : Exactly env v .bool := by
  have htype : v.cell.type = .core .string ∨ v.cell.type = .core .token := by
    rcases h with h | h
    · exact .inl (v.type_eq.trans (by rw [h]; rfl))
    · exact .inr (v.type_eq.trans (by rw [h]; rfl))
  have ho : gqlValueConvert env v.toMemory (.value (Plain.bool).type) =
      if strcasecmp (bytes "true") (text env v.toMemory) then
        ⟨⟨(v.cell.withType (.core .bool)).write 0 [1], v.heap⟩,
          ((v.cell.withType (.core .bool)).write 0 [1]).release, none⟩
      else if strcasecmp (bytes "false") (text env v.toMemory) then
        ⟨⟨(v.cell.withType (.core .bool)).write 0 [0], v.heap⟩,
          ((v.cell.withType (.core .bool)).write 0 [0]).release, none⟩
      else ⟨⟨v.cell.withType (.core .bool), v.heap⟩, (v.cell.withType (.core .bool)).release, some .parse⟩ := by
    rw [convert_eq]
    rcases htype with ht | ht
    all_goals
      rw [if_neg (by rw [ht]; decide)]
      unfold converter convertToBool
      rw [ht]
      rfl
  have hmean : meaning env v.toMemory v.kind = .text (text env v.toMemory) := by
    rcases h with h | h
    all_goals rw [h]; rfl
  have has : (Meaning.text (text env v.toMemory)).as .bool =
      if strcasecmp (bytes "true") (text env v.toMemory) then some (.bool true)
      else if strcasecmp (bytes "false") (text env v.toMemory) then some (.bool false) else none := rfl
  rw [exactly_iff v ho fun _ _ => id, hmean, has]
  by_cases htrue : strcasecmp (bytes "true") (text env v.toMemory) = true
  · rw [if_pos htrue, if_pos htrue]
    refine fun _ => ⟨by simp [Plain.type, Cell.withType], ?_⟩
    unfold meaning
    rw [write_b]
    rfl
  by_cases hfalse : strcasecmp (bytes "false") (text env v.toMemory) = true
  · rw [if_neg htrue, if_pos hfalse, if_neg htrue, if_pos hfalse]
    refine fun _ => ⟨by simp [Plain.type, Cell.withType], ?_⟩
    unfold meaning
    rw [write_b]
    rfl
  · rw [if_neg htrue, if_neg hfalse]
    intro h
    cases h

/-- A converter of a text keeps it unless it reads a number. -/
theorem convertToInt_string {m : Memory} (h : m.cell.type = .core .string) : convertToInt env m =
    match readNumber env (text env m) .int with
    | none => failed m .range
    | some i => ⟨⟨m.cell.setInt i, m.heap⟩, (m.cell.setInt i).release, none⟩ := by
  unfold convertToInt readNumber
  rw [h]
  cases wholeNumber env (text env m) with
  | none => rfl
  | some i =>
    simp only [ValueType.scalarKind, Option.bind_some]
    by_cases hrange : i < -0x80000000 ∨ 0x7FFFFFFF < i
    · rw [if_pos hrange, if_pos hrange]
    · rw [if_neg hrange, if_neg hrange]

theorem convertToI64_string {m : Memory} (h : m.cell.type = .core .string) : convertToI64 env m =
    match readNumber env (text env m) .i64 with
    | none => failed m .range
    | some i => ⟨⟨m.cell.setI64 i, m.heap⟩, (m.cell.setI64 i).release, none⟩ := by
  unfold convertToI64 readNumber
  rw [h]
  cases wholeNumber env (text env m) with
  | none => rfl
  | some i => rfl

/-- What is read is in the range of its kind. -/
theorem readNumber_fits {t : Bytes} {k : Plain} {i : ℤ} (h : readNumber env t k = some i) : k.Fits i := by
  have hwhole : ∀ i, wholeNumber env t = some i → GqlValue.FitsI64 i := by
    intro i hi
    unfold wholeNumber at hi
    split_ifs at hi
    rw [← Option.some.inj hi]
    unfold strtol GqlValue.FitsI64
    dsimp only
    split_ifs
    · omega
    · omega
  cases k with
  | int =>
    obtain ⟨j, -, hj⟩ := Option.bind_eq_some_iff.mp h
    split_ifs at hj with hrange
    obtain rfl := Option.some.inj hj
    unfold Plain.Fits
    omega
  | i64 => exact hwhole i h
  | bool | string | token | id => cases h

/-- What becomes of a text that may be a number. -/
theorem convert_number (v : PlainValue) {k : Plain} (hv : v.kind = .string) (hk : k = .int ∨ k = .i64) :
    readNumber env (text env v.toMemory) k = none ∧
        gqlValueConvert env v.toMemory (.value k.type) = failed v.toMemory .range ∨
      ∃ i o, readNumber env (text env v.toMemory) k = some i ∧
        gqlValueConvert env v.toMemory (.value k.type) = o ∧ o.err = none ∧ o.cell.type = k.type ∧
        meaning env o.toMemory k = .int i := by
  have htype : v.cell.type = .core .string := v.type_eq.trans (by rw [hv]; rfl)
  rcases hk with rfl | rfl
  · rw [convert_eq, if_neg (by rw [htype]; decide)]
    change _ ∧ convertToInt env v.toMemory = _ ∨ ∃ i o, _ ∧ convertToInt env v.toMemory = o ∧ _
    rw [convertToInt_string htype]
    cases hread : readNumber env (text env v.toMemory) .int with
    | none => exact .inl ⟨rfl, rfl⟩
    | some i =>
      have hint := setInt_i v.cell (readNumber_fits hread)
      exact .inr ⟨i, _, rfl, rfl, rfl, write_type _ _ _, congrArg Meaning.int hint⟩
  · rw [convert_eq, if_neg (by rw [htype]; decide)]
    change _ ∧ convertToI64 env v.toMemory = _ ∨ ∃ i o, _ ∧ convertToI64 env v.toMemory = o ∧ _
    rw [convertToI64_string htype]
    cases hread : readNumber env (text env v.toMemory) .i64 with
    | none => exact .inl ⟨rfl, rfl⟩
    | some i =>
      have hint := setI64_i64 v.cell (readNumber_fits hread)
      exact .inr ⟨i, _, rfl, rfl, rfl, write_type _ _ _, congrArg Meaning.int hint⟩

theorem exactly_number (v : PlainValue) {k : Plain} (hv : v.kind = .string) (hk : k = .int ∨ k = .i64) :
    Exactly env v k ↔ NumberExact env (text env v.toMemory) k := by
  have hmean : (meaning env v.toMemory v.kind).as k = (decimalInt (text env v.toMemory)).map .int := by
    rw [hv]
    rcases hk with rfl | rfl
    · rfl
    · rfl
  have h0 : 0 ∉ text env v.toMemory := zero_not_mem_cstr _
  rw [← readsNumber_iff hk h0]
  rcases @convert_number env v k hv hk with ⟨hread, ho⟩ | ⟨i, o, hread, ho, herr, htype, hint⟩
  · constructor
    · refine fun h => ⟨fun i hi => ?_, fun z hz hfits => ?_⟩
      · rw [hread] at hi
        cases hi
      · have := h.converts hv z hz hfits
        rw [ho] at this
        cases this
    · refine fun h => ⟨fun hnone => ?_, fun _ z hz hfits => absurd hread (h.complete z hz hfits)⟩
      rw [ho] at hnone
      cases hnone
  · constructor
    · refine fun h => ⟨fun j hj => ?_, fun z hz hfits hnone => ?_⟩
      · obtain rfl := Option.some.inj (hread.symm.trans hj)
        have hsame := (h.same (by rw [ho]; exact herr)).2
        rw [hmean, ho, hint] at hsame
        obtain ⟨z, hz, hzi⟩ := Option.map_eq_some_iff.mp hsame
        rw [hz, Meaning.int.inj hzi]
      · rw [hread] at hnone
        cases hnone
    · refine fun h => ⟨fun _ => ?_, fun _ _ _ _ => by rw [ho]; exact herr⟩
      rw [ho, hmean, h.sound i hread, hint]
      exact ⟨htype, rfl⟩

/-- The conversions that are refused, whatever the value is. -/
def refused : Plain → Plain → Bool
  | .bool, k => k == .int || k == .i64 || k == .token || k == .id
  | .int, k => k == .token || k == .id
  | .i64, k => k == .token || k == .id
  | .token, k => k == .int || k == .i64
  | .id, k => k == .bool || k == .int || k == .i64
  | .string, _ => false

theorem converter_refused {m : Memory} {a k : Plain} (htype : m.cell.type = a.type) (h : refused a k = true) :
    converter env m k = failed m .parse := by
  cases k
  all_goals
    unfold converter
    cases a
    all_goals first
      | exact absurd h (by decide)
      | simp only [convertToBool, convertToInt, convertToI64, convertToToken, convertToId, htype, Plain.type,
          ValueType.scalarKind]

/-- Texts are only given another type. -/
def retagged : Plain → Plain → Bool
  | .string, k => k == .token || k == .id
  | .token, k => k == .string || k == .id
  | .id, k => k == .string || k == .token
  | _, _ => false

theorem converter_retagged {m : Memory} {a k : Plain} (htype : m.cell.type = a.type) (h : retagged a k = true) :
    converter env m k = done m (m.cell.withType k.type) := by
  cases k
  all_goals
    unfold converter
    cases a
    all_goals first
      | exact absurd h (by decide)
      | simp only [convertToString, convertToToken, convertToId, htype, Plain.type, ValueType.scalarKind]

/-- A conversion to another kind. -/
theorem convert_other (v : PlainValue) {a k : Plain} (hv : v.kind = a) (hne : a.type ≠ k.type) :
    gqlValueConvert env v.toMemory (.value k.type) = converter env v.toMemory k := by
  rw [convert_eq, if_neg]
  rw [v.type_eq, hv]
  exact hne

/-- A text that is printed. -/
theorem exactly_printed (v : PlainValue) {a : Plain} {p : Bytes} (hv : v.kind = a)
    (hne : a.type ≠ Plain.string.type) (h0 : 0 ∉ p)
    (ho : v.cell.type = a.type → converter env v.toMemory .string = gqlStringSet env v.toMemory p)
    (hp : (meaning env v.toMemory a).as .string = some (.text p)) :
    Exactly env v .string ↔ EndsInZero v.cell p := by
  have htype : v.cell.type = a.type := v.type_eq.trans (by rw [hv])
  have hset := (convert_other v hv hne).trans (ho htype)
  rw [exactly_iff v hset fun _ _ => id, ← @gqlStringSet_exact env _ _ h0, hv, hp]
  have hmean : ∀ t : Bytes, some (Meaning.text p) = some (.text t) ↔ t = p := by
    intro t
    constructor
    · intro h
      exact (Meaning.text.inj (Option.some.inj h)).symm
    · rintro rfl
      rfl
  exact imp_congr Iff.rfl (and_congr Iff.rfl (hmean _))

theorem exactly_refused (v : PlainValue) {a k : Plain} (hv : v.kind = a) (hne : a.type ≠ k.type)
    (h : refused a k = true) : Exactly env v k := by
  refine exactly_failed v ((convert_other v hv hne).trans (converter_refused (v.type_eq.trans (by rw [hv])) h)) ?_
  rw [hv]
  rintro rfl
  cases h

theorem exactly_retagged (v : PlainValue) {a k : Plain} (hv : v.kind = a) (hne : a.type ≠ k.type)
    (h : retagged a k = true) : Exactly env v k := by
  refine exactly_done v ((convert_other v hv hne).trans (converter_retagged (v.type_eq.trans (by rw [hv])) h)) ?_
    rfl ?_
  · rintro - z hfits
    cases k
    all_goals first
      | exact hfits
      | cases a
        all_goals exact absurd h (by decide)
  · rw [hv]
    cases k
    all_goals
      cases a
      all_goals first
        | rfl
        | exact absurd h (by decide)

theorem exactly_same (v : PlainValue) {k : Plain} (hv : v.kind = k) : Exactly env v k := by
  have ho : gqlValueConvert env v.toMemory (.value k.type) = done v.toMemory v.cell := by
    rw [convert_eq, if_pos (v.type_eq.trans (by rw [hv]))]
  refine ⟨fun _ => ⟨?_, ?_⟩, fun _ _ _ _ => by rw [ho]; rfl⟩
  · rw [ho, ← hv]
    exact v.type_eq
  · rw [ho, hv]
    cases k
    all_goals rfl

/-- A number is true unless it is zero. -/
theorem exactly_bool (v : PlainValue) {z : ℤ} {c : Cell}
    (ho : gqlValueConvert env v.toMemory (.value (Plain.bool).type) = done v.toMemory (c.setBool (z ≠ 0)))
    (hmean : meaning env v.toMemory v.kind = .int z) : Exactly env v .bool := by
  refine exactly_done v ho (fun _ _ => id) (write_type _ _ _) ?_
  rw [hmean]
  exact congrArg (fun b => some (Meaning.bool b)) (setBool_b c _).symm

/-- An Int is an I64. -/
theorem exactly_widened (v : PlainValue) (hv : v.kind = .int) : Exactly env v .i64 := by
  have htype : v.cell.type = .core .int := v.type_eq.trans (by rw [hv]; rfl)
  have ho : gqlValueConvert env v.toMemory (.value (Plain.i64).type) =
      done v.toMemory (v.cell.setI64 v.cell.i) := by
    rw [convert_other v hv (by decide)]
    unfold converter convertToI64
    rw [htype]
    rfl
  have hfits : GqlValue.FitsI64 v.cell.i := by
    obtain ⟨hlow, hhigh⟩ := fits_i v.cell
    unfold GqlValue.FitsI64
    omega
  refine exactly_done v ho (fun hs => ?_) (write_type _ _ _) ?_
  · rw [hv] at hs
    cases hs
  · rw [hv]
    exact congrArg (fun z => some (Meaning.int z)) (setI64_i64 v.cell hfits).symm

/-- An I64 is an Int if it is in range. -/
theorem exactly_narrowed (v : PlainValue) (hv : v.kind = .i64) : Exactly env v .int := by
  have htype : v.cell.type = .core .i64 := v.type_eq.trans (by rw [hv]; rfl)
  have hkind : v.kind ≠ .string := by
    rw [hv]
    decide
  have ho : gqlValueConvert env v.toMemory (.value (Plain.int).type) =
      if v.cell.i64 < -0x80000000 ∨ 0x7FFFFFFF < v.cell.i64 then failed v.toMemory .range
      else done v.toMemory (v.cell.setInt v.cell.i64) := by
    rw [convert_other v hv (by decide)]
    unfold converter convertToInt
    rw [htype]
    rfl
  by_cases hrange : v.cell.i64 < -0x80000000 ∨ 0x7FFFFFFF < v.cell.i64
  · rw [if_pos hrange] at ho
    exact exactly_failed v ho fun hs => absurd hs hkind
  · rw [if_neg hrange] at ho
    have hfits : Plain.int.Fits v.cell.i64 := by
      unfold Plain.Fits
      omega
    refine exactly_done v ho (fun hs => absurd hs hkind) (write_type _ _ _) ?_
    rw [hv]
    exact congrArg (fun z => some (Meaning.int z)) (setInt_i v.cell hfits).symm

/-- **For every value and target among Boolean, Int, I64, String, Token and ID: the conversion is exact if and
only if a text that is read as a number is one, with no blanks, in range and no zero behind an older `errno`,
and a short text that is written has a zero behind it.** -/
theorem conversion_exact_iff (env : Env) (v : PlainValue) (k : Plain) : Exactly env v k ↔ ExactWhen env v k := by
  unfold ExactWhen
  match hv : v.kind, k with
  | .bool, .string =>
    refine exactly_printed v hv (by decide) (zero_not_mem_boolText _) (fun htype => ?_) rfl
    unfold converter convertToString
    rw [htype]
    rfl
  | .int, .string =>
    refine exactly_printed v hv (by decide) (zero_not_mem_intText _) (fun htype => ?_) rfl
    unfold converter convertToString
    rw [htype]
    rfl
  | .i64, .string =>
    refine exactly_printed v hv (by decide) (zero_not_mem_intText _) (fun htype => ?_) rfl
    unfold converter convertToString
    rw [htype]
    rfl
  | .string, .int => exact exactly_number v hv (.inl rfl)
  | .string, .i64 => exact exactly_number v hv (.inr rfl)
  | .int, .bool =>
    refine iff_of_true (exactly_bool v (z := v.cell.i) (c := v.cell) ?_ (by rw [hv]; rfl)) trivial
    have htype : v.cell.type = .core .int := v.type_eq.trans (by rw [hv]; rfl)
    rw [convert_other v hv (by decide)]
    unfold converter convertToBool
    rw [htype]
    rfl
  | .i64, .bool =>
    refine iff_of_true (exactly_bool v (z := v.cell.i64) (c := v.cell) ?_ (by rw [hv]; rfl)) trivial
    have htype : v.cell.type = .core .i64 := v.type_eq.trans (by rw [hv]; rfl)
    rw [convert_other v hv (by decide)]
    unfold converter convertToBool
    rw [htype]
    rfl
  | .string, .bool => exact iff_of_true (exactly_word v (.inl hv)) trivial
  | .token, .bool => exact iff_of_true (exactly_word v (.inr hv)) trivial
  | .int, .i64 => exact iff_of_true (exactly_widened v hv) trivial
  | .i64, .int => exact iff_of_true (exactly_narrowed v hv) trivial
  | .bool, .bool | .int, .int | .i64, .i64 | .string, .string | .token, .token | .id, .id =>
    exact iff_of_true (exactly_same v hv) trivial
  | .string, .token | .string, .id | .token, .string | .token, .id | .id, .string | .id, .token =>
    exact iff_of_true (exactly_retagged v hv (by decide) rfl) trivial
  | .bool, .int | .bool, .i64 | .bool, .token | .bool, .id | .int, .token | .int, .id | .i64, .token
  | .i64, .id | .token, .int | .token, .i64 | .id, .bool | .id, .int | .id, .i64 =>
    exact iff_of_true (exactly_refused v hv (by decide) rfl) trivial

/-- The value that an Int of -5 was written into. -/
def minusFive : PlainValue where
  toMemory := written (.core .int) 0 (leBytesInt 4 (-5))
  kind := .int
  type_eq := rfl

/-- The text of an Int of -5 is `-5` and a byte of the number. -/
theorem minus_five_text : ¬ Exactly bareEnv minusFive .string := by
  intro h
  have := (h.same (by decide)).2
  exact absurd this (by decide +kernel)

end Convert

end Agoo
