import Agoo.JsonRoundTrip
import Agoo.Numbers
import Agoo.SdlRoundTrip

/-!
# Integer literals (`read_number`, `parse_num`)

Both readers add up digits in 64 bits. `read_number` looks at the sum after each digit, `parse_num` at the
room before it, each with arithmetic that wraps: a sum that wraps to a small one is taken for it. An Int
is told by the size of the number without its sign, so the lowest Int becomes an I64.

`int_literals_iff`: both are exact but for that Int and for digits at which the sum leaves 64 bits unseen.
-/

namespace Agoo

/-! ## The law -/

inductive NumSign
  | none | plus | minus
  deriving DecidableEq

def NumSign.text : NumSign → Bytes
  | none => []
  | plus => bytes "+"
  | minus => bytes "-"

/-- An optional sign and digits. -/
structure IntLiteral where
  sign : NumSign
  digits : Bytes
  digits_ne : digits ≠ []
  digits_plain : ∀ c ∈ digits, isDigit c = true

def IntLiteral.text (l : IntLiteral) : Bytes := l.sign.text ++ l.digits

def IntLiteral.neg (l : IntLiteral) : Bool := decide (l.sign = .minus)

/-- A number with its sign. -/
def IntLiteral.signed (l : IntLiteral) (z : ℤ) : ℤ := if l.neg then -z else z

def IntLiteral.value (l : IntLiteral) : ℤ := l.signed (digitsVal l.digits)

/-- Neither a digit nor a fraction nor an exponent follows. -/
def EndsInt (rest : Bytes) : Prop :=
  ∀ c ∈ rest.head?, isDigit c = false ∧ c ≠ chr '.' ∧ c ≠ chr 'e' ∧ c ≠ chr 'E'

/-- An Int or an I64 of that number. -/
def IsInteger {τ : Type} (v : GqlValue τ) (z : ℤ) : Prop := v = .int z ∨ v = .i64 z

/-- `read_number` on a literal: an exact value or an error, an Int when it fits in one, and no sum on the
way that is not the number read so far. -/
structure NumberExact {text : Bytes} {σ : Type} (τ : Type) (s : DocState text σ) (l : IntLiteral) : Prop where
  value : ((readNumber : Parser text σ (GqlValue τ)).run s).1 = .fail ∨
    ∃ v, ((readNumber : Parser text σ (GqlValue τ)).run s).1 = .ok v ∧ IsInteger v l.value
  int : (∃ z, ((readNumber : Parser text σ (GqlValue τ)).run s).1 = .ok (.int z)) ↔ GqlValue.FitsInt l.value
  sums : ∀ p, p <+: l.digits → (digitLoop intDigit (0, 0) p).1.2 = false →
    (digitLoop intDigit (0, 0) p).1.1.1.toNat = digitsVal p

/-- `parse_num` on a literal: an exact value or the literal itself. -/
structure NumExact (τ : Type) (text : Bytes) (i : ℕ) (l : IntLiteral) : Prop where
  value : ∃ v k, Json.Reads (Json.parseNum text : JsonReader (GqlValue τ)) i v k ∧
    (IsInteger v l.value ∨ v = .string l.text)
  int : (∃ z k, Json.Reads (Json.parseNum text : JsonReader (GqlValue τ)) i (.int z) k) ↔
    GqlValue.FitsInt l.value
  sums : ∀ p, p <+: l.digits → (p.foldl Json.wholeDigit Json.numInit).big = false →
    (p.foldl Json.wholeDigit Json.numInit).i = digitsVal p

/-- It is not the lowest Int. -/
def NotLowest (l : IntLiteral) : Prop := ¬ (l.sign = .minus ∧ digitsVal l.digits = 0x80000000)

/-- The digit at which a sum reaches the highest I64 leaves it there modulo 2^64. -/
def SumSeen (ds : Bytes) : Prop := ∀ p c, p ++ [c] <+: ds → digitsVal p < 0x7FFFFFFFFFFFFFFF →
  0x7FFFFFFFFFFFFFFF ≤ 10 * digitsVal p + digitVal c →
    0x7FFFFFFFFFFFFFFF ≤ (10 * digitsVal p + digitVal c) % 0x10000000000000000

/-- The digit at which a sum passes the highest I64 has no room modulo 2^64. -/
def RoomSeen (ds : Bytes) : Prop := ∀ p c, p ++ [c] <+: ds → digitsVal p ≤ 0x7FFFFFFFFFFFFFFF →
  0x7FFFFFFFFFFFFFFF < 10 * digitsVal p + digitVal c →
    0x7FFFFFFFFFFFFFFF < (10 * digitsVal p) % 0x10000000000000000 + digitVal c

/-! ## Digits -/

theorem digitsVal_snoc (p : Bytes) (c : Byte) : digitsVal (p ++ [c]) = 10 * digitsVal p + digitVal c := by
  unfold digitsVal
  rw [List.foldl_append]
  rfl

theorem digitVal_le {c : Byte} (h : isDigit c = true) : digitVal c ≤ 9 := by
  have hrange : chr '0' ≤ c ∧ c ≤ chr '9' := by simpa [isDigit] using h
  obtain ⟨hlow, hhigh⟩ := hrange
  rw [UInt8.le_iff_toNat_le] at hlow hhigh
  unfold digitVal
  rw [UInt8.toNat_sub_of_le _ _ (UInt8.le_iff_toNat_le.mpr hlow)]
  have h0 : (chr '0').toNat = 48 := rfl
  have h9 : (chr '9').toNat = 57 := rfl
  omega

theorem digitsVal_mono {p ds : Bytes} (h : p <+: ds) : digitsVal p ≤ digitsVal ds := by
  obtain ⟨q, rfl⟩ := h
  unfold digitsVal
  rw [List.foldl_append]
  exact foldl_digits_le q _

/-- A property of all beginnings, by the last digit. -/
theorem prefix_induction {ds : Bytes} {P : Bytes → Prop} (hnil : P [])
    (hsnoc : ∀ p c, p ++ [c] <+: ds → P p → P (p ++ [c])) : ∀ p, p <+: ds → P p := by
  intro p
  induction p using List.reverseRecOn with
  | nil => exact fun _ => hnil
  | append_singleton p c ih =>
    intro hpre
    exact hsnoc p c hpre (ih ((List.prefix_append p [c]).trans hpre))

/-! ## `read_number` -/

/-- The loop goes on where it was. -/
theorem digitLoop_append {β : Type} (f : β → UInt64 → β × Bool) {p : Bytes} (hp : ∀ c ∈ p, isDigit c = true) (b : β)
    (q : Bytes) : digitLoop f b (p ++ q) =
      if (digitLoop f b p).1.2 then digitLoop f b p
      else ((digitLoop f (digitLoop f b p).1.1 q).1, p.length + (digitLoop f (digitLoop f b p).1.1 q).2) := by
  induction p generalizing b with
  | nil => simp [digitLoop]
  | cons c p ih =>
    have hrest := ih (fun d hd => hp d (List.mem_cons_of_mem _ hd)) (f b (c - chr '0').toUInt64).1
    rw [List.cons_append, digitLoop, digitLoop, if_pos (hp c List.mem_cons_self), if_pos (hp c List.mem_cons_self)]
    dsimp only
    by_cases hstop : (f b (c - chr '0').toUInt64).2 = true
    · rw [if_pos hstop, if_pos hstop, if_pos hstop]
    · rw [if_neg hstop, if_neg hstop, hrest]
      split_ifs
      · rfl
      · rw [List.length_cons, Nat.add_right_comm]

/-- The sum after a digit, in 64 bits. -/
theorem intDigit_sum (s : UInt64 × ℕ) (c : Byte) :
    (intDigit s (c - chr '0').toUInt64).1.1.toNat = (10 * s.1.toNat + digitVal c) % 0x10000000000000000 ∧
      ((intDigit s (c - chr '0').toUInt64).2 = true ↔
        0x7FFFFFFFFFFFFFFF ≤ (10 * s.1.toNat + digitVal c) % 0x10000000000000000) := by
  have hval : (c - chr '0').toUInt64.toNat = digitVal c := UInt8.toNat_toUInt64 _
  have hsum : (s.1 * 10 + (c - chr '0').toUInt64).toNat =
      (10 * s.1.toNat + digitVal c) % 0x10000000000000000 := by
    rw [UInt64.toNat_add, UInt64.toNat_mul, hval]
    simp only [UInt64.reduceToNat]
    omega
  refine ⟨hsum, ?_⟩
  rw [← hsum]
  unfold intDigit int64Max
  simp [UInt64.le_iff_toNat_le]

theorem digitLoop_snoc {p : Bytes} {c : Byte} (hp : ∀ d ∈ p ++ [c], isDigit d = true) (b : UInt64 × ℕ) :
    (digitLoop intDigit b (p ++ [c])).1 =
      if (digitLoop intDigit b p).1.2 then (digitLoop intDigit b p).1
      else intDigit (digitLoop intDigit b p).1.1 (c - chr '0').toUInt64 := by
  have hc : isDigit c = true := hp c (List.mem_append_right _ List.mem_cons_self)
  rw [digitLoop_append intDigit fun d hd => hp d (List.mem_append_left _ hd)]
  split_ifs with hstop
  · rfl
  · rw [digitLoop, if_pos hc]
    dsimp only
    split_ifs with hlast
    · rfl
    · exact Prod.ext rfl (Bool.eq_false_iff.mpr hlast).symm

/-- A number below the highest I64 is added up. -/
theorem digitLoop_fits {p : Bytes} (hp : ∀ c ∈ p, isDigit c = true) (hfit : digitsVal p < 0x7FFFFFFFFFFFFFFF) :
    (digitLoop intDigit (0, 0) p).1.2 = false ∧ (digitLoop intDigit (0, 0) p).1.1.1.toNat = digitsVal p := by
  have hloop := SdlText.digitLoop_intDigit [] (s := (0, 0)) hp (by simp) (by decide) (by
    show digitsVal p ≤ _
    omega)
  rw [List.append_nil] at hloop
  refine ⟨?_, (hloop.2 hfit).1⟩
  by_contra hstop
  have hbig : 0x7FFFFFFFFFFFFFFF ≤ digitsVal p := hloop.1.mp (Bool.not_eq_false _ ▸ hstop)
  omega

/-- When the leap over the highest I64 is seen, the loop goes on with exact sums only. -/
theorem sums_of_seen {ds : Bytes} (hds : ∀ c ∈ ds, isDigit c = true) (hseen : SumSeen ds) :
    ∀ p, p <+: ds → (digitLoop intDigit (0, 0) p).1.2 = false →
      (digitLoop intDigit (0, 0) p).1.1.1.toNat = digitsVal p ∧ digitsVal p < 0x7FFFFFFFFFFFFFFF := by
  apply prefix_induction
  · exact fun _ => ⟨rfl, by decide⟩
  · intro p c hpre ih hgoes
    rw [digitLoop_snoc fun d hd => hds d (hpre.subset hd)] at hgoes ⊢
    split_ifs at hgoes ⊢ with hstop
    · rw [hstop] at hgoes
      cases hgoes
    · obtain ⟨hexact, hfit⟩ := ih (Bool.eq_false_iff.mpr hstop)
      obtain ⟨hsum, hflag⟩ := intDigit_sum (digitLoop intDigit (0, 0) p).1.1 c
      rw [hexact] at hsum hflag
      have hnot : ¬ 0x7FFFFFFFFFFFFFFF ≤ (10 * digitsVal p + digitVal c) % 0x10000000000000000 := by
        rw [← hflag, hgoes]
        exact Bool.false_ne_true
      have hsmall : 10 * digitsVal p + digitVal c < 0x7FFFFFFFFFFFFFFF := by
        by_contra hlarge
        exact hnot (hseen p c hpre hfit (Nat.not_lt.mp hlarge))
      rw [hsum, digitsVal_snoc, Nat.mod_eq_of_lt (by omega)]
      exact ⟨rfl, hsmall⟩

/-- An unseen leap leaves a wrong sum. -/
theorem seen_of_sums {ds : Bytes} (hds : ∀ c ∈ ds, isDigit c = true)
    (hsums : ∀ p, p <+: ds → (digitLoop intDigit (0, 0) p).1.2 = false →
      (digitLoop intDigit (0, 0) p).1.1.1.toNat = digitsVal p) : SumSeen ds := by
  intro p c hpre hfit hleap
  by_contra hunseen
  have hp : ∀ d ∈ p ++ [c], isDigit d = true := fun d hd => hds d (hpre.subset hd)
  obtain ⟨hgoes, hexact⟩ := digitLoop_fits (fun d hd => hp d (List.mem_append_left _ hd)) hfit
  obtain ⟨hsum, hflag⟩ := intDigit_sum (digitLoop intDigit (0, 0) p).1.1 c
  rw [hexact] at hsum hflag
  have hnext := hsums (p ++ [c]) hpre
  rw [digitLoop_snoc hp, hgoes, if_neg Bool.false_ne_true, hsum, digitsVal_snoc] at hnext
  have hwrong := hnext (Bool.eq_false_iff.mpr (hflag.not.mpr hunseen))
  omega

/-! ## Where `read_number` ends -/

theorem digit_not_sign {c : Byte} (h : isDigit c = true) : c ≠ chr '-' ∧ c ≠ chr '+' := by
  constructor
  · rintro rfl
    exact absurd h (by decide)
  · rintro rfl
    exact absurd h (by decide)

/-- Where the digits begin. -/
theorem IntLiteral.digits_at {text rest : Bytes} {i : ℕ} {l : IntLiteral} (h : text.drop i = l.text ++ rest) :
    text.drop (i + l.sign.text.length) = l.digits ++ rest := by
  refine drop_add_of_drop ?_
  rw [h, IntLiteral.text, List.append_assoc]

theorem reads_sign {text rest : Bytes} {σ : Type} {i : ℕ} {l : IntLiteral} (h : text.drop i = l.text ++ rest)
    (u : DocUser σ) :
    Parser.Reads (readSign : Parser text σ Bool) i u l.neg (i + l.sign.text.length) := by
  unfold IntLiteral.text at h
  unfold IntLiteral.neg
  obtain ⟨d, ds, hds⟩ := List.exists_cons_of_ne_nil l.digits_ne
  have hd : isDigit d = true := l.digits_plain d (by rw [hds]; exact List.mem_cons_self)
  cases hsign : l.sign with
  | none =>
    rw [hsign, hds] at h
    have hhead : ∀ b ∈ (text.drop i).head?, b = d := by
      rw [h]
      rintro b ⟨⟩
      rfl
    refine (Parser.reads_accept_not rfl (fun b hb => hhead b hb ▸ (digit_not_sign hd).1) u).bind ?_
    refine (Parser.reads_accept_not rfl (fun b hb => hhead b hb ▸ (digit_not_sign hd).2) u).bind ?_
    exact Parser.reads_pure false i u
  | plus =>
    rw [hsign] at h
    have hcons : text.drop i = chr '+' :: (l.digits ++ rest) := h
    have hhead : ∀ b ∈ (text.drop i).head?, b ≠ chr '-' := by
      rw [hcons]
      rintro b ⟨⟩
      decide
    refine (Parser.reads_accept_not rfl hhead u).bind ?_
    exact (Parser.reads_accept rfl hcons u).bind (Parser.reads_pure false _ u)
  | minus =>
    rw [hsign] at h
    have hcons : text.drop i = chr '-' :: (l.digits ++ rest) := h
    exact (Parser.reads_accept rfl hcons u).bind (Parser.reads_pure true _ u)

theorem reads_fraction {text : Bytes} {σ τ : Type} {i : ℕ} (h : ∀ b ∈ (text.drop i).head?, b ≠ chr '.') (neg : Bool)
    (n : UInt64) (dec : ℕ) (u : DocUser σ) :
    Parser.Reads (readFraction neg n dec : Parser text σ (GqlValue τ)) i u (intValue neg n) i :=
  (Parser.reads_accept_not rfl h u).bind (Parser.reads_pure _ i u)

/-- The run of `read_number`. -/
theorem run_readNumber {text rest : Bytes} {σ τ : Type} {l : IntLiteral} {s : DocState text σ}
    (h : text.drop s.cur = l.text ++ rest) (hrest : EndsInt rest) :
    ((readNumber : Parser text σ (GqlValue τ)).run s).1 =
      if (digitLoop intDigit (0, 0) l.digits).1.2 then .fail
      else .ok (intValue l.neg (digitLoop intDigit (0, 0) l.digits).1.1.1) := by
  obtain ⟨s', hsign, hcur, huser⟩ := reads_sign h s.user s rfl rfl
  have hdigits := IntLiteral.digits_at h
  have hrestLoop : ∀ b, digitLoop intDigit b rest = ((b, false), 0) := by
    intro b
    cases rest with
    | nil => rfl
    | cons c rest => rw [digitLoop, if_neg (by rw [(hrest c rfl).1]; exact Bool.false_ne_true)]
  have hloop := digitLoop_append intDigit l.digits_plain (0, 0) rest
  rw [hrestLoop] at hloop
  unfold readNumber
  rw [Scanner.run_bind, hsign, Scanner.andThen_ok]
  obtain ⟨s1, hadvance, hcur1, huser1⟩ := (Parser.reads_advance (f := digitLoop intDigit (0, 0))
    (h := digitLoop_le intDigit (0, 0)) (s.cur + l.sign.text.length) s.user : _) s' hcur huser
  rw [hdigits, hloop] at hadvance hcur1
  unfold readUnsigned digits
  rw [Scanner.run_bind, Scanner.run_bind, hadvance, Scanner.andThen_ok]
  by_cases hstop : (digitLoop intDigit (0, 0) l.digits).1.2 = true
  · rw [if_pos hstop, if_pos hstop, if_pos hstop]
    rfl
  · rw [if_neg hstop] at hcur1 ⊢
    have hgoes := Bool.eq_false_iff.mpr hstop
    have hend : text.drop s1.cur = rest := by
      rw [hcur1]
      exact drop_add_of_drop hdigits
    have hhead : ∀ b ∈ (text.drop s1.cur).head?, b ≠ chr '.' := by
      rw [hend]
      exact fun b hb => (hrest b hb).2.1
    obtain ⟨s2, hfraction, -⟩ := (reads_fraction hhead l.neg (digitLoop intDigit (0, 0) l.digits).1.1.1
      (digitLoop intDigit (0, 0) l.digits).1.1.2 s.user : Parser.Reads (_ : Parser text σ (GqlValue τ)) _ _ _ _)
      s1 rfl huser1
    rw [if_neg hstop]
    show ((readFraction _ _ _).run s1).1 = _
    rw [hfraction]

theorem intValue_size {τ : Type} (l : IntLiteral) {n : UInt64} (hn : n.toNat = digitsVal l.digits) :
    (intValue l.neg n : GqlValue τ) = if 0x7FFFFFFF < digitsVal l.digits then .i64 l.value else .int l.value := by
  have hsize : 0x7FFFFFFF < n ↔ 0x7FFFFFFF < digitsVal l.digits := by
    rw [UInt64.lt_iff_toNat_lt, hn]
    rfl
  unfold intValue IntLiteral.value IntLiteral.signed
  dsimp only
  rw [hn]
  by_cases hlarge : 0x7FFFFFFF < digitsVal l.digits
  · rw [if_pos hlarge, if_pos (hsize.mpr hlarge)]
  · rw [if_neg hlarge, if_neg (hsize.not.mpr hlarge)]

/-- An Int by the size of its digits. -/
theorem fitsInt_value {l : IntLiteral} (hlow : NotLowest l) :
    GqlValue.FitsInt l.value ↔ digitsVal l.digits ≤ 0x7FFFFFFF := by
  unfold GqlValue.FitsInt IntLiteral.value IntLiteral.signed IntLiteral.neg
  by_cases hsign : l.sign = .minus
  · have hne : digitsVal l.digits ≠ 0x80000000 := fun h => hlow ⟨hsign, h⟩
    rw [hsign, decide_eq_true rfl, if_pos rfl]
    omega
  · rw [decide_eq_false hsign, if_neg Bool.false_ne_true]
    omega

theorem lowest_fits {l : IntLiteral} (hlow : ¬ NotLowest l) :
    GqlValue.FitsInt l.value ∧ digitsVal l.digits = 0x80000000 := by
  obtain ⟨hsign, hval⟩ := not_not.mp hlow
  refine ⟨?_, hval⟩
  unfold GqlValue.FitsInt IntLiteral.value IntLiteral.signed IntLiteral.neg
  rw [hsign, decide_eq_true rfl, if_pos rfl, hval]
  omega

theorem isInteger_size {τ : Type} (l : IntLiteral) (n : ℕ) :
    IsInteger (if 0x7FFFFFFF < n then .i64 l.value else .int l.value : GqlValue τ) l.value := by
  unfold IsInteger
  split_ifs
  · exact Or.inr rfl
  · exact Or.inl rfl

theorem number_exact_iff {text rest : Bytes} {σ : Type} (τ : Type) {l : IntLiteral} {s : DocState text σ}
    (h : text.drop s.cur = l.text ++ rest) (hrest : EndsInt rest) :
    NumberExact τ s l ↔ NotLowest l ∧ SumSeen l.digits := by
  have hrun := run_readNumber (τ := τ) h hrest
  constructor
  · intro hexact
    refine ⟨?_, seen_of_sums l.digits_plain hexact.sums⟩
    by_contra hlow
    obtain ⟨hfits, hval⟩ := lowest_fits hlow
    obtain ⟨hgoes, hn⟩ := digitLoop_fits l.digits_plain (by rw [hval]; decide)
    obtain ⟨z, hint⟩ := hexact.int.mpr hfits
    rw [hrun, hgoes, if_neg Bool.false_ne_true, intValue_size l hn, hval, if_pos (by decide)] at hint
    cases hint
  · rintro ⟨hlow, hseen⟩
    have hsums := sums_of_seen l.digits_plain hseen
    refine ⟨?_, ?_, fun p hpre hgoes => (hsums p hpre hgoes).1⟩
    · rw [hrun]
      split_ifs with hstop
      · exact Or.inl rfl
      · have hn := (hsums _ (List.prefix_refl _) (Bool.eq_false_iff.mpr hstop)).1
        rw [intValue_size l hn]
        exact Or.inr ⟨_, rfl, isInteger_size l _⟩
    · rw [hrun, fitsInt_value hlow]
      split_ifs with hstop
      · refine iff_of_false (fun ⟨_, h⟩ => by cases h) fun hsmall => ?_
        rw [(digitLoop_fits l.digits_plain (by omega)).1] at hstop
        cases hstop
      · have hn := (hsums _ (List.prefix_refl _) (Bool.eq_false_iff.mpr hstop)).1
        rw [intValue_size l hn]
        split_ifs with hlarge
        · exact iff_of_false (fun ⟨_, h⟩ => by cases h) (by omega)
        · exact iff_of_true ⟨_, rfl⟩ (by omega)

/-! ## `parse_num` -/

namespace Json

theorem wholeDigit_big {s : NumState} (h : s.big = true) (c : Byte) : (wholeDigit s c).big = true := by
  unfold wholeDigit
  dsimp only
  rw [if_pos h]
  exact h

theorem wrap64_eq (z : ℤ) : wrap64 z =
    if z % 0x10000000000000000 < 0x8000000000000000 then z % 0x10000000000000000
    else z % 0x10000000000000000 - 0x10000000000000000 := by
  have hhalf : ((0x10000000000000000 : ℤ) + 1) / 2 = 0x8000000000000000 := by decide
  rw [← hhalf]
  rfl

/-- The room for a digit, when the number so far is exact. -/
theorem wholeDigit_room {s : NumState} {a : ℕ} {c : Byte} (hc : digitVal c ≤ 9) (ha : s.i = a) (hbig : s.big = false)
    (hmax : a ≤ 0x7FFFFFFFFFFFFFFF) :
    ((wholeDigit s c).big = true ↔ 0x7FFFFFFFFFFFFFFF < 10 * a + digitVal c ∧
      0x7FFFFFFFFFFFFFFF < (10 * a) % 0x10000000000000000 + digitVal c) ∧
    ((wholeDigit s c).big = false → (wholeDigit s c).i = wrap64 (10 * a + digitVal c)) := by
  have hd : (c - chr '0').toNat = digitVal c := rfl
  have hroom : biggish ≤ (a : ℤ) ∧ wrap64 (i64Max - wrap64 (a * 10)) < digitVal c ↔
      0x7FFFFFFFFFFFFFFF < 10 * a + digitVal c ∧
        0x7FFFFFFFFFFFFFFF < (10 * a) % 0x10000000000000000 + digitVal c := by
    have hprod : ((a : ℤ) * 10) % 0x10000000000000000 = ((10 * a) % 0x10000000000000000 : ℕ) := by omega
    have hr := Nat.mod_lt (10 * a) (show 0 < 0x10000000000000000 by decide)
    have hle := Nat.mod_le (10 * a) 0x10000000000000000
    rw [wrap64_eq (a * 10), hprod]
    generalize (10 * a) % 0x10000000000000000 = r at hr hle
    unfold biggish i64Max
    split_ifs with hlow
    · rw [wrap64_of_fits (by unfold GqlValue.FitsI64; omega)]
      omega
    · rw [wrap64_eq]
      split_ifs <;> omega
  unfold wholeDigit countZero
  dsimp only
  rw [if_neg (by simp [hbig]), hd, ha]
  by_cases hfull : biggish ≤ (a : ℤ) ∧ wrap64 (i64Max - wrap64 (a * 10)) < digitVal c
  · rw [if_pos hfull]
    exact ⟨iff_of_true rfl (hroom.mp hfull), fun h => by cases h⟩
  · rw [if_neg hfull]
    refine ⟨iff_of_false (by simp [hbig]) (hroom.not.mp hfull), fun _ => ?_⟩
    dsimp only
    rw [Int.mul_comm]

/-- Exact sums as long as there is room. -/
theorem sums_of_seen {ds : Bytes} (hds : ∀ c ∈ ds, isDigit c = true) (hseen : RoomSeen ds) :
    ∀ p, p <+: ds → (p.foldl wholeDigit numInit).big = false →
      (p.foldl wholeDigit numInit).i = digitsVal p ∧ digitsVal p ≤ 0x7FFFFFFFFFFFFFFF := by
  apply prefix_induction
  · exact fun _ => ⟨rfl, by decide⟩
  · intro p c hpre ih hgoes
    rw [List.foldl_append] at hgoes ⊢
    have hc := digitVal_le (hds c (hpre.subset (List.mem_append_right _ List.mem_cons_self)))
    have hsmall : (p.foldl wholeDigit numInit).big = false := by
      by_contra hbig
      have hnext := wholeDigit_big (Bool.not_eq_false _ ▸ hbig) c
      rw [List.foldl_cons, List.foldl_nil, hnext] at hgoes
      cases hgoes
    obtain ⟨hexact, hmax⟩ := ih hsmall
    obtain ⟨hroom, hsum⟩ := wholeDigit_room hc hexact hsmall hmax
    have hfit : 10 * digitsVal p + digitVal c ≤ 0x7FFFFFFFFFFFFFFF := by
      by_contra hlarge
      have hlarge := Nat.not_le.mp hlarge
      have hbig := hroom.mpr ⟨hlarge, hseen p c hpre hmax hlarge⟩
      rw [List.foldl_cons, List.foldl_nil, hbig] at hgoes
      cases hgoes
    have hi := hsum hgoes
    rw [wrap64_of_fits (by unfold GqlValue.FitsI64; omega)] at hi
    rw [digitsVal_snoc]
    exact ⟨by rw [List.foldl_cons, List.foldl_nil, hi]; push_cast; rfl, hfit⟩

theorem foldl_fits {p : Bytes} (hfit : digitsVal p ≤ 0x7FFFFFFFFFFFFFFF) :
    (p.foldl wholeDigit numInit).big = false ∧ (p.foldl wholeDigit numInit).i = digitsVal p ∧
      (p.foldl wholeDigit numInit).div = 1 := by
  obtain ⟨hi, hdiv, hbig⟩ := foldl_wholeDigit p (s := numInit) (a := 0) rfl rfl hfit
  exact ⟨hbig, hi, hdiv⟩

theorem seen_of_sums {ds : Bytes} (hds : ∀ c ∈ ds, isDigit c = true)
    (hsums : ∀ p, p <+: ds → (p.foldl wholeDigit numInit).big = false →
      (p.foldl wholeDigit numInit).i = digitsVal p) : RoomSeen ds := by
  intro p c hpre hmax hleap
  by_contra hroomy
  have hc := digitVal_le (hds c (hpre.subset (List.mem_append_right _ List.mem_cons_self)))
  obtain ⟨hsmall, hexact, -⟩ := foldl_fits hmax
  obtain ⟨hroom, hsum⟩ := wholeDigit_room hc hexact hsmall hmax
  have hgoes : (wholeDigit (p.foldl wholeDigit numInit) c).big = false :=
    Bool.eq_false_iff.mpr fun h => hroomy (hroom.mp h).2
  have hnext := hsums (p ++ [c]) hpre
  rw [List.foldl_append, List.foldl_cons, List.foldl_nil, hsum hgoes, digitsVal_snoc, wrap64_eq] at hnext
  have hwrong := hnext hgoes
  split_ifs at hwrong <;> omega

theorem wholeDigit_div (ds : Bytes) (s : NumState) : (ds.foldl wholeDigit s).div = s.div := by
  induction ds generalizing s with
  | nil => rfl
  | cons c ds ih =>
    rw [List.foldl_cons, ih]
    unfold wholeDigit countZero
    dsimp only
    split_ifs <;> rfl

theorem reads_literal_sign {text rest : Bytes} {i : ℕ} {l : IntLiteral} (h : text.drop i = l.text ++ rest) :
    Reads (readSign text) i l.neg (i + l.sign.text.length) := by
  unfold IntLiteral.text at h
  unfold IntLiteral.neg
  refine (reads_peek i).bind ?_
  cases hsign : l.sign with
  | none =>
    obtain ⟨d, ds, hds⟩ := List.exists_cons_of_ne_nil l.digits_ne
    have hd := digit_not_sign (l.digits_plain d (by rw [hds]; exact List.mem_cons_self))
    rw [hsign, hds] at h
    rw [(drop_succ_of_drop h).1, if_neg hd.1, if_neg hd.2, decide_eq_false hd.1]
    exact reads_pure _ i
  | plus =>
    rw [hsign] at h
    have hcons : text.drop i = chr '+' :: (l.digits ++ rest) := h
    rw [(drop_succ_of_drop hcons).1, if_neg (by decide), if_pos rfl]
    exact (reads_forward 1 i).bind (reads_pure _ _)
  | minus =>
    rw [hsign] at h
    have hcons : text.drop i = chr '-' :: (l.digits ++ rest) := h
    rw [(drop_succ_of_drop hcons).1, if_pos rfl]
    exact (reads_forward 1 i).bind (reads_pure _ _)

theorem zero_not_mem_literal (l : IntLiteral) : 0 ∉ l.text := by
  unfold IntLiteral.text
  intro hmem
  rcases List.mem_append.mp hmem with hmem | hmem
  · cases hsign : l.sign with
    | none =>
      rw [hsign] at hmem
      cases hmem
    | plus =>
      rw [hsign] at hmem
      exact absurd hmem (by decide)
    | minus =>
      rw [hsign] at hmem
      exact absurd hmem (by decide)
  · exact absurd (l.digits_plain 0 hmem) (by decide)

theorem literal_length_pos (l : IntLiteral) : l.text.length ≠ 0 := by
  have hpos := List.length_pos_iff.mpr l.digits_ne
  unfold IntLiteral.text
  rw [List.length_append]
  omega

/-- What `parse_num` reads. -/
theorem reads_parseNum {text rest : Bytes} {τ : Type} {i : ℕ} {l : IntLiteral} (h : text.drop i = l.text ++ rest)
    (hrest : EndsInt rest) : Reads (parseNum text : JsonReader (GqlValue τ)) i
      (if (l.digits.foldl wholeDigit numInit).big then .string l.text
        else if 0x7FFFFFFF < (l.digits.foldl wholeDigit numInit).i then
          .i64 (l.signed (l.digits.foldl wholeDigit numInit).i)
        else .int (l.signed (l.digits.foldl wholeDigit numInit).i))
      (i + l.text.length) := by
  have hdigits := IntLiteral.digits_at h
  have hlen : i + l.text.length = i + l.sign.text.length + l.digits.length := by
    unfold IntLiteral.text
    rw [List.length_append]
    omega
  have hspan : Reads (span text isDigit) (i + l.sign.text.length) l.digits (i + l.text.length) := by
    rw [hlen]
    exact reads_span hdigits l.digits_plain fun b hb => (hrest b hb).1
  have hend : text.drop (i + l.text.length) = rest := drop_add_of_drop h
  have hat : at0 text (i + l.text.length) ≠ chr '.' ∧ at0 text (i + l.text.length) ≠ chr 'e' ∧
      at0 text (i + l.text.length) ≠ chr 'E' := by
    cases rest with
    | nil =>
      rw [at0_of_drop_nil hend]
      decide
    | cons b rest =>
      rw [(drop_succ_of_drop hend).1]
      exact (hrest b rfl).2
  have hdiv := wholeDigit_div l.digits numInit
  have hstring : stringCreate (text.drop i) (i + l.text.length - i) = l.text := by
    unfold stringCreate
    rw [if_neg (by have := literal_length_pos l; omega), Nat.add_sub_cancel_left, h, List.take_left,
      cstr_of_not_mem (zero_not_mem_literal l)]
  refine (reads_get i).bind ((reads_literal_sign h).bind (hspan.bind ?_))
  generalize l.digits.foldl wholeDigit numInit = s at hdiv ⊢
  have hfrac : Reads (readFrac text s) (i + l.text.length) s (i + l.text.length) := by
    refine (reads_peek _).bind ?_
    rw [if_neg hat.1]
    exact reads_pure s _
  have hexp : Reads (readExp text) (i + l.text.length) (0, false) (i + l.text.length) := by
    refine (reads_peek _).bind ?_
    rw [if_neg (not_or.mpr hat.2)]
    exact reads_pure _ _
  refine hfrac.bind (hexp.bind ?_)
  dsimp only
  rw [Bool.or_false]
  by_cases hbig : s.big = true
  · rw [if_pos hbig, if_pos hbig]
    refine (reads_get _).bind ?_
    rw [hstring]
    exact reads_pure _ _
  · rw [if_neg hbig, if_neg hbig]
    unfold numValue
    rw [if_pos ⟨hdiv, rfl⟩]
    exact reads_pure _ _

end Json

theorem num_exact_iff {text rest : Bytes} (τ : Type) {l : IntLiteral} {i : ℕ} (h : text.drop i = l.text ++ rest)
    (hrest : EndsInt rest) : NumExact τ text i l ↔ NotLowest l ∧ RoomSeen l.digits := by
  have hread := Json.reads_parseNum (τ := τ) h hrest
  have hvalue : ∀ z : ℤ, z = digitsVal l.digits → l.signed z = l.value := by
    rintro z rfl
    rfl
  constructor
  · intro hexact
    refine ⟨?_, Json.seen_of_sums l.digits_plain hexact.sums⟩
    by_contra hlow
    obtain ⟨hfits, hval⟩ := lowest_fits hlow
    obtain ⟨hsmall, hn, -⟩ := Json.foldl_fits (p := l.digits) (by rw [hval]; decide)
    obtain ⟨z, k, hint⟩ := hexact.int.mpr hfits
    rw [hsmall, if_neg Bool.false_ne_true, hn, hval, if_pos (by decide)] at hread
    have hkind := (hread.unique hint).1
    cases hkind
  · rintro ⟨hlow, hseen⟩
    have hsums := Json.sums_of_seen l.digits_plain hseen
    refine ⟨⟨_, _, hread, ?_⟩, ?_, fun p hpre hgoes => (hsums p hpre hgoes).1⟩
    · split_ifs with hbig hlarge
      · exact Or.inr rfl
      · have hn := (hsums _ (List.prefix_refl _) (Bool.eq_false_iff.mpr hbig)).1
        rw [hvalue _ hn]
        exact Or.inl (Or.inr rfl)
      · have hn := (hsums _ (List.prefix_refl _) (Bool.eq_false_iff.mpr hbig)).1
        rw [hvalue _ hn]
        exact Or.inl (Or.inl rfl)
    · rw [fitsInt_value hlow]
      split_ifs at hread with hbig hlarge
      · refine iff_of_false (fun ⟨z, k, hint⟩ => ?_) fun hsmall => ?_
        · cases (hread.unique hint).1
        · rw [(Json.foldl_fits (p := l.digits) (by omega)).1] at hbig
          cases hbig
      · have hn := (hsums _ (List.prefix_refl _) (Bool.eq_false_iff.mpr hbig)).1
        refine iff_of_false (fun ⟨z, k, hint⟩ => ?_) (by omega)
        cases (hread.unique hint).1
      · have hn := (hsums _ (List.prefix_refl _) (Bool.eq_false_iff.mpr hbig)).1
        exact iff_of_true ⟨_, _, hread⟩ (by omega)

/-- **Both readers of numbers are exact on an integer literal exactly when it is not the lowest Int and no
digit takes the sum out of 64 bits unseen.** -/
theorem int_literals_iff {text rest : Bytes} {σ : Type} (τ : Type) {l : IntLiteral} {s : DocState text σ}
    (h : text.drop s.cur = l.text ++ rest) (hrest : EndsInt rest) :
    (NumberExact τ s l ↔ NotLowest l ∧ SumSeen l.digits) ∧
      (NumExact τ text s.cur l ↔ NotLowest l ∧ RoomSeen l.digits) :=
  ⟨number_exact_iff τ h hrest, num_exact_iff τ h hrest⟩

/-- Nothing is reached by a small number. -/
theorem seen_of_small {ds : Bytes} (h : digitsVal ds < 0x7FFFFFFFFFFFFFFF) : SumSeen ds ∧ RoomSeen ds := by
  have hle : ∀ p c, p ++ [c] <+: ds → 10 * digitsVal p + digitVal c < 0x7FFFFFFFFFFFFFFF := by
    intro p c hpre
    rw [← digitsVal_snoc]
    exact lt_of_le_of_lt (digitsVal_mono hpre) h
  constructor
  · intro p c hpre _ hleap
    exact absurd hleap (Nat.not_le.mpr (hle p c hpre))
  · intro p c hpre _ hleap
    exact absurd hleap (Nat.lt_asymm (hle p c hpre))

theorem digits_of_all {ds : Bytes} (h : ds.all isDigit = true) : ∀ c ∈ ds, isDigit c = true :=
  List.all_eq_true.mp h

def twelve : IntLiteral := ⟨.minus, bytes "12", by decide, digits_of_all rfl⟩

def twelveStart : DocState (bytes "-12") Unit := ⟨0, Nat.zero_le _, [], ⟨none, ()⟩⟩

theorem twelve_at : (bytes "-12").drop twelveStart.cur = twelve.text ++ [] := rfl

theorem endsInt_nil : EndsInt [] := nofun

theorem twelve_exact : NumberExact Unit twelveStart twelve ∧ NumExact Unit (bytes "-12") 0 twelve := by
  have hlow : NotLowest twelve := fun h => absurd h.2 (by decide)
  have hsmall : digitsVal twelve.digits < 0x7FFFFFFFFFFFFFFF := by decide
  obtain ⟨hsum, hroom⟩ := seen_of_small hsmall
  obtain ⟨hnumber, hnum⟩ := int_literals_iff Unit twelve_at endsInt_nil
  exact ⟨hnumber.mpr ⟨hlow, hsum⟩, hnum.mpr ⟨hlow, hroom⟩⟩

/-- 2^64. -/
def wrapping : IntLiteral := ⟨.none, bytes "18446744073709551616", by decide, digits_of_all rfl⟩

def wrappingStart : DocState (bytes "18446744073709551616") Unit := ⟨0, Nat.zero_le _, [], ⟨none, ()⟩⟩

theorem wrapping_loop : (digitLoop intDigit (0, 0) wrapping.digits).1 = ((0, 19), false) := by decide +kernel

theorem wrapping_value : wrapping.value = 0x10000000000000000 := by decide +kernel

theorem wrapping_at : (bytes "18446744073709551616").drop wrappingStart.cur = wrapping.text ++ [] := rfl

/-- It is read as 0. -/
theorem wrapping_zero : ¬ ∀ (text rest : Bytes) (l : IntLiteral) (s : DocState text Unit),
    text.drop s.cur = l.text ++ rest → EndsInt rest → NumberExact Unit s l ∧ NumExact Unit text s.cur l := by
  intro h
  have hexact := (h _ [] wrapping wrappingStart wrapping_at endsInt_nil).1.value
  rw [run_readNumber wrapping_at endsInt_nil, wrapping_loop, wrapping_value] at hexact
  rcases hexact with hfail | ⟨v, hv, hint⟩
  · cases hfail
  · obtain rfl := Outcome.ok.inj hv
    rcases hint with hint | hint
    · exact absurd (GqlValue.int.inj hint) (by decide)
    · cases hint

end Agoo
