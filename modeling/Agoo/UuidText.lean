import Agoo.TimeRoundTrip

/-!
# UUIDs printed and parsed

`uuidToText` prints five groups of hexadecimal digits, `parseUuidTo` shifts them back in. Both are described
by the digits of a group and their number, so that each undoes the other (`uuid_inverse`).
-/

namespace Agoo

namespace Convert

/-! ## The law -/

/-- `uuid_to_text`. -/
def uuidToText (hi lo : ℕ) : Bytes := quoted (uuidText hi lo)

/-- The loops of `parse_uuid`. -/
def readUuid (str : Bytes) : Option (ℕ × ℕ) := do
  let hi ← hexRun str 8 0 0
  let hi ← hexRun str 4 9 hi
  let hi ← hexRun str 4 14 hi
  let lo ← hexRun str 4 19 0
  let lo ← hexRun str 12 24 lo
  return (hi, lo)

/-- `parse_uuid`, with `*hip` and `*lop` before and after it. -/
def parseUuidTo (str : Bytes) (len : ℤ) (out : ℕ × ℕ) : Option Err × (ℕ × ℕ) :=
  let len := if len ≤ 0 then toInt (strlen str) else len
  if len ≠ 36 ∨ at0 str 8 ≠ chr '-' ∨ at0 str 13 ≠ chr '-' ∨ at0 str 18 ≠ chr '-' ∨ at0 str 23 ≠ chr '-' then
    (some (errSet .parse (bytes "not UUID format")), out)
  else match readUuid str with
    | some v => (none, v)
    | none => (some (errSet .parse (bytes "not UUID format")), out)

/-- A string handed over with its length, an `int`, or as a C string with no length. -/
structure Passed where
  s : Bytes
  behind : Bytes
  len : ℤ
  size : s.length < 0x80000000
  fits : len = s.length ∧ 0 < len ∨ len ≤ 0 ∧ 0 ∉ s ∧ behind.head? = some 0

/-- The memory from the string on. -/
def Passed.str (p : Passed) : Bytes := p.s ++ p.behind

/-- 36 characters, hexadecimal digits but for the four dashes. -/
def UuidForm (s : Bytes) : Prop :=
  s.length = 36 ∧
    ∀ i < 36, if i ∈ [8, 13, 18, 23] then at0 s i = chr '-' else (Json.hexDigit (at0 s i)).isSome = true

instance (s : Bytes) : Decidable (UuidForm s) := inferInstanceAs (Decidable (_ ∧ ∀ i < 36, _))

/-! ## Digits of a group -/

/-- The `w` last hexadecimal digits of a number. -/
def hexText : ℕ → ℕ → Bytes
  | 0, _ => []
  | w + 1, n => hexText w (n / 16) ++ [chr (Nat.digitChar (n % 16))]

@[simp]
theorem length_hexText (w n : ℕ) : (hexText w n).length = w := by
  induction w generalizing n with
  | zero => rfl
  | succ w ih => rw [hexText, List.length_append, ih, List.length_singleton]

theorem hexText_zero (w : ℕ) : hexText w 0 = List.replicate w (chr '0') := by
  induction w with
  | zero => rfl
  | succ w ih =>
    rw [hexText, Nat.zero_div, ih, List.replicate_succ']
    rfl

theorem hexPadded_eq {w n : ℕ} (hw : 0 < w) (h : n < 16 ^ w) : hexPadded w n = hexText w n := by
  induction w generalizing n with
  | zero => omega
  | succ w ih =>
    by_cases hn : n < 16
    · unfold hexPadded
      dsimp only
      rw [Nat.toDigits_of_lt_base hn, hexText, Nat.div_eq_of_lt hn, Nat.mod_eq_of_lt hn, hexText_zero]
      rfl
    · have hpos : 0 < w := by
        rcases Nat.eq_zero_or_pos w with rfl | hw
        · omega
        · exact hw
      have hdiv : n / 16 < 16 ^ w := by
        rw [Nat.div_lt_iff_lt_mul (by decide), ← Nat.pow_succ]
        exact h
      rw [hexText, ← ih hpos hdiv]
      unfold hexPadded
      dsimp only
      rw [Nat.toDigits_of_base_le (by decide) (by omega), List.map_append, List.length_append,
        ← List.append_assoc]
      simp only [List.map_cons, List.map_nil, List.length_singleton, Nat.add_sub_add_right]

/-- The number of some digits behind `v`. -/
def hexFold (v : ℕ) (ds : Bytes) : ℕ := ds.foldl (fun v c => v * 16 + (Json.hexDigit c).getD 0) v

/-- A text of hexadecimal digits. -/
def IsHex (ds : Bytes) : Prop := ∀ c ∈ ds, (Json.hexDigit c).isSome = true

theorem hexFold_append (v : ℕ) (ds es : Bytes) : hexFold v (ds ++ es) = hexFold (hexFold v ds) es :=
  List.foldl_append

theorem hexFold_eq (v : ℕ) (ds : Bytes) : hexFold v ds = v * 16 ^ ds.length + hexFold 0 ds := by
  induction ds generalizing v with
  | nil => simp [hexFold]
  | cons c ds ih =>
    have h := ih (v * 16 + (Json.hexDigit c).getD 0)
    have h0 := ih (0 * 16 + (Json.hexDigit c).getD 0)
    change hexFold _ ds = _ + hexFold _ ds
    rw [h, h0, List.length_cons]
    ring

theorem hexFold_lt (ds : Bytes) : hexFold 0 ds < 16 ^ ds.length := by
  induction ds using List.reverseRecOn with
  | nil => exact Nat.one_pos
  | append_singleton ds c ih =>
    have hd : (Json.hexDigit c).getD 0 < 16 := by
      cases h : Json.hexDigit c with
      | none => decide
      | some d => exact Json.hexDigit_lt h
    rw [hexFold_append, List.length_append, List.length_singleton, Nat.pow_succ]
    change hexFold 0 ds * 16 + (Json.hexDigit c).getD 0 < _
    omega

theorem hexDigit_digitChar : ∀ d < 16, Json.hexDigit (chr (Nat.digitChar d)) = some d := by decide

theorem digitChar_hexDigit {c : Byte} {d : ℕ} (h : Json.hexDigit c = some d) :
    chr (Nat.digitChar d) = tolower c := by
  have hall : ∀ n < 256, ((Json.hexDigit (UInt8.ofNat n)).all fun d =>
      chr (Nat.digitChar d) == tolower (UInt8.ofNat n)) = true := by decide +kernel
  have hc := hall c.toNat c.toNat_lt
  rw [UInt8.ofNat_toNat, h, Option.all_some] at hc
  exact beq_iff_eq.mp hc

theorem isHex_hexText (w n : ℕ) : IsHex (hexText w n) := by
  induction w generalizing n with
  | zero => nofun
  | succ w ih =>
    intro c hc
    rw [hexText, List.mem_append, List.mem_singleton] at hc
    rcases hc with hc | rfl
    · exact ih _ c hc
    · rw [hexDigit_digitChar _ (Nat.mod_lt n (by decide))]
      rfl

theorem hexFold_hexText {w n : ℕ} (h : n < 16 ^ w) : hexFold 0 (hexText w n) = n := by
  induction w generalizing n with
  | zero =>
    rw [Nat.pow_zero, Nat.lt_one_iff] at h
    exact h.symm
  | succ w ih =>
    have hdiv : n / 16 < 16 ^ w := by
      rw [Nat.div_lt_iff_lt_mul (by decide), ← Nat.pow_succ]
      exact h
    rw [hexText, hexFold_append, ih hdiv]
    change n / 16 * 16 + (Json.hexDigit _).getD 0 = n
    rw [hexDigit_digitChar _ (Nat.mod_lt n (by decide)), Option.getD_some]
    omega

/-- Digits are printed in lower case. -/
theorem hexText_hexFold {ds : Bytes} (h : IsHex ds) : hexText ds.length (hexFold 0 ds) = ds.map tolower := by
  induction ds using List.reverseRecOn with
  | nil => rfl
  | append_singleton ds c ih =>
    obtain ⟨d, hd⟩ := Option.isSome_iff_exists.mp (h c (by simp))
    have hlt := Json.hexDigit_lt hd
    have hfold : hexFold 0 (ds ++ [c]) = hexFold 0 ds * 16 + d := by
      rw [hexFold_append]
      change hexFold 0 ds * 16 + (Json.hexDigit c).getD 0 = _
      rw [hd, Option.getD_some]
    have hdiv : (hexFold 0 ds * 16 + d) / 16 = hexFold 0 ds := by omega
    have hmod : (hexFold 0 ds * 16 + d) % 16 = d := by omega
    rw [hfold, List.length_append, List.length_singleton, hexText, hdiv, hmod,
      ih fun c hc => h c (List.mem_append_left _ hc), digitChar_hexDigit hd, List.map_append]
    rfl

/-! ## The loops -/

/-- A loop over digits. -/
theorem hexRun_digits {a ds b : Bytes} {v : ℕ} (h : IsHex ds) :
    hexRun (a ++ ds ++ b) ds.length a.length v = some (hexFold v ds) := by
  induction ds generalizing a v with
  | nil => rfl
  | cons c ds ih =>
    obtain ⟨d, hd⟩ := Option.isSome_iff_exists.mp (h c List.mem_cons_self)
    have hat : at0 (a ++ c :: ds ++ b) a.length = c := by
      rw [List.append_assoc, at0_append]
      rfl
    have hstr : a ++ c :: ds ++ b = a ++ [c] ++ ds ++ b := by simp
    have hlen : a.length + 1 = (a ++ [c]).length := by simp
    rw [List.length_cons, hexRun, hat, hd, hstr, hlen]
    change hexRun _ _ _ (v * 16 + d) = some (hexFold (v * 16 + (Json.hexDigit c).getD 0) ds)
    rw [hd, Option.getD_some]
    exact ih fun c hc => h c (List.mem_cons_of_mem _ hc)

/-- A loop that ends has read digits only. -/
theorem digits_of_hexRun {str : Bytes} {n off v u : ℕ} (h : hexRun str n off v = some u) :
    ∀ i < n, (Json.hexDigit (at0 str (off + i))).isSome = true := by
  induction n generalizing off v with
  | zero => intro i hi; omega
  | succ n ih =>
    obtain ⟨d, hd, h⟩ := Option.bind_eq_some_iff.mp h
    intro i hi
    cases i with
    | zero =>
      rw [Nat.add_zero, hd]
      rfl
    | succ i =>
      rw [Nat.add_comm i 1, ← Nat.add_assoc]
      exact ih h i (by omega)

theorem digits_of_readUuid {str : Bytes} {v : ℕ × ℕ} (h : readUuid str = some v) {i : ℕ} (hi : i < 36)
    (hdash : i ∉ [8, 13, 18, 23]) : (Json.hexDigit (at0 str i)).isSome = true := by
  unfold readUuid at h
  obtain ⟨a, ha, h⟩ := Option.bind_eq_some_iff.mp h
  obtain ⟨b, hb, h⟩ := Option.bind_eq_some_iff.mp h
  obtain ⟨c, hc, h⟩ := Option.bind_eq_some_iff.mp h
  obtain ⟨d, hd, h⟩ := Option.bind_eq_some_iff.mp h
  obtain ⟨e, he, -⟩ := Option.bind_eq_some_iff.mp h
  simp only [List.mem_cons, List.not_mem_nil, or_false, not_or] at hdash
  have hgroup {n off v u : ℕ} (hrun : hexRun str n off v = some u) (hlow : off ≤ i) (hhigh : i < off + n) :
      (Json.hexDigit (at0 str i)).isSome = true := by
    rw [← Nat.add_sub_of_le hlow]
    exact digits_of_hexRun hrun _ (by omega)
  by_cases h8 : i < 8
  · exact hgroup ha (by omega) (by omega)
  by_cases h13 : i < 13
  · exact hgroup hb (by omega) (by omega)
  by_cases h18 : i < 18
  · exact hgroup hc (by omega) (by omega)
  by_cases h23 : i < 23
  · exact hgroup hd (by omega) (by omega)
  · exact hgroup he (by omega) (by omega)

/-! ## Groups -/

/-- The digits of a UUID in their groups. -/
structure Groups where
  a : Bytes
  b : Bytes
  c : Bytes
  d : Bytes
  e : Bytes
  len : a.length = 8 ∧ b.length = 4 ∧ c.length = 4 ∧ d.length = 4 ∧ e.length = 12
  hex : IsHex a ∧ IsHex b ∧ IsHex c ∧ IsHex d ∧ IsHex e

namespace Groups

variable (g : Groups)

def text : Bytes := g.a ++ bytes "-" ++ g.b ++ bytes "-" ++ g.c ++ bytes "-" ++ g.d ++ bytes "-" ++ g.e

def hi : ℕ := hexFold 0 (g.a ++ g.b ++ g.c)

def lo : ℕ := hexFold 0 (g.d ++ g.e)

theorem hi_eq : g.hi = (hexFold 0 g.a * 16 ^ 4 + hexFold 0 g.b) * 16 ^ 4 + hexFold 0 g.c := by
  obtain ⟨-, hb, hc, -, -⟩ := g.len
  rw [hi, hexFold_append, hexFold_append, hexFold_eq _ g.c, hexFold_eq _ g.b, hb, hc]

theorem lo_eq : g.lo = hexFold 0 g.d * 16 ^ 12 + hexFold 0 g.e := by
  rw [lo, hexFold_append, hexFold_eq _ g.e, g.len.2.2.2.2]

theorem hi_lt : g.hi < 2 ^ 64 := by
  have h := hexFold_lt (g.a ++ g.b ++ g.c)
  rw [List.length_append, List.length_append, g.len.1, g.len.2.1, g.len.2.2.1] at h
  exact h

theorem lo_lt : g.lo < 2 ^ 64 := by
  have h := hexFold_lt (g.d ++ g.e)
  rw [List.length_append, g.len.2.2.2.1, g.len.2.2.2.2] at h
  exact h

theorem length_text : g.text.length = 36 := by
  obtain ⟨ha, hb, hc, hd, he⟩ := g.len
  simp only [text, List.length_append, ha, hb, hc, hd, he]
  rfl

theorem readUuid_text (rest : Bytes) : readUuid (g.text ++ rest) = some (g.hi, g.lo) := by
  obtain ⟨ha, hb, hc, hd, he⟩ := g.len
  obtain ⟨xa, xb, xc, xd, xe⟩ := g.hex
  have hrun (a ds : Bytes) {n off v : ℕ} (hex : IsHex ds) (heq : ∃ b, g.text ++ rest = a ++ ds ++ b)
      (hn : ds.length = n) (hoff : a.length = off) :
      hexRun (g.text ++ rest) n off v = some (hexFold v ds) := by
    obtain ⟨b, heq⟩ := heq
    rw [heq, ← hn, ← hoff]
    exact hexRun_digits hex
  have ra {v : ℕ} : hexRun (g.text ++ rest) 8 0 v = some (hexFold v g.a) :=
    hrun [] g.a xa ⟨_, by simp only [text, List.append_assoc, List.nil_append]; rfl⟩ ha rfl
  have rb {v : ℕ} : hexRun (g.text ++ rest) 4 9 v = some (hexFold v g.b) :=
    hrun (g.a ++ bytes "-") g.b xb ⟨_, by simp only [text, List.append_assoc]; rfl⟩ hb (by simp [ha, bytes])
  have rc {v : ℕ} : hexRun (g.text ++ rest) 4 14 v = some (hexFold v g.c) :=
    hrun (g.a ++ bytes "-" ++ g.b ++ bytes "-") g.c xc ⟨_, by simp only [text, List.append_assoc]; rfl⟩ hc
      (by simp [ha, hb, bytes])
  have rd {v : ℕ} : hexRun (g.text ++ rest) 4 19 v = some (hexFold v g.d) :=
    hrun (g.a ++ bytes "-" ++ g.b ++ bytes "-" ++ g.c ++ bytes "-") g.d xd
      ⟨_, by simp only [text, List.append_assoc]; rfl⟩ hd (by simp [ha, hb, hc, bytes])
  have re {v : ℕ} : hexRun (g.text ++ rest) 12 24 v = some (hexFold v g.e) :=
    hrun (g.a ++ bytes "-" ++ g.b ++ bytes "-" ++ g.c ++ bytes "-" ++ g.d ++ bytes "-") g.e xe
      ⟨_, by simp only [text, List.append_assoc]; rfl⟩ he (by simp [ha, hb, hc, hd, bytes])
  unfold readUuid
  simp only [Option.bind_eq_bind, ra, rb, rc, rd, re, Option.bind_some, hi, lo, hexFold_append]
  rfl

theorem dash_text (rest : Bytes) : at0 (g.text ++ rest) 8 = chr '-' ∧ at0 (g.text ++ rest) 13 = chr '-' ∧
    at0 (g.text ++ rest) 18 = chr '-' ∧ at0 (g.text ++ rest) 23 = chr '-' := by
  obtain ⟨ha, hb, hc, hd, -⟩ := g.len
  have hat (a : Bytes) {i : ℕ} (heq : ∃ b, g.text ++ rest = a ++ (bytes "-" ++ b)) (hi : a.length = i) :
      at0 (g.text ++ rest) i = chr '-' := by
    obtain ⟨b, heq⟩ := heq
    rw [heq, ← hi, at0_append]
    rfl
  refine ⟨hat g.a ⟨_, by simp only [text, List.append_assoc]; rfl⟩ ha,
    hat (g.a ++ bytes "-" ++ g.b) ⟨_, by simp only [text, List.append_assoc]; rfl⟩ ?_,
    hat (g.a ++ bytes "-" ++ g.b ++ bytes "-" ++ g.c) ⟨_, by simp only [text, List.append_assoc]; rfl⟩ ?_,
    hat (g.a ++ bytes "-" ++ g.b ++ bytes "-" ++ g.c ++ bytes "-" ++ g.d)
      ⟨_, by simp only [text, List.append_assoc]; rfl⟩ ?_⟩
  · simp [ha, hb, bytes]
  · simp [ha, hb, hc, bytes]
  · simp [ha, hb, hc, hd, bytes]

/-- What is printed for the number of some groups. -/
theorem uuidText_eq : uuidText g.hi g.lo = g.text.map tolower := by
  obtain ⟨ha, hb, hc, hd, he⟩ := g.len
  have hdash : (bytes "-").map tolower = bytes "-" := rfl
  have hlt {ds : Bytes} {n : ℕ} (h : ds.length = n) : hexFold 0 ds < 16 ^ n := h ▸ hexFold_lt ds
  have hgroup {ds : Bytes} {n : ℕ} (hn : 0 < n) (hlen : ds.length = n) (h : IsHex ds) :
      hexPadded n (hexFold 0 ds) = ds.map tolower := by
    rw [hexPadded_eq hn (hlt hlen), ← hlen]
    exact hexText_hexFold h
  have hA := hlt ha
  have hB := hlt hb
  have hC := hlt hc
  have hD := hlt hd
  have hE := hlt he
  have h1 : g.hi / 2 ^ 32 = hexFold 0 g.a := by rw [hi_eq]; omega
  have h2 : g.hi / 2 ^ 16 % 2 ^ 16 = hexFold 0 g.b := by rw [hi_eq]; omega
  have h3 : g.hi % 2 ^ 16 = hexFold 0 g.c := by rw [hi_eq]; omega
  have h4 : g.lo / 2 ^ 48 = hexFold 0 g.d := by rw [lo_eq]; omega
  have h5 : g.lo % 2 ^ 48 = hexFold 0 g.e := by rw [lo_eq]; omega
  obtain ⟨xa, xb, xc, xd, xe⟩ := g.hex
  unfold uuidText text
  rw [h1, h2, h3, h4, h5, hgroup (by decide) ha xa, hgroup (by decide) hb xb, hgroup (by decide) hc xc,
    hgroup (by decide) hd xd, hgroup (by decide) he xe]
  simp only [List.map_append, hdash]

end Groups

/-- The groups that are printed for two numbers. -/
def printedGroups (hi lo : ℕ) : Groups where
  a := hexText 8 (hi / 2 ^ 32)
  b := hexText 4 (hi / 2 ^ 16 % 2 ^ 16)
  c := hexText 4 (hi % 2 ^ 16)
  d := hexText 4 (lo / 2 ^ 48)
  e := hexText 12 (lo % 2 ^ 48)
  len := ⟨length_hexText _ _, length_hexText _ _, length_hexText _ _, length_hexText _ _, length_hexText _ _⟩
  hex := ⟨isHex_hexText _ _, isHex_hexText _ _, isHex_hexText _ _, isHex_hexText _ _, isHex_hexText _ _⟩

theorem uuidText_printed {hi lo : ℕ} (hhi : hi < 2 ^ 64) (hlo : lo < 2 ^ 64) :
    uuidText hi lo = (printedGroups hi lo).text := by
  unfold uuidText
  rw [hexPadded_eq (by decide) (show hi / 2 ^ 32 < 16 ^ 8 by omega),
    hexPadded_eq (by decide) (show hi / 2 ^ 16 % 2 ^ 16 < 16 ^ 4 by omega),
    hexPadded_eq (by decide) (show hi % 2 ^ 16 < 16 ^ 4 by omega),
    hexPadded_eq (by decide) (show lo / 2 ^ 48 < 16 ^ 4 by omega),
    hexPadded_eq (by decide) (show lo % 2 ^ 48 < 16 ^ 12 by omega)]
  rfl

theorem printedGroups_hi {hi lo : ℕ} (h : hi < 2 ^ 64) : (printedGroups hi lo).hi = hi := by
  rw [Groups.hi_eq]
  unfold printedGroups
  dsimp only
  rw [hexFold_hexText (by omega), hexFold_hexText (by omega), hexFold_hexText (by omega)]
  omega

theorem printedGroups_lo {hi lo : ℕ} (h : lo < 2 ^ 64) : (printedGroups hi lo).lo = lo := by
  rw [Groups.lo_eq]
  unfold printedGroups
  dsimp only
  rw [hexFold_hexText (by omega), hexFold_hexText (by omega)]
  omega

/-! ## Strings -/

theorem split_drop {s : Bytes} {k n : ℕ} (h : at0 s (k + n) = chr '-') :
    s.drop k = (s.drop k).take n ++ bytes "-" ++ s.drop (k + n + 1) := by
  have hcons : s.drop (k + n) = bytes "-" ++ s.drop (k + n + 1) := by
    rw [drop_cons_of_at0 (by rw [h]; decide), h]
    rfl
  rw [List.append_assoc, ← hcons, ← List.drop_drop, List.take_append_drop]

theorem groups_of_uuidForm {s : Bytes} (h : UuidForm s) : ∃ g : Groups, g.text = s := by
  obtain ⟨hlen, h⟩ := h
  have hdash (i : ℕ) (hi : i < 36) (hmem : i ∈ [8, 13, 18, 23]) : at0 s i = chr '-' :=
    (if_pos hmem).mp (h i hi)
  have hex (k n : ℕ) (hn : k + n ≤ 36) (hk : ∀ i, k ≤ i → i < k + n → i ∉ [8, 13, 18, 23]) :
      IsHex ((s.drop k).take n) := by
    intro c hc
    obtain ⟨i, hi, rfl⟩ := List.mem_iff_getElem.mp hc
    rw [List.length_take, List.length_drop] at hi
    have hi' := h (k + i) (by omega)
    rw [if_neg (hk _ (by omega) (by omega))] at hi'
    rw [List.getElem_take, List.getElem_drop]
    simpa [at0, show k + i < s.length by omega] using hi'
  have h8 : s.drop 0 = (s.drop 0).take 8 ++ bytes "-" ++ s.drop 9 := split_drop (hdash 8 (by decide) (by decide))
  have h13 : s.drop 9 = (s.drop 9).take 4 ++ bytes "-" ++ s.drop 14 :=
    split_drop (hdash 13 (by decide) (by decide))
  have h18 : s.drop 14 = (s.drop 14).take 4 ++ bytes "-" ++ s.drop 19 :=
    split_drop (hdash 18 (by decide) (by decide))
  have h23 : s.drop 19 = (s.drop 19).take 4 ++ bytes "-" ++ s.drop 24 :=
    split_drop (hdash 23 (by decide) (by decide))
  have hend : (s.drop 24).take 12 = s.drop 24 := List.take_of_length_le (by rw [List.length_drop, hlen])
  refine ⟨⟨(s.drop 0).take 8, (s.drop 9).take 4, (s.drop 14).take 4, (s.drop 19).take 4, (s.drop 24).take 12,
    ?_, ?_⟩, ?_⟩
  · simp [hlen]
  · refine ⟨hex 0 8 (by decide) ?_, hex 9 4 (by decide) ?_, hex 14 4 (by decide) ?_, hex 19 4 (by decide) ?_,
      hex 24 12 (by decide) ?_⟩
    all_goals
      simp only [List.mem_cons, List.not_mem_nil, or_false]
      omega
  · unfold Groups.text
    dsimp only
    conv_rhs => rw [← List.drop_zero (l := s), h8, h13, h18, h23]
    simp only [hend, List.append_assoc]

/-- The UUID that `gql_value_convert` reads from a text is the one of `parse_uuid` with no length. -/
theorem parseUuidTo_cstr {str : Bytes} (h : strlen str < 0x80000000) (out : ℕ × ℕ) :
    parseUuidTo str 0 out = match parseUuid str with
      | some v => (none, v)
      | none => (some (errSet .parse (bytes "not UUID format")), out) := by
  have hlen : (toInt (strlen str) ≠ 36) = (strlen str ≠ 36) := by
    rw [toInt_of_int (by omega) (by omega)]
    simp only [ne_eq, eq_iff_iff, not_iff_not]
    omega
  unfold parseUuidTo parseUuid
  simp only [le_refl, if_true, hlen]
  split_ifs
  · rfl
  · rfl

/-- What `parse_uuid` makes of a string. -/
theorem parseUuidTo_passed (p : Passed) (out : ℕ × ℕ) : parseUuidTo p.str p.len out =
    if p.s.length ≠ 36 ∨ at0 p.str 8 ≠ chr '-' ∨ at0 p.str 13 ≠ chr '-' ∨ at0 p.str 18 ≠ chr '-' ∨
        at0 p.str 23 ≠ chr '-' then (some (errSet .parse (bytes "not UUID format")), out)
    else match readUuid p.str with
      | some v => (none, v)
      | none => (some (errSet .parse (bytes "not UUID format")), out) := by
  have hlen : (if p.len ≤ 0 then toInt (strlen p.str) else p.len) = p.s.length := by
    rcases p.fits with ⟨hlen, hpos⟩ | ⟨hlen, h0, hnul⟩
    · rw [if_neg (by omega), hlen]
    · obtain ⟨rest, hrest⟩ := List.head?_eq_some_iff.mp hnul
      have hstr : strlen p.str = p.s.length := by
        rw [strlen, Passed.str, hrest, cstr_append_zero h0]
      have hsize := p.size
      rw [if_pos hlen, hstr, toInt_of_int (by omega) (by omega)]
  have hiff : ((p.s.length : ℤ) ≠ 36) = (p.s.length ≠ 36) := by
    simp only [ne_eq, eq_iff_iff, not_iff_not]
    omega
  unfold parseUuidTo
  simp only [hlen, hiff]

theorem parseUuidTo_groups (p : Passed) (g : Groups) (h : p.s = g.text) (out : ℕ × ℕ) :
    parseUuidTo p.str p.len out = (none, g.hi, g.lo) := by
  obtain ⟨h8, h13, h18, h23⟩ := g.dash_text p.behind
  rw [parseUuidTo_passed, Passed.str, h, if_neg (by simp [g.length_text, h8, h13, h18, h23]), g.readUuid_text]

/-- A string of another form is rejected. -/
theorem parseUuidTo_rejects (p : Passed) (h : ¬ UuidForm p.s) (out : ℕ × ℕ) :
    parseUuidTo p.str p.len out = (some (errSet .parse (bytes "not UUID format")), out) := by
  rw [parseUuidTo_passed]
  split_ifs with hdash
  · rfl
  · simp only [ne_eq, not_or, not_not] at hdash
    obtain ⟨hlen, h8, h13, h18, h23⟩ := hdash
    cases hread : readUuid p.str with
    | none => rfl
    | some v =>
      refine absurd ⟨hlen, fun i hi => ?_⟩ h
      have hat : at0 p.str i = at0 p.s i := by
        unfold at0 Passed.str
        rw [List.getD_eq_getElem?_getD, List.getD_eq_getElem?_getD, List.getElem?_append_left (by omega)]
      rw [← hat]
      split_ifs with hmem
      · simp only [List.mem_cons, List.not_mem_nil, or_false] at hmem
        rcases hmem with rfl | rfl | rfl | rfl
        · exact h8
        · exact h13
        · exact h18
        · exact h23
      · exact digits_of_readUuid hread hi hmem

/-- Each text that is printed is parsed as the numbers it is printed for, and a string is accepted if and
only if it has the form of a UUID; then it is printed again in lower case. -/
theorem uuid_inverse (out : ℕ × ℕ) :
    (∀ hi lo : UInt64, ∃ s, uuidToText hi.toNat lo.toNat = quoted s ∧
      ∀ p : Passed, p.s = s → parseUuidTo p.str p.len out = (none, hi.toNat, lo.toNat)) ∧
    ∀ p : Passed, if UuidForm p.s then
        ∃ hi lo : UInt64, parseUuidTo p.str p.len out = (none, hi.toNat, lo.toNat) ∧
          uuidToText hi.toNat lo.toNat = quoted (p.s.map tolower)
      else ∃ e, parseUuidTo p.str p.len out = (some e, out) := by
  refine ⟨fun hi lo => ⟨(printedGroups hi.toNat lo.toNat).text, ?_, fun p hp => ?_⟩, fun p => ?_⟩
  · rw [uuidToText, uuidText_printed hi.toNat_lt lo.toNat_lt]
  · rw [parseUuidTo_groups p _ hp, printedGroups_hi hi.toNat_lt, printedGroups_lo lo.toNat_lt]
  · split_ifs with hform
    · obtain ⟨g, hg⟩ := groups_of_uuidForm hform
      have hhi : (UInt64.ofNat g.hi).toNat = g.hi := UInt64.toNat_ofNat_of_lt' g.hi_lt
      have hlo : (UInt64.ofNat g.lo).toNat = g.lo := UInt64.toNat_ofNat_of_lt' g.lo_lt
      refine ⟨UInt64.ofNat g.hi, UInt64.ofNat g.lo, ?_, ?_⟩
      · rw [hhi, hlo, parseUuidTo_groups p g hg.symm]
      · rw [hhi, hlo, uuidToText, g.uuidText_eq, hg]
    · exact ⟨_, parseUuidTo_rejects p hform out⟩

end Convert

end Agoo
