import Agoo.GqlText

/-!
# Numbers in C

`strtol` and `strtoul` in base 10: blanks and one sign are skipped, then digits are read, and a number
that is too large is replaced by the largest one. The decimal text of a number is read back.
-/

namespace Agoo

/-- `isspace`, of what both skip. -/
def isSpace (c : Byte) : Bool := c = 32 || (9 ≤ c && c ≤ 13)

/-- The number that digits stand for. -/
def digitsVal (ds : Bytes) : ℕ := ds.foldl (fun a c => 10 * a + digitVal c) 0

/-- Where the sign and the digits of the C string at `m` are: what is before the sign, whether it is a
minus, and how long it is. -/
def signAt (m : Bytes) : ℕ × Bool × ℕ :=
  let blanks := ((cstr m).takeWhile isSpace).length
  if at0 (cstr m) blanks = chr '-' then (blanks, true, 1)
  else if at0 (cstr m) blanks = chr '+' then (blanks, false, 1)
  else (blanks, false, 0)

/-- The digits behind blanks and a sign. -/
def digitsAt (m : Bytes) : Bytes :=
  ((cstr m).drop ((signAt m).1 + (signAt m).2.2)).takeWhile isDigit

/-- Where the digits end; where there is none, nothing was read. -/
def numberEnd (m : Bytes) : ℕ :=
  if digitsAt m = [] then 0 else (signAt m).1 + (signAt m).2.2 + (digitsAt m).length

/-- `strtol(m, &end, 10)`. -/
def strtol (m : Bytes) : ℤ :=
  let n := digitsVal (digitsAt m)
  if (signAt m).2.1 then max (-(n : ℤ)) (-0x8000000000000000) else min (n : ℤ) 0x7FFFFFFFFFFFFFFF

/-- `strtoul(m, &end, 10)`: a minus negates in unsigned arithmetic. -/
def strtoul (m : Bytes) : ℕ :=
  let n := digitsVal (digitsAt m)
  if 0xFFFFFFFFFFFFFFFF < n then 0xFFFFFFFFFFFFFFFF
  else if (signAt m).2.1 then (0x10000000000000000 - n) % 0x10000000000000000 else n

/-- The number that the text stands for, without bounds. -/
def numberValue (m : Bytes) : ℤ :=
  let n := digitsVal (digitsAt m)
  if (signAt m).2.1 then -(n : ℤ) else n

/-- A text that stands for a natural number of 64 bits is read as that number. -/
theorem strtoul_of_value {m : Bytes} (h : 0 ≤ numberValue m) (hlt : numberValue m < 0x10000000000000000) :
    (strtoul m : ℤ) = numberValue m := by
  unfold numberValue at h hlt ⊢
  unfold strtoul
  dsimp only at h hlt ⊢
  by_cases hminus : (signAt m).2.1 = true
  · rw [if_pos hminus] at h hlt ⊢
    rw [if_neg (by omega), if_pos hminus]
    omega
  · rw [if_neg hminus] at h hlt ⊢
    rw [if_neg (by omega), if_neg hminus]

/-- A digit is no blank, no sign and not the end. -/
theorem isDigit_plain {c : Byte} (h : isDigit c = true) :
    isSpace c = false ∧ c ≠ 0 ∧ c ≠ chr '-' ∧ c ≠ chr '+' := by
  have hall : ∀ k < 58, 48 ≤ k → isSpace (UInt8.ofNat k) = false ∧ UInt8.ofNat k ≠ 0 ∧
      UInt8.ofNat k ≠ chr '-' ∧ UInt8.ofNat k ≠ chr '+' := by
    decide
  have hc : chr '0' ≤ c ∧ c ≤ chr '9' := by simpa [isDigit] using h
  have hlow : 48 ≤ c.toNat := UInt8.le_iff_toNat_le.mp hc.1
  have hhigh : c.toNat ≤ 57 := UInt8.le_iff_toNat_le.mp hc.2
  have hplain := hall c.toNat (by omega) hlow
  rwa [UInt8.ofNat_toNat] at hplain

/-- The digits of a text that begins with digits are read with no sign. -/
theorem digitsAt_digits {ds : Bytes} (hds : ds ≠ []) (h : ∀ c ∈ ds, isDigit c = true) :
    digitsAt ds = ds ∧ (signAt ds).1 = 0 ∧ (signAt ds).2.1 = false ∧ (signAt ds).2.2 = 0 := by
  obtain ⟨c, rest, rfl⟩ := List.exists_cons_of_ne_nil hds
  have hc := isDigit_plain (h c (.head _))
  have hcstr : cstr (c :: rest) = c :: rest :=
    cstr_of_not_mem fun hmem => (isDigit_plain (h 0 hmem)).2.1 rfl
  have hsign : signAt (c :: rest) = (0, false, 0) := by
    unfold signAt
    rw [hcstr, List.takeWhile_cons_of_neg (by rw [hc.1]; exact Bool.false_ne_true)]
    show (if c = chr '-' then _ else if c = chr '+' then _ else _) = _
    rw [if_neg hc.2.2.1, if_neg hc.2.2.2]
    rfl
  refine ⟨?_, by rw [hsign], by rw [hsign], by rw [hsign]⟩
  unfold digitsAt
  rw [hsign, hcstr]
  exact List.takeWhile_eq_self_iff.mpr h

/-- The text of a number is read as that number. -/
theorem strtol_decimal {n : ℕ} (h : n ≤ 0x7FFFFFFFFFFFFFFF) : strtol (decimal n) = n := by
  obtain ⟨hdigits, -, hsign, -⟩ := digitsAt_digits (decimal_ne_nil n) fun c => isDigit_decimal
  have hval : digitsVal (decimal n) = n := foldl_decimal n
  unfold strtol
  rw [hdigits, hsign, hval, if_neg Bool.false_ne_true]
  omega

/-- Different numbers have different texts. -/
theorem decimal_inj {m n : ℕ} (h : decimal m = decimal n) : m = n := by
  rw [← foldl_decimal m, h, foldl_decimal n]

end Agoo
