import Agoo.GqlText
import Mathlib.Data.List.GetD
import Mathlib.Algebra.Order.Ring.Nat

/-!
# Base 64 (`base64.c`)

`encoding` is the encoding of RFC 4648: six bits to a character. `b64To` takes three bytes at a time and
`b64From` four characters; both are compared with the bits of the string (`b64_lossless_iff`).
-/

namespace Agoo

namespace Base64

/-! ## The encoding -/

def alphabet : Bytes :=
  run 26 'A' ++ run 26 'a' ++ run 10 '0' ++ [chr '+', chr '/']
where
  /-- The next `n` characters from `c` on. -/
  run (n : ℕ) (c : Char) : Bytes := (List.range n).map fun i => chr c + UInt8.ofNat i

/-- Bit `k` of a string, the highest of each byte first; zeros follow. -/
def bit (s : Bytes) (k : ℕ) : Bool := (at0 s (k / 8)).toNat.testBit (7 - k % 8)

/-- The number that bits spell, the highest first. -/
def number (bits : List Bool) : ℕ := bits.foldl (fun n b => 2 * n + b.toNat) 0

/-- The six bits from bit `k` on. -/
def sextet (s : Bytes) (k : ℕ) : ℕ := number ((List.range 6).map fun j => bit s (k + j))

/-- A character for every six bits, the last ones filled up with zeros, and padding to a multiple of four. -/
def encoding (s : Bytes) : Bytes :=
  (List.range ((4 * s.length + 2) / 3)).map (fun i => at0 alphabet (sextet s (6 * i))) ++
    List.replicate ((3 - s.length % 3) % 3) (chr '=')

/-! ## The code -/

/-- `digits`. -/
def digits : Bytes := bytes "ABCDEFGHIJKLMNOPQRSTUVWXYZabcdefghijklmnopqrstuvwxyz0123456789+/"

/-- `digits[i]`. -/
def digit (i : Byte) : Byte := at0 digits i.toNat

/-- `s_digits`, with an X where the text ends. -/
def sDigits : Bytes :=
  List.replicate 43 0x58 ++ [0x3E, 0x58, 0x58, 0x58, 0x3F] ++
    (List.range 10).map (fun i => UInt8.ofNat (0x34 + i)) ++ List.replicate 7 0x58 ++
    (List.range 26).map UInt8.ofNat ++ List.replicate 6 0x58 ++
    (List.range 26).map (fun i => UInt8.ofNat (0x1A + i)) ++ List.replicate 133 0x58

/-- `s_digits[c]`. -/
def sDigit (c : Byte) : Byte := at0 sDigits c.toNat

/-- `b64_to`: what it writes. -/
def b64To : Bytes → Bytes
  | b1 :: b2 :: b3 :: src =>
    digit (b1 >>> 2) :: digit (((b1 &&& 0x03) <<< 4) ||| (b2 >>> 4)) ::
      digit (((b2 &&& 0x0F) <<< 2) ||| (b3 >>> 6)) :: digit (b3 &&& 0x3F) :: b64To src
  | [b1] => [digit (b1 >>> 2), digit ((b1 &&& 0x03) <<< 4), chr '=', chr '=', 0]
  | [b1, b2] =>
    [digit (b1 >>> 2), digit (((b1 &&& 0x03) <<< 4) ||| (b2 >>> 4)), digit ((b2 &&& 0x0F) <<< 2), chr '=', 0]
  | [] => [0]

/-- What `b64_to` returns: the length without the NUL, in an `int`. -/
def b64ToLen (src : Bytes) : ℤ := toInt ((b64To src).length - 1)

/-- `b64_orig_size`; none where it reads the byte before the text. -/
def b64OrigSize (text : Bytes) : Option ℕ :=
  let n := strlen text
  if n = 0 then some 0
  else if at0 text (n - 1) = chr '=' then
    if n = 1 then none
    else if at0 text (n - 2) = chr '=' then some (decrement (decrement (n * 3 / 4)))
    else some (decrement (n * 3 / 4))
  else some (n * 3 / 4)
where
  /-- `size--`, of an `unsigned long`. -/
  decrement (size : ℕ) : ℕ := (size + 0xFFFFFFFFFFFFFFFF) % 0x10000000000000000

/-- `b64_from`: what it writes. -/
def b64From : Bytes → Bytes
  | c0 :: c1 :: m =>
    if sDigit c0 = 0x58 ∨ sDigit c1 = 0x58 then [0]
    else
      ((sDigit c0 <<< 2) ||| ((sDigit c1 >>> 4) &&& 0x03)) ::
        match m with
        | c2 :: m =>
          if sDigit c2 = 0x58 then [0]
          else
            ((sDigit c1 <<< 4) ||| ((sDigit c2 >>> 2) &&& 0x0F)) ::
              match m with
              | c3 :: m =>
                if sDigit c3 = 0x58 then [0] else ((sDigit c2 <<< 6) ||| sDigit c3) :: b64From m
              | [] => [0]
        | [] => [0]
  | _ => [0]

/-! ## Digits -/

/-- A digit is a character of the alphabet, no padding and no NUL, and is read back. -/
theorem digit_spec {x : Byte} (h : x.toNat < 64) :
    digit x = at0 alphabet x.toNat ∧ digit x ≠ 0 ∧ digit x ≠ chr '=' ∧ sDigit (digit x) = x ∧ x ≠ 0x58 := by
  have hall : ∀ n < 64, digit (UInt8.ofNat n) = at0 alphabet n ∧ digit (UInt8.ofNat n) ≠ 0 ∧
      digit (UInt8.ofNat n) ≠ chr '=' ∧ sDigit (digit (UInt8.ofNat n)) = UInt8.ofNat n ∧
      UInt8.ofNat n ≠ 0x58 := by decide +kernel
  have hx := hall x.toNat h
  rwa [UInt8.ofNat_toNat] at hx

/-- Six bits are those of a byte below 64. -/
theorem sextet_eq {s : Bytes} {k : ℕ} {x : Byte} (hx : x.toNat < 64)
    (h : ∀ j < 6, bit s (k + j) = x.toNat.testBit (5 - j)) : sextet s k = x.toNat := by
  have hall : ∀ n < 64, number ((List.range 6).map fun j => n.testBit (5 - j)) = n := by decide +kernel
  unfold sextet
  rw [← hall x.toNat hx]
  exact congrArg number (List.map_congr_left fun j hj => h j (List.mem_range.mp hj))

/-! ## Bits -/

theorem lt_six {j : ℕ} (h : j < 6) : j = 0 ∨ j = 1 ∨ j = 2 ∨ j = 3 ∨ j = 4 ∨ j = 5 := by omega

theorem testBit_byte (x : Byte) (i : ℕ) : x.toNat.testBit i = x.toBitVec.getLsbD i := rfl

theorem byte_ext {x y : Byte} (h : ∀ i < 8, x.toBitVec.getLsbD i = y.toBitVec.getLsbD i) : x = y := by
  apply UInt8.toBitVec_inj.mp
  ext i hi
  exact h i hi

theorem lt_eight {i : ℕ} (h : i < 8) : i = 0 ∨ i = 1 ∨ i = 2 ∨ i = 3 ∨ i = 4 ∨ i = 5 ∨ i = 6 ∨ i = 7 := by
  omega

theorem lt_of_mask {x : Byte} (h : x &&& 0x3F = x) : x.toNat < 64 := by
  have hle : (x &&& 0x3F).toNat ≤ 63 := (UInt8.toNat_and x 0x3F).trans_le Nat.and_le_right
  rw [h] at hle
  omega

/-- The digits of three bytes have six bits. -/
theorem digits_lt (b1 b2 b3 : Byte) :
    (b1 >>> 2).toNat < 64 ∧ (((b1 &&& 0x03) <<< 4) ||| (b2 >>> 4)).toNat < 64 ∧
      (((b2 &&& 0x0F) <<< 2) ||| (b3 >>> 6)).toNat < 64 ∧ (b3 &&& 0x3F).toNat < 64 := by
  refine ⟨lt_of_mask (byte_ext fun i hi => ?_), lt_of_mask (byte_ext fun i hi => ?_),
    lt_of_mask (byte_ext fun i hi => ?_), lt_of_mask (byte_ext fun i hi => ?_)⟩
  all_goals rcases lt_eight hi with rfl | rfl | rfl | rfl | rfl | rfl | rfl | rfl <;> simp

/-- They are the four groups of six bits. -/
theorem sextets (b1 b2 b3 : Byte) (s : Bytes) :
    sextet (b1 :: b2 :: b3 :: s) 0 = (b1 >>> 2).toNat ∧
      sextet (b1 :: b2 :: b3 :: s) 6 = (((b1 &&& 0x03) <<< 4) ||| (b2 >>> 4)).toNat ∧
      sextet (b1 :: b2 :: b3 :: s) 12 = (((b2 &&& 0x0F) <<< 2) ||| (b3 >>> 6)).toNat ∧
      sextet (b1 :: b2 :: b3 :: s) 18 = (b3 &&& 0x3F).toNat := by
  obtain ⟨h1, h2, h3, h4⟩ := digits_lt b1 b2 b3
  refine ⟨sextet_eq h1 fun j hj => ?_, sextet_eq h2 fun j hj => ?_, sextet_eq h3 fun j hj => ?_,
    sextet_eq h4 fun j hj => ?_⟩
  all_goals
    simp only [bit, testBit_byte]
    rcases lt_six hj with rfl | rfl | rfl | rfl | rfl | rfl <;> simp [at0]

/-- The bytes are put together again. -/
theorem rejoined (b1 b2 b3 : Byte) :
    ((b1 >>> 2) <<< 2) ||| (((((b1 &&& 0x03) <<< 4) ||| (b2 >>> 4)) >>> 4) &&& 0x03) = b1 ∧
      ((((b1 &&& 0x03) <<< 4) ||| (b2 >>> 4)) <<< 4) |||
        (((((b2 &&& 0x0F) <<< 2) ||| (b3 >>> 6)) >>> 2) &&& 0x0F) = b2 ∧
      ((((b2 &&& 0x0F) <<< 2) ||| (b3 >>> 6)) <<< 6) ||| (b3 &&& 0x3F) = b3 := by
  refine ⟨byte_ext fun i hi => ?_, byte_ext fun i hi => ?_, byte_ext fun i hi => ?_⟩
  all_goals rcases lt_eight hi with rfl | rfl | rfl | rfl | rfl | rfl | rfl | rfl <;> simp

/-! ## What is written -/

theorem bit_triple (b1 b2 b3 : Byte) (s : Bytes) (k : ℕ) : bit (b1 :: b2 :: b3 :: s) (24 + k) = bit s k := by
  unfold bit
  rw [show (24 + k) / 8 = k / 8 + 3 by omega, show (24 + k) % 8 = k % 8 by omega]
  rfl

theorem sextet_triple (b1 b2 b3 : Byte) (s : Bytes) (k : ℕ) :
    sextet (b1 :: b2 :: b3 :: s) (24 + k) = sextet s k := by
  unfold sextet
  simp only [Nat.add_assoc, bit_triple]

/-- Three bytes are four characters. -/
theorem encoding_triple (b1 b2 b3 : Byte) (s : Bytes) :
    encoding (b1 :: b2 :: b3 :: s) =
      digit (b1 >>> 2) :: digit (((b1 &&& 0x03) <<< 4) ||| (b2 >>> 4)) ::
        digit (((b2 &&& 0x0F) <<< 2) ||| (b3 >>> 6)) :: digit (b3 &&& 0x3F) :: encoding s := by
  obtain ⟨h1, h2, h3, h4⟩ := digits_lt b1 b2 b3
  obtain ⟨s1, s2, s3, s4⟩ := sextets b1 b2 b3 s
  have hcount : (4 * (s.length + 3) + 2) / 3 = 4 + (4 * s.length + 2) / 3 := by omega
  have hpad : (s.length + 3) % 3 = s.length % 3 := by omega
  have hrest : ∀ i, sextet (b1 :: b2 :: b3 :: s) (6 * (4 + i)) = sextet s (6 * i) := by
    intro i
    rw [show 6 * (4 + i) = 24 + 6 * i by omega]
    exact sextet_triple b1 b2 b3 s (6 * i)
  rw [(digit_spec h1).1, (digit_spec h2).1, (digit_spec h3).1, (digit_spec h4).1, ← s1, ← s2, ← s3, ← s4]
  unfold encoding
  rw [show (b1 :: b2 :: b3 :: s).length = s.length + 3 from rfl, hcount, hpad, List.range_add, List.map_append,
    List.map_map]
  simp only [Function.comp_def, hrest]
  rfl

/-- Zeros follow a string. -/
theorem bit_zeros (s : Bytes) (n k : ℕ) : bit (s ++ List.replicate n 0) k = bit s k := by
  have hat : at0 (s ++ List.replicate n 0) (k / 8) = at0 s (k / 8) := by
    unfold at0
    by_cases h : k / 8 < s.length
    · rw [List.getD_append _ _ _ _ h]
    · rw [List.getD_append_right _ _ _ _ (Nat.not_lt.mp h), List.getD_eq_default _ _ (Nat.not_lt.mp h)]
      by_cases hn : k / 8 - s.length < n
      · exact List.getD_replicate _ hn
      · exact List.getD_eq_default _ _ (by rw [List.length_replicate]; omega)
  unfold bit
  rw [hat]

theorem sextet_zeros (s : Bytes) (n k : ℕ) : sextet (s ++ List.replicate n 0) k = sextet s k := by
  unfold sextet
  simp only [bit_zeros]

/-- One byte is two characters, and two of padding. -/
theorem encoding_one (b1 : Byte) :
    encoding [b1] = [digit (b1 >>> 2), digit ((b1 &&& 0x03) <<< 4), chr '=', chr '='] := by
  obtain ⟨h1, h2, -, -⟩ := digits_lt b1 0 0
  obtain ⟨s1, s2, -, -⟩ := sextets b1 0 0 []
  have hzero : ((b1 &&& 0x03) <<< 4) ||| ((0 : Byte) >>> 4) = (b1 &&& 0x03) <<< 4 := by simp
  rw [hzero] at h2 s2
  have hpad : ∀ k, sextet [b1, 0, 0] k = sextet [b1] k := sextet_zeros [b1] 2
  rw [(digit_spec h1).1, (digit_spec h2).1, ← s1, ← s2, hpad, hpad]
  change (List.range ((4 * 1 + 2) / 3)).map _ ++ List.replicate ((3 - 1 % 3) % 3) _ = _
  rfl

/-- Two bytes are three characters, and one of padding. -/
theorem encoding_two (b1 b2 : Byte) :
    encoding [b1, b2] = [digit (b1 >>> 2), digit (((b1 &&& 0x03) <<< 4) ||| (b2 >>> 4)),
      digit ((b2 &&& 0x0F) <<< 2), chr '='] := by
  obtain ⟨h1, h2, h3, -⟩ := digits_lt b1 b2 0
  obtain ⟨s1, s2, s3, -⟩ := sextets b1 b2 0 []
  have hzero : ((b2 &&& 0x0F) <<< 2) ||| ((0 : Byte) >>> 6) = (b2 &&& 0x0F) <<< 2 := by simp
  rw [hzero] at h3 s3
  have hpad : ∀ k, sextet [b1, b2, 0] k = sextet [b1, b2] k := sextet_zeros [b1, b2] 1
  rw [(digit_spec h1).1, (digit_spec h2).1, (digit_spec h3).1, ← s1, ← s2, ← s3, hpad, hpad, hpad]
  change (List.range ((4 * 2 + 2) / 3)).map _ ++ List.replicate ((3 - 2 % 3) % 3) _ = _
  rfl

/-- **`b64_to` writes the encoding.** -/
theorem b64To_eq (s : Bytes) : b64To s = encoding s ++ [0] := by
  induction s using b64To.induct with
  | case1 b1 b2 b3 s ih =>
    rw [b64To, ih, encoding_triple]
    rfl
  | case2 b1 =>
    rw [b64To, encoding_one]
    rfl
  | case3 b1 b2 =>
    rw [b64To, encoding_two]
    rfl
  | case4 => rfl

theorem encoding_length (s : Bytes) : (encoding s).length = 4 * ((s.length + 2) / 3) := by
  unfold encoding
  rw [List.length_append, List.length_map, List.length_range, List.length_replicate]
  omega

/-! ## What is read back -/

theorem sDigit_equals : sDigit (chr '=') = 0x58 := by decide

theorem sDigit_zero : sDigit 0 = 0x58 := by decide

/-- **`b64_from` writes the string and a NUL.** -/
theorem b64From_encoding (s behind : Bytes) : b64From (encoding s ++ 0 :: behind) = s ++ [0] := by
  induction s using b64To.induct with
  | case1 b1 b2 b3 s ih =>
    obtain ⟨h1, h2, h3, h4⟩ := digits_lt b1 b2 b3
    obtain ⟨r1, r2, r3⟩ := rejoined b1 b2 b3
    obtain ⟨-, -, -, d1, n1⟩ := digit_spec h1
    obtain ⟨-, -, -, d2, n2⟩ := digit_spec h2
    obtain ⟨-, -, -, d3, n3⟩ := digit_spec h3
    obtain ⟨-, -, -, d4, n4⟩ := digit_spec h4
    rw [encoding_triple]
    simp only [List.cons_append, b64From, d1, d2, d3, d4]
    rw [if_neg (not_or.mpr ⟨n1, n2⟩), if_neg n3, if_neg n4, r1, r2, r3, ih]
  | case2 b1 =>
    obtain ⟨h1, h2, -, -⟩ := digits_lt b1 0 0
    obtain ⟨r1, -, -⟩ := rejoined b1 0 0
    have hzero : ((b1 &&& 0x03) <<< 4) ||| ((0 : Byte) >>> 4) = (b1 &&& 0x03) <<< 4 := by simp
    rw [hzero] at h2 r1
    obtain ⟨-, -, -, d1, n1⟩ := digit_spec h1
    obtain ⟨-, -, -, d2, n2⟩ := digit_spec h2
    rw [encoding_one]
    simp only [List.cons_append, b64From, d1, d2]
    rw [if_neg (not_or.mpr ⟨n1, n2⟩), if_pos sDigit_equals, r1]
    rfl
  | case3 b1 b2 =>
    obtain ⟨h1, h2, h3, -⟩ := digits_lt b1 b2 0
    obtain ⟨r1, r2, -⟩ := rejoined b1 b2 0
    have hzero : ((b2 &&& 0x0F) <<< 2) ||| ((0 : Byte) >>> 6) = (b2 &&& 0x0F) <<< 2 := by simp
    rw [hzero] at h3 r2
    obtain ⟨-, -, -, d1, n1⟩ := digit_spec h1
    obtain ⟨-, -, -, d2, n2⟩ := digit_spec h2
    obtain ⟨-, -, -, d3, n3⟩ := digit_spec h3
    rw [encoding_two]
    simp only [List.cons_append, b64From, d1, d2, d3]
    rw [if_neg (not_or.mpr ⟨n1, n2⟩), if_neg n3, if_pos sDigit_equals, r1, r2]
    rfl
  | case4 =>
    cases behind with
    | nil => rfl
    | cons c behind =>
      change b64From (0 :: c :: behind) = [0]
      unfold b64From
      exact if_pos (Or.inl sDigit_zero)

/-! ## The size -/

theorem number_lt (bits : List Bool) : number bits < 2 ^ bits.length := by
  have hfold : ∀ n, bits.foldl (fun n b => 2 * n + b.toNat) n < (n + 1) * 2 ^ bits.length := by
    induction bits with
    | nil => intro n; simp
    | cons b bits ih =>
      intro n
      have hbit := Bool.toNat_lt b
      have hle : (2 * n + b.toNat + 1) * 2 ^ bits.length ≤ (2 * n + 2) * 2 ^ bits.length :=
        Nat.mul_le_mul_right _ (by omega)
      calc (b :: bits).foldl (fun n b => 2 * n + b.toNat) n
          < (2 * n + b.toNat + 1) * 2 ^ bits.length := ih _
        _ ≤ (2 * n + 2) * 2 ^ bits.length := hle
        _ = (n + 1) * 2 ^ (b :: bits).length := by
          rw [List.length_cons, Nat.pow_succ, show 2 * n + 2 = (n + 1) * 2 by omega, Nat.mul_assoc,
            Nat.mul_comm 2]
  have h := hfold 0
  rwa [Nat.zero_add, Nat.one_mul] at h

/-- The characters before the padding. -/
def body (s : Bytes) : Bytes := (List.range ((4 * s.length + 2) / 3)).map fun i => at0 alphabet (sextet s (6 * i))

theorem encoding_eq (s : Bytes) :
    encoding s = body s ++ List.replicate ((3 - s.length % 3) % 3) (chr '=') := rfl

theorem body_length (s : Bytes) : (body s).length = (4 * s.length + 2) / 3 := by
  unfold body
  rw [List.length_map, List.length_range]

/-- None of them is NUL or padding. -/
theorem body_plain {s : Bytes} {c : Byte} (h : c ∈ body s) : c ≠ 0 ∧ c ≠ chr '=' := by
  obtain ⟨i, -, rfl⟩ := List.mem_map.mp h
  have hlt : sextet s (6 * i) < 64 := by
    unfold sextet
    exact number_lt _
  have hall : ∀ n < 64, at0 alphabet n ≠ 0 ∧ at0 alphabet n ≠ chr '=' := by decide +kernel
  exact hall _ hlt

theorem zero_not_mem_encoding (s : Bytes) : 0 ∉ encoding s := by
  intro h
  rcases List.mem_append.mp h with h | h
  · exact (body_plain h).1 rfl
  · exact absurd (List.eq_of_mem_replicate h) (by decide)

theorem at0_body {s : Bytes} (t : Bytes) {i : ℕ} (h : i < (4 * s.length + 2) / 3) :
    at0 (encoding s ++ t) i ≠ chr '=' := by
  have hbody : i < (body s).length := (body_length s).symm ▸ h
  have hat : at0 (encoding s ++ t) i = (body s)[i] := by
    unfold at0
    rw [encoding_eq, List.append_assoc, List.getD_append _ _ _ _ hbody, List.getD_eq_getElem _ _ hbody]
  rw [hat]
  exact (body_plain (List.getElem_mem hbody)).2

theorem at0_padding {s : Bytes} (t : Bytes) {i : ℕ} (hlow : (4 * s.length + 2) / 3 ≤ i)
    (hhigh : i < (4 * s.length + 2) / 3 + (3 - s.length % 3) % 3) : at0 (encoding s ++ t) i = chr '=' := by
  have hlen := body_length s
  have hat : at0 (encoding s ++ t) i =
      (List.replicate ((3 - s.length % 3) % 3) (chr '=') ++ t).getD (i - (body s).length) 0 := by
    unfold at0
    rw [encoding_eq, List.append_assoc]
    exact List.getD_append_right _ _ _ _ (hlen.trans_le hlow)
  have hpad : i - (body s).length < (List.replicate ((3 - s.length % 3) % 3) (chr '=')).length := by
    rw [List.length_replicate, hlen]
    omega
  rw [hat, List.getD_append _ _ _ _ hpad, List.getD_eq_getElem _ _ hpad]
  exact List.getElem_replicate _

/-- **`b64_orig_size` is the length of the string.** -/
theorem b64OrigSize_encoding {s : Bytes} (h : s.length < 0x80000000) (behind : Bytes) :
    b64OrigSize (encoding s ++ 0 :: behind) = some s.length := by
  have hlen : strlen (encoding s ++ 0 :: behind) = 4 * ((s.length + 2) / 3) := by
    unfold strlen
    rw [cstr_append_zero (zero_not_mem_encoding s), encoding_length]
  have hdecr : ∀ n, 1 ≤ n → n < 0x80000000 + 3 → b64OrigSize.decrement n = n - 1 := by
    intro n hpos hlt
    unfold b64OrigSize.decrement
    omega
  unfold b64OrigSize
  dsimp only
  rw [hlen]
  by_cases hnil : s.length = 0
  · rw [if_pos (by omega), hnil]
  rw [if_neg (by omega)]
  have hmod : s.length % 3 = 0 ∨ s.length % 3 = 1 ∨ s.length % 3 = 2 := by omega
  rcases hmod with hmod | hmod | hmod
  · rw [if_neg (at0_body _ (by omega))]
    congr 1
    omega
  · rw [if_pos (at0_padding _ (by omega) (by omega)), if_neg (by omega),
      if_pos (at0_padding _ (by omega) (by omega)),
      hdecr (4 * ((s.length + 2) / 3) * 3 / 4) (by omega) (by omega), hdecr _ (by omega) (by omega)]
    congr 1
    omega
  · rw [if_pos (at0_padding _ (by omega) (by omega)), if_neg (by omega), if_neg (at0_body _ (by omega)),
      hdecr _ (by omega) (by omega)]
    congr 1
    omega

/-! ## The law -/

/-- Base 64 loses nothing of a string, with what follows the text in memory. -/
structure Lossless (s behind : Bytes) : Prop where
  written : b64To s = encoding s ++ [0]
  length : (encoding s).length = 4 * ((s.length + 2) / 3)
  returned : b64ToLen s = (encoding s).length
  size : b64OrigSize (encoding s ++ 0 :: behind) = some s.length
  back : b64From (encoding s ++ 0 :: behind) = s ++ [0]

theorem b64ToLen_eq (s : Bytes) : b64ToLen s = toInt (encoding s).length := by
  unfold b64ToLen
  rw [b64To_eq, List.length_append]
  congr 1
  simp

/-- An `int` holds the length. -/
theorem Lossless.length_le {s behind : Bytes} (h : Lossless s behind) : s.length ≤ 1610612733 := by
  have hlen := encoding_length s
  have hret := h.returned
  rw [b64ToLen_eq] at hret
  have hlt := (toInt_range (encoding s).length).2
  rw [hret] at hlt
  omega

/-- **Base 64 is lossless exactly for strings whose encoding has a length that an `int` holds.** -/
theorem b64_lossless_iff {s : Bytes} (h : s.length < 0x80000000) (behind : Bytes) :
    Lossless s behind ↔ s.length ≤ 1610612733 := by
  have hlen := encoding_length s
  constructor
  · exact Lossless.length_le
  · intro hle
    refine ⟨b64To_eq s, hlen, ?_, b64OrigSize_encoding h behind, b64From_encoding s behind⟩
    rw [b64ToLen_eq]
    exact toInt_of_int (by omega) (by omega)

theorem two_bytes_lossless : Lossless (bytes "Ma") [] ↔ (bytes "Ma").length ≤ 1610612733 :=
  b64_lossless_iff (by decide) []

/-- The length of the encoding of 1610612734 bytes is 2147483648. -/
theorem long_not_lossless : ¬ Lossless (List.replicate 1610612734 0) [] := by
  intro h
  have hle := h.length_le
  rw [List.length_replicate] at hle
  omega

end Base64

end Agoo
