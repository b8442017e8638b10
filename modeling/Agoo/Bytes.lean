import Mathlib.Data.List.Basic
import Mathlib.Data.List.Infix
import Mathlib.Data.List.TakeWhile

/-!
# Byte strings and C strings

Memory is a list of bytes read from a pointer on; what lies past its end reads as zero. A C string
is the part of memory before its first NUL. The functions of `string.h` are defined on such
memory, with the facts a caller needs about them: `find` returns the first place where a pattern
occurs, and what a search returns depends on the C string alone.
-/

namespace Agoo

abbrev Byte := UInt8
abbrev Bytes := List Byte

/-- The bytes of an ASCII text. -/
def bytes (s : String) : Bytes := s.toList.map fun c => UInt8.ofNat c.toNat

/-- The byte of an ASCII character. -/
def chr (c : Char) : Byte := UInt8.ofNat c.toNat

/-- `(int)` of an integer. -/
def toInt (x : ℤ) : ℤ := x.bmod 0x100000000

theorem toInt_range (x : ℤ) : -0x80000000 ≤ toInt x ∧ toInt x < 0x80000000 :=
  ⟨Int.le_bmod (by decide), Int.bmod_lt (by decide)⟩

theorem toInt_dvd (x : ℤ) : (0x100000000 : ℤ) ∣ x - toInt x := Int.dvd_self_sub_bmod

theorem toInt_of_int {x : ℤ} (hlow : -0x80000000 ≤ x) (hhigh : x < 0x80000000) : toInt x = x :=
  Int.bmod_eq_of_le (by omega) (by omega)

/-- A number as `%d` and `%ld` print it. -/
def decimal (n : ℕ) : Bytes := (Nat.toDigits 10 n).map chr

def crlf : Bytes := bytes "\r\n"

/-- The byte at offset `i` of memory `m`. -/
def at0 (m : Bytes) (i : ℕ) : Byte := m.getD i 0

/-- The C string at the start of memory `m`. -/
def cstr (m : Bytes) : Bytes := m.takeWhile (· != 0)

def strlen (m : Bytes) : ℕ := (cstr m).length

/-- The first offset at which `pat` occurs in `s`. -/
def find (pat : Bytes) : Bytes → Option ℕ
  | [] => if pat = [] then some 0 else none
  | x :: s => if pat <+: x :: s then some 0 else (find pat s).map (· + 1)

/-- `strstr`: the offset of `pat` in the C string at `m`. -/
def strstr (m pat : Bytes) : Option ℕ := find pat (cstr m)

/-- `strncpy`: it stops at a NUL and fills with zeros. -/
def strncpy (m : Bytes) (n : ℕ) : Bytes :=
  (cstr m).take n ++ List.replicate (n - (cstr m).length) 0

/-- `strncmp(a, b, n) == 0`. -/
def strncmp (a b : Bytes) (n : ℕ) : Bool := (cstr a).take n == (cstr b).take n

/-- `strcmp(a, b) == 0`. -/
def strcmp (a b : Bytes) : Bool := cstr a == cstr b

def tolower (c : Byte) : Byte := if 65 ≤ c ∧ c ≤ 90 then c + 32 else c

def toupper (c : Byte) : Byte := if 97 ≤ c ∧ c ≤ 122 then c - 32 else c

/-- `strncasecmp(a, b, n) == 0`. -/
def strncasecmp (a b : Bytes) (n : ℕ) : Bool :=
  ((cstr a).take n).map tolower == ((cstr b).take n).map tolower

/-- `strcasecmp(a, b) == 0`. -/
def strcasecmp (a b : Bytes) : Bool := (cstr a).map tolower == (cstr b).map tolower

/-! ## C strings -/

theorem at0_of_le {m : Bytes} {i : ℕ} (h : m.length ≤ i) : at0 m i = 0 := by
  unfold at0
  rw [List.getD_eq_getElem?_getD, List.getElem?_eq_none h]
  rfl

theorem lt_of_at0 {m : Bytes} {i : ℕ} (h : at0 m i ≠ 0) : i < m.length := by
  by_contra hge
  exact h (at0_of_le (Nat.not_lt.mp hge))

theorem drop_cons_of_at0 {m : Bytes} {i : ℕ} (h : at0 m i ≠ 0) :
    m.drop i = at0 m i :: m.drop (i + 1) := by
  have hlt := lt_of_at0 h
  rw [List.drop_eq_getElem_cons hlt]
  simp [at0, hlt]

theorem at0_append {a b : Bytes} : at0 (a ++ b) a.length = at0 b 0 := by
  unfold at0
  rw [List.getD_eq_getElem?_getD, List.getD_eq_getElem?_getD, List.getElem?_append_right le_rfl, Nat.sub_self]

theorem cstr_of_not_mem {m : Bytes} (h : 0 ∉ m) : cstr m = m := by
  unfold cstr
  rw [List.takeWhile_eq_self_iff]
  intro x hx
  have : x ≠ 0 := fun e => h (e ▸ hx)
  simpa using this

theorem zero_not_mem_cstr (m : Bytes) : 0 ∉ cstr m := by
  intro h
  simpa using List.mem_takeWhile_imp h

theorem cstr_cstr (m : Bytes) : cstr (cstr m) = cstr m := cstr_of_not_mem (zero_not_mem_cstr m)

/-- A C string that begins with NUL-free bytes begins with those bytes. -/
theorem cstr_append {a : Bytes} (h : 0 ∉ a) (b : Bytes) : cstr (a ++ b) = a ++ cstr b := by
  unfold cstr
  rw [List.takeWhile_append_of_pos]
  intro x hx
  have : x ≠ 0 := fun e => h (e ▸ hx)
  simpa using this

theorem cstr_append_zero {a : Bytes} (h : 0 ∉ a) (b : Bytes) : cstr (a ++ 0 :: b) = a := by
  rw [cstr_append h]
  simp [cstr]

@[simp] theorem cstr_append_nul (s : Bytes) : cstr (s ++ [0]) = cstr s := by
  unfold cstr
  induction s with
  | nil => rfl
  | cons c s ih =>
    rw [List.cons_append, List.takeWhile_cons, List.takeWhile_cons, ih]

theorem cstr_length_le (m : Bytes) : (cstr m).length ≤ m.length :=
  (List.takeWhile_sublist _).length_le

theorem cstr_isPre (m : Bytes) : cstr m <+: m := List.takeWhile_prefix _

/-! ## Searching -/

theorem find_eq_some_iff {pat : Bytes} : ∀ {s : Bytes} {i : ℕ},
    find pat s = some i ↔
      i ≤ s.length ∧ pat <+: s.drop i ∧ ∀ j < i, ¬ pat <+: s.drop j := by
  intro s
  induction s with
  | nil =>
    intro i
    unfold find
    by_cases hp : pat = []
    · subst hp
      rw [if_pos rfl]
      constructor
      · rintro ⟨⟩
        exact ⟨by simp, by simp, by simp⟩
      · rintro ⟨hi, -, -⟩
        rw [Nat.le_zero.mp hi]
    · rw [if_neg hp]
      constructor
      · intro h; cases h
      · rintro ⟨-, h, -⟩
        rw [List.drop_nil, List.prefix_nil] at h
        exact absurd h hp
  | cons x s ih =>
    intro i
    unfold find
    by_cases hp : pat <+: x :: s
    · rw [if_pos hp]
      constructor
      · rintro ⟨⟩
        exact ⟨by simp, by simpa using hp, by simp⟩
      · rintro ⟨-, -, hmin⟩
        cases i with
        | zero => rfl
        | succ i => exact absurd hp (by simpa using hmin 0 (by omega))
    · rw [if_neg hp]
      cases i with
      | zero =>
        constructor
        · intro h
          simp at h
        · rintro ⟨-, h, -⟩
          exact absurd (by simpa using h) hp
      | succ i =>
        rw [Option.map_eq_some_iff]
        constructor
        · rintro ⟨k, hk, e⟩
          obtain rfl : k = i := by omega
          obtain ⟨hle, hpre, hmin⟩ := ih.mp hk
          refine ⟨by simpa using hle, by simpa using hpre, fun j hj => ?_⟩
          cases j with
          | zero => simpa using hp
          | succ j => simpa using hmin j (by omega)
        · rintro ⟨hle, hpre, hmin⟩
          refine ⟨i, ih.mpr ⟨by simpa using hle, by simpa using hpre, fun j hj => ?_⟩, rfl⟩
          simpa using hmin (j + 1) (by omega)

theorem find_eq_none_iff {pat : Bytes} : ∀ {s : Bytes},
    find pat s = none ↔ ∀ i ≤ s.length, ¬ pat <+: s.drop i := by
  intro s
  constructor
  · intro h i hi hpre
    induction i using Nat.strong_induction_on with
    | _ i ih =>
      by_cases hmin : ∃ j < i, pat <+: s.drop j
      · obtain ⟨j, hj, hpj⟩ := hmin
        exact ih j hj (by omega) hpj
      · push Not at hmin
        have := find_eq_some_iff.mpr ⟨hi, hpre, hmin⟩
        rw [h] at this
        cases this
  · intro h
    cases hf : find pat s with
    | none => rfl
    | some i =>
      obtain ⟨hi, hpre, -⟩ := find_eq_some_iff.mp hf
      exact absurd hpre (h i hi)

/-- The offset found leaves room for the pattern. -/
theorem find_add_length_le {pat s : Bytes} {i : ℕ} (h : find pat s = some i) :
    i + pat.length ≤ s.length := by
  obtain ⟨hi, hpre, -⟩ := find_eq_some_iff.mp h
  have := hpre.length_le
  rw [List.length_drop] at this
  omega

end Agoo
