import Agoo.Bytes
import Mathlib.Algebra.Order.Ring.Nat

/-!
# Texts (`text.c`)

`agoo_text_append` on the bytes of a text. A length that is not positive stands for that of a C string.
-/

namespace Agoo

/-- `agoo_text_append`, with the memory from `s` on. -/
def textAppend (t s : Bytes) (len : ℤ) : Bytes := t ++ if len ≤ 0 then cstr s else s.take len.toNat

theorem textAppend_pos (t : Bytes) {a b : Bytes} (h : a ≠ []) : textAppend t (a ++ b) a.length = t ++ a := by
  have hpos := List.length_pos_iff.mpr h
  unfold textAppend
  rw [if_neg (by omega), Int.toNat_natCast, List.take_left]

/-- All of a text that is not empty. -/
theorem textAppend_all (t : Bytes) {a : Bytes} (h : a ≠ []) : textAppend t a a.length = t ++ a := by
  have hall := textAppend_pos t (b := []) h
  rwa [List.append_nil] at hall

/-- Nothing is appended as a C string. -/
theorem textAppend_empty (t s : Bytes) : textAppend t s 0 = t ++ cstr s := rfl

theorem strncpy_value {m v rest : Bytes} (hzero : 0 ∉ v) (hm : m = v ++ rest) : strncpy m v.length = v := by
  have hlen : v.length ≤ (cstr m).length := by
    rw [hm, cstr_append hzero, List.length_append]
    omega
  unfold strncpy
  rw [show v.length - (cstr m).length = 0 by omega, hm, cstr_append hzero, List.take_left]
  exact List.append_nil v

end Agoo
