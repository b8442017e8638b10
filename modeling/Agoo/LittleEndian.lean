import Agoo.Bytes
import Mathlib.Tactic.Ring

/-!
# Numbers in memory

The bytes of a number, the lowest first, the number that bytes stand for, and memory with some bytes
written over.
-/

namespace Agoo

/-- The lowest `w` bytes of a number. -/
def leBytes : ℕ → ℕ → Bytes
  | 0, _ => []
  | w + 1, n => UInt8.ofNat n :: leBytes w (n / 256)

def leVal : Bytes → ℕ
  | [] => 0
  | b :: bs => b.toNat + 256 * leVal bs

/-- The bytes of an integer in two's complement. -/
def leBytesInt (w : ℕ) (z : ℤ) : Bytes := leBytes w (z % (256 ^ w : ℕ)).toNat

def leInt (bs : Bytes) : ℤ := (leVal bs : ℤ).bmod (256 ^ bs.length)

/-- Memory with `bs` at offset `off`. -/
def patch (m : Bytes) (off : ℕ) (bs : Bytes) : Bytes := m.take off ++ bs ++ m.drop (off + bs.length)

@[simp] theorem length_leBytes (w n : ℕ) : (leBytes w n).length = w := by
  induction w generalizing n with
  | zero => rfl
  | succ w ih => simp [leBytes, ih]

@[simp] theorem length_leBytesInt (w : ℕ) (z : ℤ) : (leBytesInt w z).length = w := length_leBytes w _

theorem leVal_leBytes (w n : ℕ) : leVal (leBytes w n) = n % 256 ^ w := by
  induction w generalizing n with
  | zero => simp [leBytes, leVal, Nat.mod_one]
  | succ w ih =>
    have hbyte : (UInt8.ofNat n).toNat = n % 256 := UInt8.toNat_ofNat'
    rw [leBytes, leVal, ih, hbyte, Nat.pow_succ, Nat.mul_comm _ 256, Nat.mod_mul]

/-- An integer that fits is read back. -/
theorem leInt_leBytesInt {w : ℕ} {z : ℤ} (hlow : -((256 ^ w : ℕ) : ℤ) ≤ 2 * z)
    (hhigh : 2 * z < ((256 ^ w : ℕ) : ℤ)) : leInt (leBytesInt w z) = z := by
  have hpos : 0 < ((256 ^ w : ℕ) : ℤ) := Int.natCast_pos.mpr (Nat.pow_pos (by decide))
  have hnonneg := Int.emod_nonneg z (Int.ne_of_gt hpos)
  have hlt := Int.emod_lt_of_pos z hpos
  have hval : ((leVal (leBytesInt w z) : ℕ) : ℤ) = z % ((256 ^ w : ℕ) : ℤ) := by
    unfold leBytesInt
    rw [leVal_leBytes, Nat.mod_eq_of_lt (by omega), Int.toNat_of_nonneg hnonneg]
  unfold leInt
  rw [hval, length_leBytesInt, Int.emod_bmod]
  exact Int.bmod_eq_of_le (by omega) (by omega)

theorem length_patch {m bs : Bytes} {off : ℕ} (h : off + bs.length ≤ m.length) :
    (patch m off bs).length = m.length := by
  unfold patch
  simp only [List.length_append, List.length_take, List.length_drop]
  omega

/-- What was written. -/
theorem patch_at {m bs : Bytes} {off : ℕ} (h : off ≤ m.length) :
    ((patch m off bs).drop off).take bs.length = bs := by
  unfold patch
  rw [List.append_assoc, List.drop_append_of_le_length (by simp; omega), List.drop_take_self]
  simp

/-- The memory behind it is left. -/
theorem drop_patch {m bs : Bytes} {off k : ℕ} (h : off + bs.length ≤ k) (hm : off ≤ m.length) :
    (patch m off bs).drop k = m.drop k := by
  unfold patch
  have hlen : (m.take off ++ bs).length = off + bs.length := by simp; omega
  obtain ⟨d, rfl⟩ : ∃ d, k = off + bs.length + d := ⟨k - (off + bs.length), by omega⟩
  rw [← List.drop_drop, ← hlen, List.drop_left, hlen, List.drop_drop]

end Agoo
