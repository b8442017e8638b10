import Mathlib.Data.List.Basic
import Mathlib.Tactic.Common

/-!
# Messages in blocks

A function on states that takes a block of `n` elements is iterated over a message: `chain` is the state
behind the whole blocks, `left` what is behind them. **A message can be cut anywhere**: what is left of the
first part is put before the second one (`chain_append`, `left_append`).
-/

namespace Agoo

namespace Blocks

universe u v

variable {σ : Type u} {β : Type v} (f : σ → List β → σ) (n : ℕ)

/-- The state behind `k` blocks. -/
def absorb : ℕ → σ → List β → σ
  | 0, h, _ => h
  | k + 1, h, m => absorb k (f h (m.take n)) (m.drop n)

/-- The state behind the whole blocks of a message. -/
def chain (h : σ) (m : List β) : σ := absorb f n (m.length / n) h m

/-- What is behind the whole blocks of a message. -/
def left (m : List β) : List β := m.drop (n * (m.length / n))

variable {n}

@[simp] theorem length_left (m : List β) : (left n m).length = m.length % n := by
  unfold left
  rw [List.length_drop, Nat.mod_eq_sub_mul_div]

theorem left_lt (hn : 0 < n) (m : List β) : (left n m).length < n := by
  rw [length_left]
  exact Nat.mod_lt _ hn

theorem chain_short {m : List β} (hm : m.length < n) (h : σ) : chain f n h m = h := by
  unfold chain
  rw [Nat.div_eq_of_lt hm]
  rfl

theorem left_short {m : List β} (hm : m.length < n) : left n m = m := by
  unfold left
  rw [Nat.div_eq_of_lt hm]
  rfl

theorem length_block_append (hn : 0 < n) {b : List β} (hb : b.length = n) (m : List β) :
    (b ++ m).length / n = m.length / n + 1 := by
  rw [List.length_append, hb, Nat.add_comm, Nat.add_div_right _ hn]

/-- A block at the start is taken in first. -/
theorem chain_block (hn : 0 < n) {b : List β} (hb : b.length = n) (h : σ) (m : List β) :
    chain f n h (b ++ m) = chain f n (f h b) m := by
  unfold chain
  rw [length_block_append hn hb, absorb, List.take_left' hb, List.drop_left' hb]

theorem left_block (hn : 0 < n) {b : List β} (hb : b.length = n) (m : List β) :
    left n (b ++ m) = left n m := by
  unfold left
  rw [length_block_append hn hb, Nat.mul_add_one, Nat.add_comm, ← List.drop_drop, List.drop_left' hb]

/-- A message that is not short begins with a block. -/
theorem exists_block {m : List β} (hm : n ≤ m.length) : ∃ b m', b.length = n ∧ m = b ++ m' :=
  ⟨m.take n, m.drop n, List.length_take_of_le hm, (List.take_append_drop n m).symm⟩

/-- **What comes later is taken in behind what is left.** -/
theorem chain_append (hn : 0 < n) (h : σ) (m m' : List β) :
    chain f n h (m ++ m') = chain f n (chain f n h m) (left n m ++ m') := by
  induction hlen : m.length using Nat.strongRecOn generalizing h m with
  | ind k ih =>
    by_cases hm : m.length < n
    · rw [chain_short f hm, left_short hm]
    · obtain ⟨b, t, hb, rfl⟩ := exists_block (Nat.not_lt.mp hm)
      have hlt : t.length < k := by
        rw [← hlen, List.length_append]
        omega
      rw [List.append_assoc, chain_block f hn hb, chain_block f hn hb, left_block hn hb]
      exact ih _ hlt _ t rfl

theorem left_append (hn : 0 < n) (m m' : List β) : left n (m ++ m') = left n (left n m ++ m') := by
  induction hlen : m.length using Nat.strongRecOn generalizing m with
  | ind k ih =>
    by_cases hm : m.length < n
    · rw [left_short hm]
    · obtain ⟨b, t, hb, rfl⟩ := exists_block (Nat.not_lt.mp hm)
      have hlt : t.length < k := by
        rw [← hlen, List.length_append]
        omega
      rw [List.append_assoc, left_block hn hb, left_block hn hb]
      exact ih _ hlt t rfl

end Blocks

end Agoo
