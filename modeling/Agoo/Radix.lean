import Mathlib.Algebra.Order.Ring.Nat
import Mathlib.Data.List.Induction

/-!
# Numbers with large digits

A list of digits read in a base, where a digit may be as large as the base or larger, so that a number can
have more than one reading. `representations` lists all readings of a length.
-/

namespace Agoo

namespace Radix

/-- The number that digits spell, the highest first. -/
def horner (b : ℕ) (ds : List ℕ) : ℕ := ds.foldl (fun h d => b * h + d) 0

@[simp] theorem horner_nil (b : ℕ) : horner b [] = 0 := rfl

@[simp] theorem horner_concat (b : ℕ) (ds : List ℕ) (d : ℕ) : horner b (ds ++ [d]) = b * horner b ds + d := by
  unfold horner
  rw [List.foldl_append]
  rfl

/-- The lists of `n` digits with `p`, each less than twice the base, that spell a number. -/
def representations (b : ℕ) (p : ℕ → Bool) : ℕ → ℕ → List (List ℕ)
  | 0, h => if h = 0 then [[]] else []
  | n + 1, h =>
    ([h % b, h % b + b].filter fun d => p d && d ≤ h).flatMap fun d =>
      (representations b p n ((h - d) / b)).map (· ++ [d])

/-- Two digits end a number: its rest, and the base more. -/
theorem last_digit {b d : ℕ} (hd : d < 2 * b) (h : ℕ) : d = (b * h + d) % b ∨ d = (b * h + d) % b + b := by
  rw [Nat.mul_add_mod]
  by_cases hlt : d < b
  · exact Or.inl (Nat.mod_eq_of_lt hlt).symm
  · refine Or.inr ?_
    rw [Nat.mod_eq_sub_mod (Nat.not_lt.mp hlt), Nat.mod_eq_of_lt (by omega)]
    omega

theorem mem_representations {b : ℕ} {p : ℕ → Bool} {ds : List ℕ} (hds : ∀ d ∈ ds, p d = true ∧ d < 2 * b) :
    ds ∈ representations b p ds.length (horner b ds) := by
  induction ds using List.reverseRecOn with
  | nil => exact List.mem_singleton_self []
  | append_singleton ds d ih =>
    obtain ⟨hp, hlt⟩ := hds d (List.mem_append_right _ (List.mem_singleton_self d))
    have hb : 0 < b := by omega
    have hsub : b * horner b ds + d - d = b * horner b ds := Nat.add_sub_cancel _ _
    rw [List.length_append, List.length_singleton, horner_concat, representations, List.mem_flatMap]
    refine ⟨d, List.mem_filter.mpr ⟨?_, ?_⟩, ?_⟩
    · rw [List.mem_cons, List.mem_singleton]
      exact last_digit hlt _
    · rw [hp]
      simp
    · rw [hsub, Nat.mul_div_cancel_left _ hb]
      exact List.mem_map_of_mem (ih fun e he => hds e (List.mem_append_left _ he))

/-- A number of `n` digits that are less than twice the base less one. -/
theorem horner_lt {b : ℕ} {ds : List ℕ} (hds : ∀ d ∈ ds, d + 2 ≤ 2 * b) :
    horner b ds + 2 ≤ 2 * b ^ ds.length := by
  induction ds using List.reverseRecOn with
  | nil => exact le_rfl
  | append_singleton ds d ih =>
    have hd := hds d (List.mem_append_right _ (List.mem_singleton_self d))
    have hrest := ih fun e he => hds e (List.mem_append_left _ he)
    rw [List.length_append, List.length_singleton, horner_concat, Nat.pow_succ]
    calc b * horner b ds + d + 2 ≤ b * (horner b ds + 2) := by
          rw [Nat.mul_add]
          omega
      _ ≤ b * (2 * b ^ ds.length) := Nat.mul_le_mul_left b hrest
      _ = 2 * (b ^ ds.length * b) := by rw [Nat.mul_left_comm, Nat.mul_comm b]

end Radix

end Agoo
