import Mathlib.Logic.Function.Basic
import Mathlib.Tactic.Common

/-!
# One thread at a time

Threads run programs that are somewhere inside or outside of a critical part. Behind a lock, or because
there is one thread only, at most one is inside.
-/

namespace Agoo

/-- Of the threads, each somewhere in its program, at most one is inside: behind a lock, or because no
thread but the first is not idle. -/
structure Excl {P : Type} (inside idle : P → Bool) (multi lock : Bool) (pcs : ℕ → P) : Prop where
  unique : ∀ i j, inside (pcs i) = true → inside (pcs j) = true → i = j
  locked : multi = true → ∀ i, inside (pcs i) = true → lock = true
  single : multi = false → ∀ i, idle (pcs i) = false → i = 0

section Excl

variable {P : Type} {inside idle : P → Bool} {multi lock : Bool} {pcs : ℕ → P}
  (h : Excl inside idle multi lock pcs) {i : ℕ} {pc : P}

include h

/-- A thread stays where it is, or it leaves without the lock. -/
theorem Excl.stay (hinside : inside pc = true → inside (pcs i) = true)
    (hidle : idle pc = false → idle (pcs i) = false) :
    Excl inside idle multi lock (Function.update pcs i pc) := by
  have hold : ∀ j, inside (Function.update pcs i pc j) = true → inside (pcs j) = true := by
    intro j hj
    by_cases hji : j = i
    · subst hji
      rw [Function.update_self] at hj
      exact hinside hj
    · rwa [Function.update_of_ne hji] at hj
  refine ⟨fun j k hj hk => h.unique j k (hold j hj) (hold k hk),
    fun hm j hj => h.locked hm j (hold j hj), fun hm j hj => ?_⟩
  by_cases hji : j = i
  · subst hji
    rw [Function.update_self] at hj
    exact h.single hm j (hidle hj)
  · rw [Function.update_of_ne hji] at hj
    exact h.single hm j hj

/-- A call begins. -/
theorem Excl.call (hinside : inside pc = false) (hone : multi = true ∨ i = 0) :
    Excl inside idle multi lock (Function.update pcs i pc) := by
  have hold : ∀ j, inside (Function.update pcs i pc j) = true → inside (pcs j) = true := by
    intro j hj
    by_cases hji : j = i
    · subst hji
      rw [Function.update_self, hinside] at hj
      cases hj
    · rwa [Function.update_of_ne hji] at hj
  refine ⟨fun j k hj hk => h.unique j k (hold j hj) (hold k hk),
    fun hm j hj => h.locked hm j (hold j hj), fun hm j hj => ?_⟩
  by_cases hji : j = i
  · rcases hone with hone | hone
    · rw [hm] at hone
      cases hone
    · exact hji.trans hone
  · rw [Function.update_of_ne hji] at hj
    exact h.single hm j hj

/-- Nobody is inside when a thread takes the lock, or when the only thread comes in. -/
theorem Excl.none_inside (hout : inside (pcs i) = false) (hidle : idle (pcs i) = false)
    (hactive : ∀ p, inside p = true → idle p = false) (hfree : multi = true → lock = false) (j : ℕ) :
    inside (pcs j) = false := by
  rw [Bool.eq_false_iff]
  intro hj
  cases hm : multi with
  | true =>
    rw [h.locked hm j hj] at hfree
    cases hfree hm
  | false =>
    have hji : j = i := (h.single hm j (hactive _ hj)).trans (h.single hm i hidle).symm
    rw [hji, hout] at hj
    cases hj

/-- A thread comes in. -/
theorem Excl.enter (hnone : ∀ j, inside (pcs j) = false) (hidle : idle (pcs i) = false)
    {lock' : Bool} (hlock : multi = true → lock' = true) :
    Excl inside idle multi lock' (Function.update pcs i pc) := by
  have honly : ∀ j, inside (Function.update pcs i pc j) = true → j = i := by
    intro j hj
    by_contra hji
    rw [Function.update_of_ne hji, hnone j] at hj
    cases hj
  refine ⟨fun j k hj hk => (honly j hj).trans (honly k hk).symm, fun hm _ _ => hlock hm, fun hm j hj => ?_⟩
  by_cases hji : j = i
  · exact hji.trans (h.single hm i hidle)
  · rw [Function.update_of_ne hji] at hj
    exact h.single hm j hj

/-- A thread leaves. -/
theorem Excl.leave (hin : inside (pcs i) = true) (hidle : idle (pcs i) = false)
    (hpc : inside pc = false) (lock' : Bool) :
    Excl inside idle multi lock' (Function.update pcs i pc) := by
  have hnone : ∀ j, inside (Function.update pcs i pc j) = false := by
    intro j
    by_cases hji : j = i
    · subst hji
      rw [Function.update_self]
      exact hpc
    · rw [Function.update_of_ne hji, Bool.eq_false_iff]
      exact fun hj => hji (h.unique j i hj hin)
  refine ⟨fun j k hj _ => ?_, fun _ j hj => ?_, fun hm j hj => ?_⟩
  · rw [hnone j] at hj
    cases hj
  · rw [hnone j] at hj
    cases hj
  · by_cases hji : j = i
    · exact hji.trans (h.single hm i hidle)
    · rw [Function.update_of_ne hji] at hj
      exact h.single hm j hj

omit h in
/-- With a thread inside, not all are outside. -/
theorem not_all_outside (hpc : inside pc = true) : ¬ ∀ j, inside (Function.update pcs i pc j) = false := by
  intro hno
  have hi := hno i
  rw [Function.update_self, hpc] at hi
  cases hi

omit h in
/-- All are outside before a thread moves there. -/
theorem all_outside_before (hi : inside (pcs i) = false)
    (hno : ∀ j, inside (Function.update pcs i pc j) = false) (j : ℕ) : inside (pcs j) = false := by
  by_cases hj : j = i
  · rw [hj]
    exact hi
  · have hj' := hno j
    rwa [Function.update_of_ne hj] at hj'

end Excl

end Agoo
