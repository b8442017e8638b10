import Mathlib.Data.List.Basic
import Mathlib.Tactic.Common

/-!
# Runs of partial steps

A system is a partial step function: none means that the action is not enabled. `Along` says that
each step of a run meets a condition on the state before it, `Always` that a property holds in every
state of the run, the first included.
-/

namespace Agoo

variable {S A : Type} (step : S → A → Option S)

/-- The state after all actions, if each is enabled. -/
def runs : S → List A → Option S
  | s, [] => some s
  | s, a :: as => (step s a).bind fun s' => runs s' as

/-- Every step taken meets `ok`; the run ends at an action that is not enabled. -/
def Along (ok : S → A → Prop) : S → List A → Prop
  | _, [] => True
  | s, a :: as =>
    match step s a with
    | none => True
    | some s' => ok s a ∧ Along ok s' as

/-- Every state met has `P`. -/
def Always (P : S → Prop) : S → List A → Prop
  | s, [] => P s
  | s, a :: as =>
    P s ∧ match step s a with
    | none => True
    | some s' => Always P s' as

variable {step}

def Along.decide {ok : S → A → Prop} [∀ s, DecidablePred (ok s)] :
    ∀ (as : List A) (s : S), Decidable (Along step ok s as)
  | [], _ => .isTrue trivial
  | a :: as, s =>
    match h : step s a with
    | none => .isTrue (by simp [Along, h])
    | some s' =>
      have : Decidable (Along step ok s' as) := Along.decide as s'
      decidable_of_iff (ok s a ∧ Along step ok s' as) (by simp [Along, h])

instance {ok : S → A → Prop} [∀ s, DecidablePred (ok s)] (s : S) (as : List A) :
    Decidable (Along step ok s as) := Along.decide as s

theorem along_cons {ok : S → A → Prop} {s s' : S} {a : A} {as : List A} (h : step s a = some s') :
    Along step ok s (a :: as) ↔ ok s a ∧ Along step ok s' as := by
  rw [Along, h]

theorem along_true (s : S) (as : List A) : Along step (fun _ _ => True) s as := by
  induction as generalizing s with
  | nil => trivial
  | cons a as ih =>
    cases h : step s a with
    | none => simp [Along, h]
    | some s' =>
      rw [along_cons h]
      exact ⟨trivial, ih s'⟩

theorem always_cons {P : S → Prop} {s s' : S} {a : A} {as : List A} (h : step s a = some s') :
    Always step P s (a :: as) ↔ P s ∧ Always step P s' as := by
  rw [Always, h]

theorem Along.and {ok ok' : S → A → Prop} {s : S} {as : List A} (h : Along step ok s as)
    (h' : Along step ok' s as) : Along step (fun s a => ok s a ∧ ok' s a) s as := by
  induction as generalizing s with
  | nil => trivial
  | cons a as ih =>
    cases hstep : step s a with
    | none => simp [Along, hstep]
    | some s' =>
      rw [along_cons hstep] at h h' ⊢
      exact ⟨⟨h.1, h'.1⟩, ih h.2 h'.2⟩

/-- The property holds at the end of a run. -/
theorem Always.last {P : S → Prop} {s s' : S} {as : List A} (h : Always step P s as)
    (hruns : runs step s as = some s') : P s' := by
  induction as generalizing s with
  | nil =>
    obtain rfl := Option.some.inj hruns
    exact h
  | cons a as ih =>
    obtain ⟨t, hstep, hruns⟩ := Option.bind_eq_some_iff.mp hruns
    exact ih ((always_cons hstep).mp h).2 hruns

theorem Always.mono {P Q : S → Prop} (h : ∀ s, P s → Q s) {s : S} {as : List A}
    (hP : Always step P s as) : Always step Q s as := by
  induction as generalizing s with
  | nil => exact h s hP
  | cons a as ih =>
    cases hstep : step s a with
    | none =>
      simp only [Always, hstep] at hP ⊢
      exact ⟨h s hP.1, trivial⟩
    | some s' =>
      rw [always_cons hstep] at hP ⊢
      exact ⟨h s hP.1, ih hP.2⟩

/-- What the steps of a run preserve holds in each of its states. -/
theorem always_of_along {ok : S → A → Prop} (Inv : S → Prop)
    (hstep : ∀ s a s', Inv s → ok s a → step s a = some s' → Inv s') {s : S} {as : List A}
    (hs : Inv s) (hok : Along step ok s as) : Always step Inv s as := by
  induction as generalizing s with
  | nil => exact hs
  | cons a as ih =>
    cases h : step s a with
    | none => simp [Always, h, hs]
    | some s' =>
      rw [along_cons h] at hok
      rw [always_cons h]
      exact ⟨hs, ih (hstep s a s' hs hok.1 h) hok.2⟩

/-- What each step of a run has, since its steps preserve an invariant. -/
theorem along_of_along {ok Q : S → A → Prop} (Inv : S → Prop)
    (hstep : ∀ s a s', Inv s → ok s a → step s a = some s' → Inv s') (hQ : ∀ s a, Inv s → ok s a → Q s a)
    {s : S} {as : List A} (hs : Inv s) (hok : Along step ok s as) : Along step Q s as := by
  induction as generalizing s with
  | nil => trivial
  | cons a as ih =>
    cases h : step s a with
    | none => simp [Along, h]
    | some s' =>
      rw [along_cons h] at hok ⊢
      exact ⟨hQ s a hs hok.1, ih (hstep s a s' hs hok.1 h) hok.2⟩

/-- When a step that does not meet the condition leads out of `P` at once, the condition is exact, in
the runs whose steps meet `pre`. -/
theorem always_iff_along {pre ok : S → A → Prop} (Inv : S → Prop) {P : S → Prop}
    (hstep : ∀ s a s', Inv s → pre s a → ok s a → step s a = some s' → Inv s')
    (hP : ∀ s, Inv s → P s)
    (hout : ∀ s a s', Inv s → pre s a → ¬ ok s a → step s a = some s' → ¬ P s')
    {s : S} {as : List A} (hs : Inv s) (hpre : Along step pre s as) :
    Always step P s as ↔ Along step ok s as := by
  constructor
  · intro h
    induction as generalizing s with
    | nil => trivial
    | cons a as ih =>
      cases hst : step s a with
      | none => simp [Along, hst]
      | some s' =>
        rw [always_cons hst] at h
        rw [along_cons hst] at hpre ⊢
        have hok : ok s a := by
          by_contra hn
          refine hout s a s' hs hpre.1 hn hst ?_
          cases as with
          | nil => exact h.2
          | cons => exact h.2.1
        exact ⟨hok, ih (hstep s a s' hs hpre.1 hok hst) hpre.2 h.2⟩
  · intro h
    exact (always_of_along Inv (fun s a s' hs hok => hstep s a s' hs hok.1 hok.2) hs
      (hpre.and h)).mono hP

end Agoo
