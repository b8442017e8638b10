import Agoo.Scan

/-!
# Triples for scanners

`Triple P p Q E`: from a state with `P` a run of `p` that ends with a value leaves one with `Q`, and
any other run one with `E`. There is a rule for each way to build a scanner; loops carry an invariant.
-/

namespace Agoo

namespace Scanner

variable {n : ℕ} {ε σ α β : Type} {Fits : ε → Prop}

/-- What holds at the end of a run. -/
def Leaves (Q : α → ScanState n ε σ → Prop) (E : ScanState n ε σ → Prop) :
    Outcome α × ScanState n ε σ → Prop
  | (.ok a, s) => Q a s
  | (.fail, s) => E s
  | (.fault, s) => E s
  | (.crash, s) => E s
  | (.timeout, s) => E s

def Triple (P : ScanState n ε σ → Prop) (p : Scanner n Fits σ α) (Q : α → ScanState n ε σ → Prop)
    (E : ScanState n ε σ → Prop) : Prop :=
  ∀ s, P s → Leaves Q E (p.run s)

variable {P P' : ScanState n ε σ → Prop} {Q Q' : α → ScanState n ε σ → Prop}
  {R : β → ScanState n ε σ → Prop} {E E' : ScanState n ε σ → Prop}

theorem Leaves.mono {r : Outcome α × ScanState n ε σ} (h : Leaves Q E r)
    (hQ : ∀ a s, Q a s → Q' a s) (hE : ∀ s, E s → E' s) : Leaves Q' E' r := by
  obtain ⟨o, s⟩ := r
  cases o with
  | ok a => exact hQ a s h
  | fail => exact hE s h
  | fault => exact hE s h
  | crash => exact hE s h
  | timeout => exact hE s h

theorem Triple.mono {p : Scanner n Fits σ α} (h : Triple P p Q E) (hP : ∀ s, P' s → P s)
    (hQ : ∀ a s, Q a s → Q' a s) (hE : ∀ s, E s → E' s) : Triple P' p Q' E' :=
  fun s hs => (h s (hP s hs)).mono hQ hE

/-- A run from `s` that ended with a value leaves what the triple says. -/
theorem Triple.ok {p : Scanner n Fits σ α} (h : Triple P p Q E) {s s' : ScanState n ε σ} {a : α}
    (hs : P s) (hrun : p.run s = (.ok a, s')) : Q a s' := by
  have hend := h s hs
  rwa [hrun] at hend

/-- Nothing runs from a state that cannot be. -/
theorem triple_never {p : Scanner n Fits σ α} (h : ∀ s, ¬ P s) : Triple P p Q E :=
  fun s hs => absurd hs (h s)

theorem Triple.or {p : Scanner n Fits σ α} (h : Triple P p Q E) (h' : Triple P' p Q E) :
    Triple (fun s => P s ∨ P' s) p Q E := by
  rintro s (hs | hs)
  · exact h s hs
  · exact h' s hs

theorem triple_pure {a : α} (h : ∀ s, P s → Q a s) :
    Triple P (pure a : Scanner n Fits σ α) Q E := h

theorem Triple.bind {p : Scanner n Fits σ α} {f : α → Scanner n Fits σ β} (h : Triple P p Q E)
    (hf : ∀ a, Triple (Q a) (f a) R E) : Triple P (p >>= f) R E := by
  intro s hs
  have hp := h s hs
  rw [run_bind]
  generalize p.run s = r at hp
  obtain ⟨o, s'⟩ := r
  cases o with
  | ok a => exact hf a s' hp
  | fail => exact hp
  | fault => exact hp
  | crash => exact hp
  | timeout => exact hp

theorem Triple.ite {c : Prop} [Decidable c] {p q : Scanner n Fits σ α} (h : c → Triple P p Q E)
    (h' : ¬ c → Triple P q Q E) : Triple P (if c then p else q) Q E := by
  by_cases hc : c
  · rw [if_pos hc]
    exact h hc
  · rw [if_neg hc]
    exact h' hc

/-- `pos` at the front: the place is the one of the state. -/
theorem Triple.pos {f : {c // c ≤ n} → Scanner n Fits σ β}
    (h : ∀ c, Triple (fun s => P s ∧ s.cur = c.1) (f c) R E) : Triple P (Scanner.pos >>= f) R E := by
  intro s hs
  rw [run_bind, run_pos, andThen_ok]
  exact h ⟨s.cur, s.le⟩ s ⟨hs, rfl⟩

theorem Triple.cleanup {p : Scanner n Fits σ α} {c : σ → σ} (h : Triple P p Q E')
    (hfail : ∀ s, E' s → E { s with user := c s.user }) (hE : ∀ s, E' s → E s) :
    Triple P (p.cleanup c) Q E := by
  intro s hs
  have hp := h s hs
  unfold Scanner.cleanup
  dsimp only
  generalize p.run s = r at hp
  obtain ⟨o, s'⟩ := r
  cases o with
  | ok a => exact hp
  | fail => exact hfail s' hp
  | fault => exact hE s' hp
  | crash => exact hE s' hp
  | timeout => exact hE s' hp

/-- A loop with an invariant. At the end of the text it may stop. -/
theorem triple_whileLt {I : β → ScanState n ε σ → Prop} {body : β → Scanner n Fits σ (Bool × β)}
    (hbody : ∀ b, Triple (fun s => I b s ∧ s.cur < n) (body b)
      (fun r s => if r.1 then R r.2 s else I r.2 s) E)
    (hend : ∀ b s, I b s → n ≤ s.cur → R b s) (hE : ∀ b s, I b s → E s) (k : ℕ) (b : β) :
    Triple (I b) (whileLt body k b) R E := by
  induction k generalizing b with
  | zero => exact hE b
  | succ k ih =>
    refine Triple.pos fun c => Triple.ite (fun hc => ?_) fun hc => ?_
    · exact triple_pure fun s hs => hend b s hs.1 (by rw [hs.2]; exact hc)
    · refine Triple.bind ((hbody b).mono (fun s hs => ⟨hs.1, ?_⟩) (fun _ _ h => h) fun _ h => h) ?_
      · rw [hs.2]
        exact Nat.lt_of_not_le hc
      · rintro ⟨stop, b'⟩
        cases stop with
        | true => exact triple_pure fun s hs => hs
        | false => exact ih b'

theorem triple_forever {I : β → ScanState n ε σ → Prop} {body : β → Scanner n Fits σ (Bool × β)}
    (hbody : ∀ b, Triple (I b) (body b) (fun r s => if r.1 then R r.2 s else I r.2 s) E)
    (hE : ∀ b s, I b s → E s) (k : ℕ) (b : β) : Triple (I b) (forever body k b) R E := by
  induction k generalizing b with
  | zero => exact hE b
  | succ k ih =>
    refine Triple.bind (hbody b) ?_
    rintro ⟨stop, b'⟩
    cases stop with
    | true => exact triple_pure fun s hs => hs
    | false => exact ih b'

end Scanner

end Agoo
