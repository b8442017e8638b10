import Mathlib.Data.List.Basic
import Mathlib.Tactic.Common

/-!
# Logged scanners

A scanner moves a cursor over a buffer of `n` bytes and stops with a value, an error, a fault, a
crash of another kind or no fuel. The cursor lies in the buffer by its type; a step that would leave
it is a fault. Every place where a step can fault is an event in the log, and `Fits` says which events
are harmless. The type carries the law that ties the two: **a run faults exactly when it logs an event
that does not fit**. Scanners built from others with `do` keep it, so a program written with them need
not prove it.

The second half compares runs of one program with different fuel: `Extends p q` says that `q` ends
as `p` does, unless `p` ran out of fuel, and then `q` logs at least as much.
-/

namespace Agoo

inductive Outcome (α : Type)
  | ok (a : α)
  | fail
  | fault
  | crash
  | timeout
  deriving DecidableEq

/-- The run ended with a value or an error. -/
def Outcome.Returns {α : Type} : Outcome α → Prop
  | .ok _ => True
  | .fail => True
  | .fault => False
  | .crash => False
  | .timeout => False

/-- The run did not come to an end of its own. -/
def Outcome.Stuck {α : Type} (o : Outcome α) : Prop := o = .timeout ∨ o = .crash

structure ScanState (n : ℕ) (ε σ : Type) where
  cur : ℕ
  le : cur ≤ n
  log : List ε
  user : σ

variable {n : ℕ} {ε σ α β : Type} {Fits : ε → Prop}

structure Scanner (n : ℕ) {ε : Type} (Fits : ε → Prop) (σ α : Type) where
  run : ScanState n ε σ → Outcome α × ScanState n ε σ
  law : ∀ s, ∃ new, (run s).2.log = new ++ s.log ∧
    ((run s).1 = .fault ↔ ∃ e ∈ new, ¬ Fits e)

namespace Scanner

/-- A step that logs nothing: a value, a place for the cursor and the state of the user. -/
def step (f : ScanState n ε σ → α × {c // c ≤ n} × σ) : Scanner n Fits σ α where
  run s := (.ok (f s).1, ⟨(f s).2.1, (f s).2.1.2, s.log, (f s).2.2⟩)
  law _ := ⟨[], rfl, by simp⟩

/-- Stop with an error. -/
def abort (f : ScanState n ε σ → σ) : Scanner n Fits σ α where
  run s := (.fail, { s with user := f s })
  law _ := ⟨[], rfl, by simp⟩

/-- Stop at a null pointer. -/
def crash : Scanner n Fits σ α where
  run s := (.crash, s)
  law _ := ⟨[], rfl, by simp⟩

/-- Stop for want of fuel. -/
def spent : Scanner n Fits σ α where
  run s := (.timeout, s)
  law _ := ⟨[], rfl, by simp⟩

/-- Log an event that always fits. -/
def note (f : ScanState n ε σ → ε) (h : ∀ s, Fits (f s)) : Scanner n Fits σ Unit where
  run s := (.ok (), { s with log := f s :: s.log })
  law s := ⟨[f s], rfl, by simp [h s]⟩

/-- Move the cursor over what `f` scans: it returns the events on the way, newest first, and the
place reached, or none when it leaves the buffer. -/
def sweep (f : ScanState n ε σ → List ε × Option {c // c ≤ n})
    (h : ∀ s, (f s).2 = none ↔ ∃ e ∈ (f s).1, ¬ Fits e) : Scanner n Fits σ Unit where
  run s :=
    match (f s).2 with
    | some c => (.ok (), ⟨c, c.2, (f s).1 ++ s.log, s.user⟩)
    | none => (.fault, { s with log := (f s).1 ++ s.log })
  law s := by
    refine ⟨(f s).1, ?_, ?_⟩
    · cases (f s).2 <;> rfl
    · rw [← h s]
      cases (f s).2 <;> simp

def value (a : α) : Scanner n Fits σ α where
  run s := (.ok a, s)
  law _ := ⟨[], rfl, by simp⟩

/-- How a run goes on after the first of two scanners. -/
def andThen (f : α → Scanner n Fits σ β) :
    Outcome α × ScanState n ε σ → Outcome β × ScanState n ε σ
  | (.ok a, s) => (f a).run s
  | (.fail, s) => (.fail, s)
  | (.fault, s) => (.fault, s)
  | (.crash, s) => (.crash, s)
  | (.timeout, s) => (.timeout, s)

def chain (p : Scanner n Fits σ α) (f : α → Scanner n Fits σ β) : Scanner n Fits σ β where
  run s := andThen f (p.run s)
  law s := by
    obtain ⟨new, hlog, hfault⟩ := p.law s
    generalize p.run s = r at hlog hfault
    obtain ⟨o, s'⟩ := r
    cases o with
    | ok a =>
      obtain ⟨more, hlog', hfault'⟩ := (f a).law s'
      have hnew : ∀ e ∈ new, Fits e := by
        intro e he
        by_contra hn
        exact absurd (hfault.mpr ⟨e, he, hn⟩) (by simp)
      refine ⟨more ++ new, ?_, ?_⟩
      · rw [andThen, hlog', hlog, List.append_assoc]
      · rw [andThen, hfault']
        constructor
        · rintro ⟨e, he, hn⟩
          exact ⟨e, List.mem_append_left _ he, hn⟩
        · rintro ⟨e, he, hn⟩
          rcases List.mem_append.mp he with he | he
          · exact ⟨e, he, hn⟩
          · exact absurd (hnew e he) hn
    | fail => exact ⟨new, hlog, by simpa [andThen] using hfault⟩
    | fault => exact ⟨new, hlog, by simpa [andThen] using hfault⟩
    | crash => exact ⟨new, hlog, by simpa [andThen] using hfault⟩
    | timeout => exact ⟨new, hlog, by simpa [andThen] using hfault⟩

instance : Monad (Scanner n Fits σ) where
  pure := value
  bind := chain

/-- Run `c` when `p` fails, and fail then too. -/
def cleanup (p : Scanner n Fits σ α) (c : σ → σ) : Scanner n Fits σ α where
  run s :=
    match p.run s with
    | (.fail, s') => (.fail, { s' with user := c s'.user })
    | r => r
  law s := by
    obtain ⟨new, hlog, hfault⟩ := p.law s
    generalize p.run s = r at hlog hfault
    obtain ⟨o, s'⟩ := r
    cases o with
    | ok a => exact ⟨new, hlog, hfault⟩
    | fail => exact ⟨new, hlog, hfault⟩
    | fault => exact ⟨new, hlog, hfault⟩
    | crash => exact ⟨new, hlog, hfault⟩
    | timeout => exact ⟨new, hlog, hfault⟩

/-- The cursor. -/
def pos : Scanner n Fits σ {c // c ≤ n} := step fun s => (⟨s.cur, s.le⟩, ⟨s.cur, s.le⟩, s.user)

def seek (c : {c // c ≤ n}) : Scanner n Fits σ Unit := step fun s => ((), c, s.user)

def getUser : Scanner n Fits σ σ := step fun s => (s.user, ⟨s.cur, s.le⟩, s.user)

def setUser (u : σ) : Scanner n Fits σ Unit := step fun s => ((), ⟨s.cur, s.le⟩, u)

/-- `while (cur < end)`: the body says whether to stop. -/
def whileLt (body : β → Scanner n Fits σ (Bool × β)) : ℕ → β → Scanner n Fits σ β
  | 0, _ => spent
  | k + 1, b => do
    if n ≤ (← pos).1 then pure b
    else
      let r ← body b
      if r.1 then pure r.2 else whileLt body k r.2

/-- `while (true)`. -/
def forever (body : β → Scanner n Fits σ (Bool × β)) : ℕ → β → Scanner n Fits σ β
  | 0, _ => spent
  | k + 1, b => do
    let r ← body b
    if r.1 then pure r.2 else forever body k r.2

/-! ## Runs of composed scanners -/

@[simp] theorem run_pure (a : α) (s : ScanState n ε σ) :
    (pure a : Scanner n Fits σ α).run s = (.ok a, s) := rfl

@[simp] theorem run_pos (s : ScanState n ε σ) :
    (pos : Scanner n Fits σ _).run s = (.ok ⟨s.cur, s.le⟩, s) := rfl

@[simp] theorem run_note (f : ScanState n ε σ → ε) (h : ∀ s, Fits (f s)) (s : ScanState n ε σ) :
    (note f h : Scanner n Fits σ Unit).run s = (.ok (), { s with log := f s :: s.log }) := rfl

@[simp] theorem run_bind (p : Scanner n Fits σ α) (f : α → Scanner n Fits σ β)
    (s : ScanState n ε σ) : (p >>= f).run s = andThen f (p.run s) := rfl

@[simp] theorem andThen_ok (f : α → Scanner n Fits σ β) (a : α) (s : ScanState n ε σ) :
    andThen f (.ok a, s) = (f a).run s := rfl

/-- A composed run that ends with a value got one from either part. -/
theorem run_bind_ok {p : Scanner n Fits σ α} {f : α → Scanner n Fits σ β} {s s' : ScanState n ε σ}
    {b : β} (h : (p >>= f).run s = (.ok b, s')) :
    ∃ a s₁, p.run s = (.ok a, s₁) ∧ (f a).run s₁ = (.ok b, s') := by
  rw [run_bind] at h
  cases hr : p.run s with
  | mk o s₁ =>
    rw [hr] at h
    cases o with
    | ok a => exact ⟨a, s₁, rfl, h⟩
    | fail => cases h
    | fault => cases h
    | crash => cases h
    | timeout => cases h

/-- The log only grows. -/
theorem log_suffix (p : Scanner n Fits σ α) (s : ScanState n ε σ) : s.log <:+ (p.run s).2.log := by
  obtain ⟨new, hlog, -⟩ := p.law s
  exact ⟨new, hlog.symm⟩

/-- A run that starts with a log in which everything fits faults exactly when that ends. -/
theorem fault_iff (p : Scanner n Fits σ α) {s : ScanState n ε σ} (hs : ∀ e ∈ s.log, Fits e) :
    (p.run s).1 = .fault ↔ ∃ e ∈ (p.run s).2.log, ¬ Fits e := by
  obtain ⟨new, hlog, hfault⟩ := p.law s
  rw [hfault, hlog]
  constructor
  · rintro ⟨e, he, hn⟩
    exact ⟨e, List.mem_append_left _ he, hn⟩
  · rintro ⟨e, he, hn⟩
    rcases List.mem_append.mp he with he | he
    · exact ⟨e, he, hn⟩
    · exact absurd (hs e he) hn

/-! ## Scanners that only go forward -/

/-- The cursor never goes back. -/
def Forward (p : Scanner n Fits σ α) : Prop := ∀ s, s.cur ≤ (p.run s).2.cur

/-- From `s` the cursor goes on by at least one byte, unless the run stops. -/
def Moves (p : Scanner n Fits σ α) (s : ScanState n ε σ) : Prop :=
  ∀ a, (p.run s).1 = .ok a → s.cur < (p.run s).2.cur

theorem forward_pure (a : α) : (pure a : Scanner n Fits σ α).Forward := fun _ => Nat.le_refl _

theorem Forward.bind {p : Scanner n Fits σ α} {f : α → Scanner n Fits σ β} (h : p.Forward)
    (hf : ∀ a, (f a).Forward) : (p >>= f).Forward := by
  intro s
  have hp := h s
  rw [run_bind]
  generalize p.run s = r at hp
  obtain ⟨o, s'⟩ := r
  cases o with
  | ok a => exact Nat.le_trans hp (hf a s')
  | fail => exact hp
  | fault => exact hp
  | crash => exact hp
  | timeout => exact hp

theorem Forward.ite {c : Prop} [Decidable c] {p q : Scanner n Fits σ α} (h : p.Forward)
    (h' : q.Forward) : (if c then p else q).Forward := by
  split
  · exact h
  · exact h'

theorem Forward.dite {c : Prop} [Decidable c] {p : c → Scanner n Fits σ α} {q : Scanner n Fits σ α}
    (h : ∀ hc, (p hc).Forward) (h' : q.Forward) : (if hc : c then p hc else q).Forward := by
  split
  · exact h _
  · exact h'

theorem whileLt_forward {body : β → Scanner n Fits σ (Bool × β)} (h : ∀ b, (body b).Forward)
    (k : ℕ) (b : β) : (whileLt body k b).Forward := by
  induction k generalizing b with
  | zero => exact fun _ => Nat.le_refl _
  | succ k ih =>
    refine Forward.bind (fun _ => Nat.le_refl _) fun c => Forward.ite (forward_pure b) ?_
    exact (h b).bind fun r => Forward.ite (forward_pure r.2) (ih r.2)

/-- The first of two scanners moves. -/
theorem Moves.bind {p : Scanner n Fits σ α} {f : α → Scanner n Fits σ β} {s : ScanState n ε σ}
    (h : p.Moves s) (hf : ∀ a, (f a).Forward) : (p >>= f).Moves s := by
  intro b hb
  rw [run_bind] at hb ⊢
  have hp := h
  unfold Moves at hp
  generalize p.run s = r at hb hp
  obtain ⟨o, s'⟩ := r
  cases o with
  | ok a => exact Nat.lt_of_lt_of_le (hp a rfl) (hf a s')
  | fail => cases hb
  | fault => cases hb
  | crash => cases hb
  | timeout => cases hb

/-- The second of two scanners moves. -/
theorem Moves.after {p : Scanner n Fits σ α} {f : α → Scanner n Fits σ β} {s : ScanState n ε σ}
    (h : p.Forward) (hf : ∀ a s', p.run s = (.ok a, s') → (f a).Moves s') : (p >>= f).Moves s := by
  intro b hb
  have hp := h s
  rw [run_bind] at hb ⊢
  cases hr : p.run s with
  | mk o s' =>
    rw [hr] at hb hp
    cases o with
    | ok a => exact Nat.lt_of_le_of_lt hp (hf a s' hr b hb)
    | fail => cases hb
    | fault => cases hb
    | crash => cases hb
    | timeout => cases hb

/-! ## Running out of fuel -/

/-- A run that gets stuck has logged an event that is `Bad`. -/
def Blames (Bad : ε → Prop) (p : Scanner n Fits σ α) (s : ScanState n ε σ) : Prop :=
  (p.run s).1.Stuck → ∃ e ∈ (p.run s).2.log, Bad e

theorem blames_of_not {Bad : ε → Prop} {p : Scanner n Fits σ α} {s : ScanState n ε σ}
    (h : ¬ (p.run s).1.Stuck) : p.Blames Bad s := fun hs => absurd hs h

theorem not_stuck_ok (a : α) : ¬ (Outcome.ok a).Stuck := by simp [Outcome.Stuck]

theorem Blames.bind {Bad : ε → Prop} {p : Scanner n Fits σ α} {f : α → Scanner n Fits σ β}
    {s : ScanState n ε σ} (h : p.Blames Bad s)
    (hf : ∀ a s', p.run s = (.ok a, s') → (f a).Blames Bad s') : (p >>= f).Blames Bad s := by
  intro hs
  rw [run_bind] at hs ⊢
  unfold Blames at h
  cases hr : p.run s with
  | mk o s' =>
    rw [hr] at hs h
    cases o with
    | ok a => exact hf a s' hr hs
    | fail => exact absurd hs (by simp [andThen, Outcome.Stuck])
    | fault => exact absurd hs (by simp [andThen, Outcome.Stuck])
    | crash => exact h (Or.inr rfl)
    | timeout => exact h (Or.inl rfl)

/-- A loop whose every round moves, unless an event is to blame, ends within the bytes left. -/
theorem whileLt_blames {Bad : ε → Prop} {body : β → Scanner n Fits σ (Bool × β)} {low k : ℕ}
    (hbody : ∀ b s, low ≤ s.cur → s.cur < n → (body b).Blames Bad s ∧
      ∀ b' s', (body b).run s = (.ok (false, b'), s') → s.cur < s'.cur ∨ ∃ e ∈ s'.log, Bad e)
    {b : β} {s : ScanState n ε σ} (hlow : low ≤ s.cur) (hk : n < s.cur + k) :
    (whileLt body k b).Blames Bad s := by
  induction k generalizing b s with
  | zero =>
    have := s.le
    omega
  | succ k ih =>
    by_cases hend : n ≤ s.cur
    · refine blames_of_not ?_
      rw [whileLt, run_bind, run_pos, andThen_ok, if_pos hend]
      exact not_stuck_ok b
    · have hrun : (whileLt body (k + 1) b).run s =
          (body b >>= fun r => if r.1 then pure r.2 else whileLt body k r.2).run s := by
        rw [whileLt, run_bind, run_pos, andThen_ok]
        simp only [hend, if_false]
      unfold Blames
      rw [hrun]
      obtain ⟨hb, hmove⟩ := hbody b s hlow (by omega)
      refine hb.bind fun r s' hr => ?_
      obtain ⟨stop, b'⟩ := r
      cases stop with
      | true => exact blames_of_not (not_stuck_ok b')
      | false =>
        rcases hmove b' s' hr with hlt | ⟨e, he, hbad⟩
        · exact ih (by omega) (by omega)
        · intro _
          exact ⟨e, (log_suffix _ s').subset he, hbad⟩

/-- A scanner without loops. -/
def Prompt (p : Scanner n Fits σ α) : Prop := ∀ s, ¬ (p.run s).1.Stuck

theorem Prompt.bind {p : Scanner n Fits σ α} {f : α → Scanner n Fits σ β} (h : p.Prompt)
    (hf : ∀ a, (f a).Prompt) : (p >>= f).Prompt := by
  intro s
  have hp := h s
  rw [run_bind]
  generalize p.run s = r at hp
  obtain ⟨o, s'⟩ := r
  cases o with
  | ok a => exact hf a s'
  | fail => simp [andThen, Outcome.Stuck]
  | fault => simp [andThen, Outcome.Stuck]
  | crash => exact absurd (Or.inr rfl) hp
  | timeout => exact absurd (Or.inl rfl) hp

/-! ## Events of runs that return -/

/-- If the run from `s` returns, it logs only events with `P`. -/
def KeepsAt (P : ε → Prop) (p : Scanner n Fits σ α) (s : ScanState n ε σ) : Prop :=
  (∀ e ∈ s.log, P e) → (p.run s).1.Returns → ∀ e ∈ (p.run s).2.log, P e

def Keeps (P : ε → Prop) (p : Scanner n Fits σ α) : Prop := ∀ s, p.KeepsAt P s

theorem keeps_pure {P : ε → Prop} (a : α) : (pure a : Scanner n Fits σ α).Keeps P :=
  fun _ hs _ => hs

theorem KeepsAt.bind {P : ε → Prop} {p : Scanner n Fits σ α} {f : α → Scanner n Fits σ β}
    {s : ScanState n ε σ} (h : p.KeepsAt P s)
    (hf : ∀ a s', p.run s = (.ok a, s') → (f a).KeepsAt P s') : (p >>= f).KeepsAt P s := by
  intro hs hret
  have hp := h hs
  rw [run_bind] at hret ⊢
  cases hr : p.run s with
  | mk o s' =>
    rw [hr] at hret hp
    cases o with
    | ok a => exact hf a s' hr (hp trivial) hret
    | fail => exact hp trivial
    | fault => exact absurd hret not_false
    | crash => exact absurd hret not_false
    | timeout => exact absurd hret not_false

theorem Keeps.bind {P : ε → Prop} {p : Scanner n Fits σ α} {f : α → Scanner n Fits σ β}
    (h : p.Keeps P) (hf : ∀ a, (f a).Keeps P) : (p >>= f).Keeps P :=
  fun s => (h s).bind fun a s' _ => hf a s'

theorem Keeps.ite {P : ε → Prop} {c : Prop} [Decidable c] {p q : Scanner n Fits σ α}
    (h : p.Keeps P) (h' : q.Keeps P) : (if c then p else q).Keeps P := by
  split
  · exact h
  · exact h'

theorem Keeps.dite {P : ε → Prop} {c : Prop} [Decidable c] {p : c → Scanner n Fits σ α}
    {q : Scanner n Fits σ α} (h : ∀ hc, (p hc).Keeps P) (h' : q.Keeps P) :
    (if hc : c then p hc else q).Keeps P := by
  split
  · exact h _
  · exact h'

/-! ## More fuel -/

/-- `q` ends as `p` does, or `p` timed out with a log that `q` extends. -/
def Extends (p q : Scanner n Fits σ α) : Prop :=
  ∀ s, p.run s = q.run s ∨ (p.run s).1 = .timeout ∧ (p.run s).2.log <:+ (q.run s).2.log

theorem Extends.refl (p : Scanner n Fits σ α) : p.Extends p := fun _ => Or.inl rfl

theorem Extends.trans {p q r : Scanner n Fits σ α} (h : p.Extends q) (k : q.Extends r) :
    p.Extends r := by
  intro s
  rcases h s with he | ⟨ht, hl⟩
  · rw [he]
    exact k s
  · rcases k s with ke | ⟨-, kl⟩
    · exact Or.inr ⟨ht, ke ▸ hl⟩
    · exact Or.inr ⟨ht, hl.trans kl⟩

theorem spent_extends (q : Scanner n Fits σ α) : spent.Extends q :=
  fun s => Or.inr ⟨rfl, q.log_suffix s⟩

theorem Extends.bind {p q : Scanner n Fits σ α} {f g : α → Scanner n Fits σ β} (h : p.Extends q)
    (hf : ∀ a, (f a).Extends (g a)) : (p >>= f).Extends (q >>= g) := by
  intro s
  rw [run_bind, run_bind]
  rcases h s with he | ⟨ht, hl⟩
  · rw [he]
    generalize q.run s = r
    obtain ⟨o, s'⟩ := r
    cases o with
    | ok a => exact hf a s'
    | fail => exact Or.inl rfl
    | fault => exact Or.inl rfl
    | crash => exact Or.inl rfl
    | timeout => exact Or.inl rfl
  · right
    generalize p.run s = r at ht hl
    obtain ⟨o, s'⟩ := r
    obtain rfl : o = .timeout := ht
    refine ⟨rfl, hl.trans ?_⟩
    generalize q.run s = r'
    obtain ⟨o', s''⟩ := r'
    cases o' with
    | ok a => exact (g a).log_suffix s''
    | fail => exact List.suffix_rfl
    | fault => exact List.suffix_rfl
    | crash => exact List.suffix_rfl
    | timeout => exact List.suffix_rfl

theorem Extends.ite {c : Prop} [Decidable c] {p q p' q' : Scanner n Fits σ α} (h : p.Extends q)
    (h' : p'.Extends q') : (if c then p else p').Extends (if c then q else q') := by
  split
  · exact h
  · exact h'

theorem Extends.dite {c : Prop} [Decidable c] {p q : c → Scanner n Fits σ α}
    {p' q' : Scanner n Fits σ α} (h : ∀ hc, (p hc).Extends (q hc)) (h' : p'.Extends q') :
    (if hc : c then p hc else p').Extends (if hc : c then q hc else q') := by
  split
  · exact h _
  · exact h'

/-- A loop with more fuel, over a body with more fuel. -/
theorem whileLt_extends {f g : β → Scanner n Fits σ (Bool × β)} (h : ∀ b, (f b).Extends (g b))
    {j k : ℕ} (hjk : j ≤ k) (b : β) : (whileLt f j b).Extends (whileLt g k b) := by
  induction j generalizing k b with
  | zero => exact spent_extends _
  | succ j ih =>
    obtain ⟨k, rfl⟩ : ∃ i, k = i + 1 := ⟨k - 1, by omega⟩
    refine (Extends.refl pos).bind fun c => Extends.ite (.refl _) ?_
    exact (h b).bind fun r => Extends.ite (.refl _) (ih (by omega) r.2)

/-- Two runs that both end end alike. -/
theorem Extends.agree {p q : Scanner n Fits σ α} (h : p.Extends q) {s : ScanState n ε σ}
    (ht : (p.run s).1 ≠ .timeout) : p.run s = q.run s := by
  rcases h s with he | ⟨hto, -⟩
  · exact he
  · exact absurd hto ht

end Scanner

end Agoo
