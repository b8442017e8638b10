import Agoo.DocTermination
import Agoo.SdlDoc

/-!
# Scanners that do not crash

Where a composed scanner crashes, and in which round a loop does. The readers of `sdl.c` crash at a null
pointer only, and those below follow none.
-/

namespace Agoo

open Agoo.Parser

/-! ## Crashes of scanners -/

namespace Scanner

variable {n : ℕ} {ε σ α β : Type} {Fits : ε → Prop}

/-- No run of `p` crashes. -/
def Calm (p : Scanner n Fits σ α) : Prop := ∀ s, (p.run s).1 ≠ .crash

theorem Prompt.calm {p : Scanner n Fits σ α} (h : p.Prompt) : p.Calm := fun s hs => h s (.inr hs)

theorem calm_pure (a : α) : (pure a : Scanner n Fits σ α).Calm := fun _ h => by cases h

theorem bind_assoc {γ : Type} (p : Scanner n Fits σ α) (f : α → Scanner n Fits σ β)
    (g : β → Scanner n Fits σ γ) : p >>= f >>= g = p >>= fun a => f a >>= g := by
  have hrun (q q' : Scanner n Fits σ γ) (h : q.run = q'.run) : q = q' := by
    cases q
    cases q'
    cases h
    rfl
  refine hrun _ _ (funext fun s => ?_)
  simp only [run_bind]
  generalize p.run s = r
  obtain ⟨o, s'⟩ := r
  cases o with
  | ok a => rfl
  | _ => rfl

theorem pure_bind (a : α) (f : α → Scanner n Fits σ β) : pure a >>= f = f a := rfl

/-- A composed run crashes in either part. -/
theorem run_bind_crash {p : Scanner n Fits σ α} {f : α → Scanner n Fits σ β} {s : ScanState n ε σ} :
    ((p >>= f).run s).1 = .crash ↔
      (p.run s).1 = .crash ∨ ∃ a s', p.run s = (.ok a, s') ∧ ((f a).run s').1 = .crash := by
  rw [run_bind]
  generalize p.run s = r
  obtain ⟨o, s'⟩ := r
  cases o with
  | ok a =>
    rw [andThen_ok]
    constructor
    · intro h
      exact .inr ⟨a, s', rfl, h⟩
    · rintro (h | ⟨_, _, ⟨⟩, h⟩)
      · cases h
      · exact h
  | crash => exact iff_of_true rfl (.inl rfl)
  | _ =>
    refine iff_of_false (fun h => by cases h) ?_
    rintro (h | ⟨_, _, h, -⟩)
    · cases h
    · cases h

theorem Calm.bind {p : Scanner n Fits σ α} {f : α → Scanner n Fits σ β} (h : p.Calm)
    (hf : ∀ a, (f a).Calm) : (p >>= f).Calm := by
  intro s hs
  rcases run_bind_crash.mp hs with hs | ⟨a, s', -, hs⟩
  · exact h s hs
  · exact hf a s' hs

/-- After a reader that does not crash it is the next that does. -/
theorem Calm.bind_crash {p : Scanner n Fits σ α} {f : α → Scanner n Fits σ β} (h : p.Calm)
    {s : ScanState n ε σ} : ((p >>= f).run s).1 = .crash ↔
      ∃ a s', p.run s = (.ok a, s') ∧ ((f a).run s').1 = .crash := by
  rw [run_bind_crash, or_iff_right (h s)]

/-- Nor is it the second, if that does not. -/
theorem calm_bind_crash {p : Scanner n Fits σ α} {f : α → Scanner n Fits σ β} (hf : ∀ a, (f a).Calm)
    {s : ScanState n ε σ} : ((p >>= f).run s).1 = .crash ↔ (p.run s).1 = .crash := by
  rw [run_bind_crash]
  refine or_iff_left ?_
  rintro ⟨a, s', -, h⟩
  exact hf a s' h

theorem Calm.ite {c : Prop} [Decidable c] {p q : Scanner n Fits σ α} (h : p.Calm) (h' : q.Calm) :
    (if c then p else q).Calm := by
  split
  · exact h
  · exact h'

theorem calm_spent : (spent : Scanner n Fits σ α).Calm := fun _ h => by cases h

theorem calm_step (f : ScanState n ε σ → α × {c // c ≤ n} × σ) : (step f : Scanner n Fits σ α).Calm :=
  fun _ h => by cases h

theorem calm_abort (f : ScanState n ε σ → σ) : (abort f : Scanner n Fits σ α).Calm := fun _ h => by cases h

/-- No run of `p` ends with a value. -/
def Valueless (p : Scanner n Fits σ α) : Prop := ∀ s a s', p.run s ≠ (.ok a, s')

theorem valueless_bind {p : Scanner n Fits σ α} {f : α → Scanner n Fits σ β} (h : ∀ a, (f a).Valueless) :
    (p >>= f).Valueless := by
  intro s b s' hrun
  obtain ⟨a, s₁, -, hf⟩ := run_bind_ok hrun
  exact h a s₁ b s' hf

theorem valueless_bind_left {p : Scanner n Fits σ α} {f : α → Scanner n Fits σ β} (h : p.Valueless) :
    (p >>= f).Valueless := by
  intro s b s' hrun
  obtain ⟨a, s₁, hp, -⟩ := run_bind_ok hrun
  exact h s a s₁ hp

/-- The rounds of a loop: after `j` of them from `b` in `s`, all of which went on, it is at `b'` in `s'`. -/
inductive Rounds (body : β → Scanner n Fits σ (Bool × β)) (b : β) (s : ScanState n ε σ) :
    ℕ → β → ScanState n ε σ → Prop
  | start : Rounds body b s 0 b s
  | next {j : ℕ} {b₁ b₂ : β} {s₁ s₂ : ScanState n ε σ} (h : Rounds body b s j b₁ s₁) (hin : s₁.cur < n)
      (hrun : (body b₁).run s₁ = (.ok (false, b₂), s₂)) : Rounds body b s (j + 1) b₂ s₂

/-- The rounds after the first. -/
theorem Rounds.tail {body : β → Scanner n Fits σ (Bool × β)} {b b₁ b₂ : β} {s s₁ s₂ : ScanState n ε σ} {j : ℕ}
    (hin : s.cur < n) (hrun : (body b).run s = (.ok (false, b₁), s₁)) (h : Rounds body b₁ s₁ j b₂ s₂) :
    Rounds body b s (j + 1) b₂ s₂ := by
  induction h with
  | start => exact .next .start hin hrun
  | next _ hin' hrun' ih => exact .next ih hin' hrun'

/-- Rounds are a first one and others, unless there is none. -/
theorem rounds_cases {body : β → Scanner n Fits σ (Bool × β)} {b b₂ : β} {s s₂ : ScanState n ε σ} {j : ℕ}
    (h : Rounds body b s j b₂ s₂) :
    (j = 0 ∧ b₂ = b ∧ s₂ = s) ∨ ∃ i b₁ s₁, j = i + 1 ∧ s.cur < n ∧
      (body b).run s = (.ok (false, b₁), s₁) ∧ Rounds body b₁ s₁ i b₂ s₂ := by
  induction h with
  | start => exact .inl ⟨rfl, rfl, rfl⟩
  | next h hin hrun ih =>
    right
    obtain ⟨rfl, rfl, rfl⟩ | ⟨i, b₁, s₁, rfl, hin₁, hrun₁, hrest⟩ := ih
    · exact ⟨0, _, _, rfl, hin, hrun, .start⟩
    · exact ⟨i + 1, b₁, s₁, rfl, hin₁, hrun₁, .next hrest hin hrun⟩

/-- A loop crashes in one of its rounds. -/
theorem whileLt_crash {body : β → Scanner n Fits σ (Bool × β)} {k : ℕ} {b : β} {s : ScanState n ε σ} :
    ((whileLt body k b).run s).1 = .crash ↔
      ∃ j < k, ∃ b' s', Rounds body b s j b' s' ∧ s'.cur < n ∧ ((body b').run s').1 = .crash := by
  induction k generalizing b s with
  | zero =>
    refine iff_of_false (fun h => by cases h) ?_
    rintro ⟨j, hj, -⟩
    exact Nat.not_lt_zero j hj
  | succ k ih =>
    rw [whileLt, run_bind, run_pos, andThen_ok]
    by_cases hend : n ≤ s.cur
    · rw [if_pos hend]
      refine iff_of_false (fun h => by cases h) ?_
      rintro ⟨j, -, b', s', hrounds, hin, -⟩
      obtain ⟨-, -, rfl⟩ | ⟨-, -, -, -, hin', -⟩ := rounds_cases hrounds
      · omega
      · omega
    · rw [if_neg hend, run_bind_crash]
      constructor
      · rintro (h | ⟨⟨stop, b₁⟩, s₁, hrun, h⟩)
        · exact ⟨0, Nat.succ_pos k, b, s, .start, Nat.not_le.mp hend, h⟩
        · cases stop with
          | true => cases h
          | false =>
            obtain ⟨j, hj, b', s', hrounds, hin, hcrash⟩ := ih.mp h
            exact ⟨j + 1, Nat.succ_lt_succ hj, b', s', hrounds.tail (Nat.not_le.mp hend) hrun, hin, hcrash⟩
      · rintro ⟨j, hj, b', s', hrounds, hin, hcrash⟩
        obtain ⟨-, rfl, rfl⟩ | ⟨i, b₁, s₁, rfl, -, hrun, hrest⟩ := rounds_cases hrounds
        · exact .inl hcrash
        · exact .inr ⟨(false, b₁), s₁, hrun,
            ih.mpr ⟨i, Nat.lt_of_succ_lt_succ hj, b', s', hrest, hin, hcrash⟩⟩

theorem calm_whileLt {body : β → Scanner n Fits σ (Bool × β)} (h : ∀ b, (body b).Calm) (k : ℕ) (b : β) :
    (whileLt body k b).Calm := by
  intro s hs
  obtain ⟨_, _, b', s', _, _, hcrash⟩ := whileLt_crash.mp hs
  exact h b' s' hcrash

end Scanner

open Scanner

/-! ## Readers that do not crash -/

namespace NullReads

variable {text : Bytes} {σ τ δ φ α β : Type} (reg : Registry σ τ δ φ)

theorem calm_plain {p : Parser text σ α} (h : Plain p) : p.Calm := h.prompt.calm

theorem calm_callReg (f : σ → Except Err α × σ) : (callReg f : Parser text σ α).Calm := by
  refine (calm_step _).bind fun u => (calm_step _).bind fun _ => ?_
  cases (f u.reg).1 with
  | ok a => exact calm_pure a
  | error e => exact calm_abort _

theorem calm_tryReg (f : σ → Except Err α × σ) : (tryReg f : Parser text σ (Option α)).Calm := by
  refine (calm_step _).bind fun u => ?_
  cases (f u.reg).1 with
  | ok a => exact (calm_step _).bind fun _ => calm_pure _
  | error e => exact (calm_step _).bind fun _ => calm_pure _

theorem calm_skipWhite : (skipWhite : Parser text σ ℕ).Calm := calm_plain plain_skipWhite

theorem calm_accept (lit : Bytes) : (accept lit : Parser text σ Bool).Calm := calm_plain (plain_accept lit)

theorem calm_peek : (peek : Parser text σ Byte).Calm := calm_step _

theorem calm_pos : (pos : Parser text σ (Pos text)).Calm := calm_step _

theorem calm_readToken : (readToken : Parser text σ Unit).Calm := calm_plain plain_readToken

theorem calm_since (start : Pos text) : (since start : Parser text σ Bytes).Calm := calm_plain (plain_since start)

theorem calm_docErr (msg : Bytes) : (docErr msg : Parser text σ α).Calm := calm_abort _

theorem calm_require (c : Prop) [Decidable c] (msg : Bytes) : (require c msg : Parser text σ Unit).Calm :=
  calm_plain (plain_require c msg)

theorem calm_expect (lit msg : Bytes) : (expect lit msg : Parser text σ Unit).Calm :=
  (calm_accept _).bind fun _ => calm_require _ _

theorem calm_readName : (readName : Parser text σ Bytes).Calm :=
  calm_pos.bind fun start => calm_readToken.bind fun _ => (calm_since start).bind fun _ =>
    (calm_require _ _).bind fun _ => (calm_require _ _).bind fun _ => calm_pure _

theorem calm_errCode : (errCode : Parser text σ Unit).Calm := by
  refine (calm_step _).bind fun u => ?_
  cases u.err with
  | some e => exact calm_abort _
  | none => exact calm_pure ()

theorem calm_membersTo {close : Bytes} {body : β → Parser text σ β} (h : ∀ b, (body b).Calm) (fuel : ℕ) (b : β) :
    (membersTo close body fuel b).Calm :=
  calm_whileLt (fun b => calm_skipWhite.bind fun _ => (calm_accept _).bind fun _ =>
    Calm.ite (calm_pure _) ((h b).bind fun _ => calm_pure _)) fuel b

theorem calm_readValue (fuel : ℕ) (type : Option τ) :
    (readValue reg fuel type : Parser text σ (GqlValue τ)).Calm := by
  induction fuel generalizing type with
  | zero => exact calm_spent
  | succ fuel ih =>
    refine calm_skipWhite.bind fun _ => calm_pos.bind fun start => ?_
    unfold valueAt
    dsimp only
    refine Calm.ite ?_ ?_
    · exact (calm_accept _).bind fun _ => calm_pos.bind fun _ => calm_readToken.bind fun _ =>
        calm_pos.bind fun _ => calm_pure _
    split
    · exact (calm_plain plain_readString).bind fun _ => calm_plain (plain_createString _ _)
    refine Calm.ite (calm_plain plain_readNumber) <| Calm.ite (calm_plain (plain_readWord _ _ _ _)) <|
      Calm.ite (calm_plain (plain_readWord _ _ _ _)) <| Calm.ite (calm_plain (plain_readWord _ _ _ _)) <|
        Calm.ite ?_ <| Calm.ite ?_ ?_
    · refine (calm_plain (plain_itemType reg type)).bind fun item => (calm_accept _).bind fun _ =>
        (calm_membersTo (fun ms => ?_) fuel []).bind fun _ => calm_pure _
      exact Calm.bind (fun _ h => by cases h) fun _ => (ih item).bind fun _ => calm_pure _
    · refine (calm_accept _).bind fun _ => (calm_membersTo (fun ms => ?_) fuel []).bind fun _ => calm_pure _
      exact (calm_plain plain_readKey).bind fun _ => (ih type).bind fun _ => calm_pure _
    · exact calm_readToken.bind fun _ => calm_plain (plain_createToken reg type start)

theorem calm_makeUseArg (fuel : ℕ) (use : DirUse τ δ) :
    (makeUseArg reg fuel use : Parser text σ (DirUse τ δ)).Calm :=
  calm_readName.bind fun _ => calm_skipWhite.bind fun _ => (calm_expect _ _).bind fun _ =>
    (calm_readValue reg fuel none).bind fun _ => calm_errCode.bind fun _ => calm_pure _

theorem calm_extractDirUse (fuel : ℕ) : (extractDirUse reg fuel : Parser text σ (Option (DirUse τ δ))).Calm := by
  refine calm_skipWhite.bind fun _ => (calm_accept _).bind fun _ => Calm.ite ?_ (calm_pure _)
  refine calm_readName.bind fun name => (calm_callReg _).bind fun dir => calm_skipWhite.bind fun _ =>
    (calm_accept _).bind fun _ => Calm.ite ?_ (calm_pure _)
  refine (calm_whileLt (fun use => ?_) fuel _).bind fun _ => calm_pure _
  exact (calm_makeUseArg reg fuel use).bind fun _ => calm_skipWhite.bind fun _ =>
    (calm_accept _).bind fun _ => calm_pure _

theorem calm_readType (fuel : ℕ) : (readType reg fuel : Parser text σ τ).Calm := by
  induction fuel with
  | zero => exact calm_spent
  | succ fuel ih =>
    have htail (type : τ) : (do
        let _ ← skipWhite
        if (← peek) = chr '!' then
          let type ← callReg (reg.assureNonnull type)
          let _ ← accept (bytes "!")
          return type
        return type : Parser text σ τ).Calm :=
      calm_skipWhite.bind fun _ => calm_peek.bind fun _ => Calm.ite
        ((calm_callReg _).bind fun _ => (calm_accept _).bind fun _ => calm_pure _) (calm_pure _)
    refine calm_skipWhite.bind fun _ => (calm_accept _).bind fun _ => Calm.ite ?_ ?_
    · exact ih.bind fun base => calm_skipWhite.bind fun _ => (calm_expect _ _).bind fun _ =>
        (calm_callReg _).bind htail
    · exact calm_readName.bind fun name => (calm_callReg _).bind htail

theorem calm_makeSelArg (fuel : ℕ) (vars : List (GqlVar τ)) (op : Option (List (GqlVar τ))) :
    (makeSelArg reg fuel vars op : Parser text σ (SelArg τ)).Calm := by
  refine calm_skipWhite.bind fun _ => calm_readName.bind fun name => calm_skipWhite.bind fun _ =>
    (calm_expect _ _).bind fun _ => calm_skipWhite.bind fun _ => ?_
  cases op with
  | none => exact (calm_readValue reg fuel none).bind fun _ => calm_pure _
  | some opVars =>
    refine (calm_accept _).bind fun _ => Calm.ite (calm_readName.bind fun varName => ?_)
      ((calm_readValue reg fuel none).bind fun _ => calm_pure _)
    cases findVar vars opVars varName with
    | some var => exact calm_pure _
    | none => exact calm_docErr _

theorem calm_makeOpVar (fuel : ℕ) : (makeOpVar reg fuel : Parser text σ (GqlVar τ)).Calm :=
  calm_skipWhite.bind fun _ => (calm_expect _ _).bind fun _ => calm_readName.bind fun _ =>
    calm_skipWhite.bind fun _ => (calm_expect _ _).bind fun _ => (calm_readType reg fuel).bind fun type =>
      calm_skipWhite.bind fun _ => Calm.bind ((calm_accept _).bind fun _ => Calm.ite
        ((calm_readValue reg fuel (some type)).bind fun _ => calm_pure _) (calm_pure _)) fun _ => calm_pure _

/-! ### Selections -/

variable {make : Parser text σ (GqlSel τ δ)}

theorem calm_selsTo (h : make.Calm) (fuel : ℕ) : (selsTo make fuel).Calm :=
  (calm_membersTo (fun _ => h.bind fun _ => calm_pure _) fuel []).bind fun _ =>
    Calm.bind (calm_pos.bind fun _ => calm_require _ _) fun _ => calm_pure _

theorem calm_subSels (h : make.Calm) (fuel : ℕ) : (subSels make fuel).Calm :=
  (calm_accept _).bind fun _ => Calm.ite (calm_selsTo h fuel) (calm_pure _)

theorem calm_makeSelInline (h : make.Calm) (fuel : ℕ) : (makeSelInline reg make fuel).Calm := by
  refine (calm_accept _).bind fun _ => calm_skipWhite.bind fun _ => (calm_accept _).bind fun _ => Calm.ite ?_ ?_
  · exact calm_skipWhite.bind fun _ => calm_readName.bind fun _ => (calm_tryReg _).bind fun _ =>
      (calm_extractDirUse reg fuel).bind fun _ => calm_skipWhite.bind fun _ =>
        (calm_subSels h fuel).bind fun _ => calm_pure _
  · refine calm_peek.bind fun _ => Calm.ite ?_ ?_
    · exact (calm_extractDirUse reg fuel).bind fun _ => calm_skipWhite.bind fun _ =>
        (calm_subSels h fuel).bind fun _ => calm_pure _
    · exact calm_readName.bind fun _ => calm_pure _

theorem calm_fieldHead : (fieldHead : Parser text σ (GqlSel τ δ)).Calm :=
  calm_readName.bind fun _ => calm_skipWhite.bind fun _ => (calm_accept _).bind fun _ => Calm.ite
    (calm_skipWhite.bind fun _ => calm_readName.bind fun _ => calm_skipWhite.bind fun _ => calm_pure _)
    (calm_pure _)

theorem calm_selRest (h : make.Calm) (fuel : ℕ) (vars : List (GqlVar τ)) (op : Option (List (GqlVar τ)))
    (sel : GqlSel τ δ) : (selRest reg make fuel vars op sel).Calm := by
  obtain ⟨selAlias, name, frag, dir, args, sels, inline, on, inlineDir, inlineSels⟩ := sel
  cases frag with
  | some frag => exact (calm_extractDirUse reg fuel).bind fun _ => calm_pure _
  | none =>
    have hargs : (selArgs reg fuel vars op : Parser text σ (List (SelArg τ))).Calm :=
      (calm_accept _).bind fun _ => Calm.ite
        ((calm_membersTo (fun _ => (calm_makeSelArg reg fuel vars op).bind fun _ => calm_pure _) fuel []).bind
          fun _ => calm_skipWhite.bind fun _ => calm_pure _) (calm_pure _)
    exact hargs.bind fun _ => (calm_extractDirUse reg fuel).bind fun _ =>
      (calm_subSels h fuel).bind fun _ => calm_pure _

theorem calm_makeSel (vars : List (GqlVar τ)) (op : Option (List (GqlVar τ))) (fuel : ℕ) (parent : Bool) :
    (makeSel reg vars op fuel parent : Parser text σ (GqlSel τ δ)).Calm := by
  induction fuel generalizing parent with
  | zero => exact calm_spent
  | succ fuel ih =>
    refine (calm_require _ _).bind fun _ => calm_skipWhite.bind fun _ =>
      Calm.bind (calm_step _) fun _ => Calm.ite ?_ ?_
    · exact (calm_makeSelInline reg (ih true) fuel).bind fun _ => calm_selRest reg (ih true) fuel vars op _
    · exact calm_fieldHead.bind fun _ => calm_selRest reg (ih true) fuel vars op _

theorem calm_makeFragment (fuel : ℕ) (vars : List (GqlVar τ)) :
    (makeFragment reg fuel vars : Parser text σ (GqlFrag τ δ)).Calm := by
  have hword (word msg : Bytes) : (fragmentWord word msg : Parser text σ Unit).Calm :=
    calm_skipWhite.bind fun _ => calm_pos.bind fun start => calm_readToken.bind fun _ =>
      (calm_since start).bind fun _ => by
        dsimp only
        split
        · exact (calm_step _).bind fun _ => calm_skipWhite.bind fun _ => calm_pure _
        · exact calm_skipWhite.bind fun _ => calm_pure _
  exact (hword _ _).bind fun _ => calm_readName.bind fun _ => (hword _ _).bind fun _ =>
    calm_readName.bind fun _ => calm_skipWhite.bind fun _ => (calm_tryReg _).bind fun _ =>
      (calm_extractDirUse reg fuel).bind fun _ => (calm_expect _ _).bind fun _ =>
        (calm_selsTo (calm_makeSel reg vars none fuel true) fuel).bind fun _ => calm_pure _

end NullReads

end Agoo
