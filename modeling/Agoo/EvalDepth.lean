import Agoo.EvalRules

/-!
# Evaluation ends

Every call of `gql_eval_sels` that one of its calls makes, directly or through a resolve function, is
at a greater depth, and past the limit there is none. So calls nest at most `maxDepth + 2` deep,
whatever fragments a document spreads.

`evalSels_ends`: the body of `gql_eval_sels` defines one function, and what would be found at the end
of that many nested calls is never asked for.
-/

namespace Agoo

namespace Eval

variable {ρ ω : Type}

/-- The two functions agree at every depth greater than `d`. -/
def AgreePast (d : ℕ) (eval eval' : EvalSels ρ ω) : Prop :=
  ∀ target field sels d', d < d' → eval target field sels d' = eval' target field sels d'

theorem stable_true : Stable fun _ : State ω => True := fun _ _ _ _ _ _ => trivial

theorem free_true : Free fun _ : State ω => True := fun _ _ _ _ _ => trivial

theorem converts_true (env : Env ρ ω) (field : Option GqlField) (a : Arg) :
    Converts env (fun _ => True) field a := fun _ _ _ _ _ _ _ _ => trivial

theorem meets_true (p : EvalM ω Unit) : Meets (fun _ => True) Anything p :=
  fun _ _ => ⟨trivial, fun _ _ => trivial⟩

section

variable (env : Env ρ ω) (doc : Doc) {eval eval' : EvalSels ρ ω} {d : ℕ} (h : AgreePast d eval eval')

include h

theorem evalFrag_congr (target : Target ρ) (field : Option GqlField) (on : Option ℕ)
    (uses : List (DirUse ℕ ℕ)) (sels : List Sel) :
    evalFrag env doc eval target field (d + 1) on uses sels =
      evalFrag env doc eval' target field (d + 1) on uses sels := by
  unfold evalFrag
  rw [h target field sels (d + 1) (Nat.lt_succ_self d)]

theorem evalSel_congr (target : Target ρ) (field : Option GqlField) (sel : Sel) :
    evalSel env doc eval target field (d + 1) sel =
      evalSel env doc eval' target field (d + 1) sel := by
  cases sel with
  | inline on dir inlineDir sels => exact evalFrag_congr env doc h target field on inlineDir sels
  | spread name dir =>
    refine congrArg (List.forM _) (funext fun frag => ?_)
    exact evalFrag_congr env doc h target field frag.on frag.dir frag.sels
  | field head dir sels =>
    apply eq_of_eqOn
    -- What the resolve function leaves to fill is past `d + 1`, where the two agree.
    have hresolve : ∀ sf, Meets (fun _ : State ω => True) (fun r => r.2.Deeper (d + 1))
        (resolve env doc.kind target sf head sels.isEmpty (d + 1)) := fun sf =>
      meets_resolve stable_true doc.kind target sels.isEmpty (d + 1) fun a _ => converts_true env _ a
    refine (eqOn_refl _).bind (hresolve _) fun r hr => ?_
    refine eqOn_give free_true (fun _ _ _ _ => meets_true _) (fun t f d' hd => ?_) r.1 hr
    exact eqOn_of_eq (h t f sels d' (Nat.lt_of_succ_lt hd))

/-- The body calls at greater depths only. -/
theorem evalSelsStep_congr (target : Target ρ) (field : Option GqlField) (sels : List Sel) :
    evalSelsStep env doc eval target field sels d = evalSelsStep env doc eval' target field sels d := by
  unfold evalSelsStep
  split_ifs
  · rfl
  · exact congrArg (List.forM _) (funext fun sel => evalSel_congr env doc h target field sel)

end

theorem evalSelsStep_past (env : Env ρ ω) (doc : Doc) (eval : EvalSels ρ ω) {d : ℕ} (h : maxDepth < d)
    (target : Target ρ) (field : Option GqlField) (sels : List Sel) :
    evalSelsStep env doc eval target field sels d =
      setErr .eval (bytes "Maximum resolve depth of 100 exceeded.") := if_pos h

/-- With calls enough for the depth, neither their number nor the bottom matters. -/
theorem evalSelsFrom_eq (env : Env ρ ω) (doc : Doc) (bottom bottom' : EvalSels ρ ω) {n m d : ℕ}
    (hn : maxDepth < n + d) (hm : maxDepth < m + d) (target : Target ρ) (field : Option GqlField)
    (sels : List Sel) :
    evalSelsFrom env doc bottom (n + 1) target field sels d =
      evalSelsFrom env doc bottom' (m + 1) target field sels d := by
  induction n generalizing m d target field sels with
  | zero =>
    have hd : maxDepth < d := by omega
    exact (evalSelsStep_past env doc _ hd target field sels).trans
      (evalSelsStep_past env doc _ hd target field sels).symm
  | succ n ih =>
    by_cases hd : maxDepth < d
    · exact (evalSelsStep_past env doc _ hd target field sels).trans
        (evalSelsStep_past env doc _ hd target field sels).symm
    · obtain ⟨m, rfl⟩ : ∃ m', m = m' + 1 := ⟨m - 1, by omega⟩
      apply evalSelsStep_congr
      intro target field sels d' hd'
      exact ih (by omega) (by omega) target field sels

theorem evalSels_eq_step (env : Env ρ ω) (doc : Doc) (target : Target ρ) (field : Option GqlField)
    (sels : List Sel) (d : ℕ) :
    evalSels env doc target field sels d =
      evalSelsStep env doc (evalSels env doc) target field sels d := by
  change evalSelsStep env doc (evalSelsFrom env doc _ (maxDepth + 1)) target field sels d = _
  apply evalSelsStep_congr
  intro target field sels d' hd
  exact evalSelsFrom_eq env doc _ _ (by omega) (by omega) target field sels

/-- A function with that body is its own nested calls, however many. -/
theorem evalSelsFrom_self {env : Env ρ ω} {doc : Doc} {eval : EvalSels ρ ω}
    (h : ∀ target field sels d,
      eval target field sels d = evalSelsStep env doc eval target field sels d) (n : ℕ) :
    evalSelsFrom env doc eval n = eval := by
  induction n with
  | zero => rfl
  | succ n ih =>
    funext target field sels d
    rw [h target field sels d]
    unfold evalSelsFrom
    rw [ih]

end Eval

end Agoo
