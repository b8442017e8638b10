import Agoo.EvalLasts
import Mathlib.Data.List.Perm.Basic

/-!
# Introspection at the root of a query

`gql_intro_eval` puts the functions of introspection into the document, and nothing puts back those it
found: the root field behind it is resolved by the wrong function.

`docEval_intro`: an introspection field that is accepted changes the functions; the ordinary fields
yield what they yield alone exactly where no root field follows an introspection field; and of the
permutations of the root fields exactly those without such a field permute the members, when the calls
of Ruby and the conversions change nothing.
-/

namespace Agoo

namespace Eval

variable {ρ ω : Type}

/-! ## Root selections -/

def Sel.isField : Sel → Bool
  | .field _ _ _ => true
  | .spread _ _ => false
  | .inline _ _ _ _ => false

/-- The document with other selections of the operation. -/
def Doc.withSels (doc : Doc) (sels : List Sel) : Doc := { doc with sels := sels }

/-- The selections other than introspection fields. -/
def ordinary (sels : List Sel) : List Sel := sels.filter fun sel => !sel.isIntro

/-- The selections up to the first introspection field. -/
def untilIntro (sels : List Sel) : List Sel := sels.take (sels.findIdx Sel.isIntro + 1)

/-- No selection follows an introspection field. -/
def introLast (sels : List Sel) : Bool := sels.dropLast.all fun sel => !sel.isIntro

theorem introLast_cons {sel : Sel} {sels : List Sel} (h : sel.isIntro = false)
    (hsels : introLast sels = true) : introLast (sel :: sels) = true := by
  cases sels with
  | nil => rfl
  | cons sel' sels =>
    unfold introLast at hsels ⊢
    rw [List.dropLast_cons_cons, List.all_cons, h, hsels]
    rfl

/-- Then the selections are the ordinary ones, and at most one introspection field after them. -/
theorem introLast_split {sels : List Sel} (h : introLast sels = true) :
    sels = ordinary sels ∨ ∃ sel, sel.isIntro = true ∧ sels = ordinary sels ++ [sel] := by
  rcases List.eq_nil_or_concat sels with rfl | ⟨init, sel, rfl⟩
  · exact .inl rfl
  · unfold introLast at h
    rw [List.concat_eq_append, List.dropLast_concat] at h
    rw [List.concat_eq_append]
    have hinit : ordinary init = init := List.filter_eq_self.mpr (List.all_eq_true.mp h)
    have happend : ordinary (init ++ [sel]) = init ++ ordinary [sel] := by
      unfold ordinary at hinit ⊢
      rw [List.filter_append, hinit]
    rw [happend]
    cases hsel : sel.isIntro with
    | false =>
      left
      unfold ordinary
      rw [List.filter_singleton, hsel]
      rfl
    | true =>
      refine .inr ⟨sel, hsel, ?_⟩
      unfold ordinary
      rw [List.filter_singleton, hsel]
      exact congrArg (· ++ [sel]) (List.append_nil init).symm

/-- The selections of a permutation with the same property. -/
theorem introLast_perm {sels sels' : List Sel} (hperm : sels'.Perm sels) (h : introLast sels = true)
    (h' : introLast sels' = true) :
    ∃ tail, sels = ordinary sels ++ tail ∧ sels' = ordinary sels' ++ tail := by
  have hordinary : (ordinary sels').Perm (ordinary sels) := hperm.filter _
  rcases introLast_split h with heq | ⟨sel, hsel, heq⟩
  · rcases introLast_split h' with heq' | ⟨sel', hsel', heq'⟩
    · exact ⟨[], by rw [List.append_nil]; exact heq, by rw [List.append_nil]; exact heq'⟩
    · have hlen := hperm.length_eq
      rw [heq', heq, List.length_append, ← hordinary.length_eq] at hlen
      simp [ordinary] at hlen
  · rcases introLast_split h' with heq' | ⟨sel', hsel', heq'⟩
    · have hlen := hperm.length_eq
      rw [heq', heq, List.length_append, ← hordinary.length_eq] at hlen
      simp [ordinary] at hlen
    · refine ⟨[sel], heq, ?_⟩
      have hmem : sel' ∈ sels := hperm.mem_iff.mp (heq' ▸ List.mem_append_right _ List.mem_cons_self)
      rw [heq] at hmem
      rcases List.mem_append.mp hmem with hmem | hmem
      · have hno := (List.mem_filter.mp hmem).2
        rw [hsel'] at hno
        cases hno
      · rw [← List.mem_singleton.mp hmem]
        exact heq'

/-! ## The operation -/

theorem evalSelsFrom_withSels (env : Env ρ ω) (doc : Doc) (sels : List Sel) (bottom : EvalSels ρ ω)
    (n : ℕ) : evalSelsFrom env (doc.withSels sels) bottom n = evalSelsFrom env doc bottom n := by
  induction n with
  | zero => rfl
  | succ n ih =>
    unfold evalSelsFrom
    rw [ih]
    rfl

/-- The selections of fields of the operation. -/
def belowRoot (env : Env ρ ω) (doc : Doc) : EvalSels ρ ω :=
  evalSelsFrom env doc (fun _ _ _ _ => throw .crash) (maxDepth + 1)

/-- A root selection. -/
def rootSel (env : Env ρ ω) (doc : Doc) (ref : ρ) (field : GqlField) (sel : Sel) : EvalM ω Unit :=
  evalSel env doc (belowRoot env doc) (.ruby ref) (some field) 2 sel

theorem rootSel_withSels (env : Env ρ ω) (doc : Doc) (sels : List Sel) (ref : ρ) (field : GqlField) :
    rootSel env (doc.withSels sels) ref field = rootSel env doc ref field := by
  unfold rootSel belowRoot
  rw [evalSelsFrom_withSels]
  rfl

/-- A call without arguments changes the world alone. -/
theorem callMethod_noArgs (env : Env ρ ω) (ref : ρ) (field : Option GqlField) (head : Head)
    (h : head.args = []) (s : State ω) :
    ∃ w, (exec (callMethod env ref field head) s).2 = { s with world := w } ∧
      ∀ child, (exec (callMethod env ref field head) s).1 = .ok child →
        ∃ arity, env.call ref head.name arity [] s.world = (.ok child, w) := by
  have hargs : ∀ arity, callArgs env field arity head.args = pure [] := by
    intro arity
    unfold callArgs
    rw [h]
    split_ifs
    · rfl
    · rfl
  unfold callMethod
  rw [exec_bind, exec_ruby]
  cases (env.arity ref head.name s.world) with
  | error e => exact ⟨s.world, rfl, nofun⟩
  | ok arity =>
    dsimp only [Except.mapError]
    rw [hargs, pure_bind, exec_ruby]
    refine ⟨_, rfl, fun child hchild => ⟨arity, Prod.ext ?_ rfl⟩⟩
    cases hcall : (env.call ref head.name arity [] s.world).1 with
    | error e =>
      rw [hcall] at hchild
      cases hchild
    | ok child' =>
      rw [hcall] at hchild
      exact congrArg Except.ok (Except.ok.inj hchild)

/-- What the root returns for the operation is an object, no subject. -/
def RootObject (env : Env ρ ω) (kind : GqlOpKind) : Prop :=
  ∀ arity w child w', env.call env.root kind.str arity [] w = (.ok child, w') →
    subjectOf env kind child w' = none

/-- What `resolve` does with the child. -/
def resolveCalled (env : Env ρ ω) (kind : GqlOpKind) (field : Option GqlField) (head : Head)
    (noSels : Bool) (depth : ℕ) (child : ρ) : EvalM ω (Bytes × Reply ρ) := do
  match ← ask (subjectOf env kind child) with
  | some s => return (bytes "subject", .value (.string s))
  | none => return (head.key, ← resolveChild env child field head noSels depth)

section Operation

variable {env : Env ρ ω} {doc : Doc} (hobject : RootObject env doc.kind)
  (hroot : ∀ t, env.rootType = some t → env.table.kind t ≠ .list)

include hobject hroot

/-- The operation fails before its selections, or these are evaluated with the functions for Ruby, each
for itself. -/
theorem exec_docEval (s : State ω) :
    (∃ stop t, ∀ sels ≠ [], exec (docEval env (doc.withSels sels)) s = (.error stop, t)) ∨
      ∃ ref field t, t.funcs = .ruby ∧ t.cells = s.cells ∧ t.result = [] ∧
        ∀ sels ≠ [], exec (docEval env (doc.withSels sels)) s =
          exec (sels.forM (rootSel env doc ref field)) t := by
  have hmodify : ∀ doc', exec (docEval env doc') s =
      exec (evalOp env doc') { s with funcs := .ruby, result := [] } := fun _ => rfl
  simp only [hmodify]
  generalize hs : ({ s with funcs := .ruby, result := [] } : State ω) = s₀
  have hfuncs : s₀.funcs = .ruby := by rw [← hs]
  have hcells : s₀.cells = s.cells := by rw [← hs]
  have hresult : s₀.result = [] := by rw [← hs]
  have hkind : ∀ sels, (doc.withSels sels).kind = doc.kind := fun _ => rfl
  unfold evalOp
  simp only [hkind]
  cases hfield : env.rootType.bind fun t => getField env.table t doc.kind.str with
  | none => exact .inl ⟨.fail, _, fun _ _ => rfl⟩
  | some field =>
    have hlist : env.rootType.filter (fun t => env.table.kind t = .list) = none := by
      rw [Option.filter_eq_none_iff]
      intro t ht
      simpa using hroot t ht
    have hname : ¬ isInternal (opHead env doc).name = true := by
      change ¬ isInternal doc.kind.str = true
      cases doc.kind with
      | query => decide
      | mutation => decide
      | subscription => decide
    have hresolve : ∀ noSels, exec (resolve env doc.kind (.ruby env.root) (some field)
        (opHead env doc) noSels 0) s₀ =
        exec (callMethod env env.root (some field) (opHead env doc) >>=
          resolveCalled env doc.kind (some field) (opHead env doc) noSels 0) s₀ := by
      intro noSels
      unfold resolve
      rw [exec_get_bind, hfuncs]
      dsimp only
      unfold resolveRuby
      exact congrArg (fun p => exec p s₀) (if_neg hname)
    obtain ⟨w, hw, hchild⟩ := callMethod_noArgs env env.root (some field) (opHead env doc) rfl s₀
    cases hrun : exec (callMethod env env.root (some field) (opHead env doc)) s₀ with
    | mk o t =>
      rw [hrun] at hw hchild
      obtain rfl := hw
      cases o with
      | error stop =>
        refine .inl ⟨stop, { s₀ with world := w }, fun sels hsels => exec_bind_error ?_⟩
        exact (hresolve _).trans (exec_bind_error hrun)
      | ok child =>
        obtain ⟨arity, hcall⟩ := hchild child rfl
        have hsubject : subjectOf env doc.kind child w = none := hobject arity s₀.world child w hcall
        refine .inr ⟨child, field, { s₀ with world := w }, hfuncs, hcells, hresult, fun sels hsels => ?_⟩
        have hempty : (doc.withSels sels).sels.isEmpty = false := by
          rw [List.isEmpty_eq_false_iff]
          exact hsels
        have hreply : exec (resolve env doc.kind (.ruby env.root) (some field)
            (opHead env doc) false 0) s₀ = (.ok ((opHead env doc).key, .inPlace (.ruby child) (some field) 1),
              { s₀ with world := w }) := by
          rw [hresolve, exec_bind_ok hrun]
          have hask : exec (ask (subjectOf env doc.kind child)) { s₀ with world := w } =
              (.ok none, { s₀ with world := w }) :=
            congrArg (fun o => (Except.ok o, { s₀ with world := w })) hsubject
          unfold resolveCalled
          rw [exec_bind_ok hask]
          unfold resolveChild
          dsimp only
          rw [show (opHead env doc).type.filter (fun t => env.table.kind t = .list) = none from hlist]
          rfl
        rw [hempty]
        refine (exec_bind_ok hreply).trans ?_
        change exec (evalSels env (doc.withSels sels) _ _ sels 1) _ = _
        unfold evalSels
        rw [evalSelsFrom_withSels]
        rfl

end Operation

/-! ## Introspection fields -/

/-- The functions of the document are those of introspection. -/
def Introspecting (s : State ω) : Prop := s.funcs = .cobj

theorem free_introspecting : Free (Introspecting (ω := ω)) := fun _ _ _ hfuncs hs => hfuncs hs

/-- Nothing but `gql_doc_eval` puts other functions back. -/
theorem introspecting_evalSelsFrom (env : Env ρ ω) (doc : Doc) (n : ℕ) (target : Target ρ)
    (field : Option GqlField) (sels : List Sel) (d : ℕ) :
    Meets Introspecting Anything
      (evalSelsFrom env doc (fun _ _ _ _ => throw .crash) n target field sels d) := by
  rw [← evalSelsFrom_withSels env doc sels]
  refine meets_evalSelsFrom free_introspecting ?_ (fun _ _ _ _ => meets_throw _) n target field d
    (List.subset_append_left _ _)
  exact fun _ _ _ _ _ _ _ _ _ _ _ hs _ _ => hs

/-- `gql_intro_eval`, with the objects it fills. -/
def introField (env : Env ρ ω) (eval : Target ρ → Option GqlField → ℕ → EvalM ω Unit) (head : Head)
    (depth : ℕ) : EvalM ω Unit := do
  let r ← introEval env head depth
  give eval env head.key r

/-- Introspection refuses the field, by its depth or its name. -/
def Refused (head : Head) (depth : ℕ) : Prop := 2 < depth ∨ head.isIntro = false

theorem isIntro_iff (head : Head) :
    head.isIntro = true ↔ head.name = bytes "__type" ∨ head.name = bytes "__schema" := by
  unfold Head.isIntro
  rw [Bool.or_eq_true, decide_eq_true_eq, decide_eq_true_eq]

theorem isIntro_internal {head : Head} (h : head.isIntro = true) :
    isInternal head.name = true ∧ head.name ≠ bytes "__typename" := by
  rcases (isIntro_iff head).mp h with hname | hname
  · rw [hname]
    decide
  · rw [hname]
    decide

section IntroField

variable {env : Env ρ ω} {eval : Target ρ → Option GqlField → ℕ → EvalM ω Unit} {head : Head} {d : ℕ}

/-- A field that is not refused leaves the functions of introspection. -/
theorem introEval_funcs (env : Env ρ ω) (h : ¬ Refused head d) (s : State ω) :
    (exec (introEval env head d) s).2.funcs = .cobj := by
  unfold Refused at h
  push Not at h
  have hname := (isIntro_iff head).mp (by simpa using h.2)
  have hset : exec (modify fun s : State ω => { s with funcs := .cobj } : EvalM ω PUnit) s =
      (.ok (), { s with funcs := .cobj }) := rfl
  unfold introEval
  rw [if_pos hname, if_neg (not_lt_of_ge h.1), exec_bind_ok hset]
  refine (meets_cobjResolve free_introspecting.stable .root _ head d ?_ { s with funcs := .cobj } rfl).1
  exact fun _ _ _ _ _ _ _ hs _ _ => hs

theorem introField_funcs (heval : ∀ t f d, Meets Introspecting Anything (eval t f d))
    (h : ¬ Refused head d) (s : State ω) : (exec (introField env eval head d) s).2.funcs = .cobj := by
  have hfuncs := introEval_funcs env h s
  have hmeets : Meets (fun _ : State ω => True) (Reply.Deeper d) (introEval env head d) :=
    meets_introEval (fun _ _ _ _ _ _ => trivial) head d
  have hdeep := (hmeets s trivial).2
  unfold introField
  cases hrun : exec (introEval env head d) s with
  | mk o t =>
    rw [hrun] at hfuncs hdeep
    cases o with
    | error stop =>
      rw [exec_bind_error hrun]
      exact hfuncs
    | ok r =>
      rw [exec_bind_ok hrun]
      exact (meets_give free_introspecting (fun t f d' _ => heval t f d') head.key (hdeep r rfl) t hfuncs).1

/-- A field that is refused sets an error and no more. -/
theorem introEval_refused (env : Env ρ ω) (h : Refused head d) :
    ∃ msg, introEval env head d = setErr .eval msg := by
  unfold introEval
  by_cases hname : head.name = bytes "__type" ∨ head.name = bytes "__schema"
  · have hd : 2 < d := by
      rcases h with h | h
      · exact h
      · rw [(isIntro_iff head).mpr hname] at h
        cases h
    rw [if_pos hname, if_pos hd]
    exact ⟨_, rfl⟩
  · rw [if_neg hname]
    exact ⟨_, rfl⟩

theorem introField_refused (h : Refused head d) (s : State ω) :
    (exec (introField env eval head d) s).2.funcs = s.funcs := by
  obtain ⟨msg, hmsg⟩ := introEval_refused env h
  unfold introField
  rw [hmsg]
  rfl

/-- **The functions are left as they were found exactly where the field is refused, or they were those
of introspection.** -/
theorem introField_funcs_iff (heval : ∀ t f d, Meets Introspecting Anything (eval t f d)) (s : State ω) :
    (exec (introField env eval head d) s).2.funcs = s.funcs ↔ s.funcs = .cobj ∨ Refused head d := by
  by_cases h : Refused head d
  · exact ⟨fun _ => .inr h, fun _ => introField_refused h s⟩
  · rw [introField_funcs heval h s]
    constructor
    · exact fun hs => .inl hs.symm
    · rintro (hs | hs)
      · exact hs.symm
      · exact absurd hs h

end IntroField

/-! ## The root selections in turn -/

section Lists

variable {α : Type} {f : α → EvalM ω PUnit} {x : α} {xs : List α} {s t : State ω}

theorem exec_forM_ok {u : PUnit} (h : exec (f x) s = (.ok u, t)) :
    exec ((x :: xs).forM f) s = exec (xs.forM f) t := exec_bind_ok h

theorem exec_forM_error {stop : Stop} (h : exec (f x) s = (.error stop, t)) :
    exec ((x :: xs).forM f) s = (.error stop, t) := exec_bind_error h

theorem exec_forM_append (f : α → EvalM ω PUnit) (xs ys : List α) (s : State ω) :
    exec ((xs ++ ys).forM f) s = exec (xs.forM f >>= fun _ => ys.forM f) s :=
  congrFun (congrArg exec List.forM_append) s

end Lists

section Root

variable (env : Env ρ ω) (doc : Doc) (ref : ρ) (field : GqlField)

theorem frames_rootSel (sel : Sel) : Frames (rootSel env doc ref field sel) :=
  frames_evalSel (fun target field sels d =>
    frames_evalSelsFrom (fun _ _ _ _ => (blind_throw _).frames) _ target field sels d) _ _ _ sel

/-- With the functions of introspection a field of a Ruby object is read through a wrong pointer. -/
theorem rootSel_crash {sel : Sel} (hsel : sel.isField = true) {s : State ω} (hs : s.funcs = .cobj) :
    exec (rootSel env doc ref field sel) s = (.error .crash, s) := by
  cases sel with
  | field head dir sels =>
    unfold rootSel evalSel
    refine exec_bind_error ?_
    unfold resolve
    rw [exec_get_bind, hs]
    rfl
  | spread name dir => cases hsel
  | inline on dir inlineDir sels => cases hsel

/-- An introspection field leaves its functions, or it fails in an operation that is no query. -/
theorem rootSel_intro {sel : Sel} (hsel : sel.isIntro = true) {s : State ω} (hs : s.funcs = .ruby) :
    (doc.kind = .query ∧ (exec (rootSel env doc ref field sel) s).2.funcs = .cobj) ∨
      (doc.kind ≠ .query ∧ (exec (rootSel env doc ref field sel) s).1 = .error .fail) := by
  cases sel with
  | field head dir sels =>
    obtain ⟨hinternal, htypename⟩ := isIntro_internal hsel
    have hrun : exec (rootSel env doc ref field (.field head dir sels)) s =
        exec (resolveInternal env doc.kind ref head 2 >>= fun r =>
          give (fun t f d => belowRoot env doc t f sels d) env r.1 r.2) s := by
      unfold rootSel evalSel resolve
      dsimp only
      rw [bind_assoc, exec_get_bind, hs]
      dsimp only
      unfold resolveRuby
      rw [if_pos hinternal]
    rw [hrun]
    unfold resolveInternal
    rw [if_neg htypename]
    cases doc.kind with
    | mutation => exact .inr ⟨by decide, rfl⟩
    | subscription => exact .inr ⟨by decide, rfl⟩
    | query =>
      refine .inl ⟨rfl, ?_⟩
      have haccepted : ¬ Refused head 2 := by
        unfold Refused
        rw [show head.isIntro = true from hsel]
        simp
      have hfuncs : (exec (introField env (fun t f d => belowRoot env doc t f sels d) head 2) s).2.funcs =
          .cobj :=
        introField_funcs (fun t f d => introspecting_evalSelsFrom env doc _ t f sels d) haccepted s
      unfold introField at hfuncs
      dsimp only
      rw [bind_assoc]
      exact hfuncs
  | spread name dir => cases hsel
  | inline on dir inlineDir sels => cases hsel

/-- Of the state that lasts, nothing is asked but the functions. -/
theorem lasting_ruby : Lasting env doc fun s : State ω => s.funcs = .ruby where
  ruby _ hs := hs
  result _ _ hs := hs
  call _ _ _ _ _ hs := hs
  coerce _ _ _ hs := hs
  convert _ _ _ _ _ _ _ _ _ hs _ := hs

variable {env} {doc} {ref} {field}

theorem rootSel_lasts {J : State ω → Prop} (hJ : Lasting env doc J) {sel : Sel}
    (hin : sel.nodes ⊆ doc.nodes) (hintro : sel.isIntro = false) :
    Lasts J Anything (rootSel env doc ref field sel) :=
  lasts_evalSel hJ (fun ref field _ _ hd hin => lasts_evalSelsFrom hJ _ ref field hd hin) ref _ le_rfl
    hin (.inr hintro)

/-- Selections that succeed from the functions for Ruby have no field behind an introspection field, and
have none of these but in a query. -/
theorem introLast_of_ok {sels : List Sel} (hin : nodesAll sels ⊆ doc.nodes)
    (hfields : ∀ sel ∈ sels, sel.isField = true) {s : State ω} (hs : s.funcs = .ruby)
    (hok : (exec (sels.forM (rootSel env doc ref field)) s).1 = .ok ()) :
    introLast sels = true ∧ (doc.kind = .query ∨ ordinary sels = sels) := by
  induction sels generalizing s with
  | nil => exact ⟨rfl, .inr rfl⟩
  | cons sel rest ih =>
    have hsel := List.mem_cons_self (a := sel) (l := rest)
    cases hrun : exec (rootSel env doc ref field sel) s with
    | mk o t =>
      cases o with
      | error stop =>
        rw [exec_forM_error hrun] at hok
        cases hok
      | ok u =>
        rw [exec_forM_ok hrun] at hok
        cases hintro : sel.isIntro with
        | true =>
          rcases rootSel_intro env doc ref field hintro hs with
            ⟨hkind, hfuncs⟩ | ⟨hkind, hfail⟩
          · rw [hrun] at hfuncs
            refine ⟨?_, .inl hkind⟩
            cases rest with
            | nil => rfl
            | cons sel' rest =>
              have hcrash := rootSel_crash env doc ref field
                (hfields sel' (List.mem_cons_of_mem sel List.mem_cons_self)) hfuncs
              rw [exec_forM_error hcrash] at hok
              cases hok
          · rw [hrun] at hfail
            cases hfail
        | false =>
          have hlasts : Lasts (fun s : State ω => s.funcs = .ruby) Anything (rootSel env doc ref field sel) :=
            rootSel_lasts (lasting_ruby env doc) (List.Subset.trans (nodes_subset hsel) hin) hintro
          have hfuncs := (hlasts s u hs (by rw [hrun])).1
          rw [hrun] at hfuncs
          obtain ⟨hlast, hkind⟩ := ih (List.Subset.trans (List.subset_append_right _ _) hin)
            (fun sel' h => hfields sel' (List.mem_cons_of_mem sel h)) hfuncs hok
          refine ⟨introLast_cons hintro hlast, hkind.imp id fun h => ?_⟩
          unfold ordinary at h ⊢
          rw [List.filter_cons_of_pos (by rw [hintro]; rfl), h]

end Root

/-! ## Permuted root selections -/

/-- Calls of Ruby and what becomes of a value do not depend on the calls before. -/
structure Quiet (env : Env ρ ω) : Prop where
  call : ∀ ref name arity args w, (env.call ref name arity args w).2 = w
  coerce : ∀ ref type w, (env.coerce ref type w).2 = w

/-- The values of arguments have the types that fields give the arguments: a conversion that succeeds
changes neither the value nor the error. -/
def Settled (env : Env ρ ω) (doc : Doc) (cells : List (GqlValue ℕ)) : Prop :=
  ∀ sel ∈ doc.nodes, ∀ a ∈ sel.args, ∀ t, ∀ f ∈ env.table.fields t, ∀ fa ∈ f.args, fa.name = a.name →
    ∀ e, (env.convert fa.type ((cellValue cells a.cell).getD .null) e).ok = true →
      (env.convert fa.type ((cellValue cells a.cell).getD .null) e).value =
          (cellValue cells a.cell).getD .null ∧
        (env.convert fa.type ((cellValue cells a.cell).getD .null) e).err = e

/-- The state up to its result. -/
def AsIs (t s : State ω) : Prop := ∃ R, s = t.withResult R

/-- A value that is put back where it was. -/
theorem set_cellValue (cells : List (GqlValue ℕ)) (cell : Option ℕ) :
    (cell.elim cells fun i => cells.set i ((cellValue cells cell).getD .null)) = cells := by
  cases cell with
  | none => rfl
  | some i =>
    change cells.set i (cells[i]?.getD .null) = cells
    cases hi : cells[i]? with
    | none => exact List.set_eq_of_length_le (List.getElem?_eq_none_iff.mp hi)
    | some v =>
      obtain ⟨hlt, hv⟩ := List.getElem?_eq_some_iff.mp hi
      rw [Option.getD_some, ← hv, List.set_getElem_self]

theorem lasting_asIs {env : Env ρ ω} {doc : Doc} {t : State ω} (hquiet : Quiet env)
    (hsettled : Settled env doc t.cells) (ht : t.funcs = .ruby) : Lasting env doc (AsIs t) where
  ruby s hs := by
    obtain ⟨R, rfl⟩ := hs
    exact ht
  result s R hs := by
    obtain ⟨R', rfl⟩ := hs
    exact ⟨R, rfl⟩
  call s ref name arity args hs := by
    rw [hquiet.call]
    exact hs
  coerce s ref type hs := by
    rw [hquiet.coerce]
    exact hs
  convert sel hsel a ha field hfield fa hfa s hs hok := by
    obtain ⟨R, rfl⟩ := hs
    cases field with
    | none => cases hfa
    | some f =>
      have hfind : f.args.find? (·.name = a.name) = some fa := hfa
      obtain ⟨u, hf⟩ := hfield f rfl
      obtain ⟨hvalue, herr⟩ := hsettled sel hsel a ha u f hf fa (List.mem_of_find?_eq_some hfind)
        (by simpa using List.find?_some hfind) t.err hok
      change (env.convert fa.type ((cellValue t.cells a.cell).getD .null) t.err).value = _ at hvalue
      rw [exec_convertIn]
      change AsIs t { t with
        err := (env.convert fa.type ((cellValue t.cells a.cell).getD .null) t.err).err
        cells := a.cell.elim t.cells fun i => t.cells.set i
          (env.convert fa.type ((cellValue t.cells a.cell).getD .null) t.err).value
        result := R }
      rw [hvalue, herr, set_cellValue]
      exact ⟨R, rfl⟩

section Permuted

variable {α : Type} {f : α → EvalM ω PUnit} {t : State ω}

/-- The evaluation succeeds, and only adds members, which are these. -/
def AddsTo (t : State ω) (p : EvalM ω PUnit) (ms : List (Bytes × GqlValue ℕ)) : Prop :=
  exec p (t.withResult []) = (.ok (), t.withResult ms)

/-- Evaluations that frame the result and leave the rest succeed in a row only if each does alone. -/
theorem addsTo_of_ok {xs : List α} (hframes : ∀ x ∈ xs, Frames (f x))
    (hlasts : ∀ x ∈ xs, Lasts (AsIs t) Anything (f x)) {R : List (Bytes × GqlValue ℕ)}
    (hok : (exec (xs.forM f) (t.withResult R)).1 = .ok ()) : ∀ x ∈ xs, ∃ ms, AddsTo t (f x) ms := by
  induction xs generalizing R with
  | nil => exact nofun
  | cons x xs ih =>
    have hx := hframes x List.mem_cons_self t R
    cases hrun : exec (f x) (t.withResult []) with
    | mk o s =>
      rw [hrun] at hx
      cases o with
      | error stop =>
        rw [exec_forM_error hx] at hok
        cases hok
      | ok u =>
        obtain ⟨ms, hms⟩ := (hlasts x List.mem_cons_self (t.withResult []) u ⟨[], rfl⟩ (by rw [hrun])).1
        rw [hrun] at hms
        obtain rfl : s = t.withResult ms := hms
        rw [exec_forM_ok hx] at hok
        have hrest := ih (fun y hy => hframes y (List.mem_cons_of_mem x hy))
          (fun y hy => hlasts y (List.mem_cons_of_mem x hy)) hok
        rintro y (_ | ⟨_, hy⟩)
        · exact ⟨ms, hrun⟩
        · exact hrest y hy

/-- Then they add their members in a row. -/
theorem exec_forM_addsTo {xs : List α} (hframes : ∀ x ∈ xs, Frames (f x))
    (members : α → List (Bytes × GqlValue ℕ)) (h : ∀ x ∈ xs, AddsTo t (f x) (members x))
    (R : List (Bytes × GqlValue ℕ)) :
    exec (xs.forM f) (t.withResult R) = (.ok (), t.withResult (R ++ xs.flatMap members)) := by
  induction xs generalizing R with
  | nil =>
    rw [List.flatMap_nil, List.append_nil]
    rfl
  | cons x xs ih =>
    have hadds : exec (f x) (t.withResult []) = (.ok (), t.withResult (members x)) :=
      h x List.mem_cons_self
    have hx := hframes x List.mem_cons_self t R
    rw [hadds] at hx
    rw [exec_forM_ok hx]
    refine (ih (fun y hy => hframes y (List.mem_cons_of_mem x hy))
      (fun y hy => h y (List.mem_cons_of_mem x hy)) (R ++ members x)).trans ?_
    rw [List.flatMap_cons, List.append_assoc]

end Permuted

/-! ## The evaluation of the operation -/

section Claim

variable (env : Env ρ ω) (doc : Doc) (s : State ω) (sels : List Sel)

/-- The evaluation with these root selections succeeds. -/
def Succeeds : Prop := (exec (docEval env (doc.withSels sels)) s).1 = .ok ()

/-- The members of the result. -/
def members : List (Bytes × GqlValue ℕ) := (exec (docEval env (doc.withSels sels)) s).2.result

/-- The evaluation succeeds, and the ordinary fields yield the members they yield alone. -/
def Undisturbed : Prop :=
  Succeeds env doc s sels ∧ (members env doc s (ordinary sels)).Sublist (members env doc s sels)

end Claim

section Main

variable {env : Env ρ ω} {doc : Doc} {s : State ω} {sels : List Sel} (hobject : RootObject env doc.kind)
  (hroot : ∀ t, env.rootType = some t → env.table.kind t ≠ .list)
  (hfields : ∀ sel ∈ sels, sel.isField = true) (hsome : ordinary sels ≠ [])

theorem ne_nil_of_ordinary {sels : List Sel} (h : ordinary sels ≠ []) : sels ≠ [] := by
  rintro rfl
  exact h rfl

/-- Up to the first introspection field are all selections, if none follows it. -/
theorem untilIntro_eq {sels : List Sel} (h : introLast sels = true) : untilIntro sels = sels := by
  unfold untilIntro
  rcases List.eq_nil_or_concat sels with rfl | ⟨init, sel, rfl⟩
  · rfl
  · unfold introLast at h
    rw [List.concat_eq_append, List.dropLast_concat] at h
    refine List.take_of_length_le ?_
    rw [List.concat_eq_append, List.length_append, List.findIdx_append,
      List.findIdx_eq_length.mpr fun x hx => by simpa using List.all_eq_true.mp h x hx]
    simp

include hobject hroot hfields hsome

/-- The ordinary fields yield what they yield alone exactly where nothing follows an introspection
field, and the operation with such a field is a query. -/
theorem undisturbed_iff (halone : Succeeds env doc s (ordinary sels))
    (huntil : doc.kind = .query → Succeeds env doc s (untilIntro sels)) :
    Undisturbed env doc s sels ↔
      introLast sels = true ∧ (doc.kind = .query ∨ ordinary sels = sels) := by
  rcases exec_docEval hobject hroot s with ⟨stop, t, hstop⟩ | ⟨ref, field, t, hfuncs, -, -, hrun⟩
  · unfold Succeeds at halone
    rw [hstop _ hsome] at halone
    cases halone
  · constructor
    · rintro ⟨hok, -⟩
      unfold Succeeds at hok
      rw [hrun _ (ne_nil_of_ordinary hsome), ← rootSel_withSels env doc sels] at hok
      have hin : nodesAll sels ⊆ (doc.withSels sels).nodes := List.subset_append_left _ _
      have hlast := introLast_of_ok hin hfields hfuncs hok
      exact hlast
    · rintro ⟨hlast, hkind⟩
      rcases introLast_split hlast with heq | ⟨sel, -, heq⟩
      · unfold Undisturbed
        rw [← heq] at halone ⊢
        exact ⟨halone, List.Sublist.refl _⟩
      · have hquery : doc.kind = .query := by
          rcases hkind with hkind | hkind
          · exact hkind
          · have hlen := congrArg List.length heq
            rw [hkind, List.length_append] at hlen
            simp at hlen
        have hok := huntil hquery
        rw [untilIntro_eq hlast] at hok
        refine ⟨hok, ?_⟩
        unfold members
        unfold Succeeds at halone
        rw [hrun _ hsome] at halone ⊢
        rw [hrun _ (ne_nil_of_ordinary hsome)]
        nth_rewrite 2 [heq]
        rw [exec_forM_append]
        cases hords : exec ((ordinary sels).forM (rootSel env doc ref field)) t with
        | mk o t' =>
          rw [hords] at halone
          obtain rfl : o = .ok () := halone
          rw [exec_bind_ok hords]
          have hall : ∀ sel' ∈ [sel], Frames (rootSel env doc ref field sel') :=
            fun sel' _ => frames_rootSel env doc ref field sel'
          have hframes := frames_forM hall t' t'.result
          have hself : t'.withResult t'.result = t' := rfl
          rw [hself] at hframes
          rw [hframes]
          exact List.sublist_append_left _ _

omit hsome in
/-- Of the permutations of root selections that succeed, exactly those where nothing follows an
introspection field succeed too, with the members permuted. -/
theorem permuted_iff (hquiet : Quiet env) (hsettled : Settled env (doc.withSels (ordinary sels)) s.cells)
    (hok : Succeeds env doc s sels) {sels' : List Sel} (hperm : sels'.Perm sels) :
    (Succeeds env doc s sels' ∧ (members env doc s sels').Perm (members env doc s sels)) ↔
      introLast sels' = true := by
  by_cases hnil : sels = []
  · obtain rfl := hnil
    obtain rfl := hperm.eq_nil
    exact ⟨fun _ => rfl, fun _ => ⟨hok, List.Perm.refl _⟩⟩
  have hnil' : sels' ≠ [] := fun h => hnil (by rw [h] at hperm; exact hperm.nil_eq.symm)
  rcases exec_docEval hobject hroot s with ⟨stop, t, hstop⟩ | ⟨ref, field, t, hfuncs, hcells, hresult, hrun⟩
  · unfold Succeeds at hok
    rw [hstop _ hnil] at hok
    cases hok
  have hlast_of_ok : ∀ sels'' ≠ [], (∀ sel ∈ sels'', sel.isField = true) →
      Succeeds env doc s sels'' → introLast sels'' = true := by
    intro sels'' hne hf hsucc
    unfold Succeeds at hsucc
    rw [hrun _ hne, ← rootSel_withSels env doc sels''] at hsucc
    have hin : nodesAll sels'' ⊆ (doc.withSels sels'').nodes := List.subset_append_left _ _
    exact (introLast_of_ok hin hf hfuncs hsucc).1
  have hlast := hlast_of_ok sels hnil hfields hok
  constructor
  · exact fun h => hlast_of_ok sels' hnil' (fun sel hsel => hfields sel (hperm.mem_iff.mp hsel)) h.1
  · intro hlast'
    obtain ⟨tail, heq, heq'⟩ := introLast_perm hperm hlast hlast'
    have hords : (ordinary sels').Perm (ordinary sels) := hperm.filter _
    have hframes : ∀ xs : List Sel, ∀ sel ∈ xs, Frames (rootSel env doc ref field sel) :=
      fun _ sel _ => frames_rootSel env doc ref field sel
    have hself : t.withResult [] = t := by rw [← hresult]; rfl
    have hlasts : ∀ sel ∈ ordinary sels, Lasts (AsIs t) Anything (rootSel env doc ref field sel) := by
      intro sel hsel
      rw [← hcells] at hsettled
      rw [← rootSel_withSels env doc (ordinary sels)]
      refine rootSel_lasts (lasting_asIs hquiet hsettled hfuncs)
        (List.Subset.trans (nodes_subset hsel) (List.subset_append_left _ _)) ?_
      simpa using (List.mem_filter.mp hsel).2
    unfold Succeeds at hok
    rw [hrun _ hnil, heq, exec_forM_append] at hok
    cases hfirst : exec ((ordinary sels).forM (rootSel env doc ref field)) t with
    | mk o t' =>
      cases o with
      | error stop =>
        rw [exec_bind_error hfirst] at hok
        cases hok
      | ok u =>
        -- Each ordinary field adds its own members, in any order.
        have hadds := addsTo_of_ok (hframes (ordinary sels)) hlasts (R := []) (by rw [hself, hfirst])
        choose! ms hms using hadds
        have hrun₁ := exec_forM_addsTo (hframes (ordinary sels)) ms hms []
        have hrun₂ := exec_forM_addsTo (hframes (ordinary sels')) ms
          (fun sel hsel => hms sel (hords.mem_iff.mp hsel)) []
        rw [hself, List.nil_append] at hrun₁ hrun₂
        rw [exec_bind_ok hrun₁] at hok
        -- The introspection field behind them adds the same.
        have htail := frames_forM (hframes tail) t
        rw [htail] at hok
        unfold Succeeds members
        rw [hrun _ hnil, hrun _ hnil', heq, heq', exec_forM_append, exec_forM_append,
          exec_bind_ok hrun₁, exec_bind_ok hrun₂, htail ((ordinary sels).flatMap ms),
          htail ((ordinary sels').flatMap ms)]
        exact ⟨hok, (hords.flatMap_right ms).append_right _⟩

end Main

/-- **Introspection leaves the functions of the document exactly where it refuses the field or they are
its own; the ordinary fields of an operation yield what they yield alone exactly where no root field
follows an introspection field and the operation with one is a query; and a permutation of root fields
that succeed permutes the members exactly where no field follows an introspection field in it, when
Ruby and the conversions change nothing.** -/
theorem docEval_intro {env : Env ρ ω} {doc : Doc} (hobject : RootObject env doc.kind)
    (hroot : ∀ t, env.rootType = some t → env.table.kind t ≠ .list) {sels : List Sel}
    (hfields : ∀ sel ∈ sels, sel.isField = true) (hsome : ordinary sels ≠ []) (s : State ω) :
    (∀ head below d t,
      (exec (introField env (fun target field d => evalSels env doc target field below d) head d) t).2.funcs =
          t.funcs ↔ t.funcs = .cobj ∨ Refused head d) ∧
    (Succeeds env doc s (ordinary sels) → (doc.kind = .query → Succeeds env doc s (untilIntro sels)) →
      (Undisturbed env doc s sels ↔
        introLast sels = true ∧ (doc.kind = .query ∨ ordinary sels = sels))) ∧
    (Quiet env → Settled env (doc.withSels (ordinary sels)) s.cells → Succeeds env doc s sels →
      ∀ sels', sels'.Perm sels →
        ((Succeeds env doc s sels' ∧ (members env doc s sels').Perm (members env doc s sels)) ↔
          introLast sels' = true)) := by
  refine ⟨fun head below d t => ?_, fun halone huntil => ?_, fun hquiet hsettled hok sels' hperm => ?_⟩
  · exact introField_funcs_iff
      (fun t f d => introspecting_evalSelsFrom env doc (maxDepth + 2) t f below d) t
  · exact undisturbed_iff hobject hroot hfields hsome halone huntil
  · exact permuted_iff hobject hroot hfields hquiet hsettled hok hperm

namespace Sample

/-- `__schema { queryType { name } }`. -/
def schema : Sel :=
  .field ⟨none, bytes "__schema", none, []⟩ []
    [.field ⟨none, bytes "queryType", none, []⟩ [] [.field ⟨none, bytes "name", none, []⟩ [] []]]

/-- `a b __schema { queryType { name } }`. -/
def schemaLast : List Sel := [string "a" [], string "b" [], schema]

/-- `b a __schema { queryType { name } }`. -/
def schemaLast' : List Sel := [string "b" [], string "a" [], schema]

/-- `__schema { queryType { name } } a`. -/
def schemaFirst : List Sel := [schema, string "a" []]

end Sample

theorem schemaLast_intro :
    Undisturbed Sample.env (Sample.doc []) Sample.state Sample.schemaLast ∧
      (members Sample.env (Sample.doc []) Sample.state Sample.schemaLast').Perm
        (members Sample.env (Sample.doc []) Sample.state Sample.schemaLast) := by
  have hnoArgs : ∀ sel ∈ ((Sample.doc []).withSels (ordinary Sample.schemaLast)).nodes, sel.args = [] := by
    decide +kernel
  obtain ⟨hall, hordinary⟩ : Succeeds Sample.env (Sample.doc []) Sample.state Sample.schemaLast ∧
      Succeeds Sample.env (Sample.doc []) Sample.state (ordinary Sample.schemaLast) := by
    unfold Succeeds
    decide +kernel
  have h := @docEval_intro _ _ Sample.env (Sample.doc []) (fun _ _ _ _ _ => rfl) (by decide +kernel)
    Sample.schemaLast (by decide +kernel) (by decide +kernel) Sample.state
  refine ⟨(h.2.1 ?_ fun _ => ?_).mpr ⟨by decide +kernel, .inl rfl⟩,
    ((h.2.2 ?_ ?_ hall Sample.schemaLast' ?_).mpr ?_).2⟩
  · exact hordinary
  · rw [untilIntro_eq (by decide +kernel)]
    exact hall
  · exact ⟨fun _ _ _ _ _ => rfl, fun _ _ _ => rfl⟩
  · intro sel hsel a ha
    rw [hnoArgs sel hsel] at ha
    cases ha
  · exact List.Perm.swap _ _ _
  · decide +kernel

/-- The introspection field and the field behind it succeed alone, and crash together. -/
theorem schemaFirst_crash :
    Succeeds Sample.env (Sample.doc []) Sample.state (ordinary Sample.schemaFirst) ∧
      Succeeds Sample.env (Sample.doc []) Sample.state (untilIntro Sample.schemaFirst) ∧
        ¬ Undisturbed Sample.env (Sample.doc []) Sample.state Sample.schemaFirst := by
  obtain ⟨hordinary, huntil, hcrash⟩ :
      Succeeds Sample.env (Sample.doc []) Sample.state (ordinary Sample.schemaFirst) ∧
        Succeeds Sample.env (Sample.doc []) Sample.state (untilIntro Sample.schemaFirst) ∧
          (exec (docEval Sample.env ((Sample.doc []).withSels Sample.schemaFirst)) Sample.state).1 =
            .error .crash := by
    unfold Succeeds
    decide +kernel
  refine ⟨hordinary, huntil, fun h => ?_⟩
  have hok := h.1
  unfold Succeeds at hok
  rw [hcrash] at hok
  cases hok

end Eval

end Agoo
