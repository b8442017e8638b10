import Agoo.EvalRuns

/-!
# Evaluations do not look at the result

`Blind p`: the evaluation neither reads nor changes the result. `Frames p`: it adds members to the
result that do not depend on those already there. The resolve functions are blind, and
`gql_eval_sels` frames the result.
-/

namespace Agoo

namespace Eval

variable {ρ ω α β : Type}

/-- The state with another result. -/
def State.withResult (s : State ω) (R : List (Bytes × GqlValue ℕ)) : State ω := { s with result := R }

/-- The evaluation does the same with any result, and leaves the result. -/
def Blind (p : EvalM ω α) : Prop :=
  ∀ (s : State ω) R, exec p (s.withResult R) = ((exec p s).1, (exec p s).2.withResult R)

/-- The evaluation does the same with any result, and adds the same members to it. -/
def Frames (p : EvalM ω α) : Prop :=
  ∀ (s : State ω) R, exec p (s.withResult R) = ((exec p (s.withResult [])).1,
    (exec p (s.withResult [])).2.withResult (R ++ (exec p (s.withResult [])).2.result))

/-! ## The rules -/

theorem blind_pure (a : α) : Blind (pure a : EvalM ω α) := fun _ _ => rfl

theorem blind_throw (e : Stop) : Blind (throw e : EvalM ω α) := fun _ _ => rfl

theorem Blind.bind {p : EvalM ω α} {f : α → EvalM ω β} (h : Blind p) (hf : ∀ a, Blind (f a)) :
    Blind (p >>= f) := by
  intro s R
  rw [exec_bind, exec_bind, h s R]
  cases (exec p s).1 with
  | error e => rfl
  | ok a => exact hf a (exec p s).2 R

theorem Blind.ite {c : Prop} [Decidable c] {p q : EvalM ω α} (hp : Blind p) (hq : Blind q) :
    Blind (if c then p else q) := by
  split_ifs
  · exact hp
  · exact hq

/-- What is read of the state is not the result. -/
theorem blind_get {f : State ω → EvalM ω β} (h : ∀ s, Blind (f s)) (hf : ∀ s R, f (s.withResult R) = f s) :
    Blind ((get : EvalM ω (State ω)) >>= f) := by
  intro s R
  rw [exec_get_bind, exec_get_bind, hf]
  exact h s s R

theorem Blind.frames {p : EvalM ω α} (h : Blind p) : Frames p := by
  intro s R
  have hR := h (s.withResult []) R
  have hempty : (exec p (s.withResult [])).2.result = [] := by
    have hnil := congrArg (fun r => r.2.result) (h s [])
    exact hnil
  rw [hempty, List.append_nil]
  exact hR

theorem Frames.bind {p : EvalM ω α} {f : α → EvalM ω β} (h : Frames p) (hf : ∀ a, Frames (f a)) :
    Frames (p >>= f) := by
  intro s R
  rw [exec_bind, exec_bind, h s R]
  cases (exec p (s.withResult [])).1 with
  | error e => rfl
  | ok a =>
    dsimp only
    have hS := fun S => hf a (exec p (s.withResult [])).2 S
    have hself := hS (exec p (s.withResult [])).2.result
    change exec (f a) (exec p (s.withResult [])).2 = _ at hself
    rw [hS, hself]
    dsimp only [State.withResult]
    rw [List.append_assoc]

theorem frames_objectSet (key : Bytes) (v : GqlValue ℕ) :
    Frames (objectSet key v : EvalM ω Unit) := fun _ _ => rfl

theorem Frames.ite {c : Prop} [Decidable c] {p q : EvalM ω α} (hp : Frames p) (hq : Frames q) :
    Frames (if c then p else q) := by
  split_ifs
  · exact hp
  · exact hq

theorem frames_forM {γ : Type} {f : γ → EvalM ω PUnit} {xs : List γ} (h : ∀ x ∈ xs, Frames (f x)) :
    Frames (xs.forM f) := by
  induction xs with
  | nil => exact (blind_pure _).frames
  | cons x xs ih =>
    exact (h x List.mem_cons_self).bind fun _ => ih fun y hy => h y (List.mem_cons_of_mem x hy)

/-- An object is filled in the same way whatever is around it. -/
theorem Frames.filled {p : EvalM ω Unit} (_ : Frames p) : Blind (filled p) := fun _ _ => rfl

/-! ## Primitives -/

theorem blind_modify {f : State ω → State ω} (h : ∀ s R, f (s.withResult R) = (f s).withResult R) :
    Blind (modify f : EvalM ω Unit) := fun s R => congrArg (Prod.mk _) (h s R)

theorem blind_setErr (code : ErrCode) (msg : Bytes) : Blind (setErr code msg : EvalM ω α) :=
  (blind_modify fun _ _ => rfl).bind fun _ => blind_throw _

theorem blind_errCode : Blind (errCode : EvalM ω Unit) :=
  blind_get (fun _ => Blind.ite (blind_throw _) (blind_pure _)) fun _ _ => rfl

theorem blind_ask (f : ω → α) : Blind (ask f) :=
  blind_get (fun _ => blind_pure _) fun _ _ => rfl

theorem exec_ruby (f : ω → Except Err α × ω) (s : State ω) :
    exec (ruby f) s = ((f s.world).1.mapError .raised, { s with world := (f s.world).2 }) := by
  have hset : exec (set { s with world := (f s.world).2 } : EvalM ω PUnit) s =
      (.ok (), { s with world := (f s.world).2 }) := rfl
  unfold ruby
  rw [exec_get_bind, exec_bind_ok hset]
  cases (f s.world).1 with
  | ok a => rfl
  | error e => rfl

theorem blind_ruby (f : ω → Except Err α × ω) : Blind (ruby f) := by
  intro s R
  rw [exec_ruby, exec_ruby]
  rfl

/-! ## Resolve functions -/

section Resolve

variable {env : Env ρ ω}

theorem blind_coerced (ref : ρ) (type : Option ℕ) : Blind (coerced env ref type) := by
  intro s R
  have hset : ∀ t : State ω, exec (set t : EvalM ω PUnit) s = (.ok (), t) := fun _ => rfl
  have hset' : ∀ t : State ω, exec (set t : EvalM ω PUnit) (s.withResult R) = (.ok (), t) :=
    fun _ => rfl
  unfold coerced
  rw [exec_get_bind, exec_get_bind, exec_bind_ok (hset _), exec_bind_ok (hset' _)]
  change exec _ (State.withResult { s with world := (env.coerce ref type s.world).2 } R) = _
  generalize State.mk _ _ _ _ _ = t
  dsimp only [State.withResult]
  cases (env.coerce ref type s.world).1 with
  | ok v => exact blind_pure _ t R
  | error fault =>
    cases fault with
    | raised e => exact blind_throw _ t R
    | null e =>
      have hmodify : Blind (modify fun s : State ω => { s with err := e.or s.err }) :=
        blind_modify fun _ _ => rfl
      exact hmodify.bind (fun _ => blind_errCode.bind fun _ => blind_pure _) t R

theorem blind_convertIn (cell : Option ℕ) (v : GqlValue ℕ) (type : ℕ) :
    Blind (convertIn env cell v type) := fun _ _ => rfl

theorem blind_argValue (field : Option GqlField) (a : Arg) : Blind (argValue env field a) := by
  refine blind_get (fun s => ?_) fun _ _ => rfl
  cases fieldArg field a.name with
  | none => exact blind_pure _
  | some fa => exact (blind_convertIn _ _ _).bind fun _ => Blind.ite (blind_pure _) (blind_throw _)

theorem blind_argValues (field : Option GqlField) (args : List Arg) :
    Blind (argValues env field args) := by
  induction args with
  | nil => exact blind_pure _
  | cons a rest ih => exact (blind_argValue field a).bind fun _ => ih.bind fun _ => blind_pure _

theorem blind_extractArg (field : Option GqlField) (key : Bytes) (args : List Arg)
    (found : Option (GqlValue ℕ)) : Blind (extractArg env field key args found) := by
  induction args generalizing found with
  | nil => exact blind_pure _
  | cons a rest ih =>
    unfold extractArg
    refine Blind.ite (blind_get (fun s => ?_) fun _ _ => rfl) (ih found)
    dsimp only
    split
    · exact ih _
    · exact blind_throw _
    · exact (blind_convertIn _ _ _).bind fun _ => Blind.ite (ih _) (blind_pure _)

/-- A method is blind on every field and selection, and at every depth. -/
def Method.Blind (m : Method ρ ω) : Prop := ∀ field head depth, Eval.Blind (m field head depth)

theorem blind_leaf (v : Leaf) : (leaf v : Method ρ ω).Blind := fun _ _ _ => blind_pure _

theorem blind_typeObject (t : ℕ) : (typeObject t : Method ρ ω).Blind := fun _ _ _ => blind_pure _

theorem blind_itemField (head : Head) : Blind (itemField env head) := by
  unfold itemField
  cases head.type.bind env.table.listBase with
  | none => exact blind_throw _
  | some base => exact blind_pure _

theorem blind_objects (objs : List Cobj) : (objects env objs).Blind :=
  fun _ head _ => (blind_itemField head).bind fun _ => blind_pure _

theorem blind_includeDeprecated (field : Option GqlField) (head : Head) :
    Blind (includeDeprecated env field head) := by
  refine (blind_extractArg field _ head.args none).bind fun found => ?_
  split
  · exact blind_pure _
  · exact blind_pure _

theorem blind_inputValueDefaultValue (a : GqlArg) : (inputValueDefaultValue env a).Blind := by
  intro field head depth
  unfold inputValueDefaultValue
  split
  · exact blind_pure _
  · exact blind_pure _
  · split
    · exact blind_errCode.bind fun _ => blind_pure _
    · exact blind_setErr _ _

theorem blind_typeKind (t : ℕ) : (typeKind env t).Blind := by
  intro field head depth
  unfold typeKind
  split
  · exact blind_pure _
  · exact blind_setErr _ _

theorem blind_typeFields (t : ℕ) : (typeFields env t).Blind := fun field head depth =>
  (blind_includeDeprecated field head).bind fun _ =>
    Blind.ite (blind_pure _) (blind_objects _ field head depth)

theorem blind_typeEnumValues (t : ℕ) : (typeEnumValues env t).Blind := fun field head depth =>
  (blind_includeDeprecated field head).bind fun _ =>
    Blind.ite (blind_pure _) (blind_objects _ field head depth)

theorem blind_typeInterfaces (t : ℕ) : (typeInterfaces env t).Blind := fun field head depth =>
  Blind.ite (blind_pure _) (blind_objects _ field head depth)

theorem blind_typeInputFields (t : ℕ) : (typeInputFields env t).Blind := fun field head depth =>
  Blind.ite (blind_pure _) (blind_objects _ field head depth)

theorem blind_typePossibleTypes (t : ℕ) : (typePossibleTypes env t).Blind := fun field head depth =>
  (blind_itemField head).bind fun _ =>
    Blind.ite (blind_pure _) (Blind.ite (blind_objects _ field head depth) (blind_pure _))

theorem blind_typeOfType (t : ℕ) : (typeOfType env t).Blind := by
  intro field head depth
  refine Blind.ite (blind_pure _) ?_
  cases env.table.listBase t with
  | none => exact blind_pure _
  | some base => exact blind_typeObject base field head depth

theorem blind_schemaTypes : (schemaTypes env).Blind := fun _ head _ =>
  (blind_itemField head).bind fun _ => blind_pure _

theorem blind_schemaOpType (op : Bytes) : (schemaOpType env op).Blind := by
  intro field head depth
  refine (blind_ruby _).bind fun ref => (blind_ask _).bind fun t => ?_
  cases t with
  | none => exact blind_pure _
  | some t => exact blind_typeObject t field head depth

theorem blind_rootTypeMethod : (rootTypeMethod env).Blind := by
  intro field head depth
  refine (blind_extractArg field _ head.args none).bind fun name => ?_
  split
  · exact blind_setErr _ _
  · split
    · exact blind_setErr _ _
    · exact blind_typeObject _ field head depth

theorem blind_methods (obj : Cobj) : ∀ m ∈ obj.methods env, m.2.Blind := by
  have hnil : ∀ m ∈ ([] : List (Bytes × Method ρ ω)), m.2.Blind := fun _ h => absurd h List.not_mem_nil
  cases obj with
  | root =>
    simp only [Cobj.methods, rootMethods, List.forall_mem_cons]
    exact ⟨blind_rootTypeMethod, fun _ _ _ => blind_pure _, hnil⟩
  | schema =>
    simp only [Cobj.methods, schemaMethods, List.forall_mem_cons]
    exact ⟨blind_schemaTypes, blind_schemaOpType _, blind_schemaOpType _, blind_schemaOpType _,
      blind_objects _, hnil⟩
  | type t =>
    simp only [Cobj.methods, typeMethods, List.forall_mem_cons]
    exact ⟨blind_typeKind t, blind_leaf _, blind_leaf _, blind_typeFields t, blind_typeInterfaces t,
      blind_typePossibleTypes t, blind_typeEnumValues t, blind_typeInputFields t, blind_typeOfType t,
      hnil⟩
  | field f =>
    simp only [Cobj.methods, fieldMethods, List.forall_mem_cons]
    exact ⟨blind_leaf _, blind_leaf _, blind_objects _, blind_typeObject _, blind_leaf _,
      blind_leaf _, hnil⟩
  | inputValue a =>
    simp only [Cobj.methods, inputValueMethods, List.forall_mem_cons]
    exact ⟨blind_leaf _, blind_leaf _, blind_typeObject _, blind_inputValueDefaultValue a, hnil⟩
  | enumValue v =>
    simp only [Cobj.methods, enumValueMethods, List.forall_mem_cons]
    exact ⟨blind_leaf _, blind_leaf _, blind_leaf _, blind_leaf _, hnil⟩
  | directive d =>
    simp only [Cobj.methods, directiveMethods, List.forall_mem_cons]
    exact ⟨blind_leaf _, blind_leaf _, blind_leaf _, blind_objects _, hnil⟩

theorem blind_cobjResolve (obj : Cobj) : (cobjResolve env obj).Blind := by
  intro field head depth
  unfold cobjResolve
  cases hm : (obj.methods env).lookup head.name with
  | none => exact blind_setErr _ _
  | some m =>
    obtain ⟨before, after, hmem, -⟩ := List.lookup_eq_some_iff.mp hm
    exact blind_methods obj (head.name, m) (hmem ▸ List.mem_append_right _ List.mem_cons_self) field
      head depth

theorem blind_introEval (head : Head) (depth : ℕ) : Blind (introEval env head depth) := by
  refine Blind.ite (Blind.ite (blind_setErr _ _) ?_) (blind_setErr _ _)
  exact Blind.bind (blind_modify fun _ _ => rfl) fun _ => blind_cobjResolve .root _ head depth

theorem blind_resolveChild (child : ρ) (field : Option GqlField) (head : Head) (noSels : Bool)
    (depth : ℕ) : Blind (resolveChild env child field head noSels depth) := by
  unfold resolveChild
  split
  · exact blind_pure _
  · refine Blind.ite ((blind_coerced _ _).bind fun v => ?_) (Blind.ite (blind_pure _) (blind_pure _))
    cases v with
    | none => exact blind_pure _
    | some v => exact blind_pure _

theorem blind_resolveRuby (kind : GqlOpKind) (ref : ρ) (field : Option GqlField) (head : Head)
    (noSels : Bool) (depth : ℕ) : Blind (resolveRuby env kind ref field head noSels depth) := by
  refine Blind.ite (Blind.ite ((blind_ask _).bind fun t => ?_) ?_) ?_
  · cases t with
    | none => exact blind_setErr _ _
    | some t => exact blind_pure _
  · cases kind with
    | query => exact (blind_introEval head depth).bind fun _ => blind_pure _
    | mutation => exact blind_setErr _ _
    | subscription => exact blind_setErr _ _
  · refine Blind.bind ((blind_ruby _).bind fun _ => (Blind.ite (blind_pure _)
      (blind_argValues field head.args)).bind fun _ => blind_ruby _) fun child =>
        (blind_ask _).bind fun subject => ?_
    cases subject with
    | some b => exact blind_pure _
    | none => exact (blind_resolveChild child field head noSels depth).bind fun _ => blind_pure _

/-- The resolve functions neither read nor change the result. -/
theorem blind_resolve (kind : GqlOpKind) (target : Target ρ) (field : Option GqlField) (head : Head)
    (noSels : Bool) (depth : ℕ) : Blind (resolve env kind target field head noSels depth) := by
  refine blind_get (fun s => ?_) fun _ _ => rfl
  split
  · exact blind_resolveRuby kind _ field head noSels depth
  · exact (blind_cobjResolve _ field head depth).bind fun _ => blind_pure _
  · exact blind_throw _
  · exact blind_throw _

theorem blind_fragInclude (doc : Doc) (target : Target ρ) (on : Option ℕ) (uses : List (DirUse ℕ ℕ)) :
    Blind (fragInclude env doc target on uses) := by
  have hdir : Blind (dirInclude (ω := ω) env doc uses) :=
    blind_get (fun _ => blind_pure _) fun _ _ => rfl
  cases on with
  | none => exact hdir
  | some t =>
    refine Blind.bind (blind_get (fun s => ?_) fun _ _ => rfl) fun _ => Blind.ite (blind_pure _) hdir
    split
    · exact blind_ask _
    · exact blind_pure _
    · exact blind_throw _
    · exact blind_throw _

end Resolve

/-! ## Filling -/

section Fill

variable {env : Env ρ ω} {eval : Target ρ → Option GqlField → ℕ → EvalM ω Unit}
  (h : ∀ target field d, Frames (eval target field d))

theorem blind_goOn (o : Except Stop Unit) : Blind (goOn o : EvalM ω Unit) := by
  cases o with
  | ok u => exact blind_pure _
  | error stop => exact blind_throw stop

include h

theorem blind_filledAll (field : Option GqlField) (d : ℕ) (targets : List (Target ρ)) :
    Blind (filledAll eval field d targets) := by
  induction targets with
  | nil => exact blind_pure _
  | cons target rest ih =>
    refine (h target field d).filled.bind fun r => ?_
    split
    · exact blind_pure _
    · exact ih.bind fun _ => blind_pure _

theorem blind_filledWhile (field : Option GqlField) (d : ℕ) (targets : List (Target ρ)) :
    Blind (filledWhile eval field d targets) := by
  induction targets with
  | nil => exact blind_pure _
  | cons target rest ih =>
    refine blind_get (fun s => Blind.ite (blind_pure _) ?_) fun _ _ => rfl
    refine (h target field d).filled.bind fun r => ?_
    split
    · exact blind_pure _
    · exact blind_pure _
    · exact ih.bind fun _ => blind_pure _

theorem blind_elements (array : ρ) (item : Option GqlField ⊕ Option ℕ) (d i n : ℕ) :
    Blind (elements eval env array item d i n) := by
  induction n generalizing i with
  | zero => exact blind_pure _
  | succ n ih =>
    refine (blind_ask _).bind fun ref => ?_
    cases item with
    | inl field =>
      exact (h _ field d).filled.bind fun _ => (blind_goOn _).bind fun _ => (ih (i + 1)).bind fun _ =>
        blind_pure _
    | inr type =>
      refine (blind_coerced ref type).bind fun v => ?_
      cases v with
      | none => exact blind_pure _
      | some v => exact (ih (i + 1)).bind fun _ => blind_pure _

theorem frames_give (key : Bytes) (r : Reply ρ) : Frames (give eval env key r) := by
  have hset : ∀ v o, Frames (do objectSet key v; goOn o : EvalM ω Unit) := fun v o =>
    (frames_objectSet key v).bind fun _ => (blind_goOn o).frames
  cases r with
  | value v => exact frames_objectSet key _
  | nothing => exact (blind_pure _).frames
  | inPlace target field d => exact h target field d
  | object target field d => exact (h target field d).filled.frames.bind fun r => hset r.2 r.1
  | list targets field d =>
    exact (blind_filledAll h field d targets).frames.bind fun r => hset _ r.1
  | iterated targets field d report =>
    exact (blind_filledWhile h field d targets).frames.bind fun r =>
      (frames_objectSet key _).bind fun _ => (blind_goOn r.1).frames.bind fun _ =>
        (Blind.ite blind_errCode (blind_pure _)).frames
  | elements array item d =>
    refine (blind_ruby _).frames.bind fun n => (blind_elements h array item d 0 n).frames.bind fun vs => ?_
    cases vs with
    | none => exact (blind_pure _).frames
    | some vs => exact frames_objectSet key _

end Fill

section Runs

variable {env : Env ρ ω} {doc : Doc}

theorem frames_evalSel {eval : EvalSels ρ ω} (h : ∀ target field sels d, Frames (eval target field sels d))
    (target : Target ρ) (field : Option GqlField) (d : ℕ) (sel : Sel) :
    Frames (evalSel env doc eval target field d sel) := by
  have hfrag : ∀ on uses sels, Frames (evalFrag env doc eval target field d on uses sels) :=
    fun on uses sels => (blind_fragInclude doc target on uses).frames.bind fun _ =>
      Frames.ite (h target field sels d) (blind_pure _).frames
  cases sel with
  | inline on dir inlineDir sels => exact hfrag on inlineDir sels
  | spread name dir => exact frames_forM fun frag _ => hfrag frag.on frag.dir frag.sels
  | field head dir sels =>
    exact (blind_resolve doc.kind target _ head sels.isEmpty d).frames.bind fun r =>
      frames_give (fun t f d => h t f sels d) r.1 r.2

/-- **`gql_eval_sels` adds members that do not depend on the result it is given.** -/
theorem frames_evalSelsFrom {bottom : EvalSels ρ ω}
    (hbottom : ∀ target field sels d, Frames (bottom target field sels d)) (n : ℕ) (target : Target ρ)
    (field : Option GqlField) (sels : List Sel) (d : ℕ) :
    Frames (evalSelsFrom env doc bottom n target field sels d) := by
  induction n generalizing target field sels d with
  | zero => exact hbottom target field sels d
  | succ n ih =>
    exact Frames.ite (blind_setErr _ _).frames
      (frames_forM fun sel _ => frames_evalSel (fun t f sels d => ih t f sels d) target field (d + 1) sel)

theorem frames_evalSels (target : Target ρ) (field : Option GqlField) (sels : List Sel) (d : ℕ) :
    Frames (evalSels env doc target field sels d) :=
  frames_evalSelsFrom (fun _ _ _ _ => (blind_throw _).frames) _ target field sels d

end Runs

end Eval

end Agoo
