import Agoo.GqlEval

/-!
# Rules for evaluations

`Meets I Q p`: from a state with `I` the evaluation `p` leaves one with `I`, and what it returns has
`Q`. `Stable` invariants are those that what a resolve function does to the state keeps; for them the
resolve functions meet: the objects they leave to fill are at a greater depth.
-/

namespace Agoo

namespace Eval

variable {ρ ω α β : Type}

/-! ## Running -/

theorem exec_bind (p : EvalM ω α) (f : α → EvalM ω β) (s : State ω) :
    exec (p >>= f) s =
      ((exec p s).1.casesOn (fun e => (.error e, (exec p s).2)) fun a => exec (f a) (exec p s).2) := by
  unfold exec
  rw [ExceptT.run_bind, StateT.run_bind]
  rcases StateT.run (ExceptT.run p) s with ⟨a | e, s'⟩
  · rfl
  · rfl

theorem exec_bind_ok {p : EvalM ω α} {f : α → EvalM ω β} {s s' : State ω} {a : α}
    (h : exec p s = (.ok a, s')) : exec (p >>= f) s = exec (f a) s' := by
  rw [exec_bind, h]

theorem exec_bind_error {p : EvalM ω α} {f : α → EvalM ω β} {s s' : State ω} {e : Stop}
    (h : exec p s = (.error e, s')) : exec (p >>= f) s = (.error e, s') := by
  rw [exec_bind, h]

theorem exec_get_bind (f : State ω → EvalM ω β) (s : State ω) :
    exec ((get : EvalM ω (State ω)) >>= f) s = exec (f s) s := rfl

theorem exec_filled (p : EvalM ω Unit) (s : State ω) :
    exec (filled p) s =
      (.ok ((exec p { s with result := [] }).1, .object (exec p { s with result := [] }).2.result),
        { (exec p { s with result := [] }).2 with result := s.result }) := rfl

theorem exec_convertIn (env : Env ρ ω) (cell : Option ℕ) (v : GqlValue ℕ) (type : ℕ) (s : State ω) :
    exec (convertIn env cell v type) s =
      (.ok (env.convert type v s.err),
        { s with
          err := (env.convert type v s.err).err
          cells := cell.elim s.cells fun i => s.cells.set i (env.convert type v s.err).value }) := rfl

/-! ## The rules -/

/-- From `I` to `I`, and `Q` of what is returned. -/
def Meets (I : State ω → Prop) (Q : α → Prop) (p : EvalM ω α) : Prop :=
  ∀ s, I s → I (exec p s).2 ∧ ∀ a, (exec p s).1 = .ok a → Q a

/-- Nothing is asked of what is returned. -/
def Anything (_ : α) : Prop := True

variable {I : State ω → Prop} {Q : α → Prop} {R : β → Prop}

theorem meets_pure {a : α} (h : Q a) : Meets I Q (pure a : EvalM ω α) := by
  intro s hs
  refine ⟨hs, fun b hb => ?_⟩
  obtain rfl := Except.ok.inj hb
  exact h

theorem meets_throw (e : Stop) : Meets I Q (throw e : EvalM ω α) :=
  fun _ hs => ⟨hs, fun _ h => by cases h⟩

theorem meets_get : Meets I I (get : EvalM ω (State ω)) := by
  intro s hs
  refine ⟨hs, fun t ht => ?_⟩
  obtain rfl := Except.ok.inj ht
  exact hs

theorem meets_set {s' : State ω} (h : I s') : Meets I Anything (set s' : EvalM ω PUnit) :=
  fun _ _ => ⟨h, fun _ _ => trivial⟩

theorem Meets.mono {Q' : α → Prop} {p : EvalM ω α} (h : Meets I Q p) (hQ : ∀ a, Q a → Q' a) :
    Meets I Q' p := fun s hs => ⟨(h s hs).1, fun a ha => hQ a ((h s hs).2 a ha)⟩

theorem Meets.bind {p : EvalM ω α} {f : α → EvalM ω β} (h : Meets I Q p)
    (hf : ∀ a, Q a → Meets I R (f a)) : Meets I R (p >>= f) := by
  intro s hs
  obtain ⟨hI, hQ⟩ := h s hs
  cases hp : exec p s with
  | mk o s' =>
    rw [hp] at hI hQ
    cases o with
    | error e =>
      rw [exec_bind_error hp]
      exact ⟨hI, fun _ h => by cases h⟩
    | ok a =>
      rw [exec_bind_ok hp]
      exact hf a (hQ a rfl) s' hI

theorem Meets.ite {c : Prop} [Decidable c] {p q : EvalM ω α} (hp : c → Meets I Q p)
    (hq : ¬ c → Meets I Q q) : Meets I Q (if c then p else q) := by
  split_ifs with h
  · exact hp h
  · exact hq h

theorem meets_modify {f : State ω → State ω} (h : ∀ s, I s → I (f s)) :
    Meets I Anything (modify f : EvalM ω Unit) := fun s hs => ⟨h s hs, fun _ _ => trivial⟩

/-! ## Invariants of the resolve functions -/

/-- The functions of the document are changed to those of introspection, if at all. -/
def Toward (s s' : State ω) : Prop := s.funcs = .cobj → s'.funcs = .cobj

/-- The invariant is about the cells and the result, and does not mind that introspection begins. -/
def Stable (I : State ω → Prop) : Prop :=
  ∀ s s' : State ω, s'.cells = s.cells → s'.result = s.result → Toward s s' → I s → I s'

/-- The conversion of an argument to the type it has in a field keeps the invariant. -/
def Converts (env : Env ρ ω) (I : State ω → Prop) (field : Option GqlField) (a : Arg) : Prop :=
  ∀ fa, fieldArg field a.name = some fa → ∀ s v i, I s → a.cell = some i → s.cells[i]? = some v →
    I { s with cells := s.cells.set i (env.convert fa.type v s.err).value }

section Stable

variable {env : Env ρ ω} (hI : Stable I)

include hI

theorem meets_setErr (code : ErrCode) (msg : Bytes) : Meets I Q (setErr code msg : EvalM ω α) := by
  unfold setErr
  refine Meets.bind (meets_modify ?_) fun _ _ => meets_throw _
  exact fun s hs => hI s _ rfl rfl id hs

omit hI in
theorem meets_errCode : Meets I Anything (errCode : EvalM ω Unit) :=
  meets_get.bind fun _ _ => Meets.ite (fun _ => meets_throw _) fun _ => meets_pure trivial

omit hI in
theorem meets_ask (f : ω → α) : Meets I Anything (ask f) :=
  meets_get.bind fun _ _ => meets_pure trivial

theorem meets_ruby (f : ω → Except Err α × ω) : Meets I Anything (ruby f) := by
  refine meets_get.bind fun s hs => ?_
  refine (meets_set (hI s { s with world := (f s.world).2 } rfl rfl id hs)).bind fun _ _ => ?_
  cases (f s.world).1 with
  | ok a => exact meets_pure trivial
  | error e => exact meets_throw _

/-- A conversion, of the value in the cell or of a null without one. -/
theorem meets_convert {field : Option GqlField} {a : Arg} (h : Converts env I field a) {fa : GqlArg}
    (hfa : fieldArg field a.name = some fa) {s : State ω} (hs : I s) {v : GqlValue ℕ}
    (hv : ∀ w, cellValue s.cells a.cell = some w → w = v) :
    I (exec (convertIn env a.cell v fa.type) s).2 := by
  rw [exec_convertIn]
  cases hcell : a.cell with
  | none => exact hI s _ rfl rfl id hs
  | some i =>
    cases hi : s.cells[i]? with
    | none =>
      refine hI s _ ?_ rfl id hs
      exact List.set_eq_of_length_le (List.getElem?_eq_none_iff.mp hi)
    | some w =>
      obtain rfl := hv w (by rw [hcell]; exact hi)
      refine hI _ _ ?_ ?_ ?_ (h fa hfa s w i hs hcell hi)
      · rfl
      · rfl
      · exact id

theorem meets_argValue {field : Option GqlField} {a : Arg} (h : Converts env I field a) :
    Meets I Anything (argValue env field a) := by
  intro s hs
  refine ⟨?_, fun _ _ => trivial⟩
  unfold argValue
  rw [exec_get_bind]
  cases hfa : fieldArg field a.name with
  | none => exact hs
  | some fa =>
    have hconv := meets_convert hI h hfa hs (v := (cellValue s.cells a.cell).getD .null)
      fun w hw => by rw [hw]; rfl
    rw [exec_convertIn] at hconv
    dsimp only
    rw [exec_bind_ok (exec_convertIn env a.cell _ fa.type s)]
    split_ifs
    · exact hconv
    · exact hconv

theorem meets_argValues {field : Option GqlField} {args : List Arg}
    (h : ∀ a ∈ args, Converts env I field a) : Meets I Anything (argValues env field args) := by
  induction args with
  | nil => exact meets_pure trivial
  | cons a rest ih =>
    exact (meets_argValue hI (h a List.mem_cons_self)).bind fun _ _ =>
      (ih fun b hb => h b (List.mem_cons_of_mem a hb)).bind fun _ _ => meets_pure trivial

theorem meets_extractArg {field : Option GqlField} {args : List Arg} (key : Bytes)
    (found : Option (GqlValue ℕ)) (h : ∀ a ∈ args, Converts env I field a) :
    Meets I Anything (extractArg env field key args found) := by
  induction args generalizing found with
  | nil => exact meets_pure trivial
  | cons a rest ih =>
    have hrest := fun found => ih found fun b hb => h b (List.mem_cons_of_mem a hb)
    unfold extractArg
    refine Meets.ite (fun _ => ?_) fun _ => hrest found
    intro s hs
    rw [exec_get_bind]
    cases hfa : fieldArg field a.name with
    | none => exact hrest _ s hs
    | some fa =>
      cases hv : cellValue s.cells a.cell with
      | none => exact meets_throw _ s hs
      | some v =>
        have hconv := meets_convert hI (h a List.mem_cons_self) hfa hs (v := v) fun w hw => by
          rw [hv] at hw
          exact (Option.some.inj hw).symm
        rw [exec_convertIn] at hconv
        dsimp only
        rw [exec_bind_ok (exec_convertIn env a.cell v fa.type s)]
        exact Meets.ite (fun _ => hrest _) (fun _ => meets_pure trivial) _ hconv

/-! ## The methods of introspection -/

/-- Objects are filled at a greater depth, and the result itself only from the depth of the
operation. -/
def Reply.Deeper (d : ℕ) : Reply ρ → Prop
  | value _ => True
  | nothing => True
  | inPlace _ _ d' => d = 0 ∧ d < d'
  | object _ _ d' => d < d'
  | list _ _ d' => d < d'
  | iterated _ _ d' _ => d < d'
  | elements _ _ d' => d < d'

/-- The method keeps the invariant when the conversions of its arguments do, and goes deeper. -/
def Method.Meets (env : Env ρ ω) (I : State ω → Prop) (m : Method ρ ω) : Prop :=
  ∀ field head depth, (∀ a ∈ head.args, Converts env I field a) →
    Eval.Meets I (Reply.Deeper depth) (m field head depth)

omit hI in
theorem meets_leaf (v : Leaf) : (leaf v : Method ρ ω).Meets env I := fun _ _ _ _ => meets_pure trivial

omit hI in
theorem meets_typeObject (t : ℕ) : (typeObject t : Method ρ ω).Meets env I :=
  fun _ _ depth _ => meets_pure (Nat.lt_succ_self depth)

omit hI in
theorem meets_itemField (head : Head) : Meets I Anything (itemField env head) := by
  unfold itemField
  cases head.type.bind env.table.listBase with
  | none => exact meets_throw _
  | some base => exact meets_pure trivial

omit hI in
theorem meets_objects (objs : List Cobj) : (objects env objs).Meets env I := fun _ head depth _ =>
  (meets_itemField head).bind fun _ _ => meets_pure (Nat.lt_succ_self depth)

theorem meets_includeDeprecated {field : Option GqlField} {head : Head}
    (h : ∀ a ∈ head.args, Converts env I field a) :
    Meets I Anything (includeDeprecated env field head) := by
  refine (meets_extractArg hI _ none h).bind fun found _ => ?_
  split
  · exact meets_pure trivial
  · exact meets_pure trivial

theorem meets_inputValueDefaultValue (a : GqlArg) : (inputValueDefaultValue env a).Meets env I := by
  intro field head depth _
  unfold inputValueDefaultValue
  split
  · exact meets_pure trivial
  · exact meets_pure trivial
  · split
    · exact meets_errCode.bind fun _ _ => meets_pure trivial
    · exact meets_setErr hI _ _

theorem meets_typeKind (t : ℕ) : (typeKind env t).Meets env I := by
  intro field head depth _
  unfold typeKind
  split
  · exact meets_pure trivial
  · exact meets_setErr hI _ _

theorem meets_typeFields (t : ℕ) : (typeFields env t).Meets env I := fun field head depth h =>
  (meets_includeDeprecated hI h).bind fun _ _ =>
    Meets.ite (fun _ => meets_pure trivial) fun _ => meets_objects _ field head depth h

omit hI in
theorem meets_typeInterfaces (t : ℕ) : (typeInterfaces env t).Meets env I := fun field head depth h =>
  Meets.ite (fun _ => meets_pure trivial) fun _ => meets_objects _ field head depth h

omit hI in
theorem meets_typePossibleTypes (t : ℕ) : (typePossibleTypes env t).Meets env I :=
  fun field head depth h => (meets_itemField head).bind fun _ _ =>
    Meets.ite (fun _ => meets_pure (Nat.lt_succ_self depth)) fun _ =>
      Meets.ite (fun _ => meets_objects _ field head depth h) fun _ => meets_pure trivial

theorem meets_typeEnumValues (t : ℕ) : (typeEnumValues env t).Meets env I := fun field head depth h =>
  (meets_includeDeprecated hI h).bind fun _ _ =>
    Meets.ite (fun _ => meets_pure trivial) fun _ => meets_objects _ field head depth h

omit hI in
theorem meets_typeInputFields (t : ℕ) : (typeInputFields env t).Meets env I :=
  fun field head depth h =>
    Meets.ite (fun _ => meets_pure trivial) fun _ => meets_objects _ field head depth h

omit hI in
theorem meets_typeOfType (t : ℕ) : (typeOfType env t).Meets env I := by
  intro field head depth h
  refine Meets.ite (fun _ => meets_pure trivial) fun _ => ?_
  cases env.table.listBase t with
  | none => exact meets_pure trivial
  | some base => exact meets_typeObject base field head depth h

omit hI in
theorem meets_schemaTypes : (schemaTypes env).Meets env I := fun _ head depth _ =>
  (meets_itemField head).bind fun _ _ => meets_pure (Nat.lt_succ_self depth)

theorem meets_schemaOpType (op : Bytes) : (schemaOpType env op).Meets env I := by
  intro field head depth h
  refine (meets_ruby hI _).bind fun ref _ => (meets_ask _).bind fun t _ => ?_
  cases t with
  | none => exact meets_pure trivial
  | some t => exact meets_typeObject t field head depth h

theorem meets_rootTypeMethod : (rootTypeMethod env).Meets env I := by
  intro field head depth h
  refine (meets_extractArg hI _ none h).bind fun name _ => ?_
  split
  · exact meets_setErr hI _ _
  · split
    · exact meets_setErr hI _ _
    · exact meets_typeObject _ field head depth h

omit hI in
theorem meets_rootSchema : (rootSchema : Method ρ ω).Meets env I :=
  fun _ _ depth _ => meets_pure (Nat.lt_succ_self depth)

theorem meets_methods (obj : Cobj) : ∀ m ∈ obj.methods env, m.2.Meets env I := by
  cases obj with
  | root =>
    simp only [Cobj.methods, rootMethods, List.forall_mem_cons]
    exact ⟨meets_rootTypeMethod hI, meets_rootSchema, nofun⟩
  | schema =>
    simp only [Cobj.methods, schemaMethods, List.forall_mem_cons]
    exact ⟨meets_schemaTypes, meets_schemaOpType hI _, meets_schemaOpType hI _,
      meets_schemaOpType hI _, meets_objects _, nofun⟩
  | type t =>
    simp only [Cobj.methods, typeMethods, List.forall_mem_cons]
    exact ⟨meets_typeKind hI t, meets_leaf _, meets_leaf _, meets_typeFields hI t,
      meets_typeInterfaces t, meets_typePossibleTypes t, meets_typeEnumValues hI t,
      meets_typeInputFields t, meets_typeOfType t, nofun⟩
  | field f =>
    simp only [Cobj.methods, fieldMethods, List.forall_mem_cons]
    exact ⟨meets_leaf _, meets_leaf _, meets_objects _, meets_typeObject _, meets_leaf _,
      meets_leaf _, nofun⟩
  | inputValue a =>
    simp only [Cobj.methods, inputValueMethods, List.forall_mem_cons]
    exact ⟨meets_leaf _, meets_leaf _, meets_typeObject _, meets_inputValueDefaultValue hI a, nofun⟩
  | enumValue v =>
    simp only [Cobj.methods, enumValueMethods, List.forall_mem_cons]
    exact ⟨meets_leaf _, meets_leaf _, meets_leaf _, meets_leaf _, nofun⟩
  | directive d =>
    simp only [Cobj.methods, directiveMethods, List.forall_mem_cons]
    exact ⟨meets_leaf _, meets_leaf _, meets_leaf _, meets_objects _, nofun⟩

theorem meets_cobjResolve (obj : Cobj) : (cobjResolve env obj).Meets env I := by
  intro field head depth h
  unfold cobjResolve
  cases hm : (obj.methods env).lookup head.name with
  | none => exact meets_setErr hI _ _
  | some m =>
    obtain ⟨before, after, hmem, -⟩ := List.lookup_eq_some_iff.mp hm
    exact meets_methods hI obj (head.name, m) (hmem ▸ List.mem_append_right _ List.mem_cons_self)
      field head depth h

/-! ## The resolve functions -/

theorem meets_introEval (head : Head) (depth : ℕ) :
    Meets I (Reply.Deeper depth) (introEval env head depth) := by
  unfold introEval
  refine Meets.ite (fun _ => ?_) fun _ => meets_setErr hI _ _
  refine Meets.ite (fun _ => meets_setErr hI _ _) fun _ => ?_
  refine Meets.bind (meets_modify fun s hs => hI s _ rfl rfl (fun _ => rfl) hs) fun _ _ => ?_
  exact meets_cobjResolve hI .root _ head depth fun a _ fa hfa => by cases hfa

theorem meets_coerced (ref : ρ) (type : Option ℕ) : Meets I Anything (coerced env ref type) := by
  refine meets_get.bind fun s hs => ?_
  refine (meets_set (hI s { s with world := (env.coerce ref type s.world).2 } rfl rfl id hs)).bind
    fun _ _ => ?_
  split
  · exact meets_pure trivial
  · exact meets_throw _
  · refine Meets.bind (meets_modify fun s hs => hI s _ rfl rfl id hs) fun _ _ => ?_
    exact meets_errCode.bind fun _ _ => meets_pure trivial

theorem meets_callMethod (ref : ρ) {field : Option GqlField} {head : Head}
    (h : ∀ a ∈ head.args, Converts env I field a) :
    Meets I Anything (callMethod env ref field head) :=
  (meets_ruby hI _).bind fun _ _ =>
    (Meets.ite (fun _ => meets_pure trivial) fun _ => meets_argValues hI h).bind fun _ _ =>
      meets_ruby hI _

theorem meets_resolveChild (child : ρ) (field : Option GqlField) (head : Head) (noSels : Bool)
    (depth : ℕ) : Meets I (Reply.Deeper depth) (resolveChild env child field head noSels depth) := by
  unfold resolveChild
  have hlt := Nat.lt_succ_self depth
  split
  · exact meets_pure hlt
  · refine Meets.ite (fun _ => (meets_coerced hI _ _).bind fun v _ => ?_) fun _ =>
      Meets.ite (fun h0 => meets_pure ⟨h0, hlt⟩) fun _ => meets_pure hlt
    cases v with
    | none => exact meets_pure trivial
    | some v => exact meets_pure trivial

theorem meets_resolveInternal (kind : GqlOpKind) (ref : ρ) (head : Head) (depth : ℕ) :
    Meets I (fun r => r.2.Deeper depth) (resolveInternal env kind ref head depth) := by
  unfold resolveInternal
  refine Meets.ite (fun _ => (meets_ask _).bind fun t _ => ?_) fun _ => ?_
  · cases t with
    | none => exact meets_setErr hI _ _
    | some t => exact meets_pure trivial
  · cases kind with
    | query => exact (meets_introEval hI head depth).bind fun _ hr => meets_pure hr
    | mutation => exact meets_setErr hI _ _
    | subscription => exact meets_setErr hI _ _

theorem meets_resolveRuby (kind : GqlOpKind) (ref : ρ) {field : Option GqlField} {head : Head}
    (noSels : Bool) (depth : ℕ) (h : ∀ a ∈ head.args, Converts env I field a) :
    Meets I (fun r => r.2.Deeper depth) (resolveRuby env kind ref field head noSels depth) := by
  refine Meets.ite (fun _ => meets_resolveInternal hI kind ref head depth) fun _ => ?_
  refine (meets_callMethod hI ref h).bind fun child _ => (meets_ask _).bind fun subject _ => ?_
  cases subject with
  | some s => exact meets_pure trivial
  | none => exact (meets_resolveChild hI child field head noSels depth).bind fun _ hr => meets_pure hr

/-- **A resolve function keeps a stable invariant when its conversions do, and what it leaves to fill
is deeper.** -/
theorem meets_resolve (kind : GqlOpKind) (target : Target ρ) {field : Option GqlField} {head : Head}
    (noSels : Bool) (depth : ℕ) (h : ∀ a ∈ head.args, Converts env I field a) :
    Meets I (fun r => r.2.Deeper depth) (resolve env kind target field head noSels depth) := by
  refine meets_get.bind fun s _ => ?_
  split
  · exact meets_resolveRuby hI kind _ noSels depth h
  · exact (meets_cobjResolve hI _ field head depth h).bind fun _ hr => meets_pure hr
  · exact meets_throw _
  · exact meets_throw _

omit hI in
theorem meets_typeOf (target : Target ρ) : Meets I Anything (typeOf env target) := by
  refine meets_get.bind fun s _ => ?_
  split
  · exact meets_ask _
  · exact meets_pure trivial
  · exact meets_throw _
  · exact meets_throw _

end Stable

/-! ## Equal evaluations -/

/-- The same run from every state with `I`. -/
def EqOn (I : State ω → Prop) (p q : EvalM ω α) : Prop := ∀ s, I s → exec p s = exec q s

theorem eqOn_refl (p : EvalM ω α) : EqOn I p p := fun _ _ => rfl

theorem EqOn.bind {p q : EvalM ω α} {f g : α → EvalM ω β} (h : EqOn I p q) (hp : Meets I Q p)
    (hf : ∀ a, Q a → EqOn I (f a) (g a)) : EqOn I (p >>= f) (q >>= g) := by
  intro s hs
  have hpq := h s hs
  obtain ⟨hI, hQ⟩ := hp s hs
  cases hrun : exec p s with
  | mk o s' =>
    rw [hrun] at hpq hI hQ
    cases o with
    | error e => rw [exec_bind_error hrun, exec_bind_error hpq.symm]
    | ok a =>
      rw [exec_bind_ok hrun, exec_bind_ok hpq.symm]
      exact hf a (hQ a rfl) s' hI

theorem eqOn_of_eq {p q : EvalM ω α} (h : p = q) : EqOn I p q := fun _ _ => by rw [h]

theorem eq_of_eqOn {p q : EvalM ω α} (h : EqOn (fun _ => True) p q) : p = q :=
  funext fun s => h s trivial

/-! ## Filling -/

/-- The same of an invariant about the cells alone. -/
def Free (I : State ω → Prop) : Prop :=
  ∀ s s' : State ω, s'.cells = s.cells → Toward s s' → I s → I s'

theorem Free.stable (h : Free I) : Stable I := fun s s' hcells _ hfuncs hs => h s s' hcells hfuncs hs

section Fill

variable {env : Env ρ ω} {eval eval' : Target ρ → Option GqlField → ℕ → EvalM ω Unit} {d : ℕ}
  (hI : Free I)

include hI

theorem meets_objectSet (key : Bytes) (v : GqlValue ℕ) :
    Meets I Anything (objectSet key v : EvalM ω Unit) :=
  meets_modify fun s hs => hI s _ rfl id hs

omit hI in
theorem meets_goOn (o : Except Stop Unit) : Meets I Anything (goOn o : EvalM ω Unit) := by
  cases o with
  | ok u => exact meets_pure trivial
  | error stop => exact meets_throw stop

theorem meets_filled {p : EvalM ω Unit} (hp : Meets I Anything p) : Meets I Anything (filled p) := by
  intro s hs
  rw [exec_filled]
  have hin := (hp { s with result := [] } (hI s _ rfl id hs)).1
  refine ⟨hI _ _ ?_ ?_ hin, fun _ _ => trivial⟩
  · rfl
  · exact id

theorem eqOn_filled {p q : EvalM ω Unit} (h : EqOn I p q) : EqOn I (filled p) (filled q) := by
  intro s hs
  rw [exec_filled, exec_filled, h { s with result := [] } (hI s _ rfl id hs)]

theorem meets_filledAll (field : Option GqlField) (he : ∀ t, Meets I Anything (eval t field d))
    (targets : List (Target ρ)) : Meets I Anything (filledAll eval field d targets) := by
  induction targets with
  | nil => exact meets_pure trivial
  | cons target rest ih =>
    refine (meets_filled hI (he target)).bind fun r _ => ?_
    split
    · exact meets_pure trivial
    · exact ih.bind fun _ _ => meets_pure trivial

theorem eqOn_filledAll (field : Option GqlField) (he : ∀ t, Meets I Anything (eval t field d))
    (h : ∀ t, EqOn I (eval t field d) (eval' t field d)) (targets : List (Target ρ)) :
    EqOn I (filledAll eval field d targets) (filledAll eval' field d targets) := by
  induction targets with
  | nil => exact eqOn_refl _
  | cons target rest ih =>
    refine (eqOn_filled hI (h target)).bind (meets_filled hI (he target)) fun r _ => ?_
    split
    · exact eqOn_refl _
    · exact ih.bind (meets_filledAll hI field he rest) fun _ _ => eqOn_refl _

theorem meets_filledWhile (field : Option GqlField) (he : ∀ t, Meets I Anything (eval t field d))
    (targets : List (Target ρ)) : Meets I Anything (filledWhile eval field d targets) := by
  induction targets with
  | nil => exact meets_pure trivial
  | cons target rest ih =>
    refine meets_get.bind fun _ _ => Meets.ite (fun _ => meets_pure trivial) fun _ => ?_
    refine (meets_filled hI (he target)).bind fun r _ => ?_
    split
    · exact meets_pure trivial
    · exact meets_pure trivial
    · exact ih.bind fun _ _ => meets_pure trivial

omit hI in
theorem EqOn.ite {c : Prop} [Decidable c] {p q p' q' : EvalM ω α} (hp : c → EqOn I p p')
    (hq : ¬ c → EqOn I q q') : EqOn I (if c then p else q) (if c then p' else q') := by
  split_ifs with h
  · exact hp h
  · exact hq h

theorem eqOn_filledWhile (field : Option GqlField) (he : ∀ t, Meets I Anything (eval t field d))
    (h : ∀ t, EqOn I (eval t field d) (eval' t field d)) (targets : List (Target ρ)) :
    EqOn I (filledWhile eval field d targets) (filledWhile eval' field d targets) := by
  induction targets with
  | nil => exact eqOn_refl _
  | cons target rest ih =>
    refine (eqOn_refl _).bind meets_get fun _ _ => EqOn.ite (fun _ => eqOn_refl _) fun _ => ?_
    refine (eqOn_filled hI (h target)).bind (meets_filled hI (he target)) fun r _ => ?_
    split
    · exact eqOn_refl _
    · exact eqOn_refl _
    · exact ih.bind (meets_filledWhile hI field he rest) fun _ _ => eqOn_refl _

theorem meets_elements (array : ρ) (item : Option GqlField ⊕ Option ℕ)
    (he : ∀ t f, Meets I Anything (eval t f d)) (i n : ℕ) :
    Meets I Anything (elements eval env array item d i n) := by
  induction n generalizing i with
  | zero => exact meets_pure trivial
  | succ n ih =>
    refine (meets_ask _).bind fun ref _ => ?_
    cases item with
    | inl field =>
      exact (meets_filled hI (he _ field)).bind fun r _ => (meets_goOn _).bind fun _ _ =>
        (ih (i + 1)).bind fun _ _ => meets_pure trivial
    | inr type =>
      refine (meets_coerced hI.stable ref type).bind fun v _ => ?_
      cases v with
      | none => exact meets_pure trivial
      | some v => exact (ih (i + 1)).bind fun _ _ => meets_pure trivial

theorem eqOn_elements (array : ρ) (item : Option GqlField ⊕ Option ℕ)
    (he : ∀ t f, Meets I Anything (eval t f d)) (h : ∀ t f, EqOn I (eval t f d) (eval' t f d))
    (i n : ℕ) : EqOn I (elements eval env array item d i n) (elements eval' env array item d i n) := by
  induction n generalizing i with
  | zero => exact eqOn_refl _
  | succ n ih =>
    have hrest : ∀ g : Option (List (GqlValue ℕ)) → Option (List (GqlValue ℕ)),
        EqOn I (do return g (← elements eval env array item d (i + 1) n))
          (do return g (← elements eval' env array item d (i + 1) n)) := fun g =>
      (ih (i + 1)).bind (meets_elements hI array item he (i + 1) n) fun _ _ => eqOn_refl _
    refine (eqOn_refl _).bind (meets_ask _) fun ref _ => ?_
    cases item with
    | inl field =>
      refine (eqOn_filled hI (h _ field)).bind (meets_filled hI (he _ field)) fun r _ => ?_
      exact (eqOn_refl _).bind (meets_goOn _) fun _ _ => hrest _
    | inr type =>
      refine (eqOn_refl _).bind (meets_coerced hI.stable ref type) fun v _ => ?_
      cases v with
      | none => exact eqOn_refl _
      | some v => exact hrest _

/-- What fills the result keeps the invariant when the evaluations at a greater depth do. -/
theorem meets_give (he : ∀ t f d', d < d' → Meets I Anything (eval t f d')) (key : Bytes)
    {r : Reply ρ} (hr : r.Deeper d) : Meets I Anything (give eval env key r) := by
  cases r with
  | value v => exact meets_objectSet hI key _
  | nothing => exact meets_pure trivial
  | inPlace target field d' => exact he target field d' hr.2
  | object target field d' =>
    exact (meets_filled hI (he target field d' hr)).bind fun r _ =>
      (meets_objectSet hI key _).bind fun _ _ => meets_goOn _
  | list targets field d' =>
    exact (meets_filledAll hI field (fun t => he t field d' hr) targets).bind fun r _ =>
      (meets_objectSet hI key _).bind fun _ _ => meets_goOn _
  | iterated targets field d' report =>
    exact (meets_filledWhile hI field (fun t => he t field d' hr) targets).bind fun r _ =>
      (meets_objectSet hI key _).bind fun _ _ => (meets_goOn _).bind fun _ _ =>
        Meets.ite (fun _ => meets_errCode) fun _ => meets_pure trivial
  | elements array item d' =>
    refine (meets_ruby hI.stable _).bind fun n _ => ?_
    refine (meets_elements hI array item (fun t f => he t f d' hr) 0 n).bind fun vs _ => ?_
    cases vs with
    | none => exact meets_pure trivial
    | some vs => exact meets_objectSet hI key _

/-- What fills the result is determined by the evaluations at a greater depth. -/
theorem eqOn_give (he : ∀ t f d', d < d' → Meets I Anything (eval t f d'))
    (h : ∀ t f d', d < d' → EqOn I (eval t f d') (eval' t f d')) (key : Bytes) {r : Reply ρ}
    (hr : r.Deeper d) : EqOn I (give eval env key r) (give eval' env key r) := by
  cases r with
  | value v => exact eqOn_refl _
  | nothing => exact eqOn_refl _
  | inPlace target field d' => exact h target field d' hr.2
  | object target field d' =>
    exact (eqOn_filled hI (h target field d' hr)).bind (meets_filled hI (he target field d' hr))
      fun _ _ => eqOn_refl _
  | list targets field d' =>
    exact (eqOn_filledAll hI field (fun t => he t field d' hr) (fun t => h t field d' hr) targets).bind
      (meets_filledAll hI field (fun t => he t field d' hr) targets) fun _ _ => eqOn_refl _
  | iterated targets field d' report =>
    exact (eqOn_filledWhile hI field (fun t => he t field d' hr) (fun t => h t field d' hr)
      targets).bind (meets_filledWhile hI field (fun t => he t field d' hr) targets)
      fun _ _ => eqOn_refl _
  | elements array item d' =>
    refine (eqOn_refl _).bind (meets_ruby hI.stable _) fun n _ => ?_
    exact (eqOn_elements hI array item (fun t f => he t f d' hr) (fun t f => h t f d' hr) 0 n).bind
      (meets_elements hI array item (fun t f => he t f d' hr) 0 n) fun _ _ => eqOn_refl _

end Fill

end Eval

end Agoo
