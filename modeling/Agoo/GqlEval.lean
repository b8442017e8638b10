import Agoo.GqlIntro

/-!
# Evaluation of a document (`gqleval.c`, `resolve` of `rgraphql.c`)

`gql_eval_sels` and the resolve functions call each other with a depth. `evalSelsStep` is the body of
`gql_eval_sels` over the function it calls, and `evalSels` the function so defined.
-/

namespace Agoo

namespace Eval

variable {ρ ω : Type}

/-- `MAX_DEPTH`. -/
def maxDepth : ℕ := 100

/-- `gql_eval_sels`: on a target, with a field, selections and a depth. -/
abbrev EvalSels (ρ ω : Type) := Target ρ → Option GqlField → List Sel → ℕ → EvalM ω Unit

/-! ## Fields -/

/-- `gql_type_get_field`; a list has the fields of its base. -/
def getFieldIn (table : TypeTable) (name : Bytes) : ℕ → ℕ → Option GqlField
  | 0, _ => none
  | n + 1, t =>
    if table.kind t ∈ [.schema, .object, .interface] then
      (table.fields t).find? (·.name = name)
    else if table.kind t = .list then (table.listBase t).bind (getFieldIn table name n)
    else none

/-- `gql_type_get_field`: the base of a list was there before the list. -/
def getField (table : TypeTable) (t : ℕ) (name : Bytes) : Option GqlField :=
  getFieldIn table name (table.types.length + 1) t

/-! ## `resolve` -/

/-- `'_' == *key && '_' == key[1]`. -/
def isInternal (name : Bytes) : Bool := name.take 2 = bytes "__"

/-- The arguments that `resolve` makes: none for a method that takes none. -/
def callArgs (env : Env ρ ω) (field : Option GqlField) (arity : ℤ) (args : List Arg) :
    EvalM ω (List (Bytes × GqlValue ℕ)) :=
  if arity = 0 then return [] else argValues env field args

/-- The child of a Ruby object. -/
def callMethod (env : Env ρ ω) (ref : ρ) (field : Option GqlField) (head : Head) : EvalM ω ρ := do
  let arity ← ruby fun w => (env.arity ref head.name w, w)
  let args ← callArgs env field arity head.args
  ruby (env.call ref head.name arity args)

/-- `coerce`: a null pointer returns the code of the error. -/
def coerced (env : Env ρ ω) (ref : ρ) (type : Option ℕ) : EvalM ω (Option Leaf) := do
  let s ← get
  set { s with world := (env.coerce ref type s.world).2 }
  match (env.coerce ref type s.world).1 with
  | .ok v => return some v
  | .error (.raised e) => throw (.raised e)
  | .error (.null e) =>
    modify fun s => { s with err := e.or s.err }
    errCode
    return none

/-- Whether the elements of a list are objects, and their field, or the type of their values. -/
def itemOf (table : TypeTable) (t : ℕ) : Option GqlField ⊕ Option ℕ :=
  match table.listBase t with
  | none => .inr none
  | some base => if table.kind base = .scalar then .inr (some base) else .inl (some (fieldOf [] base))

/-- The end of `resolve`, for a child. -/
def resolveChild (env : Env ρ ω) (child : ρ) (field : Option GqlField) (head : Head) (noSels : Bool)
    (depth : ℕ) : EvalM ω (Reply ρ) :=
  match head.type.filter fun t => env.table.kind t = .list with
  | some t => return .elements child (itemOf env.table t) (depth + 1)
  | none =>
    if noSels then do
      match ← coerced env child head.type with
      | some v => return .value v
      | none => return .nothing
    else if depth = 0 then return .inPlace (.ruby child) field (depth + 1)
    else return .object (.ruby child) field (depth + 1)

/-- `resolve` of a name that begins with two underscores. -/
def resolveInternal (env : Env ρ ω) (kind : GqlOpKind) (ref : ρ) (head : Head) (depth : ℕ) :
    EvalM ω (Bytes × Reply ρ) := do
  if head.name = bytes "__typename" then
    match ← ask (env.refType ref) with
    | some t => return (head.name, .value (.string (env.table.name t)))
    | none => setErr .eval (bytes "Internal error, failed to determine the __typename.")
  else
    match kind with
    | .query => return (head.key, ← introEval env head depth)
    | .mutation => setErr .eval (head.name ++ bytes " can not be called on a mutation.")
    | .subscription => setErr .eval (head.name ++ bytes " can not be called on a subscription.")

/-- A string that a subscription returns is its subject. -/
def subjectOf (env : Env ρ ω) (kind : GqlOpKind) (child : ρ) (w : ω) : Option Bytes :=
  if kind = .subscription then env.isString child w else none

/-- `resolve` of `rgraphql.c`, up to the objects to fill. -/
def resolveRuby (env : Env ρ ω) (kind : GqlOpKind) (ref : ρ) (field : Option GqlField) (head : Head)
    (noSels : Bool) (depth : ℕ) : EvalM ω (Bytes × Reply ρ) := do
  if isInternal head.name then resolveInternal env kind ref head depth
  else
    let child ← callMethod env ref field head
    match ← ask (subjectOf env kind child) with
    | some s => return (bytes "subject", .value (.string s))
    | none => return (head.key, ← resolveChild env child field head noSels depth)

/-- `doc->funcs.resolve`. A function that gets what is not its own reads through a wrong pointer. -/
def resolve (env : Env ρ ω) (kind : GqlOpKind) (target : Target ρ) (field : Option GqlField)
    (head : Head) (noSels : Bool) (depth : ℕ) : EvalM ω (Bytes × Reply ρ) := do
  match (← get).funcs, target with
  | .ruby, .ruby ref => resolveRuby env kind ref field head noSels depth
  | .cobj, .cobj obj => return (head.key, ← cobjResolve env obj field head depth)
  | .ruby, .cobj _ => throw .crash
  | .cobj, .ruby _ => throw .crash

/-- `doc->funcs.type`. -/
def typeOf (env : Env ρ ω) (target : Target ρ) : EvalM ω (Option ℕ) := do
  match (← get).funcs, target with
  | .ruby, .ruby ref => ask (env.refType ref)
  | .cobj, .cobj obj => return env.table.typeGet obj.className
  | .ruby, .cobj _ => throw .crash
  | .cobj, .ruby _ => throw .crash

/-! ## Filling the result -/

section Fill

variable (eval : Target ρ → Option GqlField → ℕ → EvalM ω Unit)

/-- Objects for targets, up to the first that fails. -/
def filledAll (field : Option GqlField) (depth : ℕ) :
    List (Target ρ) → EvalM ω (Except Stop Unit × List (GqlValue ℕ))
  | [] => return (.ok (), [])
  | target :: rest => do
    let r ← filled (eval target field depth)
    match r.1 with
    | .error stop => return (.error stop, [r.2])
    | .ok _ =>
      let rs ← filledAll field depth rest
      return (rs.1, r.2 :: rs.2)

/-- The callbacks of `gql_type_iterate`: none does anything once there is an error. -/
def filledWhile (field : Option GqlField) (depth : ℕ) :
    List (Target ρ) → EvalM ω (Except Stop Unit × List (GqlValue ℕ))
  | [] => return (.ok (), [])
  | target :: rest => do
    if (← get).err.isSome then return (.ok (), [])
    else
      let r ← filled (eval target field depth)
      match r.1 with
      | .error (.raised e) => return (.error (.raised e), [r.2])
      | .error .crash => return (.error .crash, [r.2])
      | _ =>
        let rs ← filledWhile field depth rest
        return (rs.1, r.2 :: rs.2)

/-- The elements of a Ruby array, from the index `i` on. -/
def elements (env : Env ρ ω) (array : ρ) (item : Option GqlField ⊕ Option ℕ) (depth : ℕ) :
    ℕ → ℕ → EvalM ω (Option (List (GqlValue ℕ)))
  | _, 0 => return some []
  | i, n + 1 => do
    let ref ← ask (env.entry array i)
    match item with
    | .inl field =>
      let r ← filled (eval (.ruby ref) field depth)
      goOn r.1
      return (← elements env array item depth (i + 1) n).map (r.2 :: ·)
    | .inr type =>
      match ← coerced env ref type with
      | none => return none
      | some v => return (← elements env array item depth (i + 1) n).map (v.1 :: ·)

/-- What a reply puts into the result. -/
def give (env : Env ρ ω) (key : Bytes) : Reply ρ → EvalM ω Unit
  | .value v => objectSet key v.1
  | .nothing => return ()
  | .inPlace target field depth => eval target field depth
  | .object target field depth => do
    let r ← filled (eval target field depth)
    objectSet key r.2
    goOn r.1
  | .list targets field depth => do
    let r ← filledAll eval field depth targets
    objectSet key (.list none r.2)
    goOn r.1
  | .iterated targets field depth report => do
    let r ← filledWhile eval field depth targets
    objectSet key (.list none r.2)
    goOn r.1
    if report then errCode
  | .elements array item depth => do
    let n ← ruby fun w => (env.length array w, w)
    match ← elements eval env array item depth 0 n with
    | some vs => objectSet key (.list none vs)
    | none => return ()

end Fill

/-! ## `gql_eval_sels` -/

/-- The directives in `frag_include`. -/
def dirInclude (env : Env ρ ω) (doc : Doc) (uses : List (DirUse ℕ ℕ)) : EvalM ω Bool := do
  return !uses.any (excludes env.table doc (← get).cells)

/-- `frag_include`. -/
def fragInclude (env : Env ρ ω) (doc : Doc) (target : Target ρ) (on : Option ℕ)
    (uses : List (DirUse ℕ ℕ)) : EvalM ω Bool :=
  match on with
  | none => dirInclude env doc uses
  | some t => do
    if (← typeOf env target) ≠ some t then return false
    else dirInclude env doc uses

/-- The body of a fragment, if it is included. -/
def evalFrag (env : Env ρ ω) (doc : Doc) (eval : EvalSels ρ ω) (target : Target ρ)
    (field : Option GqlField) (depth : ℕ) (on : Option ℕ) (uses : List (DirUse ℕ ℕ))
    (sels : List Sel) : EvalM ω Unit := do
  if ← fragInclude env doc target on uses then eval target field sels depth

/-- One selection. -/
def evalSel (env : Env ρ ω) (doc : Doc) (eval : EvalSels ρ ω) (target : Target ρ)
    (field : Option GqlField) (depth : ℕ) : Sel → EvalM ω Unit
  | .inline on _ inlineDir sels => evalFrag env doc eval target field depth on inlineDir sels
  | .spread name _ => (doc.frags.filter (·.name = name)).forM fun frag =>
    evalFrag env doc eval target field depth frag.on frag.dir frag.sels
  | .field head _ sels => do
    let sf := field.bind fun f => getField env.table f.type head.name
    let r ← resolve env doc.kind target sf head sels.isEmpty depth
    give (fun target field depth => eval target field sels depth) env r.1 r.2

/-- The body of `gql_eval_sels`. -/
def evalSelsStep (env : Env ρ ω) (doc : Doc) (eval : EvalSels ρ ω) : EvalSels ρ ω :=
  fun target field sels depth =>
    if maxDepth < depth then setErr .eval (bytes "Maximum resolve depth of 100 exceeded.")
    else sels.forM (evalSel env doc eval target field (depth + 1))

/-- Calls that nest up to `n` deep, and `bottom` at the end of them. -/
def evalSelsFrom (env : Env ρ ω) (doc : Doc) (bottom : EvalSels ρ ω) : ℕ → EvalSels ρ ω
  | 0 => bottom
  | n + 1 => evalSelsStep env doc (evalSelsFrom env doc bottom n)

/-- `gql_eval_sels`. Calls do not nest deeper than the limit. -/
def evalSels (env : Env ρ ω) (doc : Doc) : EvalSels ρ ω :=
  evalSelsFrom env doc (fun _ _ _ _ => throw .crash) (maxDepth + 2)

/-! ## `gql_doc_eval` -/

/-- The selection that `gql_doc_eval` makes for the operation. -/
def opHead (env : Env ρ ω) (doc : Doc) : Head := ⟨none, doc.kind.str, env.rootType, []⟩

/-- The operation, from the field of the root for its kind. -/
def evalOp (env : Env ρ ω) (doc : Doc) : EvalM ω Unit :=
  match env.rootType.bind fun t => getField env.table t doc.kind.str with
  | none => setErr .eval (bytes "GraphQL not initialized.")
  | some field => do
    let r ← resolve env doc.kind (.ruby env.root) (some field) (opHead env doc) doc.sels.isEmpty 0
    give (fun target field depth => evalSels env doc target field doc.sels depth) env r.1 r.2

/-- `gql_doc_eval`: fills an empty result. -/
def docEval (env : Env ρ ω) (doc : Doc) : EvalM ω Unit := do
  modify fun s => { s with funcs := .ruby, result := [] }
  evalOp env doc

end Eval

end Agoo
