import Agoo.EvalState

/-!
# Introspection (`gqlintro.c`, `gqlcobj.c`)

A method of an introspection object tells what becomes of the member: a value, or objects to fill with
the selections, at the depth it passes on. `gql_intro_eval` puts its own functions into the document.
-/

namespace Agoo

namespace Eval

variable {ρ ω : Type}

/-- What is put into the result for a field. Objects are filled by `gql_eval_sels` on targets, with a
field and at a depth. -/
inductive Reply (ρ : Type)
  /-- A member without selections. -/
  | value (v : Leaf)
  /-- Nothing: the value is missing, and there is no error. -/
  | nothing
  /-- The result itself is filled. -/
  | inPlace (target : Target ρ) (field : Option GqlField) (depth : ℕ)
  | object (target : Target ρ) (field : Option GqlField) (depth : ℕ)
  /-- A list of objects, up to the first that fails. -/
  | list (targets : List (Target ρ)) (field : Option GqlField) (depth : ℕ)
  /-- A list that `gql_type_iterate` fills while there is no error; the error is returned or not. -/
  | iterated (targets : List (Target ρ)) (field : Option GqlField) (depth : ℕ) (report : Bool)
  /-- The elements of a Ruby array: objects with the field, or values of the type. -/
  | elements (array : ρ) (item : Option GqlField ⊕ Option ℕ) (depth : ℕ)

/-- A method: with the field, the selection and the depth. -/
abbrev Method (ρ ω : Type) := Option GqlField → Head → ℕ → EvalM ω (Reply ρ)

/-! ## Parts -/

/-- `BUCKET_MASK & (h ^ (h << 5) ^ (h >> 7))`. -/
def bucketOf (name : Bytes) : ℕ :=
  let h := TypeTable.calcHash name
  ((0x3F : UInt64) &&& (h ^^^ (h <<< 5) ^^^ (h >>> 7))).toNat

/-- `gql_type_iterate`: the buckets in order, in each the last type first. -/
def typeIterate (table : TypeTable) : List ℕ :=
  (List.range 64).flatMap fun b => ((List.range table.types.length).filter fun t =>
    table.types[t]?.any fun type => type.slot && bucketOf type.name = b).reverse

/-- `is_deprecated`. -/
def isDeprecated (table : TypeTable) (uses : List (DirUse ℕ ℕ)) : Bool :=
  uses.any fun use => dirName table use = some (bytes "deprecated")

/-- `gql_string_get`. -/
def stringGet : GqlValue ℕ → Option Bytes
  | .string s => some s
  | .token s _ => some s
  | .var s => some s
  | _ => none

/-- `deprecation_reason`: the last use with a reason counts. -/
def deprecationReason (table : TypeTable) (uses : List (DirUse ℕ ℕ)) : Option Bytes :=
  uses.foldl (fun reason use =>
    if dirName table use = some (bytes "deprecated") then
      match use.args.find? (·.1 = bytes "reason") with
      | some a => stringGet a.2
      | none => reason
    else reason) none

/-- The text of `gql_value_convert` to `String`, or the name of the type that has none. -/
def stringOf (env : Env ρ ω) : GqlValue ℕ → Except Bytes Bytes
  | .bool b => .ok (boolText b)
  | .int i => .ok (intText i)
  | .i64 i => .ok (intText i)
  | .float f => .ok (env.floatText f)
  | .string s => .ok s
  | .token s none => .ok s
  | .token _ (some enum) => .error (env.table.name enum)
  | .null => .error (bytes "Null")
  | .var _ => .error (bytes "Var")
  | .list _ _ => .error (bytes "__List")
  | .object _ => .error (bytes "__Object")

/-- `struct _gqlField` with a type and no more. -/
def fieldOf (name : Bytes) (type : ℕ) : GqlField := ⟨name, type, none, [], [], none⟩

/-- `cf.type = sel->type->base`. -/
def itemField (env : Env ρ ω) (head : Head) : EvalM ω (Option GqlField) := do
  match head.type.bind env.table.listBase with
  | some base => return some (fieldOf [] base)
  | none => throw .crash

/-- A method that returns a value. -/
def leaf (v : Leaf) : Method ρ ω := fun _ _ _ => return .value v

/-- An object for a type. -/
def typeObject (t : ℕ) : Method ρ ω := fun field _ depth => return .object (.cobj (.type t)) field (depth + 1)

/-- A list of introspection objects. -/
def objects (env : Env ρ ω) (objs : List Cobj) : Method ρ ω := fun _ head depth => do
  return .list (objs.map .cobj) (← itemField env head) (depth + 1)

/-- `includeDeprecated`, if it is a true boolean. -/
def includeDeprecated (env : Env ρ ω) (field : Option GqlField) (head : Head) : EvalM ω Bool := do
  match ← extractArg env field (bytes "includeDeprecated") head.args none with
  | some (.bool b) => return b
  | _ => return false

/-! ## `__InputValue` -/

/-- `input_value_default_value`. The code of a conversion is the error set last, also an older one. -/
def inputValueDefaultValue (env : Env ρ ω) (a : GqlArg) : Method ρ ω := fun _ _ _ => do
  match a.default with
  | none => return .value .null
  | some (.string s) => return .value (.string s)
  | some v =>
    match stringOf env v with
    | .ok s =>
      errCode
      return .value (.string s)
    | .error name =>
      setErr .parse (bytes "Can not coerce a " ++ name ++ bytes " into a String value.")

/-- `input_value_methods`. -/
def inputValueMethods (env : Env ρ ω) (a : GqlArg) : List (Bytes × Method ρ ω) := [
  (bytes "name", leaf (.string a.name)),
  (bytes "description", leaf (.optString a.desc)),
  (bytes "type", typeObject a.type),
  (bytes "defaultValue", inputValueDefaultValue env a)]

/-! ## `__Field` -/

/-- `field_methods`. -/
def fieldMethods (env : Env ρ ω) (f : GqlField) : List (Bytes × Method ρ ω) := [
  (bytes "name", leaf (.string f.name)),
  (bytes "description", leaf (.optString f.desc)),
  (bytes "args", objects env (f.args.map .inputValue)),
  (bytes "type", typeObject f.type),
  (bytes "isDeprecated", leaf (.bool (isDeprecated env.table f.dir))),
  (bytes "deprecationReason", leaf (.optString (deprecationReason env.table f.dir)))]

/-! ## `__EnumValue` -/

/-- `enum_value_methods`. -/
def enumValueMethods (env : Env ρ ω) (v : GqlEnumVal) : List (Bytes × Method ρ ω) := [
  (bytes "name", leaf (.string v.value)),
  (bytes "description", leaf (.optString v.desc)),
  (bytes "isDeprecated", leaf (.bool (isDeprecated env.table v.dir))),
  (bytes "deprecationReason", leaf (.optString (deprecationReason env.table v.dir)))]

/-! ## `__Directive` -/

/-- `directive_methods`. -/
def directiveMethods (env : Env ρ ω) (d : GqlDir) : List (Bytes × Method ρ ω) := [
  (bytes "name", leaf (.string d.name)),
  (bytes "description", leaf (.optString d.desc)),
  (bytes "locations", leaf (.strings d.locs)),
  (bytes "args", objects env (d.args.map .inputValue))]

/-! ## `__Type` -/

/-- The names in `type_kind`. -/
def kindName : GqlKind → Option Bytes
  | .schema => some (bytes "SCHEMA")
  | .object => some (bytes "OBJECT")
  | .input => some (bytes "INPUT_OBJECT")
  | .union => some (bytes "UNION")
  | .interface => some (bytes "INTERFACE")
  | .enum => some (bytes "ENUM")
  | .scalar => some (bytes "SCALAR")
  | .list => some (bytes "LIST")
  | .nonNull => some (bytes "NON_NULL")
  | .undef => none
  | .frag => none

/-- `type_kind`. The message also names the source line. -/
def typeKind (env : Env ρ ω) (t : ℕ) : Method ρ ω := fun _ _ _ => do
  match kindName (env.table.kind t) with
  | some kind => return .value (.token kind (env.table.typeGet (bytes "__TypeKind")))
  | none => setErr .arg (bytes "__Type kind field not valid.")

/-- `type_description`. -/
def typeDescription (env : Env ρ ω) (t : ℕ) : Option Bytes := env.table.types[t]?.bind (·.desc)

/-- `type_fields`. -/
def typeFields (env : Env ρ ω) (t : ℕ) : Method ρ ω := fun field head depth => do
  let incDep ← includeDeprecated env field head
  if env.table.kind t ∉ [.object, .schema, .interface] then return .value .null
  else
    let fields := (env.table.fields t).filter fun f => incDep || !isDeprecated env.table f.dir
    objects env (fields.map .field) field head depth

/-- `type->interfaces`. -/
def interfacesOf (table : TypeTable) (t : ℕ) : List ℕ :=
  match table.members t with
  | .fields _ interfaces => interfaces
  | _ => []

/-- `type_interfaces`. -/
def typeInterfaces (env : Env ρ ω) (t : ℕ) : Method ρ ω := fun field head depth => do
  if env.table.kind t ≠ .object then return .value .null
  else objects env ((interfacesOf env.table t).map .type) field head depth

/-- `has_interface`: the type is among its own interfaces, whatever interface is asked for. -/
def hasInterface (table : TypeTable) (t _interface : ℕ) : Bool := t ∈ interfacesOf table t

/-- `type->types`. -/
def typesOf (table : TypeTable) (t : ℕ) : List ℕ :=
  match table.members t with
  | .types types => types
  | _ => []

/-- `type_possible_types`. -/
def typePossibleTypes (env : Env ρ ω) (t : ℕ) : Method ρ ω := fun field head depth => do
  let cf ← itemField env head
  if env.table.kind t = .interface then
    let possible := (typeIterate env.table).filter fun u =>
      env.table.kind u = .object && hasInterface env.table u t
    return .iterated (possible.map (.cobj <| .type ·)) cf (depth + 1) false
  else if env.table.kind t = .union then
    objects env ((typesOf env.table t).map .type) field head depth
  else return .value .null

/-- `type->choices`. -/
def choicesOf (table : TypeTable) (t : ℕ) : List GqlEnumVal :=
  match table.members t with
  | .choices choices => choices
  | _ => []

/-- `type_enum_values`. -/
def typeEnumValues (env : Env ρ ω) (t : ℕ) : Method ρ ω := fun field head depth => do
  let incDep ← includeDeprecated env field head
  if env.table.kind t ≠ .enum then return .value .null
  else
    let choices := (choicesOf env.table t).filter fun c => incDep || !isDeprecated env.table c.dir
    objects env (choices.map .enumValue) field head depth

/-- `type->args`. -/
def argsOf (table : TypeTable) (t : ℕ) : List GqlArg :=
  match table.members t with
  | .args args => args
  | _ => []

/-- `type_input_fields`. -/
def typeInputFields (env : Env ρ ω) (t : ℕ) : Method ρ ω := fun field head depth => do
  if env.table.kind t ≠ .input then return .value .null
  else objects env ((argsOf env.table t).map .inputValue) field head depth

/-- `type_of_type`. -/
def typeOfType (env : Env ρ ω) (t : ℕ) : Method ρ ω := fun field head depth => do
  if env.table.kind t ∉ [.list, .nonNull] then return .value .null
  else
    match env.table.listBase t with
    | none => return .value .null
    | some base => typeObject base field head depth

/-- `type_methods`. -/
def typeMethods (env : Env ρ ω) (t : ℕ) : List (Bytes × Method ρ ω) := [
  (bytes "kind", typeKind env t),
  (bytes "name", leaf (.string (env.table.name t))),
  (bytes "description", leaf (.optString (typeDescription env t))),
  (bytes "fields", typeFields env t),
  (bytes "interfaces", typeInterfaces env t),
  (bytes "possibleTypes", typePossibleTypes env t),
  (bytes "enumValues", typeEnumValues env t),
  (bytes "inputFields", typeInputFields env t),
  (bytes "ofType", typeOfType env t)]

/-! ## `__Schema` -/

/-- `schema_types`. -/
def schemaTypes (env : Env ρ ω) : Method ρ ω := fun _ head depth => do
  let cf ← itemField env head
  let types := (typeIterate env.table).filter fun t => env.table.kind t ∉ [.list, .nonNull, .schema]
  return .iterated (types.map (.cobj <| .type ·)) cf (depth + 1) true

/-- `schema_op_type`. -/
def schemaOpType (env : Env ρ ω) (op : Bytes) : Method ρ ω := fun field head depth => do
  let ref ← ruby (env.rootOp op)
  match ← ask (env.refType ref) with
  | none => return .value .null
  | some t => typeObject t field head depth

/-- `schema_methods`. -/
def schemaMethods (env : Env ρ ω) : List (Bytes × Method ρ ω) := [
  (bytes "types", schemaTypes env),
  (bytes "queryType", schemaOpType env (bytes "query")),
  (bytes "mutationType", schemaOpType env (bytes "mutation")),
  (bytes "subscriptionType", schemaOpType env (bytes "subscription")),
  (bytes "directives", objects env (env.table.dirs.reverse.map .directive))]

/-! ## The root -/

/-- `root_type`. The messages also name the source line. -/
def rootTypeMethod (env : Env ρ ω) : Method ρ ω := fun field head depth => do
  match (← extractArg env field (bytes "name") head.args none).bind stringGet with
  | none => setErr .arg (head.name ++ bytes " field requires a name argument.")
  | some name =>
    match env.table.typeGet name with
    | none => setErr .arg (name ++ bytes " is not a defined type.")
    | some t => typeObject t field head depth

/-- `root_schema`. -/
def rootSchema : Method ρ ω := fun field _ depth => return .object (.cobj .schema) field (depth + 1)

/-- `root_methods`. -/
def rootMethods (env : Env ρ ω) : List (Bytes × Method ρ ω) := [
  (bytes "__type", rootTypeMethod env),
  (bytes "__schema", rootSchema)]

/-! ## Resolving -/

/-- `obj->clas->methods`. -/
def Cobj.methods (env : Env ρ ω) : Cobj → List (Bytes × Method ρ ω)
  | root => rootMethods env
  | schema => schemaMethods env
  | type t => typeMethods env t
  | field f => fieldMethods env f
  | inputValue a => inputValueMethods env a
  | enumValue v => enumValueMethods env v
  | directive d => directiveMethods env d

/-- `gql_cobj_resolve`, up to the objects to fill. -/
def cobjResolve (env : Env ρ ω) (obj : Cobj) : Method ρ ω := fun field head depth =>
  match (obj.methods env).lookup head.name with
  | some method => method field head depth
  | none => setErr .eval (head.name ++ bytes " is not a field on " ++ obj.className ++ bytes ".")

/-- `gql_intro_eval`, up to the objects to fill. The functions of the document stay its own. -/
def introEval (env : Env ρ ω) (head : Head) (depth : ℕ) : EvalM ω (Reply ρ) := do
  if head.name = bytes "__type" ∨ head.name = bytes "__schema" then
    if 2 < depth then
      setErr .eval (if head.name = bytes "__type" then
        bytes "__type can only be called from a query root."
      else bytes "__scheme can only be called from a query root.")
    else
      modify fun s => { s with funcs := .cobj }
      -- Without a type the number is that of none.
      let field := fieldOf head.name (head.type.getD env.table.types.length)
      cobjResolve env .root (some field) head depth
  else
    setErr .eval (head.name ++ bytes " can only be called from the query root.")

end Eval

end Agoo
