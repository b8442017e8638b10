import Agoo.TypeTable

/-!
# The first types (`gql_init`)

The scalars of `gqlvalue.c` and the types and directives for introspection, created in the order of
the source. `gqlInit` is the registry before any schema is read.
-/

namespace Agoo

/-! ## Scalars -/

/-- A scalar of `gqlvalue.c`, with its slot. -/
def scalarType (name desc : String) : GqlType :=
  ⟨bytes name, some (bytes desc), [], .scalar, true, true, .funcs⟩

/-- `gql_value_init`. -/
def gqlValueInit : TypeTable where
  types := [
    scalarType "Int" "Int scalar.",
    scalarType "I64" "64 bit integer scalar.",
    scalarType "Boolean" "Boolean scalar.",
    scalarType "Float" "Float scalar.",
    scalarType "Time" "Time zulu scalar.",
    scalarType "Uuid" "UUID scalar.",
    scalarType "ID" "ID scalar.",
    scalarType "String" "String scalar."]
  dirs := []
  log := []

/-- `&gql_bool_type`. -/
def gqlBoolType : ℕ := 2

/-- `&gql_string_type`. -/
def gqlStringType : ℕ := 7

/-! ## Types for introspection -/

/-- A field without a description, a default value or uses. -/
def introField (t : ℕ) (name : String) (type : ℕ) : TableM (ℕ × ℕ) :=
  gqlTypeField t (bytes name) type none none []

/-- `type->core = true`. -/
def setCore (t : ℕ) : TableM Unit :=
  modify (·.update t fun type => { type with core := true })

/-- `[base!]`. -/
def nonnullList (base : ℕ) : TableM ℕ := do gqlAssureList (← gqlAssureNonnull base)

/-- `create_type_kind_type`. -/
def createTypeKindType : TableM Unit := do
  let type ← gqlEnumCreate (bytes "__TypeKind") none
  setCore type
  for choice in ["SCALAR", "OBJECT", "INTERFACE", "UNION", "ENUM", "INPUT_OBJECT", "LIST",
      "NON_NULL"] do
    gqlEnumAppend type (bytes choice) 0 none []

/-- `create_input_type`. -/
def createInputType : TableM Unit := do
  let type ← gqlTypeCreate (bytes "__InputValue") none
  let stringNn ← gqlAssureNonnull gqlStringType
  let typeNn ← gqlAssureNonnull (← gqlAssureType (bytes "__Type"))
  let _ ← introField type "name" stringNn
  let _ ← introField type "description" gqlStringType
  let _ ← introField type "type" typeNn
  let _ ← introField type "defaultValue" gqlStringType
  setCore type

/-- `create_type_type`. -/
def createTypeType : TableM Unit := do
  let type ← gqlTypeCreate (bytes "__Type") none
  let typeNnList ← nonnullList type
  let fieldList ← nonnullList (← gqlAssureType (bytes "__Field"))
  let kindNn ← gqlAssureNonnull (← gqlAssureType (bytes "__TypeKind"))
  let enumNnList ← nonnullList (← gqlAssureType (bytes "__EnumValue"))
  let inputNnList ← nonnullList (← gqlAssureType (bytes "__InputValue"))
  let _ ← introField type "kind" kindNn
  let _ ← introField type "name" gqlStringType
  let _ ← introField type "description" gqlStringType
  let fields ← introField type "fields" fieldList
  let _ ← introField type "interfaces" typeNnList
  let _ ← introField type "possibleTypes" typeNnList
  let enumValues ← introField type "enumValues" enumNnList
  let _ ← introField type "inputFields" inputNnList
  let _ ← introField type "ofType" type
  setCore type
  gqlFieldArg fields (bytes "includeDeprecated") gqlBoolType none (some (.bool false))
  gqlFieldArg enumValues (bytes "includeDeprecated") gqlBoolType none (some (.bool false))

/-- `create_enum_type`. -/
def createEnumType : TableM Unit := do
  let type ← gqlTypeCreate (bytes "__EnumValue") none
  let stringNn ← gqlAssureNonnull gqlStringType
  let booleanNn ← gqlAssureNonnull gqlBoolType
  let _ ← introField type "name" stringNn
  let _ ← introField type "description" gqlStringType
  let _ ← introField type "isDeprecated" booleanNn
  let _ ← introField type "deprecationReason" gqlStringType
  setCore type

/-- `create_field_type`. -/
def createFieldType : TableM Unit := do
  let type ← gqlTypeCreate (bytes "__Field") none
  let stringNn ← gqlAssureNonnull gqlStringType
  let booleanNn ← gqlAssureNonnull gqlBoolType
  let typeNn ← gqlAssureNonnull (← gqlAssureType (bytes "__Type"))
  let inputNnList ← nonnullList (← gqlAssureType (bytes "__InputValue"))
  let inputNnListNn ← gqlAssureNonnull inputNnList
  let _ ← introField type "name" stringNn
  let _ ← introField type "description" gqlStringType
  let _ ← introField type "args" inputNnListNn
  let _ ← introField type "type" typeNn
  let _ ← introField type "isDeprecated" booleanNn
  let _ ← introField type "deprecationReason" gqlStringType
  setCore type

/-- `create_directive_location_type`. -/
def createDirectiveLocationType : TableM Unit := do
  let type ← gqlEnumCreate (bytes "__DirectiveLocation") none
  setCore type
  for choice in ["QUERY", "MUTATION", "SUBSCRIPTION", "FIELD", "FRAGMENT_DEFINITION",
      "FRAGMENT_SPREAD", "INLINE_FRAGMENT", "SCHEMA", "SCALAR", "OBJECT", "FIELD_DEFINITION",
      "ARGUMENT_DEFINITION", "INTERFACE", "UNION", "ENUM", "ENUM_VALUE", "INPUT_OBJECT",
      "INPUT_FIELD_DEFINITION"] do
    gqlEnumAppend type (bytes choice) 0 none []

/-- `create_directive_type`. -/
def createDirectiveType : TableM Unit := do
  let type ← gqlTypeCreate (bytes "__Directive") none
  let stringNn ← gqlAssureNonnull gqlStringType
  let inputNnListNn ← gqlAssureNonnull (← nonnullList (← gqlAssureType (bytes "__InputValue")))
  let locNnListNn ←
    gqlAssureNonnull (← nonnullList (← gqlAssureType (bytes "__DirectiveLocation")))
  let _ ← introField type "name" stringNn
  let _ ← introField type "description" gqlStringType
  let _ ← introField type "locations" locNnListNn
  let _ ← introField type "args" inputNnListNn
  setCore type

/-- `create_schema_type`. -/
def createSchemaType : TableM Unit := do
  let type ← gqlTypeCreate (bytes "__Schema") none
  let typeType ← gqlAssureType (bytes "__Type")
  let typeNn ← gqlAssureNonnull typeType
  let typeNnListNn ← gqlAssureNonnull (← gqlAssureList typeNn)
  let dirNnListNn ← gqlAssureNonnull (← nonnullList (← gqlAssureType (bytes "__Directive")))
  let _ ← introField type "types" typeNnListNn
  let _ ← introField type "queryType" typeNn
  let _ ← introField type "mutationType" typeType
  let _ ← introField type "subscriptionType" typeType
  let _ ← introField type "directives" dirNnListNn
  setCore type

/-! ## Directives -/

/-- A core directive and its places. -/
def coreDirective (name : String) (locs : List String) : TableM ℕ := do
  let dir ← gqlDirectiveCreate (bytes name) none
  modify (·.updateDir dir fun d => { d with core := true })
  for loc in locs do gqlDirectiveOn dir (bytes loc)
  return dir

/-- `create_dir_skip` and `create_dir_include`, by name. -/
def createDirIf (name : String) : TableM Unit := do
  let dir ← coreDirective name ["FIELD", "FRAGMENT_SPREAD", "INLINE_FRAGMENT"]
  gqlDirArg dir (bytes "if") (← gqlAssureNonnull gqlBoolType) none none

/-- `create_dir_skip`. -/
def createDirSkip : TableM Unit := createDirIf "skip"

/-- `create_dir_include`. -/
def createDirInclude : TableM Unit := createDirIf "include"

/-- `create_dir_deprecated`. -/
def createDirDeprecated : TableM Unit := do
  let dir ← coreDirective "deprecated" ["FIELD_DEFINITION", "ENUM_VALUE"]
  gqlDirArg dir (bytes "reason") gqlStringType none (some (.string (bytes "No longer supported")))

/-- `gql_intro_init`. -/
def gqlIntroInit : TableM Unit := do
  createTypeKindType
  createInputType
  createTypeType
  createEnumType
  createFieldType
  createDirectiveLocationType
  createDirectiveType
  createSchemaType
  createDirSkip
  createDirInclude
  createDirDeprecated

/-- The registry after `gql_init`, with an empty log. -/
def gqlInit : TypeTable := { (gqlIntroInit.run gqlValueInit).2 with log := [] }

end Agoo
