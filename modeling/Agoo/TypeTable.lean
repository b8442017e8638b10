import Agoo.Gql

/-!
# The type registry (`graphql.c`)

Types and directives are numbered in the order of their allocation, and references to them are
numbers. The buckets of the registry are one list: a type has a slot or not, and is found by its name.
Memory of a destroyed type is not reused.

The members of a type are a union in the source, and `kind` tells which one holds. Every access to a
member is logged with the kind that the type has then.
-/

namespace Agoo

/-- `struct _gqlArg`. -/
structure GqlArg where
  name : Bytes
  desc : Option Bytes
  type : ℕ
  default : Option (GqlValue ℕ)
  dir : List (DirUse ℕ ℕ)

/-- `struct _gqlField`. -/
structure GqlField where
  name : Bytes
  type : ℕ
  desc : Option Bytes
  args : List GqlArg
  dir : List (DirUse ℕ ℕ)
  default : Option (GqlValue ℕ)

/-- `struct _gqlEnumVal`. -/
structure GqlEnumVal where
  value : Bytes
  desc : Option Bytes
  dir : List (DirUse ℕ ℕ)

/-- `struct _gqlDir`. -/
structure GqlDir where
  name : Bytes
  desc : Option Bytes
  args : List GqlArg
  locs : List Bytes
  defined : Bool
  core : Bool

/-- The union of `struct _gqlType`, and nothing before it is set. The functions of a scalar are not
kept. -/
inductive Members
  | unset
  | fields (fields : List GqlField) (interfaces : List ℕ)
  | types (types : List ℕ)
  | choices (choices : List GqlEnumVal)
  | args (args : List GqlArg)
  | base (base : ℕ)
  | funcs

/-- The names of the members. Fields and interfaces are one. -/
inductive Member
  | fields | types | choices | args | base | funcs
  deriving DecidableEq, Repr

/-- The member that a kind selects. -/
def GqlKind.member : GqlKind → Option Member
  | undef => none
  | schema => some .fields
  | object => some .fields
  | frag => some .fields
  | input => some .args
  | union => some .types
  | interface => some .fields
  | enum => some .choices
  | scalar => some .funcs
  | list => some .base
  | nonNull => some .base

/-- `kind_string`. -/
def GqlKind.string : GqlKind → Bytes
  | undef => bytes "undefined"
  | schema => bytes "schema"
  | object => bytes "object"
  | frag => bytes "fragment"
  | input => bytes "input"
  | union => bytes "union"
  | interface => bytes "interface"
  | enum => bytes "enum"
  | scalar => bytes "scalar"
  | list => bytes "list"
  | nonNull => bytes "non-null"

/-- `struct _gqlType`, and whether it has a slot. -/
structure GqlType where
  name : Bytes
  desc : Option Bytes
  dir : List (DirUse ℕ ℕ)
  kind : GqlKind
  core : Bool
  slot : Bool
  members : Members

/-- An access to a member of a type of some kind. -/
structure Access where
  kind : GqlKind
  member : Member
  deriving DecidableEq, Repr

/-- The member is the one that the kind selects. -/
def Access.Fits (a : Access) : Prop := a.kind.member = some a.member

instance : DecidablePred Access.Fits := fun a => decEq a.kind.member (some a.member)

structure TypeTable where
  types : List GqlType
  dirs : List GqlDir
  log : List Access

/-- What a call on the registry returns: an error, or a value, and the registry. -/
abbrev TableM (α : Type) := ExceptT Err (StateM TypeTable) α

variable {α : Type}

namespace TypeTable

/-! ## Names -/

/-- `name_chars`. -/
def nameChar (b : Byte) : Byte :=
  if chr '0' ≤ b ∧ b ≤ chr '9' then b - chr '0' + 1
  else if chr 'A' ≤ b ∧ b ≤ chr 'Z' then b - chr 'A' + 11
  else if b = chr '_' then 37
  else if chr 'a' ≤ b ∧ b ≤ chr 'z' then b - chr 'a' + 38
  else 0

/-- `BAD_NAME`. -/
def badName : UInt64 := 0xFFFFFFFFFFFFFFFF

/-- `calc_hash` of the bytes left, after the hash `h`. -/
def calcHashFrom (h : UInt64) : Bytes → UInt64
  | [] => h
  | b :: rest => if nameChar b = 0 then badName else calcHashFrom (37 * h + (nameChar b).toUInt64) rest

/-- `calc_hash`. -/
def calcHash (name : Bytes) : UInt64 := calcHashFrom 0 name

/-! ## Reads -/

/-- `type->kind`. -/
def kind (r : TypeTable) (t : ℕ) : GqlKind := ((r.types[t]?.map (·.kind)).getD .undef : GqlKind)

/-- `type->name`. -/
def name (r : TypeTable) (t : ℕ) : Bytes := (r.types[t]?.map (·.name)).getD []

/-- The members of a type. -/
def members (r : TypeTable) (t : ℕ) : Members := (r.types[t]?.map (·.members)).getD .unset

/-- `type->base`. -/
def listBase (r : TypeTable) (t : ℕ) : Option ℕ :=
  match r.members t with
  | .base b => some b
  | _ => none

/-- `type->fields`. -/
def fields (r : TypeTable) (t : ℕ) : List GqlField :=
  match r.members t with
  | .fields fields _ => fields
  | _ => []

/-- `gql_type_get`. -/
def typeGet (r : TypeTable) (name : Bytes) : Option ℕ :=
  if TypeTable.calcHash name = 0 then none
  else r.types.findIdx? fun t => t.slot && t.name == name

/-- `gql_directive_get`. -/
def directiveGet (r : TypeTable) (name : Bytes) : Option ℕ := r.dirs.findIdx? (·.name == name)

/-! ## Changes -/

def access (r : TypeTable) (t : ℕ) (m : Member) : TypeTable :=
  { r with log := ⟨r.kind t, m⟩ :: r.log }

def update (r : TypeTable) (t : ℕ) (f : GqlType → GqlType) : TypeTable :=
  { r with types := r.types.modify t f }

def updateDir (r : TypeTable) (d : ℕ) (f : GqlDir → GqlDir) : TypeTable :=
  { r with dirs := r.dirs.modify d f }

def addType (r : TypeTable) (type : GqlType) : TypeTable := { r with types := r.types ++ [type] }

def addDir (r : TypeTable) (dir : GqlDir) : TypeTable := { r with dirs := r.dirs ++ [dir] }

/-- The member of a type is set. -/
def store (r : TypeTable) (t : ℕ) (m : Member) (members : Members) : TypeTable :=
  (r.access t m).update t fun type => { type with members }

/-- `type_clean`. -/
def typeClean (r : TypeTable) (t : ℕ) : TypeTable :=
  let r := r.update t fun type => { type with desc := none, dir := [] }
  match r.kind t with
  | .schema => r.store t .fields (.fields [] [])
  | .object => r.store t .fields (.fields [] [])
  | .interface => r.store t .fields (.fields [] [])
  | .input => r.store t .args (.args [])
  | .union => r.store t .types (.types [])
  | .enum => r.store t .choices (.choices [])
  | _ => r

/-- `type_remove`: the slot of the type with this name. -/
def typeRemove (r : TypeTable) (t : ℕ) : TypeTable :=
  match r.typeGet (r.name t) with
  | some i => r.update i fun type => { type with slot := false }
  | none => r

/-- The types that are no allocations: the scalars of `gqlvalue.c`. -/
def static (r : TypeTable) (t : ℕ) : Bool :=
  r.types[t]?.any fun type => type.kind = .scalar ∧ type.core

/-- `gql_type_destroy`. -/
def typeDestroy (r : TypeTable) (t : ℕ) : TypeTable :=
  let r := r.typeRemove t
  if r.static t then r else r.typeClean t

end TypeTable

open TypeTable

/-! ## Types -/

/-- `agoo_err_set`, and return null or its code. -/
def setErr (code : ErrCode) (msg : Bytes) : TableM α := throw (errSet code msg)

/-- `type_create`. In its last message the name of the type is printed as a number. -/
def typeCreate (kind : GqlKind) (name : Bytes) (desc : Option Bytes) : TableM ℕ := do
  let r ← get
  match r.typeGet name with
  | none =>
    let t := r.types.length
    let r := r.addType ⟨name, desc, [], kind, false, TypeTable.calcHash name ≠ 0, .unset⟩
    if TypeTable.calcHash name = 0 then
      set (r.typeDestroy t)
      setErr .arg (name ++ bytes " is not a valid GraphQL type name.")
    else
      set r
      return t
  | some t =>
    if r.kind t = .undef then
      set (r.update t fun type => { type with desc, kind })
      return t
    else if r.types[t]?.any (·.core) then
      setErr .lock (name ++ bytes " can not be modified.")
    else if kind = r.kind t then
      setErr .lock (name ++ bytes " already exists.")
    else
      setErr .lock (decimal t ++ bytes " already exists as a " ++ (r.kind t).string ++ bytes ".")

/-- A type is created, and its member set. -/
def createWith (kind : GqlKind) (m : Member) (members : Members) (name : Bytes)
    (desc : Option Bytes) : TableM ℕ := do
  let t ← typeCreate kind name desc
  modify (·.store t m members)
  return t

/-- `gql_schema_create`. -/
def gqlSchemaCreate (desc : Option Bytes) : TableM ℕ :=
  createWith .schema .fields (.fields [] []) (bytes "schema") desc

/-- `gql_type_create`, without interfaces. -/
def gqlTypeCreate : Bytes → Option Bytes → TableM ℕ := createWith .object .fields (.fields [] [])

/-- `gql_union_create`. -/
def gqlUnionCreate : Bytes → Option Bytes → TableM ℕ := createWith .union .types (.types [])

/-- `gql_enum_create`. -/
def gqlEnumCreate : Bytes → Option Bytes → TableM ℕ := createWith .enum .choices (.choices [])

/-- `gql_input_create`. -/
def gqlInputCreate : Bytes → Option Bytes → TableM ℕ := createWith .input .args (.args [])

/-- `gql_interface_create`. -/
def gqlInterfaceCreate : Bytes → Option Bytes → TableM ℕ :=
  createWith .interface .fields (.fields [] [])

/-- `gql_scalar_create`. -/
def gqlScalarCreate : Bytes → Option Bytes → TableM ℕ := createWith .scalar .funcs .funcs

/-- The function that creates a type of a kind. -/
def gqlCreate (kind : GqlKind) (name : Bytes) (desc : Option Bytes) : TableM ℕ :=
  match kind with
  | .schema => gqlSchemaCreate desc
  | .object => gqlTypeCreate name desc
  | .union => gqlUnionCreate name desc
  | .enum => gqlEnumCreate name desc
  | .input => gqlInputCreate name desc
  | .interface => gqlInterfaceCreate name desc
  | .scalar => gqlScalarCreate name desc
  | kind => typeCreate kind name desc

/-- `gql_assure_type`. -/
def gqlAssureType (name : Bytes) : TableM ℕ := do
  match (← get).typeGet name with
  | some t => return t
  | none => typeCreate .undef name none

/-- `gql_assure_list` and `gql_assure_nonnull`: the type around `base` that has this name. -/
def assureAround (kind : GqlKind) (name : Bytes) (base : ℕ) : TableM ℕ := do
  if 256 ≤ name.length then setErr .arg (bytes "Name too long")
  match (← get).typeGet name with
  | some t => return t
  | none => createWith kind .base (.base base) name none

/-- `gql_assure_list`. -/
def gqlAssureList (base : ℕ) : TableM ℕ := do
  assureAround .list (bytes "[" ++ (← get).name base ++ bytes "]") base

/-- `gql_assure_nonnull`. -/
def gqlAssureNonnull (base : ℕ) : TableM ℕ := do
  assureAround .nonNull ((← get).name base ++ bytes "!") base

/-- `gql_type_field`, then `field->dir`: the field's type and place. -/
def gqlTypeField (t : ℕ) (name : Bytes) (type : ℕ) (default : Option (GqlValue ℕ))
    (desc : Option Bytes) (dir : List (DirUse ℕ ℕ)) : TableM (ℕ × ℕ) := do
  let r := (← get).access t .fields
  set (r.update t fun owner => match owner.members with
    | .fields fields interfaces =>
      { owner with members := .fields (fields ++ [⟨name, type, desc, [], dir, default⟩]) interfaces }
    | _ => owner)
  return (t, (r.fields t).length)

/-- `gql_field_arg`. -/
def gqlFieldArg (field : ℕ × ℕ) (name : Bytes) (type : ℕ) (desc : Option Bytes)
    (default : Option (GqlValue ℕ)) : TableM Unit :=
  modify fun r => r.update field.1 fun owner => match owner.members with
    | .fields fields interfaces =>
      { owner with
        members := .fields (fields.modify field.2 fun f =>
          { f with args := f.args ++ [⟨name, desc, type, default, []⟩] }) interfaces }
    | _ => owner

/-- `gql_input_arg`, then `arg->dir`. -/
def gqlInputArg (t : ℕ) (name : Bytes) (type : ℕ) (desc : Option Bytes)
    (default : Option (GqlValue ℕ)) (dir : List (DirUse ℕ ℕ)) : TableM Unit :=
  modify fun r => (r.access t .args).update t fun owner => match owner.members with
    | .args args => { owner with members := .args (args ++ [⟨name, desc, type, default, dir⟩]) }
    | _ => owner

/-- `gql_union_add`. -/
def gqlUnionAdd (t member : ℕ) : TableM Unit :=
  modify fun r => (r.access t .types).update t fun owner => match owner.members with
    | .types types => { owner with members := .types (types ++ [member]) }
    | _ => owner

/-- A link put at the end of `type->interfaces`. -/
def addInterface (t interface : ℕ) (r : TypeTable) : TypeTable :=
  (r.access t .fields).update t fun owner => match owner.members with
    | .fields fields interfaces =>
      { owner with members := .fields fields (interfaces ++ [interface]) }
    | _ => owner

/-- `type->choices`. -/
def TypeTable.choices (r : TypeTable) (t : ℕ) : List GqlEnumVal :=
  match r.members t with
  | .choices choices => choices
  | _ => []

/-- `gql_enum_append`, then `ev->dir`. The choices there are compared with the whole text. -/
def gqlEnumAppend (t : ℕ) (value : Bytes) (len : ℕ) (desc : Option Bytes)
    (dir : List (DirUse ℕ ℕ)) : TableM Unit := do
  let r := (← get).access t .choices
  set r
  if (r.choices t).any (·.value == value) then
    setErr .tooMany (bytes "Enum " ++ r.name t ++ bytes " already has a choice of " ++ value ++
      bytes ".")
  let value := if len = 0 then value else value.take len
  set (r.update t fun owner => match owner.members with
    | .choices choices => { owner with members := .choices (choices ++ [⟨value, desc, dir⟩]) }
    | _ => owner)

/-! ## Directives -/

/-- `assure_directive`. -/
def assureDirective (name : Bytes) : TableM ℕ := do
  let r ← get
  match r.directiveGet name with
  | some d => return d
  | none =>
    set (r.addDir ⟨name, none, [], [], false, false⟩)
    return r.dirs.length

/-- `gql_directive_create`. -/
def gqlDirectiveCreate (name : Bytes) (desc : Option Bytes) : TableM ℕ := do
  let r ← get
  match r.directiveGet name with
  | some d =>
    set (r.updateDir d fun dir =>
      if dir.defined then { dir with args := [], locs := [], desc }
      else { dir with defined := true, desc })
    return d
  | none =>
    set (r.addDir ⟨name, desc, [], [], true, false⟩)
    return r.dirs.length

/-- `gql_dir_arg`. -/
def gqlDirArg (d : ℕ) (name : Bytes) (type : ℕ) (desc : Option Bytes)
    (default : Option (GqlValue ℕ)) : TableM Unit :=
  modify (·.updateDir d fun dir => { dir with args := dir.args ++ [⟨name, desc, type, default, []⟩] })

/-- `gql_directive_on`. -/
def gqlDirectiveOn (d : ℕ) (loc : Bytes) : TableM Unit :=
  modify (·.updateDir d fun dir => { dir with locs := dir.locs ++ [loc] })

/-! ## The registry of the parser -/

/-- The functions of `graphql.c` for the parser. The root type is the one of the Ruby root object. -/
def gqlRegistry (rootType : TypeTable → Option ℕ) : Registry TypeTable ℕ ℕ (ℕ × ℕ) where
  typeGet := typeGet
  kind := kind
  base r t := (r.listBase t).getD t
  name := name
  fields r t := (r.fields t).map fun f => (f.name, f.type)
  stringType := 7
  rootType := rootType
  typeCreate kind name desc := gqlCreate kind name desc
  typeDestroy t r := r.typeDestroy t
  assureType name := gqlAssureType name
  assureList t := gqlAssureList t
  assureNonnull t := gqlAssureNonnull t
  typeSetDir t uses r := r.update t fun type => { type with dir := uses }
  typeAddDir t use r := r.update t fun type => { type with dir := type.dir ++ [use] }
  addInterface := addInterface
  assureDirective name := assureDirective name
  enumAppend t value len desc uses := gqlEnumAppend t value len desc uses
  unionAdd t member := gqlUnionAdd t member
  directiveCreate name desc := gqlDirectiveCreate name desc
  dirArg d name type desc dval := gqlDirArg d name type desc dval
  directiveOn d loc := gqlDirectiveOn d loc
  typeField t name type dval desc uses := gqlTypeField t name type dval desc uses
  fieldArg field name type desc dval := gqlFieldArg field name type desc dval
  inputArg t name type desc dval uses := gqlInputArg t name type desc dval uses

end Agoo
