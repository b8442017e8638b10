import Agoo.Err

/-!
# GraphQL values and the type registry

Values as the readers make them, and what the SDL parser asks of the type registry (`graphql.c`).
The registry is an interface over references to types, directives and fields: the parser keeps such
references and does not look into them.
-/

namespace Agoo

/-- `gqlKind`. -/
inductive GqlKind
  | undef | schema | object | frag | input | union | interface | enum | scalar | list | nonNull
  deriving DecidableEq, Repr

/-- A number with a fraction or an exponent, before it is rounded: `(i * div + num) * 10 ^ x`. -/
structure FloatLit where
  neg : Bool
  i : UInt64
  num : UInt64
  div : UInt64
  x : ℤ
  deriving DecidableEq, Repr

/-- `struct _gqlValue`. A token keeps the enum type it was read for, a list that of its members. -/
inductive GqlValue (τ : Type)
  | null
  | bool (b : Bool)
  | int (i : ℤ)
  | i64 (i : ℤ)
  | float (f : FloatLit)
  | string (s : Bytes)
  | token (s : Bytes) (enum : Option τ)
  | var (s : Bytes)
  | list (item : Option τ) (members : List (GqlValue τ))
  | object (members : List (Bytes × GqlValue τ))

/-- `struct _gqlDirUse`. -/
structure DirUse (τ δ : Type) where
  dir : δ
  args : List (Bytes × GqlValue τ)

/-- The functions of `graphql.c` that the parser calls, on a registry of type `σ`; `τ`, `δ` and `φ`
refer to types, directives and fields. Descriptions are the strings `alloc_string` makes. -/
structure Registry (σ τ δ φ : Type) where
  /-- `gql_type_get`. -/
  typeGet : σ → Bytes → Option τ
  /-- `type->kind`. -/
  kind : σ → τ → GqlKind
  /-- `type->base`. -/
  base : σ → τ → τ
  /-- `type->name`. -/
  name : σ → τ → Bytes
  /-- `type->fields`, by name. -/
  fields : σ → τ → List (Bytes × τ)
  /-- `&gql_string_type`. -/
  stringType : τ
  /-- `gql_root_type`. -/
  rootType : σ → Option τ
  /-- `gql_scalar_create`, `gql_enum_create` and the like, by kind. -/
  typeCreate : GqlKind → Bytes → Option Bytes → σ → Except Err τ × σ
  /-- `gql_type_destroy`. -/
  typeDestroy : τ → σ → σ
  /-- `gql_assure_type`. -/
  assureType : Bytes → σ → Except Err τ × σ
  /-- `gql_assure_list`. -/
  assureList : τ → σ → Except Err τ × σ
  /-- `gql_assure_nonnull`. -/
  assureNonnull : τ → σ → Except Err τ × σ
  /-- `type->dir = uses`. -/
  typeSetDir : τ → List (DirUse τ δ) → σ → σ
  /-- A use put at the end of `type->dir`. -/
  typeAddDir : τ → DirUse τ δ → σ → σ
  /-- A link put at the end of `type->interfaces`. -/
  addInterface : τ → τ → σ → σ
  /-- The directive of `gql_dir_use_create`. -/
  assureDirective : Bytes → σ → Except Err δ × σ
  /-- `gql_enum_append`, with the text from the value on and the value's length, then `ev->dir`. -/
  enumAppend : τ → Bytes → ℕ → Option Bytes → List (DirUse τ δ) → σ → Except Err Unit × σ
  /-- `gql_union_add`. -/
  unionAdd : τ → τ → σ → Except Err Unit × σ
  /-- `gql_directive_create`. -/
  directiveCreate : Bytes → Option Bytes → σ → Except Err δ × σ
  /-- `gql_dir_arg`. -/
  dirArg : δ → Bytes → τ → Option Bytes → Option (GqlValue τ) → σ → Except Err Unit × σ
  /-- `gql_directive_on`. -/
  directiveOn : δ → Bytes → σ → Except Err Unit × σ
  /-- `gql_type_field`, then `field->dir`. -/
  typeField : τ → Bytes → τ → Option (GqlValue τ) → Option Bytes → List (DirUse τ δ) → σ →
    Except Err φ × σ
  /-- `gql_field_arg`. -/
  fieldArg : φ → Bytes → τ → Option Bytes → Option (GqlValue τ) → σ → Except Err Unit × σ
  /-- `gql_input_arg`, then `arg->dir`. -/
  inputArg : τ → Bytes → τ → Option Bytes → Option (GqlValue τ) → List (DirUse τ δ) → σ →
    Except Err Unit × σ

/-- A registry that keeps nothing: types and directives are their names, and every call succeeds. -/
def nameRegistry : Registry Unit Bytes Bytes Unit where
  typeGet _ _ := none
  kind _ _ := .undef
  base _ t := t
  name _ t := t
  fields _ _ := []
  stringType := bytes "String"
  rootType _ := none
  typeCreate _ name _ s := (.ok name, s)
  typeDestroy _ s := s
  assureType name s := (.ok name, s)
  assureList t s := (.ok (bytes "[" ++ t ++ bytes "]"), s)
  assureNonnull t s := (.ok (t ++ bytes "!"), s)
  typeSetDir _ _ s := s
  typeAddDir _ _ s := s
  addInterface _ _ s := s
  assureDirective name s := (.ok name, s)
  enumAppend _ _ _ _ _ s := (.ok (), s)
  unionAdd _ _ s := (.ok (), s)
  directiveCreate name _ s := (.ok name, s)
  dirArg _ _ _ _ _ s := (.ok (), s)
  directiveOn _ _ s := (.ok (), s)
  typeField _ _ _ _ _ _ s := (.ok (), s)
  fieldArg _ _ _ _ _ s := (.ok (), s)
  inputArg _ _ _ _ _ _ s := (.ok (), s)

end Agoo
