import Agoo.Sdl

/-!
# Executable documents (`sdl.c`, second half)

The parser of queries. Variables, arguments and selections are kept in lists in the order of the
text; the allocation that a failed parse leaks is not modelled.
-/

namespace Agoo

open Agoo.Parser

variable {text : Bytes} {σ τ δ φ α : Type}

/-- `gqlOpKind`. -/
inductive GqlOpKind
  | query | mutation | subscription
  deriving DecidableEq, Repr

/-- `struct _gqlVar`. -/
structure GqlVar (τ : Type) where
  name : Bytes
  type : Option τ
  value : Option (GqlValue τ)

/-- `struct _gqlSelArg`: the variable or the value. -/
structure SelArg (τ : Type) where
  name : Bytes
  var : Option (GqlVar τ)
  value : Option (GqlValue τ)

/-- `struct _gqlSel`, with its inline fragment: whether there is one, its type, uses and selections. -/
inductive GqlSel (τ δ : Type)
  | mk (selAlias name frag : Option Bytes) (dir : List (DirUse τ δ)) (args : List (SelArg τ))
      (sels : List (GqlSel τ δ)) (inline : Bool) (on : Option τ) (inlineDir : List (DirUse τ δ))
      (inlineSels : List (GqlSel τ δ))

/-- `struct _gqlOp`. -/
structure GqlOp (τ δ : Type) where
  name : Option Bytes
  vars : List (GqlVar τ)
  dir : List (DirUse τ δ)
  sels : List (GqlSel τ δ)
  kind : GqlOpKind

/-- `struct _gqlFrag`. -/
structure GqlFrag (τ δ : Type) where
  name : Bytes
  dir : List (DirUse τ δ)
  on : Option τ
  sels : List (GqlSel τ δ)

/-- `struct _gqlDoc`. -/
structure GqlDoc (τ δ : Type) where
  ops : List (GqlOp τ δ)
  vars : List (GqlVar τ)
  frags : List (GqlFrag τ δ)

def GqlSel.name : GqlSel τ δ → Option Bytes
  | mk _ name _ _ _ _ _ _ _ _ => name

/-- `sel_create`. -/
def selCreate (selAlias name frag : Option Bytes) : GqlSel τ δ :=
  .mk selAlias name frag [] [] [] false none [] []

/-- `query_str`, `mutation_str` and `subscription_str`. -/
def GqlOpKind.str : GqlOpKind → Bytes
  | query => bytes "query"
  | mutation => bytes "mutation"
  | subscription => bytes "subscription"

/-! ## Arguments and variables -/

/-- The variable of an argument: the operation's own when it has a default value, else the
document's. -/
def findVar (vars opVars : List (GqlVar τ)) (name : Bytes) : Option (GqlVar τ) :=
  ((opVars.find? (·.name = name)).filter (·.value.isSome)).or (vars.find? (·.name = name))

/-- `make_sel_arg`, in an operation with the given variables or in none. -/
def makeSelArg (reg : Registry σ τ δ φ) (fuel : ℕ) (vars : List (GqlVar τ))
    (op : Option (List (GqlVar τ))) : Parser text σ (SelArg τ) := do
  let _ ← skipWhite
  let name ← readName
  let _ ← skipWhite
  expect (bytes ":") (bytes "Expected :")
  let _ ← skipWhite
  match op with
  | some opVars =>
    if ← accept (bytes "$") then
      let varName ← readName
      match findVar vars opVars varName with
      | some var => return ⟨name, some var, none⟩
      | none =>
        docErr (bytes "variable $" ++ varName ++ bytes " not defined for operation or document")
    return ⟨name, none, some (← readValue reg fuel none)⟩
  | none => return ⟨name, none, some (← readValue reg fuel none)⟩

/-- `make_op_var`. -/
def makeOpVar (reg : Registry σ τ δ φ) (fuel : ℕ) : Parser text σ (GqlVar τ) := do
  let _ ← skipWhite
  expect (bytes "$") (bytes "Expected $")
  let name ← readName
  let _ ← skipWhite
  expect (bytes ":") (bytes "Expected :")
  let type ← readType reg fuel
  let _ ← skipWhite
  return ⟨name, some type, ← defaultValue reg fuel type⟩

/-! ## Selections -/

/-- `if (doc->end <= doc->cur && '}' != doc->cur[-1])`. -/
def closed : Parser text σ Unit := do
  let cur ← Scanner.pos
  require (cur.1 < text.length ∨ at0 text (cur.1 - 1) = chr '}') (bytes "Expected a \x7d")

/-- Selections up to the closing brace. -/
def selsTo (make : Parser text σ (GqlSel τ δ)) (fuel : ℕ) : Parser text σ (List (GqlSel τ δ)) := do
  let sels ← membersTo (bytes "\x7d") (fun sels => do return sels ++ [← make]) fuel []
  closed
  return sels

/-- The selections of a field or an inline fragment, if a brace comes next. -/
def subSels (make : Parser text σ (GqlSel τ δ)) (fuel : ℕ) : Parser text σ (List (GqlSel τ δ)) := do
  if ← accept (bytes "\x7b") then selsTo make fuel else return []

/-- `make_sel_inline`; `make` reads the selections inside. -/
def makeSelInline (reg : Registry σ τ δ φ) (make : Parser text σ (GqlSel τ δ)) (fuel : ℕ) :
    Parser text σ (GqlSel τ δ) := do
  let _ ← accept (bytes "...")
  let _ ← skipWhite
  if ← accept (bytes "on") then
    let _ ← skipWhite
    let typeName ← readName
    let on ← tryReg (reg.assureType typeName)
    let use ← extractDirUse reg fuel
    let _ ← skipWhite
    return .mk none none none use.toList [] [] true on [] (← subSels make fuel)
  else if (← peek) = chr '@' then
    let use ← extractDirUse reg fuel
    let _ ← skipWhite
    return .mk none none none [] [] [] true none use.toList (← subSels make fuel)
  else
    let name ← readName
    return selCreate none none (some name)

/-- A field: its alias and its name. -/
def fieldHead : Parser text σ (GqlSel τ δ) := do
  let selAlias ← readName
  let _ ← skipWhite
  if ← accept (bytes ":") then
    let _ ← skipWhite
    let name ← readName
    let _ ← skipWhite
    return selCreate (some selAlias) (some name) none
  return selCreate none (some selAlias) none

/-- The arguments of a selection, if a parenthesis comes next. -/
def selArgs (reg : Registry σ τ δ φ) (fuel : ℕ) (vars : List (GqlVar τ))
    (op : Option (List (GqlVar τ))) : Parser text σ (List (SelArg τ)) := do
  if ← accept (bytes "(") then
    let args ← membersTo (bytes ")") (fun args => do
      return args ++ [← makeSelArg reg fuel vars op]) fuel []
    let _ ← skipWhite
    return args
  return []

/-- What may follow a selection: arguments and, behind a directive use, selections. A reference to a
fragment has neither. -/
def selRest (reg : Registry σ τ δ φ) (make : Parser text σ (GqlSel τ δ)) (fuel : ℕ)
    (vars : List (GqlVar τ)) (op : Option (List (GqlVar τ))) :
    GqlSel τ δ → Parser text σ (GqlSel τ δ)
  | .mk selAlias name (some frag) dir args sels inline on inlineDir inlineSels => do
    let use ← extractDirUse reg fuel
    return .mk selAlias name (some frag) (dir ++ use.toList) args sels inline on inlineDir inlineSels
  | .mk selAlias name none dir _ _ inline on inlineDir inlineSels => do
    let args ← selArgs reg fuel vars op
    let use ← extractDirUse reg fuel
    return .mk selAlias name none (dir ++ use.toList) args (← subSels make fuel) inline on inlineDir
      inlineSels

/-- `make_sel`; `parent` tells whether there is a list to put the selection in. -/
def makeSel (reg : Registry σ τ δ φ) (vars : List (GqlVar τ)) (op : Option (List (GqlVar τ))) :
    ℕ → Bool → Parser text σ (GqlSel τ δ)
  | 0, _ => Scanner.spent
  | fuel + 1, parent => do
    require (op.isSome ∨ parent)
      (bytes "Fields can only be in a fragment, operation, or another field.")
    let _ ← skipWhite
    let inside := makeSel reg vars op fuel true
    if ← looking (bytes "...") then
      selRest reg inside fuel vars op (← makeSelInline reg inside fuel)
    else
      selRest reg inside fuel vars op (← fieldHead)

/-! ## Types of fields -/

/-- `lookup_field_type` on a type that may be null, with a name that may be null. -/
def lookupFieldType (reg : Registry σ τ δ φ) :
    ℕ → Option τ → Option Bytes → Bool → Parser text σ (Option τ)
  | 0, _, _, _ => Scanner.spent
  | _ + 1, none, _, _ => Scanner.crash
  | fuel + 1, some type, field, qroot => do
    let kind ← askReg (reg.kind · type)
    if kind = .schema ∨ kind = .object ∨ kind = .input ∨ kind = .interface then
      match field with
      | none => Scanner.crash
      | some field =>
        let fields ← askReg (reg.fields · type)
        match fields.lookup field with
        | some t => return some t
        | none =>
          if field = bytes "__typename" then return some reg.stringType
          else if qroot ∧ field = bytes "__type" then askReg (reg.typeGet · (bytes "__Type"))
          else if qroot ∧ field = bytes "__schema" then askReg (reg.typeGet · (bytes "__Schema"))
          else return none
    else if kind = .list ∨ kind = .nonNull then
      let base ← askReg (reg.base · type)
      lookupFieldType reg fuel (some base) field false
    else return none

/-- `has_all_fields`. -/
def hasAllFields (reg : Registry σ τ δ φ) (fuel : ℕ) (type : Option τ) :
    List (GqlSel τ δ) → Parser text σ Bool
  | [] => return true
  | sel :: sels => do
    match ← lookupFieldType reg fuel type sel.name false with
    | none => return false
    | some _ => hasAllFields reg fuel type sels

/-! ## Operations and fragments -/

/-- The kind of an operation and `kind_str`: the default kind, under the name of a query, when there
is no key word. -/
def opKind (kind : GqlOpKind) : Parser text σ (GqlOpKind × Bytes) := do
  let start ← Scanner.pos
  readToken
  let word ← since start
  if word = [] then return (kind, GqlOpKind.query.str)
  else if word = GqlOpKind.query.str then return (.query, word)
  else if word = GqlOpKind.mutation.str then return (.mutation, word)
  else if word = GqlOpKind.subscription.str then return (.subscription, word)
  else docErr (bytes "Invalid operation type")

/-- The variables of an operation. -/
def opVars (reg : Registry σ τ δ φ) (fuel : ℕ) : Parser text σ (List (GqlVar τ)) := do
  if ← accept (bytes "(") then
    let vars ← membersTo (bytes ")") (fun vars => do return vars ++ [← makeOpVar reg fuel]) fuel []
    let _ ← skipWhite
    return vars
  return []

/-- The selections of a named operation: inside one with its name when the root type has a field of
that name and lacks one of the selected. -/
def wrapSels (reg : Registry σ τ δ φ) (fuel : ℕ) (kindStr name : Bytes) (sels : List (GqlSel τ δ)) :
    Parser text σ (List (GqlSel τ δ)) := do
  let schema ← askReg reg.rootType
  let type ← lookupFieldType reg fuel schema (some kindStr) false
  match ← lookupFieldType reg fuel type (some name) false with
  | none => return sels
  | some _ =>
    if ← hasAllFields reg fuel type sels then return sels
    return [.mk none (some name) none [] [] sels false none [] []]

/-- `make_op`. -/
def makeOp (reg : Registry σ τ δ φ) (fuel : ℕ) (vars : List (GqlVar τ)) (kind : GqlOpKind) :
    Parser text σ (GqlOp τ δ) := do
  let _ ← skipWhite
  let (kind, kindStr) ← opKind kind
  let _ ← skipWhite
  let start ← Scanner.pos
  readToken
  let name ← since start
  require (name.length < 256) (bytes "Name too long")
  let _ ← skipWhite
  let opVars ← opVars reg fuel
  let use ← extractDirUse reg fuel
  expect (bytes "\x7b") (bytes "Expected a \x7b")
  let sels ← selsTo (makeSel reg vars (some opVars) fuel false) fuel
  if name = [] then return ⟨none, opVars, use.toList, sels, kind⟩
  return ⟨some name, opVars, use.toList, ← wrapSels reg fuel kindStr name sels, kind⟩

/-- A key word of a fragment; without it an error is set and the parse goes on. -/
def fragmentWord (word msg : Bytes) : Parser text σ Unit := do
  let _ ← skipWhite
  let start ← Scanner.pos
  readToken
  if (← since start) ≠ word then docErrGoOn msg
  let _ ← skipWhite

/-- `make_fragment`. -/
def makeFragment (reg : Registry σ τ δ φ) (fuel : ℕ) (vars : List (GqlVar τ)) :
    Parser text σ (GqlFrag τ δ) := do
  fragmentWord (bytes "fragment") (bytes "Expected the key word 'fragment'.")
  let name ← readName
  fragmentWord (bytes "on") (bytes "Expected the key word 'on'.")
  let typeName ← readName
  let _ ← skipWhite
  let on ← tryReg (reg.assureType typeName)
  let use ← extractDirUse reg fuel
  expect (bytes "\x7b") (bytes "Expected a \x7b")
  let sels ← selsTo (makeSel reg vars none fuel true) fuel
  return ⟨name, use.toList, on, sels⟩

/-! ## Validation -/

/-- The type of a field in `sel_set_type`. -/
def selType (reg : Registry σ τ δ φ) (fuel : ℕ) (type : Option τ) (field : Bytes) (qroot : Bool) :
    Parser text σ (Option τ) := do
  match ← lookupFieldType reg fuel type (some field) qroot, type with
  | some t, _ => return some t
  | none, some type =>
    let name ← askReg (reg.name · type)
    fail (errSet .eval
      (bytes "Failed to determine the type for " ++ field ++ bytes " in " ++ name ++ bytes "."))
  | none, none => Scanner.crash

/-- `sel_set_type`, without the types it sets. -/
def selSetType (reg : Registry σ τ δ φ) :
    ℕ → Option τ → List (GqlSel τ δ) → Bool → Parser text σ Unit
  | 0, _, _, _ => Scanner.spent
  | _ + 1, _, [], _ => return ()
  | fuel + 1, type, .mk _ none _ _ _ sels inline on _ inlineSels :: rest, qroot => do
    if inline then selSetType reg fuel (on.or type) inlineSels false
    selSetType reg fuel type sels false
    selSetType reg fuel type rest qroot
  | fuel + 1, type, .mk _ (some field) _ _ _ sels _ _ _ _ :: rest, qroot => do
    let selType ← selType reg fuel type field qroot
    selSetType reg fuel selType sels false
    selSetType reg fuel type rest qroot

/-- At most one operation is without a name, and no two have one name. -/
def checkNames : Bool → List (GqlOp τ δ) → Parser text σ Unit
  | _, [] => return ()
  | unnamed, op :: rest =>
    match op.name with
    | none =>
      if unnamed then fail (errSet .eval (bytes "Multiple un-named operation."))
      else checkNames true rest
    | some name =>
      if rest.any (·.name = some name) then
        fail (errSet .eval (bytes "Multiple operation named '" ++ name ++ bytes "'."))
      else checkNames unnamed rest

/-- The selections of an operation, from the field of the schema for its kind. -/
def opSetType (reg : Registry σ τ δ φ) (fuel : ℕ) (schema : τ) (op : GqlOp τ δ) :
    Parser text σ Unit := do
  match ← lookupFieldType reg fuel (some schema) (some op.kind.str) false with
  | none => fail (errSet .eval (bytes "Not a supported operation type."))
  | some type => selSetType reg fuel (some type) op.sels (op.kind = .query)

/-- `validate_doc`. -/
def validateDoc (reg : Registry σ τ δ φ) (fuel : ℕ) (doc : GqlDoc τ δ) : Parser text σ Unit := do
  match ← askReg reg.rootType with
  | none => fail (errSet .eval (bytes "No root (schema) type defined."))
  | some schema =>
    doc.frags.forM fun frag => selSetType reg fuel frag.on frag.sels false
    checkNames false doc.ops
    doc.ops.forM (opSetType reg fuel schema)

/-! ## Documents -/

/-- One round of the loop of `sdl_parse_doc`: whether the document ends here, and what was read. -/
def docMember (reg : Registry σ τ δ φ) (fuel : ℕ) (kind : GqlOpKind) (doc : GqlDoc τ δ) :
    Parser text σ (Bool × GqlDoc τ δ) := do
  nextToken
  let cur ← Scanner.pos
  let c ← peek
  if text.length ≤ cur.1 then
    return (true, doc)
  else if c = chr '{' ∨ c = chr 'q' ∨ c = chr 'm' ∨ c = chr 's' then
    let op ← makeOp reg fuel doc.vars kind
    return (false, { doc with ops := doc.ops ++ [op] })
  else if c = chr 'f' then
    let frag ← makeFragment reg fuel doc.vars
    return (false, { doc with frags := doc.frags ++ [frag] })
  else if c = 0 then
    return (true, doc)
  else
    docErr (bytes "unexpected character")

/-- `sdl_parse_doc`, after `agoo_doc_init`. -/
def sdlParseDoc (reg : Registry σ τ δ φ) (fuel : ℕ) (vars : List (GqlVar τ)) (kind : GqlOpKind) :
    Parser text σ (GqlDoc τ δ) := do
  let doc ← Scanner.whileLt (docMember reg fuel kind) fuel ⟨[], vars, []⟩
  validateDoc reg fuel doc
  return doc

end Agoo
