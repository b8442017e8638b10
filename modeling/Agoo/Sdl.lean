import Agoo.DocValue

/-!
# Type definitions (`sdl.c`, first half)

The parser of GraphQL schema documents. Functions that return an error code fail when the code is not
zero; `errCode` stands where the source returns `err->code`, which may be zero. The text never
changes, so a description is copied where it is found. Loops and recursions take fuel.
-/

namespace Agoo

open Agoo.Parser

variable {text : Bytes} {σ τ δ φ α : Type}

/-! ## Names and descriptions -/

/-- What `alloc_string` copies of the description whose first quote is at `q`, with the cursor behind
it. -/
def description (text : Bytes) (q cur : ℕ) : Bytes :=
  if at0 text (q + 1) = chr '"' ∧ at0 text (q + 2) = chr '"' then
    created text (q + 3) (cur - 3 - (q + 3))
  else created text (q + 1) (cur - 1 - (q + 1))

/-- `extract_desc`. -/
def extractDesc : Parser text σ (Option Bytes) := do
  let _ ← skipWhite
  let q ← Scanner.pos
  if (← peek) = chr '"' then
    readString
    return some (description text q.1 (← Scanner.pos).1)
  return none

/-- `read_name` into a buffer of 256 bytes. -/
def readName : Parser text σ Bytes := do
  let start ← Scanner.pos
  readToken
  let name ← since start
  require (name ≠ []) (bytes "Name not provided")
  require (name.length < 256) (bytes "Name too long")
  return name

/-- A key word and the white space behind it. -/
def keyWord (key : Bytes) : Parser text σ Unit := do
  let found ← accept key
  require found (bytes "Expected " ++ key ++ bytes " key word")
  let n ← skipWhite
  require (0 < n) (bytes "Expected " ++ key ++ bytes " key word")

/-- `extract_name`. -/
def extractName (key : Bytes) : Parser text σ Bytes := do
  keyWord key
  readName

/-- A byte that must come next. -/
def expect (lit msg : Bytes) : Parser text σ Unit := do
  let found ← accept lit
  require found msg

/-! ## Uses of directives -/

/-- `make_use_arg`; a use takes every argument, and then the error code is returned. -/
def makeUseArg (reg : Registry σ τ δ φ) (fuel : ℕ) (use : DirUse τ δ) :
    Parser text σ (DirUse τ δ) := do
  let name ← readName
  let _ ← skipWhite
  expect (bytes ":") (bytes "Expected ':'")
  let value ← readValue reg fuel none
  errCode
  return { use with args := use.args ++ [(name, value)] }

/-- `extract_dir_use`: at most one use. -/
def extractDirUse (reg : Registry σ τ δ φ) (fuel : ℕ) : Parser text σ (Option (DirUse τ δ)) := do
  let _ ← skipWhite
  if ← accept (bytes "@") then
    let name ← readName
    let dir ← callReg (reg.assureDirective name)
    let _ ← skipWhite
    if ← accept (bytes "(") then
      let use ← Scanner.whileLt (fun use => do
        let use ← makeUseArg reg fuel use
        let _ ← skipWhite
        return (← accept (bytes ")"), use)) fuel ⟨dir, []⟩
      return some use
    return some ⟨dir, []⟩
  return none

/-- `extract_dir_use` for the list of a type. -/
def typeDirUse (reg : Registry σ τ δ φ) (fuel : ℕ) (type : τ) : Parser text σ Unit := do
  match ← extractDirUse reg fuel with
  | some use => changeReg (reg.typeAddDir type use)
  | none => pure ()

/-! ## Types -/

/-- `read_type`. -/
def readType (reg : Registry σ τ δ φ) : ℕ → Parser text σ τ
  | 0 => Scanner.spent
  | fuel + 1 => do
    let _ ← skipWhite
    let type ← do
      if ← accept (bytes "[") then
        let base ← readType reg fuel
        let _ ← skipWhite
        expect (bytes "]") (bytes "List type not terminated with a ]")
        callReg (reg.assureList base)
      else
        let name ← readName
        callReg (reg.assureType name)
    let _ ← skipWhite
    if (← peek) = chr '!' then
      let type ← callReg (reg.assureNonnull type)
      let _ ← accept (bytes "!")
      return type
    return type

/-- The type to define, or with `x` the one to extend. -/
def definedType (reg : Registry σ τ δ φ) (kind : GqlKind) (name : Bytes) (desc : Option Bytes)
    (x : Bool) : Parser text σ τ := do
  if x then
    match ← askReg (reg.typeGet · name) with
    | some type => return type
    | none => docErr (name ++ bytes " not defined. Can not be extended.")
  callReg (reg.typeCreate kind name desc)

/-- `ERROR: if (!x) gql_type_destroy(type)`. -/
def orDestroy (reg : Registry σ τ δ φ) (type : τ) (x : Bool) (p : Parser text σ α) :
    Parser text σ α :=
  p.cleanup fun u => if x then u else { u with reg := reg.typeDestroy type u.reg }

/-- `make_scalar`. -/
def makeScalar (reg : Registry σ τ δ φ) (fuel : ℕ) (desc : Option Bytes) (x : Bool) :
    Parser text σ Unit := do
  let name ← extractName (bytes "scalar")
  let type ← definedType reg .scalar name desc x
  typeDirUse reg fuel type

/-- One value of an enum; true at the closing brace. The test for the name comes after the directive
use, which skips white space. -/
def enumValue (reg : Registry σ τ δ φ) (fuel : ℕ) (type : τ) : Parser text σ Bool := do
  let desc ← extractDesc
  let start ← Scanner.pos
  readToken
  let value ← since start
  let use ← extractDirUse reg fuel
  if (← Scanner.pos) = start then
    if ← accept (bytes "\x7d") then return true
    docErr (bytes "Invalid Enum value")
  callReg (reg.enumAppend type (cstr (text.drop start)) value.length desc use.toList)
  return false

/-- `make_enum`. -/
def makeEnum (reg : Registry σ τ δ φ) (fuel : ℕ) (desc : Option Bytes) (x : Bool) :
    Parser text σ Unit := do
  let name ← extractName (bytes "enum")
  let use ← extractDirUse reg fuel
  let _ ← skipWhite
  expect (bytes "\x7b") (bytes "Expected '\x7b'")
  let type ← definedType reg .enum name desc x
  changeReg (reg.typeSetDir type use.toList)
  orDestroy reg type x <|
    Scanner.whileLt (fun _ => do return (← enumValue reg fuel type, ())) fuel ()

/-- `make_union`. -/
def makeUnion (reg : Registry σ τ δ φ) (fuel : ℕ) (desc : Option Bytes) (x : Bool) :
    Parser text σ Unit := do
  let name ← extractName (bytes "union")
  let type ← definedType reg .union name desc x
  orDestroy reg type x do
    typeDirUse reg fuel type
    let _ ← skipWhite
    expect (bytes "=") (bytes "Expected '='")
    let _ ← skipWhite
    Scanner.whileLt (fun _ => do
      let member ← readType reg fuel
      callReg (reg.unionAdd type member)
      let _ ← skipWhite
      return (!(← accept (bytes "|")), ())) fuel ()

/-! ## Directives -/

/-- `make_dir_arg`; the equal sign is left for the value. -/
def makeDirArg (reg : Registry σ τ δ φ) (fuel : ℕ) (dir : δ) : Parser text σ Unit := do
  let desc ← extractDesc
  let _ ← skipWhite
  let start ← Scanner.pos
  readToken
  let name ← since start
  require (name ≠ []) (bytes "Argument name not provided")
  let colon ← peek
  require (colon = chr ':') (bytes "Expected ':'")
  require (name.length < 256) (bytes "Name too long")
  let _ ← accept (bytes ":")
  let _ ← skipWhite
  let start ← Scanner.pos
  readToken
  let typeName ← since start
  require (typeName ≠ []) (bytes "Argument type not provided")
  require (typeName.length < 256) (bytes "Type name too long")
  let type ← callReg (reg.assureType typeName)
  let _ ← skipWhite
  let c ← peek
  if c = chr '!' then
    let type ← callReg (reg.assureNonnull type)
    let _ ← accept (bytes "!")
    let _ ← skipWhite
    callReg (reg.dirArg dir name type desc none)
  else if c = chr '=' then
    let dv ← readValue reg fuel (some type)
    let _ ← skipWhite
    callReg (reg.dirArg dir name type desc (some dv))
  else
    callReg (reg.dirArg dir name type desc none)

/-- `make_directive`. -/
def makeDirective (reg : Registry σ τ δ φ) (fuel : ℕ) (desc : Option Bytes) :
    Parser text σ Unit := do
  keyWord (bytes "directive")
  expect (bytes "@") (bytes "Expected '@'")
  let name ← readName
  let dir ← callReg (reg.directiveCreate name desc)
  if ← accept (bytes "(") then
    Scanner.whileLt (fun _ => do
      makeDirArg reg fuel dir
      let _ ← skipWhite
      return (← accept (bytes ")"), ())) fuel ()
  let _ ← skipWhite
  let start ← Scanner.pos
  readToken
  let on ← since start
  require (on = bytes "on") (bytes "Expected 'on'")
  Scanner.whileLt (fun _ => do
    let _ ← skipWhite
    let start ← Scanner.pos
    readToken
    let loc ← since start
    callReg (reg.directiveOn dir (created text start loc.length))
    let _ ← skipWhite
    return (!(← accept (bytes "|")), ())) fuel ()

/-! ## Fields -/

/-- `make_field_arg`; the equal sign is left for the value. -/
def makeFieldArg (reg : Registry σ τ δ φ) (fuel : ℕ) (field : φ) : Parser text σ Unit := do
  let desc ← extractDesc
  let _ ← skipWhite
  let name ← readName
  let _ ← skipWhite
  expect (bytes ":") (bytes "Expected :")
  let type ← readType reg fuel
  let _ ← skipWhite
  if (← peek) = chr '=' then
    let dval ← readValue reg fuel (some type)
    callReg (reg.fieldArg field name type desc (some dval))
  else
    callReg (reg.fieldArg field name type desc none)

/-- A default value after its equal sign. -/
def defaultValue (reg : Registry σ τ δ φ) (fuel : ℕ) (type : τ) :
    Parser text σ (Option (GqlValue τ)) := do
  if ← accept (bytes "=") then return some (← readValue reg fuel (some type))
  return none

/-- The arguments of a field are passed over, to the next `)`, and read after the field is made. -/
def fieldArgsStart : Parser text σ (Option (Pos text)) := do
  if ← accept (bytes "(") then
    let start ← Scanner.pos
    let found ← skipTo (chr ')')
    require found (bytes "Argument list not terminated with a )")
    let _ ← accept (bytes ")")
    let _ ← skipWhite
    expect (bytes ":") (bytes "Expected :")
    return some start
  expect (bytes ":") (bytes "Expected : or (")
  return none

/-- `make_field`. -/
def makeField (reg : Registry σ τ δ φ) (fuel : ℕ) (type : τ) : Parser text σ Unit := do
  let desc ← extractDesc
  let _ ← skipWhite
  let name ← readName
  let _ ← skipWhite
  let argStart ← fieldArgsStart
  let returnType ← readType reg fuel
  let dval ← defaultValue reg fuel returnType
  let use ← extractDirUse reg fuel
  let field ← callReg (reg.typeField type name returnType dval desc use.toList)
  match argStart with
  | none => pure ()
  | some start =>
    let cur ← Scanner.pos
    Scanner.seek start
    Scanner.forever (fun _ => do
      makeFieldArg reg fuel field
      let _ ← skipWhite
      return ((← peek) = chr ')', ())) fuel ()
    Scanner.seek cur

/-- `make_input_arg`. -/
def makeInputArg (reg : Registry σ τ δ φ) (fuel : ℕ) (type : τ) : Parser text σ Unit := do
  let desc ← extractDesc
  let _ ← skipWhite
  let name ← readName
  let _ ← skipWhite
  expect (bytes ":") (bytes "Expected :")
  let returnType ← readType reg fuel
  let dval ← defaultValue reg fuel returnType
  let use ← extractDirUse reg fuel
  callReg (reg.inputArg type name returnType desc dval use.toList)

/-- Fields up to the closing brace. -/
def fieldsTo (make : Parser text σ Unit) (fuel : ℕ) : Parser text σ Unit := do
  let _ ← skipWhite
  Scanner.whileLt (fun _ => do
    if ← accept (bytes "\x7d") then return (true, ())
    make
    let _ ← skipWhite
    return (false, ())) fuel ()

/-- `make_interface`: without a brace the type is destroyed and the code returned is the one the
error had before. -/
def makeInterface (reg : Registry σ τ δ φ) (fuel : ℕ) (desc : Option Bytes) (x : Bool) :
    Parser text σ Unit := do
  let name ← extractName (bytes "interface")
  let type ← definedType reg .interface name desc x
  let brace ← orDestroy reg type x do
    typeDirUse reg fuel type
    let _ ← skipWhite
    accept (bytes "\x7b")
  if brace then
    orDestroy reg type x <| fieldsTo (makeField reg fuel type) fuel
  else
    unless x do changeReg (reg.typeDestroy type)
    errCode

/-- `make_input`. -/
def makeInput (reg : Registry σ τ δ φ) (fuel : ℕ) (desc : Option Bytes) (x : Bool) :
    Parser text σ Unit := do
  let name ← extractName (bytes "input")
  let type ← definedType reg .input name desc x
  orDestroy reg type x do
    typeDirUse reg fuel type
    let _ ← skipWhite
    expect (bytes "\x7b") (bytes "Expected '\x7b'")
    fieldsTo (makeInputArg reg fuel type) fuel

/-- `extract_interfaces`. -/
def extractInterfaces (reg : Registry σ τ δ φ) (fuel : ℕ) (type : τ) : Parser text σ Unit := do
  let _ ← skipWhite
  if ← accept (bytes "implements") then
    let n ← skipWhite
    require (0 < n) (bytes "Expected white after 'implements'")
    let _ ← Scanner.whileLt (fun (first : Bool) => do
      let _ ← skipWhite
      let c ← peek
      if c = chr '{' ∨ c = chr '@' then return (true, first)
      if ← accept (bytes "&") then
        let _ ← skipWhite
      else
        require first (bytes "Expected &")
      let interface ← readType reg fuel
      changeReg (reg.addInterface type interface)
      return (false, false)) fuel true

/-- `make_type`. -/
def makeType (reg : Registry σ τ δ φ) (fuel : ℕ) (desc : Option Bytes) (x : Bool) :
    Parser text σ Unit := do
  let name ← extractName (bytes "type")
  let type ← definedType reg .object name desc x
  orDestroy reg type x do
    extractInterfaces reg fuel type
    typeDirUse reg fuel type
    let _ ← skipWhite
    expect (bytes "\x7b") (bytes "Expected '\x7b'")
    fieldsTo (makeField reg fuel type) fuel

/-- `make_schema`: the type is destroyed for want of a brace only. -/
def makeSchema (reg : Registry σ τ δ φ) (fuel : ℕ) (desc : Option Bytes) (x : Bool) :
    Parser text σ Unit := do
  keyWord (bytes "schema")
  let type ← definedType reg .schema (bytes "schema") desc x
  typeDirUse reg fuel type
  let _ ← skipWhite
  orDestroy reg type x <| expect (bytes "\x7b") (bytes "Expected '\x7b'")
  fieldsTo (makeField reg fuel type) fuel

/-! ## Schema documents -/

/-- The definition at the cursor, with the description before it and whether `extend` was met: whether
the document ends here, and both again. `extend` holds for all that follows. -/
def definition (reg : Registry σ τ δ φ) (fuel : ℕ) (s : Option Bytes × Bool) :
    Parser text σ (Bool × Option Bytes × Bool) := do
  nextToken
  let left := text.length - (← Scanner.pos).1
  let c ← peek
  if c = chr '"' then
    let desc ← extractDesc
    return (false, desc, s.2)
  else if c = chr 's' then
    if 6 < left && (← looking (bytes "sc")) then
      if ← looking (bytes "sca") then makeScalar reg fuel s.1 s.2 else makeSchema reg fuel s.1 s.2
      return (false, none, s.2)
    docErr (bytes "Unknown directive")
  else if c = chr 'e' then
    if 4 < left then
      if ← looking (bytes "en") then
        makeEnum reg fuel s.1 s.2
        return (false, none, s.2)
      keyWord (bytes "extend")
      return (false, none, true)
    docErr (bytes "Unknown directive")
  else if c = chr 'u' then
    makeUnion reg fuel s.1 s.2
    return (false, none, s.2)
  else if c = chr 'd' then
    makeDirective reg fuel s.1
    return (false, none, s.2)
  else if c = chr 't' then
    makeType reg fuel s.1 s.2
    return (false, none, s.2)
  else if c = chr 'i' then
    if 5 < left && (← looking (bytes "in")) then
      if ← looking (bytes "inp") then makeInput reg fuel s.1 s.2 else makeInterface reg fuel s.1 s.2
      return (false, none, s.2)
    docErr (bytes "Unknown directive")
  else if c = 0 then
    return (true, s)
  else
    docErr (bytes "Unknown directive")

/-- `sdl_parse`, after `agoo_doc_init`. -/
def sdlParse (reg : Registry σ τ δ φ) (fuel : ℕ) : Parser text σ Unit := do
  let _ ← Scanner.whileLt (definition reg fuel) fuel (none, false)

end Agoo
