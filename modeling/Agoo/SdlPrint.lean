import Agoo.GqlText
import Agoo.SdlDoc
import Agoo.TypeTable

/-!
# Printers of schemas and documents (`graphql.c`)

A text that gets too small is moved, and who appends to it must go on with what comes back. What is returned is
a name for the text, and the text that is allocated has only one.
-/

namespace Agoo

namespace SdlPrint

/-! ## Texts -/

/-- The text that is allocated now: its bytes and `alen`. It is named by how often it was moved. -/
structure Store where
  live : ℕ
  bytes : Bytes
  alen : ℕ

/-- There is no result where a text is used that was moved, or memory that belongs to nothing. -/
abbrev Print (α : Type) := StateT Store Option α

def fault : Print ℕ := fun _ => none

/-- Some bytes are appended. A text that is too small is moved. -/
def put (text : ℕ) (bs : Bytes) : Print ℕ := fun st =>
  if text ≠ st.live then none
  else if st.alen ≤ st.bytes.length + bs.length then
    some (st.live + 1, ⟨st.live + 1, st.bytes ++ bs, st.alen + bs.length + st.alen / 2⟩)
  else some (text, { st with bytes := st.bytes ++ bs })

/-- What `agoo_text_append` takes of the memory at `s`. -/
def taken (s : Bytes) (len : ℤ) : Bytes := if len ≤ 0 then cstr s else s.take len.toNat

/-- `agoo_text_append`. -/
def append (text : ℕ) (s : Bytes) (len : ℤ) : Print ℕ := put text (taken s len)

/-- `agoo_text_append` for a literal and its length. -/
def lit (text : ℕ) (s : Bytes) : Print ℕ := append text s s.length

/-- `agoo_text_append_char`. -/
def appendChar (text : ℕ) (c : Byte) : Print ℕ := put text [c]

/-- `agoo_text_append_json` for a whole string. -/
def appendString (text : ℕ) (s : Bytes) : Print ℕ := put text (appendJson s)

/-- `text->len`. -/
def textLen (text : ℕ) : Print ℕ := fun st => if text ≠ st.live then none else some (st.bytes.length, st)

/-! ## Printers -/

variable {α : Type}

/-- A loop over members; `f` is told which is the last. -/
def each (f : ℕ → α → Bool → Print ℕ) : ℕ → List α → Print ℕ
  | text, [] => pure text
  | text, x :: xs => do
    let text ← f text x xs.isEmpty
    each f text xs

/-- `name(text)`, if it is asked for. -/
def printIf (c : Prop) [Decidable c] (text : ℕ) (f : ℕ → Print ℕ) : Print ℕ := if c then f text else pure text

/-- A call through a pointer, which may not be one to a function. -/
def callUnless (bad : Bool) (f : Print ℕ) : Print ℕ := if bad then fault else f

section

variable (fmt : FloatLit → Bytes)

/-- The type of a member is an enum, which has no function in the place of `to_sdl`. -/
def isEnum : GqlValue ℕ → Bool
  | .token _ (some _) => true
  | _ => false

mutual

/-- `gql_value_sdl` without indentation. -/
def gqlValueSdl (text : ℕ) : GqlValue ℕ → Print ℕ
  | .null => lit text (bytes "null")
  | .bool b => lit text (boolText b)
  | .int i => lit text (intText i)
  | .i64 i => lit text (intText i)
  | .float f => lit text (fmt f)
  | .string s => do
    let text ← lit text (bytes "\"")
    let text ← appendString text s
    lit text (bytes "\"")
  | .token s _ => appendString text s
  | .var s => do
    let text ← appendChar text (chr '%')
    appendString text s
  | .list _ ms => do
    let text ← lit text (bytes "[")
    let text ← listToSdl text ms
    lit text (bytes "]")
  | .object ms => do
    let text ← lit text (bytes "\x7b")
    let text ← gqlObjectToSdl text ms
    lit text (bytes "\x7d")

/-- The members in `list_to_sdl`. -/
def listToSdl (text : ℕ) : List (GqlValue ℕ) → Print ℕ
  | [] => pure text
  | m :: ms => do
    let text ← callUnless (isEnum m) (gqlValueSdl text m)
    let text ← printIf (ms.isEmpty = false) text fun text => lit text (bytes ",")
    listToSdl text ms

/-- The members in `gql_object_to_sdl`. -/
def gqlObjectToSdl (text : ℕ) : List (Bytes × GqlValue ℕ) → Print ℕ
  | [] => pure text
  | (key, m) :: ms => do
    let text ← append text key (-1)
    let text ← lit text (bytes ":")
    let text ← callUnless (isEnum m) (gqlValueSdl text m)
    let text ← printIf (ms.isEmpty = false) text fun text => lit text (bytes ",")
    gqlObjectToSdl text ms

end

/-- `spaces`. -/
def spaces : Bytes := List.replicate 16 (chr ' ')

/-- `desc_len` is not negative: no byte is below a space (`char` has a sign), a quote or a backslash. -/
def plainDesc (desc : Bytes) : Bool :=
  (cstr desc).all fun c => 0x20 ≤ c && c < 0x80 && c != chr '"' && c != chr '\\'

/-- A line of a description. -/
def lineSdl (text : ℕ) (s : Bytes) (indent start d : ℕ) : Print ℕ := do
  let text ← append text spaces indent
  append text (s.drop start) (d - start : ℤ)

/-- Where the next line starts, for a line that ends at `d`. -/
def nextLine (s : Bytes) (d : ℕ) : ℕ := if at0 s d = chr '\r' ∧ at0 s (d + 1) = chr '\n' then d + 2 else d + 1

theorem lt_nextLine (s : Bytes) (d : ℕ) : d < nextLine s d := by
  unfold nextLine
  split
  · omega
  · omega

/-- The lines of a description, with the cursor at `d`. It jumps over the byte behind a line's end. -/
def descLines (s : Bytes) (indent text start d : ℕ) : Print ℕ :=
  if s.length < d then fault
  else if s.length = d then lineSdl text s indent start d
  else if at0 s d = chr '\r' ∨ at0 s d = chr '\n' then do
    let text ← lineSdl text s indent start d
    let text ← lit text (bytes "\n")
    descLines s indent text (nextLine s d) (nextLine s d + 1)
  else descLines s indent text start (d + 1)
termination_by s.length + 1 - d
decreasing_by
  · have := lt_nextLine s d
    omega
  · omega

/-- A description between quotes. -/
def quotedDescSdl (text : ℕ) (desc : Bytes) : Print ℕ := do
  let text ← lit text (bytes "\"")
  let text ← append text desc (strlen desc)
  lit text (bytes "\"\n")

/-- A description between triple quotes, line by line. -/
def linedDescSdl (text : ℕ) (desc : Bytes) (indent : ℕ) : Print ℕ := do
  let text ← lit text (bytes "\"\"\"\n")
  let text ← descLines (cstr desc) indent text 0 0
  let text ← lit text (bytes "\n")
  let text ← append text spaces indent
  lit text (bytes "\"\"\"\n")

/-- A description between triple quotes, as it is. -/
def rawDescSdl (text : ℕ) (desc : Bytes) : Print ℕ := do
  let text ← lit text (bytes "\"\"\"\n")
  let text ← append text desc (-1)
  lit text (bytes "\n\"\"\"\n")

/-- `desc_sdl`. -/
def descSdl (text : ℕ) (desc : Option Bytes) (indent : ℕ) : Print ℕ :=
  match desc with
  | none => pure text
  | some desc => do
    let text ← printIf (0 < indent) text fun text => append text spaces indent
    if plainDesc desc then quotedDescSdl text desc
    else if 0 < indent then linedDescSdl text desc indent
    else rawDescSdl text desc

variable (typeName dirName : ℕ → Bytes)

/-- A value that is given to a directive. -/
def linkSdl (text : ℕ) (link : Bytes × GqlValue ℕ) : Print ℕ := do
  let text ← append text link.1 (-1)
  let text ← lit text (bytes ": ")
  gqlValueSdl fmt text link.2

/-- A directive in `append_dir_use`. -/
def useSdl (text : ℕ) (use : DirUse ℕ ℕ) : Print ℕ := do
  let text ← lit text (bytes " @")
  let text ← append text (dirName use.dir) (-1)
  printIf (use.args.isEmpty = false) text fun text => do
    let text ← lit text (bytes "(")
    let text ← each (fun text link _ => linkSdl fmt text link) text use.args
    appendChar text (chr ')')

/-- `append_dir_use`. -/
def appendDirUse (text : ℕ) (uses : List (DirUse ℕ ℕ)) : Print ℕ :=
  each (fun text use _ => useSdl fmt dirName text use) text uses

/-- A default value, if there is one. -/
def defaultSdl (text : ℕ) (value : Option (GqlValue ℕ)) : Print ℕ :=
  match value with
  | none => pure text
  | some value => do
    let text ← lit text (bytes " = ")
    gqlValueSdl fmt text value

/-- `arg_sdl`. -/
def argSdl (text : ℕ) (a : GqlArg) (withDesc sameLine last : Bool) : Print ℕ := do
  let text ← printIf (withDesc = true) text fun text => descSdl text a.desc 4
  let text ← printIf (sameLine = false) text fun text => lit text (bytes "  ")
  let text ← append text a.name (-1)
  let text ← lit text (bytes ": ")
  let text ← append text (typeName a.type) (-1)
  let text ← defaultSdl fmt text a.default
  let text ← printIf (sameLine = true ∧ last = false) text fun text => lit text (bytes ", ")
  printIf (sameLine = false) text fun text => do
    let text ← appendDirUse fmt dirName text a.dir
    appendChar text (chr '\n')

/-- The arguments of a field or a directive. -/
def argsSdl (text : ℕ) (args : List GqlArg) (withDesc : Bool) : Print ℕ :=
  printIf (args.isEmpty = false) text fun text => do
    let text ← lit text (bytes "(")
    let text ← each (fun text a last => argSdl fmt typeName dirName text a withDesc true last) text args
    lit text (bytes ")")

/-- `field_sdl`. -/
def fieldSdl (text : ℕ) (f : GqlField) (withDesc : Bool) : Print ℕ := do
  let text ← printIf (withDesc = true) text fun text => descSdl text f.desc 2
  let text ← lit text (bytes "  ")
  let text ← append text f.name (-1)
  let text ← argsSdl fmt typeName dirName text f.args withDesc
  let text ← lit text (bytes ": ")
  let text ← append text (typeName f.type) (-1)
  let text ← defaultSdl fmt text f.default
  let text ← appendDirUse fmt dirName text f.dir
  appendChar text (chr '\n')

/-- A name, and something behind it unless it is the last. -/
def nameSdl (text : ℕ) (sep name : Bytes) (last : Bool) : Print ℕ := do
  let text ← append text name (-1)
  printIf (last = false) text fun text => lit text sep

/-- Names with something between them. -/
def namesSdl (text : ℕ) (sep : Bytes) (names : List Bytes) : Print ℕ :=
  each (fun text name last => nameSdl text sep name last) text names

/-- Fields between braces. -/
def fieldsSdl (text : ℕ) (fields : List GqlField) (withDesc : Bool) : Print ℕ := do
  let text ← lit text (bytes " \x7b\n")
  let text ← each (fun text f _ => fieldSdl fmt typeName dirName text f withDesc) text fields
  lit text (bytes "\x7d\n")

/-- A word, the name of a type and its directives. -/
def headSdl (text : ℕ) (word : Bytes) (type : GqlType) : Print ℕ := do
  let text ← lit text word
  let text ← append text type.name (-1)
  appendDirUse fmt dirName text type.dir

/-- A choice of an enum. -/
def choiceSdl (text : ℕ) (ev : GqlEnumVal) (withDesc : Bool) : Print ℕ := do
  let text ← lit text (bytes "  ")
  let text ← printIf (withDesc = true) text fun text => descSdl text ev.desc 2
  let text ← append text ev.value (-1)
  let text ← appendDirUse fmt dirName text ev.dir
  lit text (bytes "\n")

def fieldsOf : Members → List GqlField
  | .fields fields _ => fields
  | _ => []

def interfacesOf : Members → List ℕ
  | .fields _ interfaces => interfaces
  | _ => []

def typesOf : Members → List ℕ
  | .types types => types
  | _ => []

def choicesOf : Members → List GqlEnumVal
  | .choices choices => choices
  | _ => []

def argsOf : Members → List GqlArg
  | .args args => args
  | _ => []

/-- The switch of `gql_type_sdl`. -/
def bodySdl (text : ℕ) (type : GqlType) (withDesc : Bool) : Print ℕ :=
  match type.kind with
  | .schema => do
    let text ← lit text (bytes "schema")
    let text ← appendDirUse fmt dirName text type.dir
    fieldsSdl fmt typeName dirName text (fieldsOf type.members) withDesc
  | .object => objectSdl text
  | .frag => objectSdl text
  | .union => do
    let text ← headSdl fmt dirName text (bytes "union ") type
    let text ← lit text (bytes " = ")
    namesSdl text (bytes " | ") ((typesOf type.members).map typeName)
  | .enum => do
    let text ← headSdl fmt dirName text (bytes "enum ") type
    let text ← lit text (bytes " \x7b\n")
    let text ← each (fun text ev _ => choiceSdl fmt dirName text ev withDesc) text (choicesOf type.members)
    lit text (bytes "\x7d\n")
  | .scalar => do
    let text ← headSdl fmt dirName text (bytes "scalar ") type
    lit text (bytes "\n")
  | .interface => do
    let text ← headSdl fmt dirName text (bytes "interface ") type
    fieldsSdl fmt typeName dirName text (fieldsOf type.members) withDesc
  | .input => do
    let text ← headSdl fmt dirName text (bytes "input ") type
    let text ← lit text (bytes " \x7b\n")
    let text ← each (fun text a last => argSdl fmt typeName dirName text a withDesc false last) text
      (argsOf type.members)
    lit text (bytes "\x7d\n")
  | _ => pure text
where
  objectSdl (text : ℕ) : Print ℕ := do
    let text ← lit text (bytes "type ")
    let text ← append text type.name (-1)
    let text ← printIf ((interfacesOf type.members).isEmpty = false) text fun text => do
      let text ← lit text (bytes " implements ")
      namesSdl text (bytes " & ") ((interfacesOf type.members).map typeName)
    let text ← appendDirUse fmt dirName text type.dir
    fieldsSdl fmt typeName dirName text (fieldsOf type.members) withDesc

/-- `gql_type_sdl`. What comes back from `desc_sdl` is not kept. -/
def gqlTypeSdl (text : ℕ) (type : GqlType) (withDesc : Bool) : Print ℕ := do
  let _ ← printIf (withDesc = true) text fun text => descSdl text type.desc 0
  bodySdl fmt typeName dirName text type withDesc

/-- `gql_directive_sdl`. -/
def gqlDirectiveSdl (text : ℕ) (d : GqlDir) (withDesc : Bool) : Print ℕ := do
  let text ← printIf (withDesc = true) text fun text => descSdl text d.desc 0
  let text ← lit text (bytes "directive @")
  let text ← append text d.name (-1)
  let text ← argsSdl fmt typeName dirName text d.args withDesc
  let text ← lit text (bytes " on ")
  namesSdl text (bytes " | ") d.locs

/-- A directive between newlines. -/
def dirLinesSdl (text : ℕ) (d : GqlDir) (withDesc : Bool) : Print ℕ := do
  let text ← lit text (bytes "\n")
  let text ← gqlDirectiveSdl fmt typeName dirName text d withDesc
  lit text (bytes "\n")

/-- The order of `gqlKind`. -/
def kindNum : GqlKind → ℕ
  | .undef => 0
  | .schema => 1
  | .object => 2
  | .frag => 3
  | .input => 4
  | .union => 5
  | .interface => 6
  | .enum => 7
  | .scalar => 8
  | .list => 9
  | .nonNull => 10

/-- `type_cmp` is not positive. -/
def typeLe (a b : GqlType) : Bool :=
  if a.kind = b.kind then !decide (cstr b.name < cstr a.name) else kindNum a.kind ≤ kindNum b.kind

/-- The array `types`, of those in the buckets. -/
def printedTypes (types : List GqlType) (all : Bool) : List GqlType :=
  (types.filter fun type => type.kind != .list && type.kind != .nonNull && (all || !type.core)).mergeSort typeLe

/-- A newline, if the text is longer than it was. -/
def gapSdl (len text : ℕ) : Print ℕ := do
  let len' ← textLen text
  printIf (len < len') text fun text => lit text (bytes "\n")

/-- A type of the array, and a newline between two texts that are not empty. -/
def typeLinesSdl (text : ℕ) (type : GqlType) (withDesc last : Bool) : Print ℕ := do
  let len ← textLen text
  let text ← gqlTypeSdl fmt typeName dirName text type withDesc
  printIf (last = false) text fun text => gapSdl len text

/-- `gql_schema_sdl`, with the types of the buckets in their order. -/
def gqlSchemaSdl (types : List GqlType) (dirs : List GqlDir) (withDesc all : Bool) (text : ℕ) : Print ℕ := do
  let text ← each (fun text type last => typeLinesSdl fmt typeName dirName text type withDesc last) text
    (printedTypes types all)
  each (fun text d _ => dirLinesSdl fmt typeName dirName text d withDesc) text
    (dirs.filter fun d => all || !d.core)

/-- An argument of a selection. -/
def selArgSdl (text : ℕ) (arg : SelArg ℕ) (last : Bool) : Print ℕ := do
  let text ← append text arg.name (-1)
  let text ← lit text (bytes ": ")
  let text ← selValueSdl text
  printIf (last = false) text fun text => lit text (bytes ", ")
where
  selValueSdl (text : ℕ) : Print ℕ :=
    match arg.var, arg.value with
    | some var, _ => do
      let text ← lit text (bytes "$")
      append text var.name (-1)
    | none, some value => gqlValueSdl fmt text value
    | none, none => lit text (bytes "null")

/-- The arguments of a selection. -/
def selArgsSdl (text : ℕ) (args : List (SelArg ℕ)) : Print ℕ :=
  printIf (args.isEmpty = false) text fun text => do
    let text ← lit text (bytes "(")
    let text ← each (fun text arg last => selArgSdl fmt text arg last) text args
    lit text (bytes ")")

/-- A name that may be missing. -/
def nameOf (text : ℕ) (name : Option Bytes) : Print ℕ :=
  match name with
  | none => fault
  | some name => append text name (-1)

/-- The alias of a selection. -/
def aliasSdl (text : ℕ) (selAlias : Option Bytes) : Print ℕ :=
  match selAlias with
  | none => pure text
  | some selAlias => do
    let text ← append text selAlias (-1)
    lit text (bytes ": ")

/-- The dots of an inline fragment, and its type. -/
def onSdl (text : ℕ) (on : Option ℕ) : Print ℕ :=
  match on with
  | none => lit text (bytes "...")
  | some on => do
    let text ← lit text (bytes "... on ")
    append text (typeName on) (-1)

mutual

/-- `sel_sdl`. -/
def selSdl (text depth : ℕ) : GqlSel ℕ ℕ → Print ℕ
  | .mk _ _ (some frag) dir _ _ _ _ _ _ => do
    let text ← append text spaces (min (depth * 2) 16 : ℕ)
    let text ← lit text (bytes "...")
    let text ← append text frag (-1)
    let text ← appendDirUse fmt dirName text dir
    lit text (bytes "\n")
  | .mk _ _ none _ _ _ true on dir sels => do
    let text ← append text spaces (min (depth * 2) 16 : ℕ)
    let text ← onSdl typeName text on
    let text ← appendDirUse fmt dirName text dir
    let text ← selBlockSdl text depth sels
    lit text (bytes "\n")
  | .mk selAlias name none dir args sels false _ _ _ => do
    let text ← append text spaces (min (depth * 2) 16 : ℕ)
    let text ← aliasSdl text selAlias
    let text ← nameOf text name
    let text ← selArgsSdl fmt text args
    let text ← appendDirUse fmt dirName text dir
    let text ← selBlockSdl text depth sels
    lit text (bytes "\n")

/-- The selections of a selection, if it has any. -/
def selBlockSdl (text depth : ℕ) : List (GqlSel ℕ ℕ) → Print ℕ
  | [] => pure text
  | sel :: sels => do
    let text ← lit text (bytes " \x7b\n")
    let text ← selSdl text (depth + 1) sel
    let text ← selsSdl text (depth + 1) sels
    let text ← append text spaces (min (depth * 2) 16 : ℕ)
    lit text (bytes "\x7d")

/-- The loop over selections. -/
def selsSdl (text depth : ℕ) : List (GqlSel ℕ ℕ) → Print ℕ
  | [] => pure text
  | sel :: sels => do
    let text ← selSdl text depth sel
    selsSdl text depth sels

end

/-- A variable of an operation. -/
def varSdl (text : ℕ) (var : GqlVar ℕ) (last : Bool) : Print ℕ := do
  let text ← lit text (bytes "$")
  let text ← append text var.name (-1)
  let text ← lit text (bytes ": ")
  let text ← nameOf text (var.type.map typeName)
  let text ← defaultSdl fmt text var.value
  printIf (last = false) text fun text => lit text (bytes ", ")

/-- The variables of an operation. -/
def varsSdl (text : ℕ) (vars : List (GqlVar ℕ)) : Print ℕ :=
  printIf (vars.isEmpty = false) text fun text => do
    let text ← lit text (bytes "(")
    let text ← each (fun text var last => varSdl fmt typeName text var last) text vars
    lit text (bytes ")")

/-- Directives, and selections between braces. -/
def selSetSdl (text : ℕ) (dir : List (DirUse ℕ ℕ)) (sels : List (GqlSel ℕ ℕ)) : Print ℕ := do
  let text ← appendDirUse fmt dirName text dir
  let text ← lit text (bytes " \x7b\n")
  let text ← selsSdl fmt typeName dirName text 1 sels
  lit text (bytes "\x7d\n")

/-- The name of an operation. -/
def opNameSdl (text : ℕ) (name : Option Bytes) : Print ℕ :=
  match name with
  | none => pure text
  | some name => do
    let text ← lit text (bytes " ")
    append text name (-1)

/-- `op_sdl`. -/
def opSdl (text : ℕ) (op : GqlOp ℕ ℕ) : Print ℕ := do
  let text ← lit text op.kind.str
  let text ← opNameSdl text op.name
  let text ← varsSdl fmt typeName text op.vars
  selSetSdl fmt typeName dirName text op.dir op.sels

/-- `frag_sdl`. -/
def fragSdl (text : ℕ) (frag : GqlFrag ℕ ℕ) : Print ℕ := do
  let text ← lit text (bytes "fragment ")
  let text ← append text frag.name (-1)
  let text ← lit text (bytes " on ")
  let text ← nameOf text (frag.on.map typeName)
  selSetSdl fmt typeName dirName text frag.dir frag.sels

/-- An operation of a document. What comes back from `op_sdl` is not kept. -/
def opLinesSdl (text : ℕ) (op : GqlOp ℕ ℕ) : Print ℕ := do
  let _ ← opSdl fmt typeName dirName text op
  pure text

/-- `gql_doc_sdl`. -/
def gqlDocSdl (doc : GqlDoc ℕ ℕ) (text : ℕ) : Print ℕ := do
  let text ← each (fun text op _ => opLinesSdl fmt typeName dirName text op) text doc.ops
  each (fun text frag _ => fragSdl fmt typeName dirName text frag) text doc.frags

end

/-- The bytes of the text that a printer returns, for a text with some bytes and a capacity. -/
def outcome (printer : ℕ → Print ℕ) (start : Bytes) (cap : ℕ) : Option Bytes :=
  (printer 0 ⟨0, start, cap⟩).bind fun (text, st) => if text = st.live then some st.bytes else none

end SdlPrint

end Agoo
