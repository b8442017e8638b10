import Agoo.SdlPrint

/-!
# What the printers of schemas and documents append (`graphql.c`)

A printer that goes on with what comes back appends its pieces one by one, and which they are depends neither on the
text nor on its capacity.
-/

namespace Agoo

namespace SdlPrint

/-! ## Pieces -/

/-- Some bytes to append, or memory that is not there. -/
abbrev Piece := Option Bytes

/-- The pieces are appended one after the other. -/
def puts (text : ℕ) : List Piece → Print ℕ
  | [] => pure text
  | none :: _ => fault
  | some bs :: ps => do
    let text ← put text bs
    puts text ps

/-- The bytes in pieces. -/
def said : List Piece → Bytes
  | [] => []
  | p :: ps => p.getD [] ++ said ps

@[simp] theorem said_append (ps qs : List Piece) : said (ps ++ qs) = said ps ++ said qs := by
  induction ps with
  | nil => rfl
  | cons p ps ih => simp [said, ih]

theorem puts_append (text : ℕ) (ps qs : List Piece) :
    puts text (ps ++ qs) = puts text ps >>= fun text => puts text qs := by
  induction ps generalizing text with
  | nil => rfl
  | cons p ps ih =>
    cases p with
    | none => rfl
    | some bs =>
      show (put text bs >>= fun text => puts text (ps ++ qs)) = _
      simp only [ih, puts, bind_assoc]

@[simp] theorem puts_bind (text : ℕ) (ps qs : List Piece) :
    (puts text ps >>= fun text => puts text qs) = puts text (ps ++ qs) := (puts_append text ps qs).symm

theorem put_eq (text : ℕ) (bs : Bytes) : put text bs = puts text [some bs] := (bind_pure _).symm

theorem pure_eq (text : ℕ) : (pure text : Print ℕ) = puts text [] := rfl

theorem taken_length (s : Bytes) : taken s s.length = s := by
  unfold taken
  split
  · rw [List.length_eq_zero_iff.mp (by omega : s.length = 0)]
    rfl
  · simp

@[simp] theorem append_eq (text : ℕ) (s : Bytes) (len : ℤ) : append text s len = puts text [some (taken s len)] :=
  put_eq text _

@[simp] theorem taken_cstr (s : Bytes) : taken s (-1) = cstr s := rfl

@[simp] theorem lit_eq (text : ℕ) (s : Bytes) : lit text s = puts text [some s] := by
  rw [lit, append_eq, taken_length]

@[simp] theorem appendChar_eq (text : ℕ) (c : Byte) : appendChar text c = puts text [some [c]] := put_eq text _

@[simp] theorem appendString_eq (text : ℕ) (s : Bytes) : appendString text s = puts text [some (appendJson s)] :=
  put_eq text _

/-- Pieces that are appended if something holds. -/
def piecesIf (c : Prop) [Decidable c] (ps : List Piece) : List Piece := if c then ps else []

@[simp] theorem printIf_eq (c : Prop) [Decidable c] (text : ℕ) (ps : List Piece) :
    printIf c text (fun text => puts text ps) = puts text (piecesIf c ps) := by
  unfold printIf piecesIf
  split
  · rfl
  · rfl

@[simp] theorem ite_puts (c : Prop) [Decidable c] (text : ℕ) (ps qs : List Piece) :
    (if c then puts text ps else puts text qs) = puts text (if c then ps else qs) := by
  split
  · rfl
  · rfl

/-- The pieces of a call. -/
def callPieces (bad : Bool) (ps : List Piece) : List Piece := if bad then [none] else ps

@[simp] theorem call_eq (bad : Bool) (text : ℕ) (ps : List Piece) :
    callUnless bad (puts text ps) = puts text (callPieces bad ps) := by
  cases bad with
  | true => rfl
  | false => rfl

variable {α : Type}

/-- The pieces of the members one after the other. -/
def eachPieces (g : α → Bool → List Piece) : List α → List Piece
  | [] => []
  | x :: xs => g x xs.isEmpty ++ eachPieces g xs

@[simp] theorem each_eq (g : α → Bool → List Piece) (text : ℕ) (xs : List α) :
    each (fun text x last => puts text (g x last)) text xs = puts text (eachPieces g xs) := by
  induction xs generalizing text with
  | nil => rfl
  | cons x xs ih =>
    rw [each, eachPieces, puts_append]
    exact congrArg _ (funext ih)

/-! ## The pieces of a schema -/

section

variable (fmt : FloatLit → Bytes)

mutual

/-- The pieces of `gql_value_sdl`. -/
def valuePieces : GqlValue ℕ → List Piece
  | .null => [some (bytes "null")]
  | .bool b => [some (boolText b)]
  | .int i => [some (intText i)]
  | .i64 i => [some (intText i)]
  | .float f => [some (fmt f)]
  | .string s => [some (bytes "\""), some (appendJson s), some (bytes "\"")]
  | .token s _ => [some (appendJson s)]
  | .var s => [some [chr '%'], some (appendJson s)]
  | .list _ ms => [some (bytes "[")] ++ listPieces ms ++ [some (bytes "]")]
  | .object ms => [some (bytes "\x7b")] ++ membersPieces ms ++ [some (bytes "\x7d")]

def listPieces : List (GqlValue ℕ) → List Piece
  | [] => []
  | m :: ms =>
    callPieces (isEnum m) (valuePieces m) ++ piecesIf (ms.isEmpty = false) [some (bytes ",")] ++ listPieces ms

def membersPieces : List (Bytes × GqlValue ℕ) → List Piece
  | [] => []
  | (key, m) :: ms =>
    [some (cstr key), some (bytes ":")] ++ callPieces (isEnum m) (valuePieces m) ++
      piecesIf (ms.isEmpty = false) [some (bytes ",")] ++ membersPieces ms

end

theorem list_eq (ms : List (GqlValue ℕ))
    (h : ∀ m ∈ ms, ∀ text, gqlValueSdl fmt text m = puts text (valuePieces fmt m)) (text : ℕ) :
    listToSdl fmt text ms = puts text (listPieces fmt ms) := by
  induction ms generalizing text with
  | nil => simp [listToSdl, listPieces, pure_eq]
  | cons m ms ih =>
    have hms := ih fun m hm => h m (.tail _ hm)
    have hm := h m (.head _)
    simp [listToSdl, listPieces, hms, hm]

theorem members_eq (ms : List (Bytes × GqlValue ℕ))
    (h : ∀ m ∈ ms, ∀ text, gqlValueSdl fmt text m.2 = puts text (valuePieces fmt m.2)) (text : ℕ) :
    gqlObjectToSdl fmt text ms = puts text (membersPieces fmt ms) := by
  induction ms generalizing text with
  | nil => simp [gqlObjectToSdl, membersPieces, pure_eq]
  | cons m ms ih =>
    have hms := ih fun m hm => h m (.tail _ hm)
    have hm := h m (.head _)
    obtain ⟨key, m⟩ := m
    simp [gqlObjectToSdl, membersPieces, hms, hm]

/-- A value is its pieces. -/
@[simp] theorem value_eq (v : GqlValue ℕ) (text : ℕ) :
    gqlValueSdl fmt text v = puts text (valuePieces fmt v) := by
  induction v using GqlValue.tree generalizing text with
  | list item ms ih => simp [gqlValueSdl, valuePieces, list_eq fmt ms ih]
  | object ms ih => simp [gqlValueSdl, valuePieces, members_eq fmt ms ih]
  | null => simp [gqlValueSdl, valuePieces]
  | bool b => simp [gqlValueSdl, valuePieces]
  | int i => simp [gqlValueSdl, valuePieces]
  | i64 i => simp [gqlValueSdl, valuePieces]
  | float f => simp [gqlValueSdl, valuePieces]
  | string s => simp [gqlValueSdl, valuePieces]
  | token s e => simp [gqlValueSdl, valuePieces]
  | var s => simp [gqlValueSdl, valuePieces]

/-- The pieces of a line. -/
def linePieces (s : Bytes) (indent start d : ℕ) : List Piece :=
  [some (taken spaces indent), some (taken (s.drop start) (d - start : ℤ))]

/-- The pieces of `descLines`. -/
def linesPieces (s : Bytes) (indent start d : ℕ) : List Piece :=
  if s.length < d then [none]
  else if s.length = d then linePieces s indent start d
  else if at0 s d = chr '\r' ∨ at0 s d = chr '\n' then
    linePieces s indent start d ++ [some (bytes "\n")] ++ linesPieces s indent (nextLine s d) (nextLine s d + 1)
  else linesPieces s indent start (d + 1)
termination_by s.length + 1 - d
decreasing_by
  · have := lt_nextLine s d
    omega
  · omega

@[simp] theorem line_eq (text : ℕ) (s : Bytes) (indent start d : ℕ) :
    lineSdl text s indent start d = puts text (linePieces s indent start d) := by
  simp [lineSdl, linePieces]

@[simp] theorem lines_eq (s : Bytes) (indent text start d : ℕ) :
    descLines s indent text start d = puts text (linesPieces s indent start d) := by
  fun_induction linesPieces s indent start d generalizing text with
  | case1 start d h =>
    rw [descLines, if_pos h]
    rfl
  | case2 start h => rw [descLines, if_neg h, if_pos rfl, line_eq]
  | case3 start d h he hc ih =>
    rw [descLines, if_neg h, if_neg he, if_pos hc]
    simp [ih]
  | case4 start d h he hc ih => rw [descLines, if_neg h, if_neg he, if_neg hc, ih]

/-- The pieces of `desc_sdl`. -/
def descPieces (desc : Option Bytes) (indent : ℕ) : List Piece :=
  match desc with
  | none => []
  | some desc =>
    piecesIf (0 < indent) [some (taken spaces indent)] ++
      if plainDesc desc then [some (bytes "\""), some (taken desc (strlen desc)), some (bytes "\"\n")]
      else if 0 < indent then
        [some (bytes "\"\"\"\n")] ++ linesPieces (cstr desc) indent 0 0 ++
          [some (bytes "\n"), some (taken spaces indent), some (bytes "\"\"\"\n")]
      else [some (bytes "\"\"\"\n"), some (cstr desc), some (bytes "\n\"\"\"\n")]

@[simp] theorem desc_eq (text : ℕ) (desc : Option Bytes) (indent : ℕ) :
    descSdl text desc indent = puts text (descPieces desc indent) := by
  cases desc with
  | none => rfl
  | some desc =>
    simp [descSdl, descPieces, quotedDescSdl, linedDescSdl, rawDescSdl]

variable (typeName dirName : ℕ → Bytes)

/-- The pieces of a value that is given to a directive. -/
def linkPieces (link : Bytes × GqlValue ℕ) : List Piece :=
  [some (cstr link.1), some (bytes ": ")] ++ valuePieces fmt link.2

/-- The pieces of a directive. -/
def usePieces (use : DirUse ℕ ℕ) : List Piece :=
  [some (bytes " @"), some (cstr (dirName use.dir))] ++ piecesIf (use.args.isEmpty = false)
    ([some (bytes "(")] ++ eachPieces (fun link _ => linkPieces fmt link) use.args ++ [some [chr ')']])

/-- The pieces of `append_dir_use`. -/
def usesPieces (uses : List (DirUse ℕ ℕ)) : List Piece := eachPieces (fun use _ => usePieces fmt dirName use) uses

@[simp] theorem link_eq (text : ℕ) (link : Bytes × GqlValue ℕ) :
    linkSdl fmt text link = puts text (linkPieces fmt link) := by
  simp [linkSdl, linkPieces]

@[simp] theorem use_eq (text : ℕ) (use : DirUse ℕ ℕ) :
    useSdl fmt dirName text use = puts text (usePieces fmt dirName use) := by
  simp [useSdl, usePieces]

@[simp] theorem uses_eq (text : ℕ) (uses : List (DirUse ℕ ℕ)) :
    appendDirUse fmt dirName text uses = puts text (usesPieces fmt dirName uses) := by
  simp [appendDirUse, usesPieces]

/-- The pieces of a default value. -/
def defaultPieces (value : Option (GqlValue ℕ)) : List Piece :=
  match value with
  | none => []
  | some value => [some (bytes " = ")] ++ valuePieces fmt value

@[simp] theorem default_eq (text : ℕ) (value : Option (GqlValue ℕ)) :
    defaultSdl fmt text value = puts text (defaultPieces fmt value) := by
  cases value with
  | none => rfl
  | some value => simp [defaultSdl, defaultPieces]

/-- The pieces of `arg_sdl`. -/
def argPieces (a : GqlArg) (withDesc sameLine last : Bool) : List Piece :=
  piecesIf (withDesc = true) (descPieces a.desc 4) ++ piecesIf (sameLine = false) [some (bytes "  ")] ++
    [some (cstr a.name), some (bytes ": "), some (cstr (typeName a.type))] ++ defaultPieces fmt a.default ++
    piecesIf (sameLine = true ∧ last = false) [some (bytes ", ")] ++
    piecesIf (sameLine = false) (usesPieces fmt dirName a.dir ++ [some [chr '\n']])

@[simp] theorem arg_eq (text : ℕ) (a : GqlArg) (withDesc sameLine last : Bool) :
    argSdl fmt typeName dirName text a withDesc sameLine last =
      puts text (argPieces fmt typeName dirName a withDesc sameLine last) := by
  simp [argSdl, argPieces]

/-- The pieces of the arguments of a field or a directive. -/
def argsPieces (args : List GqlArg) (withDesc : Bool) : List Piece :=
  piecesIf (args.isEmpty = false) ([some (bytes "(")] ++
    eachPieces (fun a last => argPieces fmt typeName dirName a withDesc true last) args ++ [some (bytes ")")])

@[simp] theorem args_eq (text : ℕ) (args : List GqlArg) (withDesc : Bool) :
    argsSdl fmt typeName dirName text args withDesc =
      puts text (argsPieces fmt typeName dirName args withDesc) := by
  simp [argsSdl, argsPieces]

/-- The pieces of `field_sdl`. -/
def fieldPieces (f : GqlField) (withDesc : Bool) : List Piece :=
  piecesIf (withDesc = true) (descPieces f.desc 2) ++ [some (bytes "  "), some (cstr f.name)] ++
    argsPieces fmt typeName dirName f.args withDesc ++ [some (bytes ": "), some (cstr (typeName f.type))] ++
    defaultPieces fmt f.default ++ usesPieces fmt dirName f.dir ++ [some [chr '\n']]

@[simp] theorem field_eq (text : ℕ) (f : GqlField) (withDesc : Bool) :
    fieldSdl fmt typeName dirName text f withDesc = puts text (fieldPieces fmt typeName dirName f withDesc) := by
  simp [fieldSdl, fieldPieces]

/-- The pieces of names with something between them. -/
def namesPieces (sep : Bytes) (names : List Bytes) : List Piece :=
  eachPieces (fun name last => [some (cstr name)] ++ piecesIf (last = false) [some sep]) names

@[simp] theorem name_eq (text : ℕ) (sep name : Bytes) (last : Bool) :
    nameSdl text sep name last = puts text ([some (cstr name)] ++ piecesIf (last = false) [some sep]) := by
  simp [nameSdl]

@[simp] theorem names_eq (text : ℕ) (sep : Bytes) (names : List Bytes) :
    namesSdl text sep names = puts text (namesPieces sep names) := by
  simp [namesSdl, namesPieces]

/-- The pieces of fields between braces. -/
def fieldsPieces (fields : List GqlField) (withDesc : Bool) : List Piece :=
  [some (bytes " \x7b\n")] ++ eachPieces (fun f _ => fieldPieces fmt typeName dirName f withDesc) fields ++
    [some (bytes "\x7d\n")]

@[simp] theorem fields_eq (text : ℕ) (fields : List GqlField) (withDesc : Bool) :
    fieldsSdl fmt typeName dirName text fields withDesc =
      puts text (fieldsPieces fmt typeName dirName fields withDesc) := by
  simp [fieldsSdl, fieldsPieces]

/-- The pieces of a word, the name of a type and its directives. -/
def headPieces (word : Bytes) (type : GqlType) : List Piece :=
  [some word, some (cstr type.name)] ++ usesPieces fmt dirName type.dir

@[simp] theorem head_eq (text : ℕ) (word : Bytes) (type : GqlType) :
    headSdl fmt dirName text word type = puts text (headPieces fmt dirName word type) := by
  simp [headSdl, headPieces]

/-- The pieces of a choice of an enum. -/
def choicePieces (ev : GqlEnumVal) (withDesc : Bool) : List Piece :=
  [some (bytes "  ")] ++ piecesIf (withDesc = true) (descPieces ev.desc 2) ++ [some (cstr ev.value)] ++
    usesPieces fmt dirName ev.dir ++ [some (bytes "\n")]

@[simp] theorem choice_eq (text : ℕ) (ev : GqlEnumVal) (withDesc : Bool) :
    choiceSdl fmt dirName text ev withDesc = puts text (choicePieces fmt dirName ev withDesc) := by
  simp [choiceSdl, choicePieces]

/-- The pieces of an object. -/
def objectPieces (type : GqlType) (withDesc : Bool) : List Piece :=
  [some (bytes "type "), some (cstr type.name)] ++ piecesIf ((interfacesOf type.members).isEmpty = false)
    ([some (bytes " implements ")] ++ namesPieces (bytes " & ") ((interfacesOf type.members).map typeName)) ++
    usesPieces fmt dirName type.dir ++ fieldsPieces fmt typeName dirName (fieldsOf type.members) withDesc

@[simp] theorem object_eq (text : ℕ) (type : GqlType) (withDesc : Bool) :
    bodySdl.objectSdl fmt typeName dirName type withDesc text =
      puts text (objectPieces fmt typeName dirName type withDesc) := by
  simp [bodySdl.objectSdl, objectPieces]

/-- The pieces of a type behind its description. -/
def bodyPieces (type : GqlType) (withDesc : Bool) : List Piece :=
  match type.kind with
  | .schema =>
    [some (bytes "schema")] ++ usesPieces fmt dirName type.dir ++
      fieldsPieces fmt typeName dirName (fieldsOf type.members) withDesc
  | .object => objectPieces fmt typeName dirName type withDesc
  | .frag => objectPieces fmt typeName dirName type withDesc
  | .union =>
    headPieces fmt dirName (bytes "union ") type ++ [some (bytes " = ")] ++
      namesPieces (bytes " | ") ((typesOf type.members).map typeName)
  | .enum =>
    headPieces fmt dirName (bytes "enum ") type ++ [some (bytes " \x7b\n")] ++
      eachPieces (fun ev _ => choicePieces fmt dirName ev withDesc) (choicesOf type.members) ++
      [some (bytes "\x7d\n")]
  | .scalar => headPieces fmt dirName (bytes "scalar ") type ++ [some (bytes "\n")]
  | .interface =>
    headPieces fmt dirName (bytes "interface ") type ++
      fieldsPieces fmt typeName dirName (fieldsOf type.members) withDesc
  | .input =>
    headPieces fmt dirName (bytes "input ") type ++ [some (bytes " \x7b\n")] ++
      eachPieces (fun a last => argPieces fmt typeName dirName a withDesc false last) (argsOf type.members) ++
      [some (bytes "\x7d\n")]
  | _ => []

@[simp] theorem body_eq (text : ℕ) (type : GqlType) (withDesc : Bool) :
    bodySdl fmt typeName dirName text type withDesc =
      puts text (bodyPieces fmt typeName dirName type withDesc) := by
  unfold bodySdl bodyPieces
  cases type.kind with
  | undef => rfl
  | schema => simp
  | object => exact object_eq fmt typeName dirName text type withDesc
  | frag => exact object_eq fmt typeName dirName text type withDesc
  | input => simp
  | union => simp
  | interface => simp
  | enum => simp
  | scalar => simp
  | list => rfl
  | nonNull => rfl

/-- The pieces of a directive between newlines. -/
def dirLinesPieces (d : GqlDir) (withDesc : Bool) : List Piece :=
  [some (bytes "\n")] ++ piecesIf (withDesc = true) (descPieces d.desc 0) ++
    [some (bytes "directive @"), some (cstr d.name)] ++ argsPieces fmt typeName dirName d.args withDesc ++
    [some (bytes " on ")] ++ namesPieces (bytes " | ") d.locs ++ [some (bytes "\n")]

@[simp] theorem dirLines_eq (text : ℕ) (d : GqlDir) (withDesc : Bool) :
    dirLinesSdl fmt typeName dirName text d withDesc =
      puts text (dirLinesPieces fmt typeName dirName d withDesc) := by
  simp [dirLinesSdl, dirLinesPieces, gqlDirectiveSdl]

/-! ## The pieces of a document -/

/-- The pieces of the value of an argument. -/
def selValuePieces (arg : SelArg ℕ) : List Piece :=
  match arg.var, arg.value with
  | some var, _ => [some (bytes "$"), some (cstr var.name)]
  | none, some value => valuePieces fmt value
  | none, none => [some (bytes "null")]

@[simp] theorem selValue_eq (text : ℕ) (arg : SelArg ℕ) :
    selArgSdl.selValueSdl fmt arg text = puts text (selValuePieces fmt arg) := by
  obtain ⟨name, var, value⟩ := arg
  rcases var with _ | var
  · rcases value with _ | value
    · exact lit_eq text _
    · exact value_eq fmt value text
  · simp [selArgSdl.selValueSdl, selValuePieces]

/-- The pieces of an argument of a selection. -/
def selArgPieces (arg : SelArg ℕ) (last : Bool) : List Piece :=
  [some (cstr arg.name), some (bytes ": ")] ++ selValuePieces fmt arg ++
    piecesIf (last = false) [some (bytes ", ")]

@[simp] theorem selArg_eq (text : ℕ) (arg : SelArg ℕ) (last : Bool) :
    selArgSdl fmt text arg last = puts text (selArgPieces fmt arg last) := by
  simp [selArgSdl, selArgPieces]

/-- The pieces of the arguments of a selection. -/
def selArgsPieces (args : List (SelArg ℕ)) : List Piece :=
  piecesIf (args.isEmpty = false)
    ([some (bytes "(")] ++ eachPieces (fun arg last => selArgPieces fmt arg last) args ++ [some (bytes ")")])

@[simp] theorem selArgs_eq (text : ℕ) (args : List (SelArg ℕ)) :
    selArgsSdl fmt text args = puts text (selArgsPieces fmt args) := by
  simp [selArgsSdl, selArgsPieces]

/-- The piece of a name that may be missing. -/
def namePiece (name : Option Bytes) : Piece := name.map cstr

@[simp] theorem nameOf_eq (text : ℕ) (name : Option Bytes) : nameOf text name = puts text [namePiece name] := by
  cases name with
  | none => rfl
  | some name => exact append_eq text name (-1)

/-- The pieces of an alias. -/
def aliasPieces (selAlias : Option Bytes) : List Piece :=
  match selAlias with
  | none => []
  | some selAlias => [some (cstr selAlias), some (bytes ": ")]

@[simp] theorem alias_eq (text : ℕ) (selAlias : Option Bytes) :
    aliasSdl text selAlias = puts text (aliasPieces selAlias) := by
  cases selAlias with
  | none => rfl
  | some selAlias =>
    simp [aliasSdl, aliasPieces]

/-- The pieces of the type of an inline fragment. -/
def onPieces (on : Option ℕ) : List Piece :=
  match on with
  | none => [some (bytes "...")]
  | some on => [some (bytes "... on "), some (cstr (typeName on))]

@[simp] theorem on_eq (text : ℕ) (on : Option ℕ) : onSdl typeName text on = puts text (onPieces typeName on) := by
  cases on with
  | none => exact lit_eq text _
  | some on =>
    simp [onSdl, onPieces]

mutual

/-- The pieces of `sel_sdl`. -/
def selPieces (depth : ℕ) : GqlSel ℕ ℕ → List Piece
  | .mk _ _ (some frag) dir _ _ _ _ _ _ =>
    [some (taken spaces (min (depth * 2) 16 : ℕ)), some (bytes "..."), some (cstr frag)] ++
      usesPieces fmt dirName dir ++ [some (bytes "\n")]
  | .mk _ _ none _ _ _ true on dir sels =>
    [some (taken spaces (min (depth * 2) 16 : ℕ))] ++ onPieces typeName on ++ usesPieces fmt dirName dir ++
      selBlockPieces depth sels ++ [some (bytes "\n")]
  | .mk selAlias name none dir args sels false _ _ _ =>
    [some (taken spaces (min (depth * 2) 16 : ℕ))] ++ aliasPieces selAlias ++ [namePiece name] ++
      selArgsPieces fmt args ++ usesPieces fmt dirName dir ++ selBlockPieces depth sels ++ [some (bytes "\n")]

def selBlockPieces (depth : ℕ) : List (GqlSel ℕ ℕ) → List Piece
  | [] => []
  | sel :: sels =>
    [some (bytes " \x7b\n")] ++ selPieces (depth + 1) sel ++ selsPieces (depth + 1) sels ++
      [some (taken spaces (min (depth * 2) 16 : ℕ)), some (bytes "\x7d")]

def selsPieces (depth : ℕ) : List (GqlSel ℕ ℕ) → List Piece
  | [] => []
  | sel :: sels => selPieces depth sel ++ selsPieces depth sels

end

mutual

theorem sel_eq (text depth : ℕ) : ∀ sel : GqlSel ℕ ℕ,
    selSdl fmt typeName dirName text depth sel = puts text (selPieces fmt typeName dirName depth sel)
  | .mk _ _ (some frag) dir _ _ _ _ _ _ => by
    simp [selSdl, selPieces]
  | .mk _ _ none _ _ _ true on dir sels => by
    have hsels := fun text => selBlock_eq text depth sels
    simp [selSdl, selPieces, hsels]
  | .mk selAlias name none dir args sels false _ _ _ => by
    have hsels := fun text => selBlock_eq text depth sels
    simp [selSdl, selPieces, hsels]

theorem selBlock_eq (text depth : ℕ) : ∀ sels : List (GqlSel ℕ ℕ),
    selBlockSdl fmt typeName dirName text depth sels = puts text (selBlockPieces fmt typeName dirName depth sels)
  | [] => by simp [selBlockSdl, selBlockPieces, pure_eq]
  | sel :: sels => by
    have hsel := fun text => sel_eq text (depth + 1) sel
    have hsels := fun text => sels_eq text (depth + 1) sels
    simp [selBlockSdl, selBlockPieces, hsel, hsels]

theorem sels_eq (text depth : ℕ) : ∀ sels : List (GqlSel ℕ ℕ),
    selsSdl fmt typeName dirName text depth sels = puts text (selsPieces fmt typeName dirName depth sels)
  | [] => by simp [selsSdl, selsPieces, pure_eq]
  | sel :: sels => by
    have hsel := fun text => sel_eq text depth sel
    have hsels := fun text => sels_eq text depth sels
    simp [selsSdl, selsPieces, hsel, hsels]

end

/-- The pieces of a variable of an operation. -/
def varPieces (var : GqlVar ℕ) (last : Bool) : List Piece :=
  [some (bytes "$"), some (cstr var.name), some (bytes ": "), namePiece (var.type.map typeName)] ++
    defaultPieces fmt var.value ++ piecesIf (last = false) [some (bytes ", ")]

@[simp] theorem var_eq (text : ℕ) (var : GqlVar ℕ) (last : Bool) :
    varSdl fmt typeName text var last = puts text (varPieces fmt typeName var last) := by
  simp [varSdl, varPieces]

/-- The pieces of the variables of an operation. -/
def varsPieces (vars : List (GqlVar ℕ)) : List Piece :=
  piecesIf (vars.isEmpty = false)
    ([some (bytes "(")] ++ eachPieces (fun var last => varPieces fmt typeName var last) vars ++
      [some (bytes ")")])

@[simp] theorem vars_eq (text : ℕ) (vars : List (GqlVar ℕ)) :
    varsSdl fmt typeName text vars = puts text (varsPieces fmt typeName vars) := by
  simp [varsSdl, varsPieces]

/-- The pieces of directives, and of selections between braces. -/
def selSetPieces (dir : List (DirUse ℕ ℕ)) (sels : List (GqlSel ℕ ℕ)) : List Piece :=
  usesPieces fmt dirName dir ++ [some (bytes " \x7b\n")] ++ selsPieces fmt typeName dirName 1 sels ++
    [some (bytes "\x7d\n")]

@[simp] theorem selSet_eq (text : ℕ) (dir : List (DirUse ℕ ℕ)) (sels : List (GqlSel ℕ ℕ)) :
    selSetSdl fmt typeName dirName text dir sels = puts text (selSetPieces fmt typeName dirName dir sels) := by
  simp [selSetSdl, selSetPieces, sels_eq]

/-- The pieces of the name of an operation. -/
def opNamePieces (name : Option Bytes) : List Piece :=
  match name with
  | none => []
  | some name => [some (bytes " "), some (cstr name)]

@[simp] theorem opName_eq (text : ℕ) (name : Option Bytes) :
    opNameSdl text name = puts text (opNamePieces name) := by
  cases name with
  | none => rfl
  | some name =>
    simp [opNameSdl, opNamePieces]

/-- The pieces of `op_sdl`. -/
def opPieces (op : GqlOp ℕ ℕ) : List Piece :=
  [some op.kind.str] ++ opNamePieces op.name ++ varsPieces fmt typeName op.vars ++
    selSetPieces fmt typeName dirName op.dir op.sels

@[simp] theorem op_eq (text : ℕ) (op : GqlOp ℕ ℕ) :
    opSdl fmt typeName dirName text op = puts text (opPieces fmt typeName dirName op) := by
  simp [opSdl, opPieces]

/-- The pieces of `frag_sdl`. -/
def fragPieces (frag : GqlFrag ℕ ℕ) : List Piece :=
  [some (bytes "fragment "), some (cstr frag.name), some (bytes " on "), namePiece (frag.on.map typeName)] ++
    selSetPieces fmt typeName dirName frag.dir frag.sels

@[simp] theorem frag_eq (text : ℕ) (frag : GqlFrag ℕ ℕ) :
    fragSdl fmt typeName dirName text frag = puts text (fragPieces fmt typeName dirName frag) := by
  simp [fragSdl, fragPieces]

end

end SdlPrint

end Agoo
