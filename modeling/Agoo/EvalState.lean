import Agoo.GqlInit
import Agoo.GqlText
import Agoo.SdlDoc

/-!
# The evaluator's documents and state

Selections as the evaluator reads them, after `sel_set_type`, and what an evaluation changes: the
functions of the document, the values of its arguments and variables, the error, and the result that
is being filled. Values stand in numbered cells, since an argument and a variable can share one.

What the evaluator gets from Ruby, and `gql_value_convert`, are functions of an `Env`; nothing is
assumed of them.
-/

namespace Agoo

namespace Eval

/-! ## Documents -/

/-- `struct _gqlSelArg`, with the cell of `var->value` or of `value`. -/
structure Arg where
  name : Bytes
  cell : Option ℕ
  deriving DecidableEq

/-- A field of `struct _gqlSel`, without its directives and selections. -/
structure Head where
  selAlias : Option Bytes
  name : Bytes
  type : Option ℕ
  args : List Arg
  deriving DecidableEq

/-- The key of the member: the alias, or the name. -/
def Head.key (head : Head) : Bytes := head.selAlias.getD head.name

/-- `struct _gqlSel`: a field, a reference to a fragment, or an inline fragment with the uses of the
selection and of the fragment. -/
inductive Sel
  | field (head : Head) (dir : List (DirUse ℕ ℕ)) (sels : List Sel)
  | spread (frag : Bytes) (dir : List (DirUse ℕ ℕ))
  | inline (on : Option ℕ) (dir inlineDir : List (DirUse ℕ ℕ)) (sels : List Sel)

/-- `struct _gqlFrag`. -/
structure Frag where
  name : Bytes
  on : Option ℕ
  dir : List (DirUse ℕ ℕ)
  sels : List Sel

/-- `struct _gqlDoc`, with the operation that is evaluated. Variables are names with their cells. -/
structure Doc where
  kind : GqlOpKind
  opVars : List (Bytes × Option ℕ)
  sels : List Sel
  vars : List (Bytes × Option ℕ)
  frags : List Frag

/-! ## Objects -/

/-- `struct _gqlCobj`, by its class. -/
inductive Cobj
  | root
  | schema
  | type (t : ℕ)
  | field (f : GqlField)
  | inputValue (a : GqlArg)
  | enumValue (v : GqlEnumVal)
  | directive (d : GqlDir)

/-- `obj->clas->name`. -/
def Cobj.className : Cobj → Bytes
  | root => bytes "__Query"
  | schema => bytes "__Schema"
  | type _ => bytes "__Type"
  | field _ => bytes "__Field"
  | inputValue _ => bytes "__InputValue"
  | enumValue _ => bytes "__EnumValue"
  | directive _ => bytes "__Directive"

/-- `gqlRef`: a Ruby object or one of introspection. -/
inductive Target (ρ : Type)
  | ruby (ref : ρ)
  | cobj (obj : Cobj)

/-- A value that is no object and holds none. -/
def Leaf : Type := { v : GqlValue ℕ // v.All fun u => ∀ ms, u ≠ .object ms }

def Leaf.null : Leaf := ⟨.null, (GqlValue.all_of_nodes rfl).mpr nofun⟩

def Leaf.bool (b : Bool) : Leaf := ⟨.bool b, (GqlValue.all_of_nodes rfl).mpr nofun⟩

def Leaf.string (s : Bytes) : Leaf := ⟨.string s, (GqlValue.all_of_nodes rfl).mpr nofun⟩

def Leaf.token (s : Bytes) (enum : Option ℕ) : Leaf :=
  ⟨.token s enum, (GqlValue.all_of_nodes rfl).mpr nofun⟩

theorem Leaf.strings_all (ss : List Bytes) :
    (GqlValue.list (τ := ℕ) none (ss.map .string)).All fun u => ∀ ms, u ≠ .object ms := by
  rw [GqlValue.all_list]
  refine ⟨nofun, ?_⟩
  intro m hm
  obtain ⟨s, -, rfl⟩ := List.mem_map.mp hm
  exact (GqlValue.all_of_nodes rfl).mpr nofun

def Leaf.strings (ss : List Bytes) : Leaf := ⟨.list none (ss.map .string), Leaf.strings_all ss⟩

/-- A string, or null without one. -/
def Leaf.optString : Option Bytes → Leaf
  | none => .null
  | some s => .string s

/-! ## Surroundings -/

/-- A null pointer, with an error or without, or a Ruby exception. -/
inductive Fault
  | null (err : Option Err)
  | raised (err : Err)

/-- What a conversion returns, the value after it, and the error. -/
structure Converted where
  ok : Bool
  value : GqlValue ℕ
  err : Option Err

/-- The registry, and what the evaluator calls outside of `gqleval.c` and `gqlintro.c`. `ρ` are
references to Ruby objects, and `ω` is all that a call may change. -/
structure Env (ρ ω : Type) where
  table : TypeTable
  /-- `gql_root`. -/
  root : ρ
  /-- `_gql_root_type`. -/
  rootType : Option ℕ
  /-- `gql_root_op`. -/
  rootOp : Bytes → ω → Except Err ρ × ω
  /-- `rb_obj_method_arity`. -/
  arity : ρ → Bytes → ω → Except Err ℤ
  /-- `rb_funcall` of a method with an arity, on the arguments. -/
  call : ρ → Bytes → ℤ → List (Bytes × GqlValue ℕ) → ω → Except Err ρ × ω
  /-- The bytes of a string. -/
  isString : ρ → ω → Option Bytes
  /-- `RARRAY_LEN` after `rb_check_type`. -/
  length : ρ → ω → Except Err ℕ
  /-- `rb_ary_entry`. -/
  entry : ρ → ℕ → ω → ρ
  /-- `ref_type`. -/
  refType : ρ → ω → Option ℕ
  /-- `coerce`. -/
  coerce : ρ → Option ℕ → ω → Except Fault Leaf × ω
  /-- `gql_value_convert` to a type, where the value has another and is no variable; the error is the
  one set before. -/
  convert : ℕ → GqlValue ℕ → Option Err → Converted
  /-- A number printed with `%g`. -/
  floatText : FloatLit → Bytes

/-! ## State -/

/-- `doc->funcs`. -/
inductive Funcs
  | ruby | cobj
  deriving DecidableEq

/-- What an evaluation changes; `result` are the members of the object that is being filled. -/
structure State (ω : Type) where
  funcs : Funcs
  cells : List (GqlValue ℕ)
  err : Option Err
  result : List (Bytes × GqlValue ℕ)
  world : ω

/-- Why an evaluation stops: a code other than `AGOO_ERR_OK`, a Ruby exception, or a read through a
pointer to something else. -/
inductive Stop
  | fail
  | raised (err : Err)
  | crash
  deriving DecidableEq

/-- An evaluation that changes the state and may stop. -/
abbrev EvalM (ω α : Type) := ExceptT Stop (StateM (State ω)) α

variable {ρ ω α β : Type}

/-- What an evaluation does from a state. -/
def exec (p : EvalM ω α) (s : State ω) : Except Stop α × State ω := (ExceptT.run p).run s

/-- `agoo_err_set`, and its code. -/
def setErr (code : ErrCode) (msg : Bytes) : EvalM ω α := do
  modify fun s => { s with err := some (errSet code msg) }
  throw .fail

/-- `return err->code`. -/
def errCode : EvalM ω Unit := do
  if (← get).err.isSome then throw .fail

/-- A call of Ruby: an exception ends the evaluation. -/
def ruby (f : ω → Except Err α × ω) : EvalM ω α := do
  let s ← get
  set { s with world := (f s.world).2 }
  match (f s.world).1 with
  | .ok a => return a
  | .error e => throw (.raised e)

/-- Something read from Ruby. -/
def ask (f : ω → α) : EvalM ω α := do return f (← get).world

/-- `gql_object_set` on the result. -/
def objectSet (key : Bytes) (v : GqlValue ℕ) : EvalM ω Unit :=
  modify fun s => { s with result := s.result ++ [(key, v)] }

/-- A new object is filled; how that ends is returned with the object. -/
def filled (p : EvalM ω Unit) : EvalM ω (Except Stop Unit × GqlValue ℕ) := do
  let s ← get
  let r := exec p { s with result := [] }
  set { r.2 with result := s.result }
  return (r.1, .object r.2.result)

/-- A stop that was returned goes on. -/
def goOn : Except Stop Unit → EvalM ω Unit
  | .ok _ => return ()
  | .error stop => throw stop

/-! ## Values of arguments -/

/-- The value in a cell, if the pointer to it is not null. -/
def cellValue (cells : List (GqlValue ℕ)) (cell : Option ℕ) : Option (GqlValue ℕ) :=
  cell.bind fun c => cells[c]?

/-- `gql_value_convert` in place. -/
def convertIn (env : Env ρ ω) (cell : Option ℕ) (v : GqlValue ℕ) (type : ℕ) :
    EvalM ω Converted := do
  let s ← get
  let c := env.convert type v s.err
  set { s with err := c.err, cells := cell.elim s.cells fun i => s.cells.set i c.value }
  return c

/-- The field's argument of that name. -/
def fieldArg (field : Option GqlField) (name : Bytes) : Option GqlArg :=
  field.bind fun f => f.args.find? (·.name = name)

/-- One argument in `resolve`: its value, or null, converted to the type of the field's argument. -/
def argValue (env : Env ρ ω) (field : Option GqlField) (a : Arg) : EvalM ω (GqlValue ℕ) := do
  let v := (cellValue (← get).cells a.cell).getD .null
  match fieldArg field a.name with
  | none => return v
  | some fa =>
    let c ← convertIn env a.cell v fa.type
    if c.ok then return c.value else throw .fail

/-- The arguments in `resolve`. -/
def argValues (env : Env ρ ω) (field : Option GqlField) : List Arg → EvalM ω (List (Bytes × GqlValue ℕ))
  | [] => return []
  | a :: rest => do
    let v ← argValue env field a
    return (a.name, v) :: (← argValues env field rest)

/-- `gql_extract_arg`, with the value found so far. -/
def extractArg (env : Env ρ ω) (field : Option GqlField) (key : Bytes) :
    List Arg → Option (GqlValue ℕ) → EvalM ω (Option (GqlValue ℕ))
  | [], found => return found
  | a :: rest, found =>
    if a.name = key then do
      let v := cellValue (← get).cells a.cell
      match fieldArg field a.name, v with
      | none, _ => extractArg env field key rest v
      | some _, none => throw .crash
      | some fa, some v =>
        let c ← convertIn env a.cell v fa.type
        if c.ok then extractArg env field key rest (some c.value) else return none
    else extractArg env field key rest found

/-! ## Directives -/

/-- `doc_var_value`. -/
def docVarCell (doc : Doc) (key : Bytes) : Option ℕ :=
  match doc.opVars.find? (·.1 = key) with
  | some var => var.2
  | none => (doc.vars.find? (·.1 = key)).bind (·.2)

/-- The boolean that an `if` stands for. -/
def truth (doc : Doc) (cells : List (GqlValue ℕ)) : GqlValue ℕ → Option Bool
  | .bool b => some b
  | .var key =>
    match cellValue cells (docVarCell doc key) with
    | some (.bool b) => some b
    | _ => none
  | _ => none

/-- `dir->dir->name`. -/
def dirName (table : TypeTable) (use : DirUse ℕ ℕ) : Option Bytes := table.dirs[use.dir]?.map (·.name)

/-- A use of `@skip` whose `if` is true, or of `@include` whose `if` is false. -/
def excludes (table : TypeTable) (doc : Doc) (cells : List (GqlValue ℕ)) (use : DirUse ℕ ℕ) : Bool :=
  (dirName table use = some (bytes "skip") &&
    use.args.any fun a => a.1 = bytes "if" && truth doc cells a.2 = some true) ||
  (dirName table use = some (bytes "include") &&
    use.args.any fun a => a.1 = bytes "if" && truth doc cells a.2 = some false)

end Eval

end Agoo
