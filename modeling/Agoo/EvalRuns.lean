import Agoo.EvalRules

/-!
# Invariants of whole evaluations

The selections of a document, and from the rules for one resolve function the rule for
`gql_eval_sels`: an invariant of the cells that the conversions of the document's arguments keep is
kept by the evaluation.
-/

namespace Agoo

namespace Eval

variable {ρ ω : Type}

/-! ## Selections of a document -/

mutual

/-- A selection and all selections in it. -/
def Sel.nodes : Sel → List Sel
  | .field head dir sels => .field head dir sels :: nodesAll sels
  | .spread frag dir => [.spread frag dir]
  | .inline on dir inlineDir sels => .inline on dir inlineDir sels :: nodesAll sels

def nodesAll : List Sel → List Sel
  | [] => []
  | sel :: sels => sel.nodes ++ nodesAll sels

end

/-- All selections of a document. -/
def Doc.nodes (doc : Doc) : List Sel := nodesAll doc.sels ++ doc.frags.flatMap (nodesAll ·.sels)

/-- The arguments of a selection. -/
def Sel.args : Sel → List Arg
  | .field head _ _ => head.args
  | .spread _ _ => []
  | .inline _ _ _ _ => []

/-- The directive uses of a selection. -/
def Sel.uses : Sel → List (DirUse ℕ ℕ)
  | .field _ dir _ => dir
  | .spread _ dir => dir
  | .inline _ dir inlineDir _ => dir ++ inlineDir

/-- The directive uses of a document. -/
def Doc.uses (doc : Doc) : List (DirUse ℕ ℕ) := doc.nodes.flatMap Sel.uses ++ doc.frags.flatMap (·.dir)

theorem nodes_subset {sel : Sel} {sels : List Sel} (h : sel ∈ sels) : sel.nodes ⊆ nodesAll sels := by
  induction sels with
  | nil => cases h
  | cons sel' rest ih =>
    rcases List.mem_cons.mp h with rfl | h
    · exact List.subset_append_left _ _
    · exact List.Subset.trans (ih h) (List.subset_append_right _ _)

theorem frag_nodes_subset {doc : Doc} {frag : Frag} (h : frag ∈ doc.frags) :
    nodesAll frag.sels ⊆ doc.nodes := fun _ hsel =>
  List.mem_append_right _ (List.mem_flatMap.mpr ⟨frag, h, hsel⟩)

theorem mem_uses {doc : Doc} {sel : Sel} {use : DirUse ℕ ℕ} (h : sel ∈ doc.nodes) (hu : use ∈ sel.uses) :
    use ∈ doc.uses := List.mem_append_left _ (List.mem_flatMap.mpr ⟨sel, h, hu⟩)

theorem getFieldIn_mem {table : TypeTable} {name : Bytes} {n t : ℕ} {f : GqlField}
    (h : getFieldIn table name n t = some f) : ∃ u, f ∈ table.fields u := by
  induction n generalizing t with
  | zero => cases h
  | succ n ih =>
    unfold getFieldIn at h
    split_ifs at h
    · exact ⟨t, List.mem_of_find?_eq_some h⟩
    · obtain ⟨base, -, hbase⟩ := Option.bind_eq_some_iff.mp h
      exact ih hbase

/-! ## Runs of the evaluator -/

section Lists

variable {α : Type} {I : State ω → Prop}

theorem meets_forM {f : α → EvalM ω PUnit} {xs : List α} (h : ∀ x ∈ xs, Meets I Anything (f x)) :
    Meets I Anything (xs.forM f) := by
  induction xs with
  | nil => exact meets_pure trivial
  | cons x xs ih =>
    exact (h x List.mem_cons_self).bind fun _ _ => ih fun y hy => h y (List.mem_cons_of_mem x hy)

theorem eqOn_forM {f g : α → EvalM ω PUnit} {xs : List α} (hf : ∀ x ∈ xs, Meets I Anything (f x))
    (h : ∀ x ∈ xs, EqOn I (f x) (g x)) : EqOn I (xs.forM f) (xs.forM g) := by
  induction xs with
  | nil => exact eqOn_refl _
  | cons x xs ih =>
    exact (h x List.mem_cons_self).bind (hf x List.mem_cons_self) fun _ _ =>
      ih (fun y hy => hf y (List.mem_cons_of_mem x hy)) fun y hy => h y (List.mem_cons_of_mem x hy)

end Lists

section Runs

variable {env : Env ρ ω} {doc : Doc} {I : State ω → Prop} (hI : Free I)
  (hconv : ∀ sel ∈ doc.nodes, ∀ a ∈ sel.args, ∀ field : Option GqlField,
    (∀ f, field = some f → ∃ t, f ∈ env.table.fields t) → Converts env I field a)

omit hI in
theorem meets_fragInclude (target : Target ρ) (on : Option ℕ) (uses : List (DirUse ℕ ℕ)) :
    Meets I Anything (fragInclude env doc target on uses) := by
  have hdir : Meets I Anything (dirInclude (ω := ω) env doc uses) :=
    meets_get.bind fun _ _ => meets_pure trivial
  cases on with
  | none => exact hdir
  | some t =>
    exact (meets_typeOf target).bind fun _ _ => Meets.ite (fun _ => meets_pure trivial) fun _ => hdir

omit hI in
theorem meets_evalFrag {eval : EvalSels ρ ω} {target : Target ρ} {field : Option GqlField} {d : ℕ}
    {sels : List Sel} (h : Meets I Anything (eval target field sels d)) (on : Option ℕ)
    (uses : List (DirUse ℕ ℕ)) : Meets I Anything (evalFrag env doc eval target field d on uses sels) :=
  (meets_fragInclude target on uses).bind fun _ _ => Meets.ite (fun _ => h) fun _ => meets_pure trivial

omit hI in
theorem sf_mem (field : Option GqlField) (name : Bytes) (f : GqlField)
    (h : (field.bind fun f => getField env.table f.type name) = some f) :
    ∃ t, f ∈ env.table.fields t := by
  obtain ⟨f', -, hf⟩ := Option.bind_eq_some_iff.mp h
  exact getFieldIn_mem hf

include hI hconv

theorem meets_evalSel {eval : EvalSels ρ ω}
    (h : ∀ target field sels d, nodesAll sels ⊆ doc.nodes → Meets I Anything (eval target field sels d))
    (target : Target ρ) (field : Option GqlField) (d : ℕ) {sel : Sel} (hsel : sel.nodes ⊆ doc.nodes) :
    Meets I Anything (evalSel env doc eval target field d sel) := by
  cases sel with
  | inline on dir inlineDir sels =>
    exact meets_evalFrag (h target field sels d (List.Subset.trans (List.subset_cons_self _ _) hsel)) on
      inlineDir
  | spread name dir =>
    refine meets_forM fun frag hfrag => meets_evalFrag (h target field frag.sels d ?_) frag.on frag.dir
    exact frag_nodes_subset (List.mem_filter.mp hfrag).1
  | field head dir sels =>
    have hargs := fun a ha => hconv _ (hsel List.mem_cons_self) a ha _ (sf_mem field head.name)
    refine (meets_resolve hI.stable doc.kind target sels.isEmpty d hargs).bind fun r hr => ?_
    exact meets_give hI
      (fun t f d' _ => h t f sels d' (List.Subset.trans (List.subset_cons_self _ _) hsel)) r.1 hr

/-- An invariant that the conversions of the document keep is kept by its evaluation. -/
theorem meets_evalSelsFrom {bottom : EvalSels ρ ω}
    (hbottom : ∀ target field sels d, Meets I Anything (bottom target field sels d)) (n : ℕ)
    (target : Target ρ) (field : Option GqlField) {sels : List Sel} (d : ℕ)
    (h : nodesAll sels ⊆ doc.nodes) :
    Meets I Anything (evalSelsFrom env doc bottom n target field sels d) := by
  induction n generalizing target field sels d with
  | zero => exact hbottom target field sels d
  | succ n ih =>
    refine Meets.ite (fun _ => meets_setErr hI.stable _ _) fun _ => meets_forM fun sel hsel => ?_
    exact meets_evalSel hI hconv (fun target field sels d hin => ih target field d hin) target field
      (d + 1) (List.Subset.trans (nodes_subset hsel) h)

end Runs

/-! ## An application

Its query has two strings, which answer with their names, and a query. -/

namespace Sample

/-- The number of the type `Query`. -/
def query : ℕ := gqlInit.types.length

/-- The first types, `Query` and the schema. -/
def table : TypeTable :=
  (gqlInit.addType ⟨bytes "Query", none, [], .object, false, true,
    .fields [fieldOf (bytes "a") gqlStringType, fieldOf (bytes "b") gqlStringType,
      fieldOf (bytes "q") query] []⟩).addType
  ⟨bytes "schema", none, [], .schema, false, true, .fields [fieldOf (bytes "query") query] []⟩

/-- Ruby objects are the names of the methods that returned them. -/
def env : Env Bytes Unit where
  table := table
  root := bytes "schema"
  rootType := some (query + 1)
  rootOp op w := (.ok op, w)
  arity _ _ _ := .ok 0
  call _ name _ _ w := (.ok name, w)
  isString ref _ := if ref = bytes "a" ∨ ref = bytes "b" then some ref else none
  length _ _ := .error (errSet .eval (bytes "TypeError: wrong argument type"))
  entry ref _ _ := ref
  refType ref _ := if ref = bytes "query" ∨ ref = bytes "q" then some query else none
  coerce ref _ w := (.ok (.string ref), w)
  convert _ v e := ⟨true, v, e⟩
  floatText _ := []

/-- A string of the query. -/
def string (name : String) (dir : List (DirUse ℕ ℕ)) : Sel :=
  .field ⟨none, bytes name, some gqlStringType, []⟩ dir []

/-- A query without variables and fragments. -/
def doc (sels : List Sel) : Doc := ⟨.query, [], sels, [], []⟩

def state : State Unit := ⟨.ruby, [], none, [], ()⟩

/-- `@skip(if: true)`. -/
def skip : DirUse ℕ ℕ := ⟨0, [(bytes "if", .bool true)]⟩

end Sample

end Eval

end Agoo
