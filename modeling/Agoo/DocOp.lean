import Agoo.EvalRuns
import Agoo.QueryDecode

/-!
# The operation of a request (`gql_doc_create`, `set_doc_op`, `gql_doc_eval`)

A document is made without a value for `op`, and parsing gives it none. `set_doc_op` sets it to an operation it
finds, or to the first one. `doc_op_iff`: when what was in the memory of the document does not matter.
-/

namespace Agoo

namespace Eval

/-! ## Documents with all operations -/

/-- `struct _gqlOp`. -/
structure Op where
  name : Option Bytes
  kind : GqlOpKind
  vars : List (Bytes × Option ℕ)
  sels : List Sel

/-- A pointer to an operation: null, to one in the document by its place, or to something else. -/
inductive OpPtr
  | null
  | op (i : ℕ)
  | stray
  deriving DecidableEq

/-- `struct _gqlDoc`. -/
structure WholeDoc where
  ops : List Op
  vars : List (Bytes × Option ℕ)
  frags : List Frag
  op : OpPtr

/-- `gql_doc_create`, in memory with something in the place of `op`. -/
def gqlDocCreate (op : OpPtr) : WholeDoc := ⟨[], [], [], op⟩

/-- `gql_doc_create`, and what `sdl_parse_doc` puts into the document. -/
def parsedDoc (op : OpPtr) (ops : List Op) (vars : List (Bytes × Option ℕ)) (frags : List Frag) : WholeDoc :=
  { gqlDocCreate op with ops := ops, vars := vars, frags := frags }

/-- The name in a parameter of that length, after `agoo_req_query_decode`. -/
def decodedName (param : Bytes × ℕ) : Bytes := cstr (Query.agooReqQueryDecode param.1 param.2).1

/-- `set_doc_op`. -/
def setDocOp (doc : WholeDoc) (opName : Option (Bytes × ℕ)) : WholeDoc :=
  match opName with
  | some param =>
    match doc.ops.findIdx? (·.name = some (decodedName param)) with
    | some i => { doc with op := .op i }
    | none => doc
  | none => { doc with op := if doc.ops = [] then .null else .op 0 }

/-- The document as the evaluator reads it. -/
def WholeDoc.at (doc : WholeDoc) (op : Op) : Doc := ⟨op.kind, op.vars, op.sels, doc.vars, doc.frags⟩

variable {ρ ω : Type}

/-- `gql_doc_eval`. -/
def gqlDocEval (env : Env ρ ω) (doc : WholeDoc) : EvalM ω Unit :=
  match doc.op with
  | .null => setErr .eval (bytes "Failed to identify operation in doc.")
  | .op i =>
    match doc.ops[i]? with
    | some op => docEval env (doc.at op)
    | none => throw .crash
  | .stray => throw .crash

/-! ## The requested operation -/

/-- Whatever the resolvers are, the evaluation sets an error and does nothing else. -/
def NotEvaluated (doc : WholeDoc) : Prop :=
  ∀ (ρ ω : Type) (env : Env ρ ω) (s : State ω),
    ∃ e, exec (gqlDocEval env doc) s = (.error .fail, { s with err := some e })

/-- The operation to evaluate is the requested one. -/
structure RunsRequested (doc : WholeDoc) (opName : Option (Bytes × ℕ)) : Prop where
  own : (setDocOp doc opName).op = .null ∨ ∃ i < doc.ops.length, (setDocOp doc opName).op = .op i
  named : ∀ param ∈ opName, (∃ op ∈ doc.ops, op.name = some (decodedName param)) →
    ∃ i op, doc.ops[i]? = some op ∧ op.name = some (decodedName param) ∧ (setDocOp doc opName).op = .op i
  first : opName = none → doc.ops ≠ [] → (setDocOp doc opName).op = .op 0
  refused : doc.ops = [] ∨ (∃ param ∈ opName, ∀ op ∈ doc.ops, op.name ≠ some (decodedName param)) →
    NotEvaluated (setDocOp doc opName)

theorem notEvaluated_null {doc : WholeDoc} (h : doc.op = .null) : NotEvaluated doc := by
  intro ρ ω env s
  unfold gqlDocEval
  rw [h]
  exact ⟨_, rfl⟩

/-- Resolvers that raise an exception at the first call. -/
def raising (e : Err) : Env Unit Unit where
  table := ⟨[⟨bytes "schema", none, [], .schema, false, true,
    .fields [fieldOf (bytes "query") 0, fieldOf (bytes "mutation") 0, fieldOf (bytes "subscription") 0] []⟩],
    [], []⟩
  root := ()
  rootType := some 0
  rootOp _ w := (.error e, w)
  arity _ _ _ := .error e
  call _ _ _ _ w := (.error e, w)
  isString _ _ := none
  length _ _ := .error e
  entry _ _ _ := ()
  refType _ _ := none
  coerce _ _ w := (.error (.raised e), w)
  convert _ v old := ⟨true, v, old⟩
  floatText _ := []

theorem raising_field (e : Err) (kind : GqlOpKind) :
    ((raising e).rootType.bind fun t => getField (raising e).table t kind.str) =
      some (fieldOf kind.str 0) := by
  cases kind <;> rfl

/-- An operation that is evaluated calls a resolver. -/
theorem docEval_raising (e : Err) (doc : Doc) (s : State Unit) :
    (exec (docEval (raising e) doc) s).1 = .error (.raised e) := by
  have hkind : isInternal doc.kind.str = false := by cases doc.kind <;> rfl
  have hresolve (s : State Unit) (hs : s.funcs = .ruby) (field : Option GqlField) (noSels : Bool) :
      (exec (resolve (raising e) doc.kind (.ruby ()) field (opHead (raising e) doc) noSels 0) s).1 =
        .error (.raised e) := by
    unfold resolve
    rw [exec_get_bind, hs]
    unfold resolveRuby
    rw [show (opHead (raising e) doc).name = doc.kind.str from rfl, hkind]
    rfl
  have hop (s : State Unit) (hs : s.funcs = .ruby) :
      (exec (evalOp (raising e) doc) s).1 = .error (.raised e) := by
    unfold evalOp
    rw [raising_field]
    exact congrArg Prod.fst (exec_bind_error (Prod.ext (hresolve s hs _ _) rfl))
  exact hop { s with funcs := .ruby, result := [] } rfl

theorem not_notEvaluated {doc : WholeDoc} (h : doc.op ≠ .null) : ¬ NotEvaluated doc := by
  intro hrefused
  let e := errSet .eval []
  obtain ⟨err, hrun⟩ := hrefused Unit Unit (raising e) ⟨.ruby, [], none, [], ()⟩
  unfold gqlDocEval at hrun
  have hend := congrArg Prod.fst hrun
  cases hop : doc.op with
  | null => exact h hop
  | op i =>
    rw [hop] at hend
    dsimp only at hend
    cases hget : doc.ops[i]? with
    | some op =>
      rw [hget] at hend
      exact absurd ((docEval_raising e (doc.at op) _).symm.trans hend) (by simp)
    | none =>
      rw [hget] at hend
      cases hend
  | stray =>
    rw [hop] at hend
    cases hend

/-! ## When it is -/

section

variable {doc : WholeDoc} {param : Bytes × ℕ}

/-- An operation of that name is found. -/
theorem setDocOp_found (h : ∃ op ∈ doc.ops, op.name = some (decodedName param)) :
    ∃ i op, doc.ops[i]? = some op ∧ op.name = some (decodedName param) ∧
      (setDocOp doc (some param)).op = .op i := by
  obtain ⟨op, hmem, hname⟩ := h
  unfold setDocOp
  dsimp only
  cases hfind : doc.ops.findIdx? (·.name = some (decodedName param)) with
  | none =>
    rw [List.findIdx?_eq_none_iff] at hfind
    exact absurd hname (of_decide_eq_false (hfind op hmem))
  | some i =>
    obtain ⟨hlt, hi, -⟩ := List.findIdx?_eq_some_iff_getElem.mp hfind
    exact ⟨i, doc.ops[i], List.getElem?_eq_getElem hlt, of_decide_eq_true hi, rfl⟩

/-- Without one the pointer stays what it was. -/
theorem setDocOp_kept (h : ∀ op ∈ doc.ops, op.name ≠ some (decodedName param)) :
    setDocOp doc (some param) = doc := by
  have hfind : doc.ops.findIdx? (·.name = some (decodedName param)) = none :=
    List.findIdx?_eq_none_iff.mpr fun op hop => decide_eq_false (h op hop)
  unfold setDocOp
  dsimp only
  rw [hfind]

theorem runsRequested_first (doc : WholeDoc) : RunsRequested doc none := by
  have hset : (setDocOp doc none).op = if doc.ops = [] then .null else .op 0 := rfl
  by_cases hops : doc.ops = []
  · rw [if_pos hops] at hset
    exact ⟨.inl hset, fun _ h => absurd h (Option.not_mem_none _), fun _ h => absurd hops h,
      fun _ => notEvaluated_null hset⟩
  · rw [if_neg hops] at hset
    refine ⟨.inr ⟨0, List.length_pos_iff.mpr hops, hset⟩, fun _ h => absurd h (Option.not_mem_none _),
      fun _ _ => hset, ?_⟩
    rintro (h | ⟨_, h, -⟩)
    · exact absurd h hops
    · cases h

theorem runsRequested_found (h : ∃ op ∈ doc.ops, op.name = some (decodedName param)) :
    RunsRequested doc (some param) := by
  obtain ⟨i, op, hget, hname, hset⟩ := setDocOp_found h
  refine ⟨.inr ⟨i, (List.getElem?_eq_some_iff.mp hget).1, hset⟩, ?_, fun h => absurd h (Option.some_ne_none _), ?_⟩
  · rintro _ ⟨⟩ _
    exact ⟨i, op, hget, hname, hset⟩
  · obtain ⟨op', hmem, hname'⟩ := h
    rintro (hnil | ⟨_, ⟨⟩, hnone⟩)
    · rw [hnil] at hmem
      cases hmem
    · exact absurd hname' (hnone op' hmem)

theorem runsRequested_null (h : ∀ op ∈ doc.ops, op.name ≠ some (decodedName param))
    (hnull : doc.op = .null) : RunsRequested doc (some param) := by
  have hset := setDocOp_kept h
  refine ⟨.inl (by rw [hset, hnull]), ?_, fun h => absurd h (Option.some_ne_none _), fun _ => ?_⟩
  · rintro _ ⟨⟩ ⟨op, hmem, hname⟩
    exact absurd hname (h op hmem)
  · rw [hset]
    exact notEvaluated_null hnull

end

/-- The operation that runs is the requested one exactly when none is named, or one has the name, or the memory
of the document held a null pointer where `op` is. -/
theorem doc_op_iff (doc : WholeDoc) (opName : Option (Bytes × ℕ)) :
    RunsRequested doc opName ↔
      opName = none ∨ (∃ param ∈ opName, ∃ op ∈ doc.ops, op.name = some (decodedName param)) ∨
        doc.op = .null := by
  cases opName with
  | none => exact iff_of_true (runsRequested_first doc) (.inl rfl)
  | some param =>
    by_cases hfound : ∃ op ∈ doc.ops, op.name = some (decodedName param)
    · exact iff_of_true (runsRequested_found hfound) (.inr (.inl ⟨param, rfl, hfound⟩))
    · have hnone : ∀ op ∈ doc.ops, op.name ≠ some (decodedName param) := by
        intro op hop hname
        exact hfound ⟨op, hop, hname⟩
      constructor
      · intro h
        have hrefused := h.refused (.inr ⟨param, rfl, hnone⟩)
        rw [setDocOp_kept hnone] at hrefused
        right
        right
        by_contra hop
        exact not_notEvaluated hop hrefused
      · rintro (h | ⟨_, ⟨⟩, h⟩ | h)
        · cases h
        · exact absurd h hfound
        · exact runsRequested_null hnone h

/-- A document of the query `A`, made where a stale pointer was in the memory. -/
def staleDoc : WholeDoc := parsedDoc .stray [⟨some (bytes "A"), .query, [], []⟩] [] []

/-- The operation `B` is asked for. -/
theorem stale_op_read : ¬ RunsRequested staleDoc (some (bytes "B ", 1)) := by
  intro h
  have hnone : ∀ op ∈ staleDoc.ops, op.name ≠ some (decodedName (bytes "B ", 1)) := by
    simp only [staleDoc, parsedDoc, List.forall_mem_singleton]
    decide
  have hrefused := h.refused (.inr ⟨_, rfl, hnone⟩)
  rw [setDocOp_kept hnone] at hrefused
  exact not_notEvaluated (show OpPtr.stray ≠ .null by decide) hrefused

end Eval

end Agoo
