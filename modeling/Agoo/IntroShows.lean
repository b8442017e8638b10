import Agoo.EvalDepth
import Agoo.EvalIntro
import Agoo.TypeNames
import Mathlib.Data.List.Nodup

/-!
# What introspection shows

`Shows`: the selections on an introspection object add members to the result and change nothing else. It
is put together from what each method gives.

`types_listed`: **`types` of `__schema` names every type of the registry once, but no list, no non-null
type and not the schema.**

`possible_types_iff`: **`possibleTypes` of an interface names its objects exactly when each object names
itself among its interfaces if and only if it names the interface there.** `has_interface` compares with
the object that it was given.
-/

namespace Agoo

namespace Eval

variable {ρ ω : Type} {env : Env ρ ω} {doc : Doc}

/-! ## Selections on introspection objects -/

/-- With the functions of introspection and no error, the selections on the object add the members. -/
def Shows (env : Env ρ ω) (doc : Doc) (d : ℕ) (obj : Cobj) (sels : List Sel)
    (ms : List (Bytes × GqlValue ℕ)) : Prop :=
  ∀ (field : Option GqlField) (s : State ω), s.funcs = .cobj → s.err = none →
    exec (evalSels env doc (.cobj obj) field sels d) s = (.ok (), s.withResult (s.result ++ ms))

/-- The same of one selection. -/
def ShowsSel (env : Env ρ ω) (doc : Doc) (d : ℕ) (obj : Cobj) (sel : Sel) (ms : List (Bytes × GqlValue ℕ)) :
    Prop :=
  ∀ (field : Option GqlField) (s : State ω), s.funcs = .cobj → s.err = none →
    exec (evalSel env doc (evalSels env doc) (.cobj obj) field d sel) s =
      (.ok (), s.withResult (s.result ++ ms))

theorem evalSels_step (env : Env ρ ω) (doc : Doc) {d : ℕ} (hd : d ≤ maxDepth) (target : Target ρ)
    (field : Option GqlField) (sels : List Sel) :
    evalSels env doc target field sels d =
      sels.forM (evalSel env doc (evalSels env doc) target field (d + 1)) := by
  rw [evalSels_eq_step]
  exact if_neg (Nat.not_lt.mpr hd)

theorem shows_nil {d : ℕ} (hd : d ≤ maxDepth) (obj : Cobj) : Shows env doc d obj [] [] := by
  intro field s _ _
  rw [evalSels_step env doc hd, List.append_nil]
  rfl

theorem Shows.cons {d : ℕ} {obj : Cobj} {sel : Sel} {sels : List Sel} {ms ms' : List (Bytes × GqlValue ℕ)}
    (hd : d ≤ maxDepth) (h : ShowsSel env doc (d + 1) obj sel ms) (hrest : Shows env doc d obj sels ms') :
    Shows env doc d obj (sel :: sels) (ms ++ ms') := by
  intro field s hs herr
  have hthen := hrest field (s.withResult (s.result ++ ms)) hs herr
  rw [evalSels_step env doc hd] at hthen ⊢
  rw [exec_forM_ok (h field s hs herr), hthen, ← List.append_assoc]
  rfl

theorem ShowsSel.shows {d : ℕ} {obj : Cobj} {sel : Sel} {ms : List (Bytes × GqlValue ℕ)} (hd : d ≤ maxDepth)
    (h : ShowsSel env doc (d + 1) obj sel ms) : Shows env doc d obj [sel] ms := by
  have hone := Shows.cons hd h (shows_nil hd obj)
  rwa [List.append_nil] at hone

section Methods

variable {d : ℕ} {obj : Cobj} {head : Head} {m : Method ρ ω}

/-- A field of an introspection object gives what its method replies. -/
theorem exec_evalSel_cobj (hm : (obj.methods env).lookup head.name = some m) {field : Option GqlField}
    {r : Reply ρ} {s : State ω} (hs : s.funcs = .cobj)
    (hr : exec (m (field.bind fun f => getField env.table f.type head.name) head d) s = (.ok r, s))
    (eval : EvalSels ρ ω) (dir : List (DirUse ℕ ℕ)) (sels : List Sel) :
    exec (evalSel env doc eval (.cobj obj) field d (.field head dir sels)) s =
      exec (give (fun target field depth => eval target field sels depth) env head.key r) s := by
  have hresolve : exec (resolve env doc.kind (.cobj obj)
      (field.bind fun f => getField env.table f.type head.name) head sels.isEmpty d) s =
      (.ok (head.key, r), s) := by
    unfold resolve cobjResolve
    rw [exec_get_bind, hs]
    dsimp only
    rw [hm]
    exact exec_bind_ok hr
  exact exec_bind_ok hresolve

theorem showsSel_leaf {v : Leaf} (hm : (obj.methods env).lookup head.name = some (leaf v))
    (dir : List (DirUse ℕ ℕ)) (sels : List Sel) :
    ShowsSel env doc d obj (.field head dir sels) [(head.key, v.1)] := fun _ _ hs _ =>
  exec_evalSel_cobj hm hs rfl _ dir sels

variable {sels : List Sel}

theorem exec_filled_shows {ms : List (Bytes × GqlValue ℕ)} {field : Option GqlField} {s : State ω}
    (h : Shows env doc d obj sels ms) (hs : s.funcs = .cobj) (herr : s.err = none) :
    exec (filled (evalSels env doc (.cobj obj) field sels d)) s = (.ok (.ok (), .object ms), s) := by
  have hrun : exec (evalSels env doc (.cobj obj) field sels d) { s with result := [] } =
      (.ok (), s.withResult ms) := h field (s.withResult []) hs herr
  rw [exec_filled, hrun]
  rfl

variable {types : List ℕ} {ms : ℕ → List (Bytes × GqlValue ℕ)}

theorem exec_filledWhile_shows (field : Option GqlField) {s : State ω} (hs : s.funcs = .cobj)
    (herr : s.err = none) (h : ∀ t, Shows env doc d (.type t) sels (ms t)) :
    exec (filledWhile (fun target field depth => evalSels env doc target field sels depth) field d
      (types.map (.cobj <| .type ·))) s = (.ok (.ok (), types.map fun t => .object (ms t)), s) := by
  induction types with
  | nil => rfl
  | cons t types ih =>
    have hone : exec (filled (evalSels env doc (.cobj (.type t)) field sels d)) s = _ :=
      exec_filled_shows (h t) hs herr
    unfold List.map filledWhile
    rw [exec_get_bind, herr, Option.isSome_none, if_neg Bool.false_ne_true, exec_bind_ok hone]
    exact exec_bind_ok ih

theorem exec_errCode {s : State ω} (herr : s.err = none) : exec errCode s = (.ok (), s) := by
  unfold errCode
  rw [exec_get_bind, herr]
  rfl

/-- A list of types that `gql_type_iterate` fills. -/
theorem showsSel_iterated (hm : (obj.methods env).lookup head.name = some m) {item : Option GqlField}
    {report : Bool} (hr : ∀ (field : Option GqlField) (s : State ω),
      exec (m field head d) s = (.ok (.iterated (types.map (.cobj <| .type ·)) item (d + 1) report), s))
    (h : ∀ t, Shows env doc (d + 1) (.type t) sels (ms t)) (dir : List (DirUse ℕ ℕ)) :
    ShowsSel env doc d obj (.field head dir sels)
      [(head.key, .list none (types.map fun t => .object (ms t)))] := by
  intro field s hs herr
  rw [exec_evalSel_cobj hm hs (hr _ s)]
  refine (exec_bind_ok (exec_filledWhile_shows item hs herr h)).trans ?_
  cases report with
  | false => rfl
  | true =>
    exact exec_errCode herr

end Methods

/-! ## Introspection fields of a query -/

section Root

variable {ref : ρ} {field : GqlField} {head : Head} {ms : List (Bytes × GqlValue ℕ)} {sels : List Sel}

/-- The fields of an operation are filled by `gql_eval_sels`. -/
theorem belowRoot_eq {d : ℕ} (hd : 0 < d) (target : Target ρ) (f : Option GqlField) (sels : List Sel) :
    belowRoot env doc target f sels d = evalSels env doc target f sels d :=
  evalSelsFrom_eq env doc _ _ (by omega) (by omega) target f sels

/-- An introspection field of a query gives the object that its method replies. -/
theorem rootSel_shows (hquery : doc.kind = .query) {m : Method ρ ω}
    (hhead : head.name = bytes "__type" ∨ head.name = bytes "__schema")
    (hm : (rootMethods env).lookup head.name = some m) {obj : Cobj} {s : State ω} (hs : s.funcs = .ruby)
    (herr : s.err = none)
    (hr : ∀ f, exec (m (some (fieldOf head.name f)) head 2) { s with funcs := .cobj } =
      (.ok (.object (.cobj obj) (some (fieldOf head.name f)) 3), { s with funcs := .cobj }))
    (h : Shows env doc 3 obj sels ms) (dir : List (DirUse ℕ ℕ)) :
    exec (rootSel env doc ref field (.field head dir sels)) s =
      (.ok (), { s with funcs := .cobj, result := s.result ++ [(head.key, .object ms)] }) := by
  have hintro : head.isIntro = true := (isIntro_iff head).mpr hhead
  obtain ⟨hinternal, htypename⟩ := isIntro_internal hintro
  have hset : exec (modify fun s : State ω => { s with funcs := .cobj } : EvalM ω PUnit) s =
      (.ok (), { s with funcs := .cobj }) := rfl
  have hreply : exec (introEval env head 2) s = (.ok (.object (.cobj obj)
      (some (fieldOf head.name (head.type.getD env.table.types.length))) 3), { s with funcs := .cobj }) := by
    unfold introEval
    rw [if_pos hhead, if_neg (Nat.lt_irrefl 2), exec_bind_ok hset]
    have hresolve := hr (head.type.getD env.table.types.length)
    unfold cobjResolve Cobj.methods
    rw [hm]
    exact hresolve
  have hresolved : exec (resolve env doc.kind (.ruby ref)
      ((some field).bind fun f => getField env.table f.type head.name) head sels.isEmpty 2) s =
      (.ok (head.key, .object (.cobj obj)
        (some (fieldOf head.name (head.type.getD env.table.types.length))) 3), { s with funcs := .cobj }) := by
    unfold resolve
    rw [exec_get_bind, hs]
    dsimp only
    unfold resolveRuby resolveInternal
    rw [if_pos hinternal, if_neg htypename, hquery]
    exact exec_bind_ok hreply
  have hfilled : exec (filled (evalSels env doc (.cobj obj)
      (some (fieldOf head.name (head.type.getD env.table.types.length))) sels 3)) { s with funcs := .cobj } = _ :=
    exec_filled_shows h rfl herr
  unfold rootSel evalSel
  rw [exec_bind_ok hresolved]
  unfold give
  dsimp only
  rw [belowRoot_eq (by omega), exec_bind_ok hfilled]
  rfl

end Root

/-! ## Types of the registry -/

section Table

open TypeRefs

variable {table : TypeTable}

theorem bucketOf_lt (name : Bytes) : bucketOf name < 64 := by
  unfold bucketOf
  dsimp only
  rw [UInt64.toNat_and]
  exact Nat.lt_succ_of_le Nat.and_le_left

/-- `gql_type_iterate` comes to the types with slots. -/
theorem mem_typeIterate {t : ℕ} : t ∈ typeIterate table ↔ Alive table t := by
  have hslot : Alive table t ↔ ∃ a, table.types[t]? = some a ∧ a.slot = true := Iff.rfl
  rw [hslot]
  unfold typeIterate
  simp only [List.mem_flatMap, List.mem_reverse, List.mem_filter, List.mem_range, Option.any_eq_true,
    Bool.and_eq_true, decide_eq_true_eq]
  constructor
  · rintro ⟨b, -, -, a, ha, hslot, -⟩
    exact ⟨a, ha, hslot⟩
  · rintro ⟨a, ha, hslot⟩
    exact ⟨bucketOf a.name, bucketOf_lt a.name, (List.getElem?_eq_some_iff.mp ha).1, a, ha, hslot, rfl⟩

/-- To each once. -/
theorem nodup_typeIterate (table : TypeTable) : (typeIterate table).Nodup := by
  unfold typeIterate
  rw [List.nodup_flatMap]
  refine ⟨fun b _ => List.nodup_reverse.mpr (List.nodup_range.filter _), ?_⟩
  refine List.nodup_range.imp fun {b c} hne => ?_
  refine List.disjoint_left.mpr fun t hb hc => ?_
  simp only [List.mem_reverse, List.mem_filter, Option.any_eq_true, Bool.and_eq_true,
    decide_eq_true_eq] at hb hc
  obtain ⟨-, a, ha, -, hab⟩ := hb
  obtain ⟨-, a', ha', -, hac⟩ := hc
  obtain rfl := Option.some.inj (ha.symm.trans ha')
  exact hne (hab.symm.trans hac)

theorem name_eq {t : ℕ} {a : GqlType} (h : table.types[t]? = some a) : table.name t = a.name := by
  unfold TypeTable.name
  rw [h]
  rfl

/-- The names of types with slots tell them apart. -/
theorem typeGet_iff (h : Sound table) {n : Bytes} {t : ℕ} :
    table.typeGet n = some t ↔ Alive table t ∧ table.name t = n := by
  constructor
  · intro hget
    obtain ⟨a, ha, hslot, hname⟩ := alive_of_typeGet hget
    exact ⟨⟨a, ha, hslot⟩, (name_eq ha).trans hname⟩
  · rintro ⟨⟨a, ha, hslot⟩, rfl⟩
    rw [name_eq ha]
    exact h.typeGet ha hslot

/-- Types that `gql_type_iterate` finds, by their names. -/
theorem names_filter (h : Sound table) (p : ℕ → Bool) :
    (((typeIterate table).filter p).map table.name).Nodup ∧
      ∀ n, n ∈ ((typeIterate table).filter p).map table.name ↔
        ∃ t, table.typeGet n = some t ∧ p t = true := by
  constructor
  · refine List.Nodup.map_on (fun t ht u hu hname => ?_) ((nodup_typeIterate table).filter p)
    have halive := mem_typeIterate.mp (List.mem_filter.mp ht).1
    have halive' := mem_typeIterate.mp (List.mem_filter.mp hu).1
    exact Option.some.inj (((typeGet_iff h).mpr ⟨halive, hname⟩).symm.trans
      ((typeGet_iff h).mpr ⟨halive', rfl⟩))
  · intro n
    simp only [List.mem_map, List.mem_filter, mem_typeIterate, typeGet_iff h]
    constructor
    · rintro ⟨t, ⟨halive, hp⟩, hname⟩
      exact ⟨t, ⟨halive, hname⟩, hp⟩
    · rintro ⟨t, ⟨halive, hname⟩, hp⟩
      exact ⟨t, ⟨halive, hp⟩, hname⟩

end Table

/-! ## Lists of types -/

section Types

variable {d : ℕ} {nameHead : Head}

/-- The name of a type. -/
theorem shows_name (hd : d ≤ maxDepth) (hname : nameHead.name = bytes "name") (dir : List (DirUse ℕ ℕ))
    (sels : List Sel) (t : ℕ) :
    Shows env doc d (.type t) [.field nameHead dir sels] [(nameHead.key, .string (env.table.name t))] := by
  refine ShowsSel.shows hd (showsSel_leaf (v := .string (env.table.name t)) ?_ dir sels)
  rw [hname]
  rfl

theorem exec_itemField {head : Head} {base : ℕ} (h : head.type.bind env.table.listBase = some base)
    (s : State ω) : exec (itemField env head) s = (.ok (some (fieldOf [] base)), s) := by
  unfold itemField
  rw [h]
  rfl

/-- A list of types by their names. -/
def namesList (key nameKey : Bytes) (names : List Bytes) : Bytes × GqlValue ℕ :=
  (key, .list none (names.map fun n => .object [(nameKey, .string n)]))

variable {head : Head} (hname : nameHead.name = bytes "name")

include hname

/-- A method that fills a list with the types of the registry that pass a test. -/
theorem shows_types {obj : Cobj} {m : Method ρ ω} (hm : (obj.methods env).lookup head.name = some m)
    {p : ℕ → Bool} (report : Bool) (base : ℕ) (hd : d + 2 ≤ maxDepth)
    (hr : ∀ (field : Option GqlField) (s : State ω), exec (m field head (d + 1)) s =
      (.ok (.iterated (((typeIterate env.table).filter p).map (.cobj <| .type ·)) (some (fieldOf [] base))
        (d + 2) report), s)) (dir nameDir : List (DirUse ℕ ℕ)) (sels : List Sel) :
    Shows env doc d obj [.field head dir [.field nameHead nameDir sels]]
      [namesList head.key nameHead.key (((typeIterate env.table).filter p).map env.table.name)] := by
  have hall : ∀ t, Shows env doc (d + 2) (.type t) [.field nameHead nameDir sels]
      [(nameHead.key, .string (env.table.name t))] := fun t => shows_name hd hname nameDir sels t
  have hone := ShowsSel.shows (Nat.le_of_add_right_le hd) (showsSel_iterated hm hr hall dir)
  unfold namesList
  rw [List.map_map]
  exact hone

variable {base : ℕ} (hbase : head.type.bind env.table.listBase = some base)

include hbase

theorem shows_schemaTypes (htypes : head.name = bytes "types") (hd : d + 2 ≤ maxDepth)
    (dir nameDir : List (DirUse ℕ ℕ)) (sels : List Sel) :
    Shows env doc d .schema [.field head dir [.field nameHead nameDir sels]]
      [namesList head.key nameHead.key (((typeIterate env.table).filter fun t =>
        env.table.kind t ∉ [.list, .nonNull, .schema]).map env.table.name)] := by
  refine shows_types hname (m := schemaTypes env) ?_ true base hd (fun field s => ?_) dir nameDir sels
  · rw [htypes]
    rfl
  · exact exec_bind_ok (exec_itemField hbase s)

theorem shows_possibleTypes (hpossible : head.name = bytes "possibleTypes") {t : ℕ}
    (ht : env.table.kind t = .interface) (hd : d + 2 ≤ maxDepth) (dir nameDir : List (DirUse ℕ ℕ))
    (sels : List Sel) :
    Shows env doc d (.type t) [.field head dir [.field nameHead nameDir sels]]
      [namesList head.key nameHead.key (((typeIterate env.table).filter fun u =>
        env.table.kind u = .object && hasInterface env.table u t).map env.table.name)] := by
  refine shows_types hname (m := typePossibleTypes env t) ?_ false base hd (fun field s => ?_) dir nameDir sels
  · rw [hpossible]
    rfl
  · refine (exec_bind_ok (exec_itemField hbase s)).trans ?_
    rw [if_pos ht]
    rfl

end Types

/-! ## Queries -/

section Queries

open TypeRefs

variable {root : TypeTable → Option ℕ}

/-- `types` of `__schema`, each with its name. -/
theorem types_listed (env : Env ρ ω) (doc : Doc) (ref : ρ) (field : GqlField) (s : State ω)
    (hreached : TypeNames.Reached root env.table) (hquery : doc.kind = .query)
    (hs : s.funcs = .ruby) (herr : s.err = none) (schemaHead typesHead nameHead : Head)
    (hschema : schemaHead.name = bytes "__schema") (htypes : typesHead.name = bytes "types")
    (hname : nameHead.name = bytes "name") {base : ℕ}
    (hbase : typesHead.type.bind env.table.listBase = some base) (schemaDir dir nameDir : List (DirUse ℕ ℕ))
    (sels : List Sel) :
    ∃ names : List Bytes,
      exec (rootSel env doc ref field
        (.field schemaHead schemaDir [.field typesHead dir [.field nameHead nameDir sels]])) s =
        (.ok (), { s with
          funcs := .cobj
          result := s.result ++ [(schemaHead.key, .object [namesList typesHead.key nameHead.key names])] }) ∧
      names.Nodup ∧
      ∀ n, n ∈ names ↔ ∃ t, env.table.typeGet n = some t ∧ env.table.kind t ∉ [.list, .nonNull, .schema] := by
  obtain ⟨hnodup, hmem⟩ := names_filter hreached.named.sound fun t =>
    env.table.kind t ∉ [.list, .nonNull, .schema]
  refine ⟨_, ?_, hnodup, fun n => (hmem n).trans ?_⟩
  · refine rootSel_shows hquery (m := rootSchema) (Or.inr hschema) ?_ hs herr (fun _ => rfl)
      (shows_schemaTypes hname hbase htypes (by decide) dir nameDir sels) schemaDir
    rw [hschema]
    rfl
  · simp only [decide_eq_true_eq]

end Queries

namespace Sample

/-- An interface and an object of it. -/
def nodeTable : TypeTable :=
  TypeNames.parsed (fun _ => none) 80
    (bytes "interface Node \x7b id: ID \x7d type User implements Node \x7b id: ID \x7d") gqlInit

def nodeEnv : Env Bytes Unit := { Sample.env with table := nodeTable }

theorem nodeEnv_table : nodeEnv.table = nodeTable := by
  dsimp only [nodeEnv]

theorem nodeEnv_reached : TypeNames.Reached (fun _ => none) nodeEnv.table := by
  rw [nodeEnv_table]
  exact .parse _ 80 .init

/-- A field with a type of the registry, and the arguments. -/
def fieldHead (name type : String) (args : List Arg) : Head :=
  ⟨none, bytes name, nodeTable.typeGet (bytes type), args⟩

end Sample

/-- Every type of the registry with the interface and the object is listed. -/
theorem nodeTable_listed :
    ∃ names : List Bytes,
      exec (rootSel Sample.nodeEnv (Sample.doc []) [] (fieldOf [] 0)
        (.field (Sample.fieldHead "__schema" "__Schema" []) []
          [.field (Sample.fieldHead "types" "[__Type!]!" []) []
            [.field (Sample.fieldHead "name" "String" []) [] []]])) Sample.state =
        (.ok (), { Sample.state with
          funcs := .cobj
          result := [(bytes "__schema", .object [namesList (bytes "types") (bytes "name") names])] }) ∧
      names.Nodup ∧ bytes "Node" ∈ names ∧ bytes "User" ∈ names ∧ bytes "[ID!]" ∉ names := by
  obtain ⟨base, hbase⟩ : ∃ base, (Sample.fieldHead "types" "[__Type!]!" []).type.bind
      Sample.nodeEnv.table.listBase = some base := Option.isSome_iff_exists.mp (by decide +kernel)
  obtain ⟨names, hrun, hnodup, hmem⟩ := types_listed Sample.nodeEnv (Sample.doc []) [] (fieldOf [] 0)
    Sample.state Sample.nodeEnv_reached rfl rfl rfl (Sample.fieldHead "__schema" "__Schema" []) (Sample.fieldHead "types" "[__Type!]!" [])
    (Sample.fieldHead "name" "String" []) rfl rfl rfl hbase [] [] [] []
  refine ⟨names, hrun, hnodup, (hmem _).mpr ?_, (hmem _).mpr ?_, fun h => ?_⟩
  · exact ⟨(Sample.nodeTable.typeGet (bytes "Node")).getD 0, by decide +kernel, by decide +kernel⟩
  · exact ⟨(Sample.nodeTable.typeGet (bytes "User")).getD 0, by decide +kernel, by decide +kernel⟩
  · obtain ⟨t, ht, -⟩ := (hmem _).mp h
    have hnone : Sample.nodeEnv.table.typeGet (bytes "[ID!]") = none := by decide +kernel
    rw [hnone] at ht
    cases ht

section Possible

open TypeRefs

variable {root : TypeTable → Option ℕ}

/-- `possibleTypes` of an interface, each with its name. -/
theorem possible_types_iff (env : Env ρ ω) (doc : Doc) (ref : ρ) (field : GqlField) (s : State ω)
    (hreached : TypeNames.Reached root env.table) (hquery : doc.kind = .query)
    (hs : s.funcs = .ruby) (herr : s.err = none) (typeHead possibleHead nameHead : Head) {cell : Option ℕ}
    (htype : typeHead.name = bytes "__type") (hargs : typeHead.args = [⟨bytes "name", cell⟩])
    (interface : Bytes) (hcell : cellValue s.cells cell = some (.string interface)) {t : ℕ}
    (ht : env.table.typeGet interface = some t) (hkind : env.table.kind t = .interface)
    (hpossible : possibleHead.name = bytes "possibleTypes") (hname : nameHead.name = bytes "name") {base : ℕ}
    (hbase : possibleHead.type.bind env.table.listBase = some base)
    (typeDir dir nameDir : List (DirUse ℕ ℕ)) (sels : List Sel) :
    ∃ names : List Bytes,
      exec (rootSel env doc ref field
        (.field typeHead typeDir [.field possibleHead dir [.field nameHead nameDir sels]])) s =
        (.ok (), { s with
          funcs := .cobj
          result := s.result ++ [(typeHead.key, .object [namesList possibleHead.key nameHead.key names])] }) ∧
      ((∀ n, n ∈ names ↔ ∃ u, env.table.typeGet n = some u ∧ env.table.kind u = .object ∧
          t ∈ interfacesOf env.table u) ↔
        ∀ u, Alive env.table u → env.table.kind u = .object →
          (u ∈ interfacesOf env.table u ↔ t ∈ interfacesOf env.table u)) := by
  have hsound := hreached.named.sound
  obtain ⟨-, hmem⟩ := names_filter hsound fun u => env.table.kind u = .object && hasInterface env.table u t
  refine ⟨((typeIterate env.table).filter fun u => env.table.kind u = .object &&
    hasInterface env.table u t).map env.table.name, ?_, ?_⟩
  · refine rootSel_shows hquery (m := rootTypeMethod env) (Or.inl htype) ?_ hs herr (fun f => ?_)
      (shows_possibleTypes hname hbase hpossible hkind (by decide) dir nameDir sels) typeDir
    · rw [htype]
      rfl
    · have harg : exec (extractArg env (some (fieldOf typeHead.name f)) (bytes "name") typeHead.args none)
          { s with funcs := .cobj } = (.ok (some (.string interface)), { s with funcs := .cobj }) := by
        rw [hargs]
        unfold extractArg
        rw [if_pos rfl, exec_get_bind]
        exact congrArg (fun v => (Except.ok v, { s with funcs := .cobj })) hcell
      unfold rootTypeMethod
      rw [exec_bind_ok harg]
      simp only [Option.bind_some, stringGet, ht]
      rfl
  · have hown : ∀ u, (decide (env.table.kind u = .object) && hasInterface env.table u t) = true ↔
        env.table.kind u = .object ∧ u ∈ interfacesOf env.table u := by
      intro u
      unfold hasInterface
      rw [Bool.and_eq_true, decide_eq_true_eq, decide_eq_true_eq]
    constructor
    · intro hright u halive hobject
      have hget := (typeGet_iff hsound).mpr ⟨halive, rfl⟩
      have hiff := (hmem _).symm.trans (hright (env.table.name u))
      constructor
      · intro hu
        obtain ⟨v, hv, -, hin⟩ := hiff.mp ⟨u, hget, (hown u).mpr ⟨hobject, hu⟩⟩
        obtain rfl := Option.some.inj (hget.symm.trans hv)
        exact hin
      · intro hu
        obtain ⟨v, hv, hpass⟩ := hiff.mpr ⟨u, hget, hobject, hu⟩
        obtain rfl := Option.some.inj (hget.symm.trans hv)
        exact ((hown u).mp hpass).2
    · intro hall n
      refine (hmem n).trans (exists_congr fun u => and_congr_right fun hget => ?_)
      have halive := ((typeGet_iff hsound).mp hget).1
      exact (hown u).trans (and_congr_right fun hobject => hall u halive hobject)

end Possible

/-- The object of the interface is not listed: it does not name itself. -/
theorem nodeTable_possible :
    ∃ names : List Bytes,
      exec (rootSel Sample.nodeEnv (Sample.doc []) [] (fieldOf [] 0)
        (.field (Sample.fieldHead "__type" "__Type" [⟨bytes "name", some 0⟩]) []
          [.field (Sample.fieldHead "possibleTypes" "[__Type!]" []) []
            [.field (Sample.fieldHead "name" "String" []) [] []]]))
          { Sample.state with cells := [.string (bytes "Node")] } =
        (.ok (), { Sample.state with
          funcs := .cobj
          cells := [.string (bytes "Node")]
          result := [(bytes "__type", .object [namesList (bytes "possibleTypes") (bytes "name") names])] }) ∧
      ¬ ∀ n, n ∈ names ↔ ∃ u, Sample.nodeEnv.table.typeGet n = some u ∧ Sample.nodeEnv.table.kind u = .object ∧
        (Sample.nodeEnv.table.typeGet (bytes "Node")).getD 0 ∈ interfacesOf Sample.nodeEnv.table u := by
  obtain ⟨base, hbase⟩ : ∃ base, (Sample.fieldHead "possibleTypes" "[__Type!]" []).type.bind
      Sample.nodeEnv.table.listBase = some base := Option.isSome_iff_exists.mp (by decide +kernel)
  have ht : Sample.nodeEnv.table.typeGet (bytes "Node") =
      some ((Sample.nodeEnv.table.typeGet (bytes "Node")).getD 0) := by decide +kernel
  obtain ⟨names, hrun, hiff⟩ := possible_types_iff Sample.nodeEnv (Sample.doc []) [] (fieldOf [] 0)
    { Sample.state with cells := [.string (bytes "Node")] } Sample.nodeEnv_reached rfl rfl rfl
    (Sample.fieldHead "__type" "__Type" [⟨bytes "name", some 0⟩])
    (Sample.fieldHead "possibleTypes" "[__Type!]" []) (Sample.fieldHead "name" "String" []) rfl rfl
    (bytes "Node") rfl ht (by decide +kernel) rfl rfl hbase [] [] [] []
  refine ⟨names, hrun, fun hright => ?_⟩
  have hall := hiff.mp hright ((Sample.nodeEnv.table.typeGet (bytes "User")).getD 0)
  have hget : Sample.nodeEnv.table.typeGet (bytes "User") =
      some ((Sample.nodeEnv.table.typeGet (bytes "User")).getD 0) := by decide +kernel
  have halive := ((typeGet_iff Sample.nodeEnv_reached.named.sound).mp hget).1
  exact absurd (hall halive (by decide +kernel)) (by decide +kernel)

end Eval

end Agoo
