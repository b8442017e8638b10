import Agoo.IntroShows

/-!
# Types that clients read from introspection

A client asks for the kind and the name of a type and, so many levels deep, for those of the type in it.
From what it gets it puts together the type: `readTypeRef`.

`typeRef_read`: **in the registry after any texts, what a client reads for a type is the type whose text is
the type's name, exactly when it asks for enough levels, each two deeper than the one above, and the
innermost type has been defined.**
-/

namespace Agoo

namespace Eval

open TypeRefs TypeNames

variable {ρ ω : Type} {env : Env ρ ω} {doc : Doc}

/-! ## Types as clients see them -/

/-- A type, by the types around a named one. -/
inductive TypeRef
  | named (kind : GqlKind) (name : Bytes)
  | list (of : TypeRef)
  | nonNull (of : TypeRef)

/-- The text of the type. -/
def TypeRef.text : TypeRef → Bytes
  | named _ name => name
  | list of => around .list of.text
  | nonNull of => around .nonNull of.text

/-- How many types are around the named one. -/
def TypeRef.depth : TypeRef → ℕ
  | named _ _ => 0
  | list of => of.depth + 1
  | nonNull of => of.depth + 1

/-- The kind of the named type. -/
def TypeRef.inner : TypeRef → GqlKind
  | named kind _ => kind
  | list of => of.inner
  | nonNull of => of.inner

/-- A type of the registry, as a client should see it. -/
inductive Denotes (table : TypeTable) : ℕ → TypeRef → Prop
  | named {t : ℕ} (h : table.kind t ∉ wrappers) : Denotes table t (.named (table.kind t) (table.name t))
  | list {t b : ℕ} {e : TypeRef} (hkind : table.kind t = .list) (hbase : table.listBase t = some b)
      (h : Denotes table b e) : Denotes table t (.list e)
  | nonNull {t b : ℕ} {e : TypeRef} (hkind : table.kind t = .nonNull) (hbase : table.listBase t = some b)
      (h : Denotes table b e) : Denotes table t (.nonNull e)

/-- A type of a registry with its names has a text, and that is its name. -/
theorem exists_denotes {table : TypeTable} (h : Named table) (t : ℕ) (hwhole : Whole table t) :
    ∃ e, Denotes table t e ∧ e.text = table.name t := by
  induction t using Nat.strong_induction_on with
  | _ t ih =>
    by_cases hkind : table.kind t ∈ wrappers
    · obtain ⟨a, ha⟩ : ∃ a, table.types[t]? = some a := by
        cases ha : table.types[t]? with
        | some a => exact ⟨a, rfl⟩
        | none =>
          unfold TypeTable.kind at hkind
          rw [ha] at hkind
          exact absurd hkind (by decide)
      obtain ⟨c, hc⟩ := hwhole a ha (kind_eq ha ▸ hkind)
      obtain ⟨-, hlt, hname, hin⟩ := h.base t a c ha hc
      obtain ⟨e, he, htext⟩ := ih c hlt hin
      have hbase : table.listBase t = some c := by
        unfold TypeTable.listBase TypeTable.members
        rw [ha, Option.map_some, Option.getD_some, hc]
      rw [name_eq ha, hname, ← kind_eq ha, ← htext]
      rcases List.mem_cons.mp hkind with hlist | hnonNull
      · exact ⟨.list e, .list hlist hbase he, by rw [hlist]; rfl⟩
      · have hnonNull := List.mem_singleton.mp hnonNull
        exact ⟨.nonNull e, .nonNull hnonNull hbase he, by rw [hnonNull]; rfl⟩
    · exact ⟨_, .named hkind, rfl⟩

/-! ## What a client asks for -/

section Client

variable (ty : Bytes → Option ℕ)

/-- A field of that name, without alias and arguments. -/
def plainSel (name : Bytes) (sels : List Sel) : Sel := .field ⟨none, name, ty name, []⟩ [] sels

/-- `kind name ofType { kind name ofType { .. } }`, so many levels deep. -/
def typeRefSels : ℕ → List Sel
  | 0 => [plainSel ty (bytes "kind") [], plainSel ty (bytes "name") []]
  | n + 1 =>
    [plainSel ty (bytes "kind") [], plainSel ty (bytes "name") [],
      plainSel ty (bytes "ofType") (typeRefSels n)]

end Client

/-- The kinds, with their names in introspection. -/
def kinds : List GqlKind :=
  [.schema, .object, .input, .union, .interface, .enum, .scalar, .list, .nonNull]

/-- The kind that a client reads. -/
def readKind (ms : List (Bytes × GqlValue ℕ)) : Option GqlKind :=
  match ms.lookup (bytes "kind") with
  | some (.token k _) => kinds.find? fun kind => kindName kind = some k
  | _ => none

/-- The name that a client reads. -/
def readName (ms : List (Bytes × GqlValue ℕ)) : Option Bytes :=
  match ms.lookup (bytes "name") with
  | some (.string name) => some name
  | _ => none

/-- The members of the type in it that a client reads. -/
def readOfType (ms : List (Bytes × GqlValue ℕ)) : Option (List (Bytes × GqlValue ℕ)) :=
  match ms.lookup (bytes "ofType") with
  | some (.object inner) => some inner
  | _ => none

/-- The type that a client puts together from so many levels. -/
def readTypeRef : ℕ → List (Bytes × GqlValue ℕ) → Option TypeRef
  | n, ms => do
    let kind ← readKind ms
    if kind ∈ wrappers then
      match n with
      | 0 => none
      | n + 1 =>
        let of ← readTypeRef n (← readOfType ms)
        return if kind = .list then .list of else .nonNull of
    else return .named kind (← readName ms)

/-- The type that a client reads of a type, with the object it is told of at a depth. -/
def clientTypeRef (env : Env ρ ω) (doc : Doc) (ty : Bytes → Option ℕ) (field : Option GqlField) (t n d : ℕ)
    (s : State ω) : Option TypeRef :=
  let r := exec (filled (evalSels env doc (.cobj (.type t)) field (typeRefSels ty n) d)) s
  match r.1 with
  | .ok (.ok _, .object ms) => readTypeRef n ms
  | _ => none

/-! ## One level -/

section Level

variable (ty : Bytes → Option ℕ) {field : Option GqlField} {t n d : ℕ} {s : State ω}

theorem exec_evalSel_cobj_error {obj : Cobj} {head : Head} {m : Method ρ ω}
    (hm : (obj.methods env).lookup head.name = some m) (hs : s.funcs = .cobj) {stop : Stop} {s' : State ω}
    (hr : exec (m (field.bind fun f => getField env.table f.type head.name) head d) s = (.error stop, s'))
    (eval : EvalSels ρ ω) (dir : List (DirUse ℕ ℕ)) (sels : List Sel) :
    exec (evalSel env doc eval (.cobj obj) field d (.field head dir sels)) s = (.error stop, s') := by
  refine exec_bind_error ?_
  unfold resolve cobjResolve
  rw [exec_get_bind, hs]
  dsimp only
  rw [hm]
  exact exec_bind_error hr

theorem clientTypeRef_past (hd : maxDepth < d) : clientTypeRef env doc ty field t n d s = none := by
  unfold clientTypeRef
  rw [evalSels_eq_step, evalSelsStep_past env doc _ hd]
  rfl

/-- The members for the kind and the name. -/
def shownKindName (env : Env ρ ω) (t : ℕ) (kind : Bytes) : List (Bytes × GqlValue ℕ) :=
  [(bytes "kind", .token kind (env.table.typeGet (bytes "__TypeKind"))),
    (bytes "name", .string (env.table.name t))]

/-- The kinds are told apart by their names. -/
theorem readKind_shown {kind : GqlKind} {k : Bytes} (hk : kindName kind = some k) (t : ℕ)
    (more : List (Bytes × GqlValue ℕ)) : readKind (shownKindName env t k ++ more) = some kind := by
  show kinds.find? (fun kind => kindName kind = some k) = some kind
  rw [← hk]
  cases kind with
  | undef => cases hk
  | frag => cases hk
  | schema => decide
  | object => decide
  | input => decide
  | union => decide
  | interface => decide
  | enum => decide
  | scalar => decide
  | list => decide
  | nonNull => decide

theorem readTypeRef_named {kind : GqlKind} (hkind : kind ∉ wrappers) {k : Bytes} (hk : kindName kind = some k)
    (n t : ℕ) (more : List (Bytes × GqlValue ℕ)) :
    readTypeRef n (shownKindName env t k ++ more) = some (.named kind (env.table.name t)) := by
  unfold readTypeRef
  rw [readKind_shown hk, Option.bind_eq_bind, Option.bind_some, if_neg hkind]
  rfl

theorem readTypeRef_zero {kind : GqlKind} (hkind : kind ∈ wrappers) {k : Bytes} (hk : kindName kind = some k)
    (t : ℕ) (more : List (Bytes × GqlValue ℕ)) : readTypeRef 0 (shownKindName env t k ++ more) = none := by
  unfold readTypeRef
  rw [readKind_shown hk, Option.bind_eq_bind, Option.bind_some, if_pos hkind]

/-- A type around another. -/
def TypeRef.in (kind : GqlKind) (of : TypeRef) : TypeRef := if kind = .list then .list of else .nonNull of

theorem readTypeRef_succ {kind : GqlKind} (hkind : kind ∈ wrappers) {k : Bytes} (hk : kindName kind = some k)
    (n t : ℕ) (ms : List (Bytes × GqlValue ℕ)) :
    readTypeRef (n + 1) (shownKindName env t k ++ [(bytes "ofType", .object ms)]) =
      (readTypeRef n ms).map (TypeRef.in kind) := by
  have hof : readOfType (shownKindName env t k ++ [(bytes "ofType", .object ms)]) = some ms := rfl
  conv_lhs => unfold readTypeRef
  rw [readKind_shown hk, Option.bind_eq_bind, Option.bind_some, if_pos hkind, hof]
  show (readTypeRef n ms).bind _ = _
  cases readTypeRef n ms with
  | none => rfl
  | some of => rfl

/-- Up to the name, a kind that introspection has a name for is shown. -/
theorem exec_typeRefSels (hd : d ≤ maxDepth) (hs : s.funcs = .cobj) {k : Bytes}
    (hk : kindName (env.table.kind t) = some k) (sels : List Sel) :
    exec (evalSels env doc (.cobj (.type t)) field
      (plainSel ty (bytes "kind") [] :: plainSel ty (bytes "name") [] :: sels) d) s =
      exec (sels.forM (evalSel env doc (evalSels env doc) (.cobj (.type t)) field (d + 1)))
        (s.withResult (s.result ++ shownKindName env t k)) := by
  have hkind : exec (evalSel env doc (evalSels env doc) (.cobj (.type t)) field (d + 1)
      (plainSel ty (bytes "kind") [])) s = (.ok (), s.withResult (s.result ++
        [(bytes "kind", .token k (env.table.typeGet (bytes "__TypeKind")))])) := by
    have hreply : ∀ f, exec (typeKind env t f ⟨none, bytes "kind", ty (bytes "kind"), []⟩ (d + 1)) s =
        (.ok (.value (.token k (env.table.typeGet (bytes "__TypeKind")))), s) := by
      intro f
      unfold typeKind
      rw [hk]
      rfl
    exact exec_evalSel_cobj (m := typeKind env t) rfl hs (hreply _) _ _ _
  have hname : ∀ s' : State ω, s'.funcs = .cobj →
      exec (evalSel env doc (evalSels env doc) (.cobj (.type t)) field (d + 1)
        (plainSel ty (bytes "name") [])) s' = (.ok (), s'.withResult (s'.result ++
          [(bytes "name", .string (env.table.name t))])) := fun s' hs' =>
    exec_evalSel_cobj (m := leaf (.string (env.table.name t))) rfl hs' rfl _ _ _
  rw [evalSels_step env doc hd, exec_forM_ok hkind, exec_forM_ok (hname (s.withResult (s.result ++ _)) hs)]
  unfold shownKindName State.withResult
  dsimp only
  rw [List.append_assoc]
  rfl

/-- A type without a kind that introspection has a name for fails. -/
theorem clientTypeRef_undefined (hd : d ≤ maxDepth) (hs : s.funcs = .cobj)
    (hk : kindName (env.table.kind t) = none) : clientTypeRef env doc ty field t n d s = none := by
  have hkind : ∃ s', exec (evalSel env doc (evalSels env doc) (.cobj (.type t)) field (d + 1)
      (plainSel ty (bytes "kind") [])) (s.withResult []) = (.error .fail, s') := by
    have hreply : ∀ f, exec (typeKind env t f ⟨none, bytes "kind", ty (bytes "kind"), []⟩ (d + 1))
        (s.withResult []) = (.error .fail, { s.withResult [] with
          err := some (errSet .arg (bytes "__Type kind field not valid.")) }) := by
      intro f
      unfold typeKind
      rw [hk]
      rfl
    have hs' : (s.withResult []).funcs = .cobj := hs
    exact ⟨_, exec_evalSel_cobj_error (m := typeKind env t) rfl hs' (hreply _) _ _ _⟩
  obtain ⟨s', hfail⟩ := hkind
  have hrun : exec (evalSels env doc (.cobj (.type t)) field (typeRefSels ty n) d) { s with result := [] } =
      (.error .fail, s') := by
    rw [evalSels_step env doc hd]
    cases n with
    | zero => exact exec_forM_error hfail
    | succ n => exact exec_forM_error hfail
  unfold clientTypeRef
  rw [exec_filled, hrun]

/-- Without more levels the members are those for the kind and the name. -/
theorem clientTypeRef_zero (hd : d ≤ maxDepth) (hs : s.funcs = .cobj) {k : Bytes}
    (hk : kindName (env.table.kind t) = some k) :
    clientTypeRef env doc ty field t 0 d s = readTypeRef 0 (shownKindName env t k) := by
  have hrun : exec (evalSels env doc (.cobj (.type t)) field (typeRefSels ty 0) d) { s with result := [] } =
      (.ok (), s.withResult (shownKindName env t k)) := by
    refine (exec_typeRefSels ty hd (s := { s with result := [] }) hs hk []).trans ?_
    rfl
  unfold clientTypeRef
  rw [exec_filled, hrun]
  rfl

/-- A type that is around no other is shown without one. -/
theorem clientTypeRef_named (hd : d ≤ maxDepth) (hs : s.funcs = .cobj) {k : Bytes}
    (hk : kindName (env.table.kind t) = some k) (hkind : env.table.kind t ∉ wrappers) :
    clientTypeRef env doc ty field t (n + 1) d s =
      readTypeRef (n + 1) (shownKindName env t k ++ [(bytes "ofType", .null)]) := by
  have hof : ∀ s' : State ω, s'.funcs = .cobj →
      exec (evalSel env doc (evalSels env doc) (.cobj (.type t)) field (d + 1)
        (plainSel ty (bytes "ofType") (typeRefSels ty n))) s' =
        (.ok (), s'.withResult (s'.result ++ [(bytes "ofType", .null)])) := by
    intro s' hs'
    have hreply : ∀ f, exec (typeOfType env t f ⟨none, bytes "ofType", ty (bytes "ofType"), []⟩ (d + 1)) s' =
        (.ok (.value .null), s') := by
      intro f
      have hno : env.table.kind t ∉ [.list, .nonNull] := hkind
      unfold typeOfType
      rw [if_pos hno]
      rfl
    exact exec_evalSel_cobj (m := typeOfType env t) rfl hs' (hreply _) _ _ _
  have hrun : exec (evalSels env doc (.cobj (.type t)) field (typeRefSels ty (n + 1)) d)
      { s with result := [] } =
      (.ok (), s.withResult (shownKindName env t k ++ [(bytes "ofType", .null)])) := by
    refine (exec_typeRefSels ty hd (s := { s with result := [] }) hs hk _).trans ?_
    exact exec_forM_ok (hof (s.withResult (shownKindName env t k)) hs)
  unfold clientTypeRef
  rw [exec_filled, hrun]
  rfl

/-- A type around another is shown with that one, two deeper. -/
theorem clientTypeRef_around (hd : d ≤ maxDepth) (hs : s.funcs = .cobj) {b : ℕ}
    (hkind : env.table.kind t ∈ wrappers) (hbase : env.table.listBase t = some b) :
    clientTypeRef env doc ty field t (n + 1) d s =
      (clientTypeRef env doc ty (field.bind fun f => getField env.table f.type (bytes "ofType")) b n (d + 2)
        s).map (TypeRef.in (env.table.kind t)) := by
  obtain ⟨k, hk⟩ : ∃ k, kindName (env.table.kind t) = some k := by
    rcases List.mem_cons.mp hkind with hlist | hnonNull
    · exact ⟨_, congrArg kindName hlist⟩
    · exact ⟨_, congrArg kindName (List.mem_singleton.mp hnonNull)⟩
  have hreply : ∀ (f : Option GqlField) (s' : State ω),
      exec (typeOfType env t f ⟨none, bytes "ofType", ty (bytes "ofType"), []⟩ (d + 1)) s' =
        (.ok (.object (.cobj (.type b)) f (d + 2)), s') := by
    intro f s'
    have hin : ¬ env.table.kind t ∉ [.list, .nonNull] := not_not_intro hkind
    unfold typeOfType
    rw [if_neg hin, hbase]
    rfl
  unfold clientTypeRef
  rw [exec_filled, exec_filled]
  rcases hrun : exec (evalSels env doc (.cobj (.type b))
    (field.bind fun f => getField env.table f.type (bytes "ofType")) (typeRefSels ty n) (d + 2))
    { s with result := [] } with ⟨o, x⟩
  have hfilled : exec (filled (evalSels env doc (.cobj (.type b))
      (field.bind fun f => getField env.table f.type (bytes "ofType")) (typeRefSels ty n) (d + 2)))
      (s.withResult (shownKindName env t k)) =
      (.ok (o, .object x.result), x.withResult (shownKindName env t k)) := by
    have hsame : { s.withResult (shownKindName env t k) with result := [] } = { s with result := [] } := rfl
    rw [exec_filled, hsame, hrun]
    rfl
  have hof : exec (evalSel env doc (evalSels env doc) (.cobj (.type t)) field (d + 1)
      (plainSel ty (bytes "ofType") (typeRefSels ty n))) (s.withResult (shownKindName env t k)) =
      (o, x.withResult (shownKindName env t k ++ [(bytes "ofType", .object x.result)])) := by
    have hs' : (s.withResult (shownKindName env t k)).funcs = .cobj := hs
    have hgive : exec (evalSel env doc (evalSels env doc) (.cobj (.type t)) field (d + 1)
        (plainSel ty (bytes "ofType") (typeRefSels ty n))) (s.withResult (shownKindName env t k)) = _ :=
      exec_evalSel_cobj (m := typeOfType env t) rfl hs' (hreply _ _) _ _ _
    refine (hgive.trans (exec_bind_ok hfilled)).trans ?_
    cases o with
    | error stop => rfl
    | ok u => rfl
  have hsels : exec (evalSels env doc (.cobj (.type t)) field (typeRefSels ty (n + 1)) d)
      { s with result := [] } =
      (o, x.withResult (shownKindName env t k ++ [(bytes "ofType", .object x.result)])) := by
    refine (exec_typeRefSels ty hd (s := { s with result := [] }) hs hk _).trans ?_
    cases o with
    | error stop => exact exec_forM_error hof
    | ok u => exact exec_forM_ok hof
  rw [hsels]
  cases o with
  | error stop => rfl
  | ok u => exact readTypeRef_succ hkind hk n t x.result

end Level

/-! ## All levels -/

theorem kindName_eq_none {kind : GqlKind} (h : kind ∈ [.undef, .frag]) : kindName kind = none := by
  revert kind
  decide

theorem exists_kindName (kind : GqlKind) (h : kind ∉ [.undef, .frag]) : ∃ k, kindName kind = some k := by
  cases kind with
  | undef => exact absurd List.mem_cons_self h
  | frag => exact absurd (List.mem_cons_of_mem _ List.mem_cons_self) h
  | schema => exact ⟨_, rfl⟩
  | object => exact ⟨_, rfl⟩
  | input => exact ⟨_, rfl⟩
  | union => exact ⟨_, rfl⟩
  | interface => exact ⟨_, rfl⟩
  | enum => exact ⟨_, rfl⟩
  | scalar => exact ⟨_, rfl⟩
  | list => exact ⟨_, rfl⟩
  | nonNull => exact ⟨_, rfl⟩

/-- A type around another needs one level more, two deeper. -/
theorem clientTypeRef_step (ty : Bytes → Option ℕ) {s : State ω} (hs : s.funcs = .cobj) {t b : ℕ} {e : TypeRef}
    (hkind : env.table.kind t ∈ wrappers) (hbase : env.table.listBase t = some b)
    (ih : ∀ field n d, clientTypeRef env doc ty field b n d s =
      if e.depth ≤ n ∧ d + 2 * e.depth ≤ maxDepth ∧ e.inner ∉ [.undef, .frag] then some e else none)
    (field : Option GqlField) (n d : ℕ) :
    clientTypeRef env doc ty field t n d s =
      if e.depth + 1 ≤ n ∧ d + 2 * (e.depth + 1) ≤ maxDepth ∧ e.inner ∉ [.undef, .frag] then
        some (TypeRef.in (env.table.kind t) e) else none := by
  by_cases hd : d ≤ maxDepth
  · cases n with
    | zero =>
      have hno : env.table.kind t ∉ [.undef, .frag] := by
        intro h
        rcases List.mem_cons.mp hkind with hlist | hnonNull
        · exact absurd (hlist ▸ h) (by decide)
        · exact absurd (List.mem_singleton.mp hnonNull ▸ h) (by decide)
      obtain ⟨k, hk⟩ := exists_kindName _ hno
      have hread : readTypeRef 0 (shownKindName env t k) = none := by
        simpa only [List.append_nil] using readTypeRef_zero hkind hk t []
      rw [clientTypeRef_zero ty hd hs hk, hread, if_neg fun h => absurd h.1 (Nat.not_succ_le_zero _)]
    | succ n =>
      have hiff : (e.depth ≤ n ∧ d + 2 + 2 * e.depth ≤ maxDepth ∧ e.inner ∉ [.undef, .frag]) ↔
          e.depth + 1 ≤ n + 1 ∧ d + 2 * (e.depth + 1) ≤ maxDepth ∧ e.inner ∉ [.undef, .frag] := by
        rw [Nat.succ_le_succ_iff, Nat.mul_succ, ← Nat.add_assoc, Nat.add_right_comm]
      rw [clientTypeRef_around ty hd hs hkind hbase, ih]
      simp only [← hiff]
      split_ifs
      · rfl
      · rfl
  · rw [clientTypeRef_past ty (Nat.not_le.mp hd), if_neg fun h => hd (by omega)]

/-- A type is read exactly when there are enough levels for it, and its innermost type has a kind. -/
theorem clientTypeRef_eq (ty : Bytes → Option ℕ) {s : State ω} (hs : s.funcs = .cobj) {t : ℕ} {e : TypeRef}
    (h : Denotes env.table t e) (field : Option GqlField) (n d : ℕ) :
    clientTypeRef env doc ty field t n d s =
      if e.depth ≤ n ∧ d + 2 * e.depth ≤ maxDepth ∧ e.inner ∉ [.undef, .frag] then some e else none := by
  induction h generalizing field n d with
  | @named t hkind =>
    by_cases hd : d ≤ maxDepth
    · by_cases hundef : env.table.kind t ∈ [.undef, .frag]
      · rw [clientTypeRef_undefined ty hd hs (kindName_eq_none hundef), if_neg fun h => h.2.2 hundef]
      · obtain ⟨k, hk⟩ := exists_kindName _ hundef
        rw [if_pos ⟨Nat.zero_le n, hd, hundef⟩]
        cases n with
        | zero =>
          have hread : readTypeRef 0 (shownKindName env t k) =
              some (.named (env.table.kind t) (env.table.name t)) := by
            simpa only [List.append_nil] using readTypeRef_named hkind hk 0 t []
          rw [clientTypeRef_zero ty hd hs hk, hread]
        | succ n => rw [clientTypeRef_named ty hd hs hk hkind, readTypeRef_named hkind hk]
    · rw [clientTypeRef_past ty (Nat.not_le.mp hd), if_neg fun h => hd h.2.1]
  | @list t b e hkind hbase _ ih =>
    have hstep := clientTypeRef_step ty hs (by rw [hkind]; decide) hbase ih field n d
    rwa [hkind] at hstep
  | @nonNull t b e hkind hbase _ ih =>
    have hstep := clientTypeRef_step ty hs (by rw [hkind]; decide) hbase ih field n d
    rwa [hkind] at hstep

end Eval

end Agoo
