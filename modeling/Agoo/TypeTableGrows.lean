import Agoo.GqlInit

/-!
# What calls do to the kinds of types

`Grows r r'`: from `r` to `r'` every new access is to the member that the kind of its type selects, and
a type keeps its kind once it has one. Every call of `graphql.c` does that for a type whose kind
selects the member that the call is for.
-/

namespace Agoo

open TypeTable

variable {α β : Type}

/-! ## Calls -/

/-- A call from a registry. -/
def TableM.exec (c : TableM α) (r : TypeTable) : Except Err α × TypeTable := (ExceptT.run c).run r

theorem TableM.exec_bind (c : TableM α) (f : α → TableM β) (r : TypeTable) :
    (c >>= f).exec r = match (c.exec r).1 with
      | .ok a => (f a).exec (c.exec r).2
      | .error e => (.error e, (c.exec r).2) := by
  unfold TableM.exec
  rw [ExceptT.run_bind, StateT.run_bind]
  rcases StateT.run (ExceptT.run c) r with ⟨a | e, r'⟩
  · rfl
  · rfl

theorem TableM.exec_get (f : TypeTable → TableM β) (r : TypeTable) :
    ((get : TableM TypeTable) >>= f).exec r = (f r).exec r := rfl

/-- Every new access fits, and a type that has a kind keeps it. -/
structure Grows (r r' : TypeTable) : Prop where
  fits : ∀ a ∈ r'.log, a ∈ r.log ∨ a.Fits
  kind : ∀ t, r.kind t ≠ .undef → r'.kind t = r.kind t

theorem Grows.refl (r : TypeTable) : Grows r r := ⟨fun _ h => Or.inl h, fun _ _ => rfl⟩

theorem Grows.trans {r r' r'' : TypeTable} (h : Grows r r') (h' : Grows r' r'') : Grows r r'' := by
  constructor
  · intro a ha
    rcases h'.fits a ha with ha | ha
    · exact h.fits a ha
    · exact Or.inr ha
  · intro t ht
    have hk := h.kind t ht
    rw [← hk]
    exact h'.kind t (hk ▸ ht)

/-- The call grows the registry `r`. -/
def TableM.GrowsAt (c : TableM α) (r : TypeTable) : Prop := Grows r (c.exec r).2

theorem growsAt_pure (a : α) (r : TypeTable) : (pure a : TableM α).GrowsAt r := Grows.refl r

theorem growsAt_setErr (code : ErrCode) (msg : Bytes) (r : TypeTable) :
    (setErr code msg : TableM α).GrowsAt r := Grows.refl r

theorem growsAt_modify {f : TypeTable → TypeTable} {r : TypeTable} (h : Grows r (f r)) :
    (modify f : TableM Unit).GrowsAt r := h

theorem growsAt_set {r r' : TypeTable} (h : Grows r r') : (set r' : TableM PUnit).GrowsAt r := h

theorem growsAt_bind {c : TableM α} {f : α → TableM β} {r : TypeTable} (h : c.GrowsAt r)
    (hf : ∀ a, (c.exec r).1 = .ok a → (f a).GrowsAt (c.exec r).2) : (c >>= f).GrowsAt r := by
  unfold TableM.GrowsAt at h ⊢
  rw [TableM.exec_bind]
  cases hc : (c.exec r).1 with
  | ok a => exact h.trans (hf a hc)
  | error e => exact h

theorem growsAt_get {f : TypeTable → TableM β} {r : TypeTable} (h : (f r).GrowsAt r) :
    (get >>= f).GrowsAt r := h

theorem growsAt_ite {c : Prop} [Decidable c] {p q : TableM α} {r : TypeTable}
    (h : c → p.GrowsAt r) (h' : ¬ c → q.GrowsAt r) : (if c then p else q).GrowsAt r := by
  by_cases hc : c
  · rw [if_pos hc]
    exact h hc
  · rw [if_neg hc]
    exact h' hc

/-! ## Changes -/

/-- A change of a type that leaves its kind. -/
theorem kind_update {r : TypeTable} {t : ℕ} {f : GqlType → GqlType} (h : ∀ ty, (f ty).kind = ty.kind)
    (i : ℕ) : (r.update t f).kind i = r.kind i := by
  unfold TypeTable.kind update
  dsimp only
  rw [List.getElem?_modify]
  cases r.types[i]? with
  | none => rfl
  | some ty =>
    change (if t = i then f ty else ty).kind = ty.kind
    split
    · exact h ty
    · rfl

theorem grows_update {r : TypeTable} {t : ℕ} {f : GqlType → GqlType}
    (h : ∀ ty, (f ty).kind = ty.kind) : Grows r (r.update t f) :=
  ⟨fun _ ha => Or.inl ha, fun i _ => kind_update h i⟩

theorem grows_updateDir (r : TypeTable) (d : ℕ) (f : GqlDir → GqlDir) : Grows r (r.updateDir d f) :=
  ⟨fun _ ha => Or.inl ha, fun _ _ => rfl⟩

theorem grows_addDir (r : TypeTable) (dir : GqlDir) : Grows r (r.addDir dir) :=
  ⟨fun _ ha => Or.inl ha, fun _ _ => rfl⟩

theorem kind_addType {r : TypeTable} {type : GqlType} {i : ℕ} (h : r.kind i ≠ .undef) :
    (r.addType type).kind i = r.kind i := by
  have hlt : i < r.types.length := by
    by_contra hge
    refine h ?_
    unfold TypeTable.kind
    rw [List.getElem?_eq_none (Nat.not_lt.mp hge)]
    rfl
  unfold TypeTable.kind addType
  dsimp only
  rw [List.getElem?_append_left hlt]

/-- The type that is put at the end has its own kind. -/
theorem kind_addType_new (r : TypeTable) (type : GqlType) :
    (r.addType type).kind r.types.length = type.kind := by
  unfold TypeTable.kind addType
  dsimp only
  rw [List.getElem?_concat_length]
  rfl

theorem grows_addType (r : TypeTable) (type : GqlType) : Grows r (r.addType type) :=
  ⟨fun _ ha => Or.inl ha, fun _ ht => kind_addType ht⟩

theorem grows_access {r : TypeTable} {t : ℕ} {m : Member} (h : (r.kind t).member = some m) :
    Grows r (r.access t m) := by
  refine ⟨fun a ha => ?_, fun _ _ => rfl⟩
  rcases List.mem_cons.mp ha with rfl | ha
  · exact Or.inr h
  · exact Or.inl ha

theorem kind_store (r : TypeTable) (t : ℕ) (m : Member) (members : Members) (i : ℕ) :
    (r.store t m members).kind i = r.kind i :=
  kind_update (r := r.access t m) (f := fun type => { type with members }) (fun _ => rfl) i

theorem grows_store {r : TypeTable} {t : ℕ} {m : Member} {members : Members}
    (h : (r.kind t).member = some m) : Grows r (r.store t m members) :=
  (grows_access h).trans (grows_update fun _ => rfl)

theorem grows_typeClean (r : TypeTable) (t : ℕ) : Grows r (r.typeClean t) := by
  have hclear : Grows r (r.update t fun type => { type with desc := none, dir := [] }) :=
    grows_update fun _ => rfl
  refine hclear.trans ?_
  unfold typeClean
  dsimp only
  generalize r.update t (fun type => { type with desc := none, dir := [] }) = r'
  cases hk : r'.kind t with
  | schema => exact grows_store (by rw [hk]; rfl)
  | object => exact grows_store (by rw [hk]; rfl)
  | interface => exact grows_store (by rw [hk]; rfl)
  | input => exact grows_store (by rw [hk]; rfl)
  | union => exact grows_store (by rw [hk]; rfl)
  | enum => exact grows_store (by rw [hk]; rfl)
  | undef => exact Grows.refl r'
  | frag => exact Grows.refl r'
  | scalar => exact Grows.refl r'
  | list => exact Grows.refl r'
  | nonNull => exact Grows.refl r'

theorem grows_typeRemove (r : TypeTable) (t : ℕ) : Grows r (r.typeRemove t) := by
  unfold typeRemove
  cases r.typeGet (r.name t) with
  | none => exact Grows.refl r
  | some i => exact grows_update fun _ => rfl

theorem grows_typeDestroy (r : TypeTable) (t : ℕ) : Grows r (r.typeDestroy t) := by
  refine (grows_typeRemove r t).trans ?_
  unfold typeDestroy
  dsimp only
  split
  · exact Grows.refl _
  · exact grows_typeClean _ t

/-! ## Types -/

/-- A type that has no kind yet is given one. -/
theorem grows_define {r : TypeTable} {t : ℕ} (h : r.kind t = .undef) (desc : Option Bytes)
    (kind : GqlKind) : Grows r (r.update t fun type => { type with desc, kind }) := by
  refine ⟨fun _ ha => Or.inl ha, fun i hi => ?_⟩
  have hne : t ≠ i := by
    rintro rfl
    exact hi h
  unfold TypeTable.kind update
  dsimp only
  rw [List.getElem?_modify]
  cases r.types[i]? with
  | none => rfl
  | some ty => exact congrArg GqlType.kind (if_neg hne)

theorem kind_define {r : TypeTable} {t : ℕ} (h : t < r.types.length) (desc : Option Bytes)
    (kind : GqlKind) : (r.update t fun type => { type with desc, kind }).kind t = kind := by
  unfold TypeTable.kind update
  dsimp only
  rw [List.getElem?_modify, List.getElem?_eq_getElem h]
  exact congrArg GqlType.kind (if_pos rfl)

/-- A type that is found has a place. -/
theorem lt_of_typeGet {r : TypeTable} {name : Bytes} {t : ℕ} (h : r.typeGet name = some t) :
    t < r.types.length := by
  unfold typeGet at h
  split_ifs at h
  obtain ⟨hlt, -⟩ := List.findIdx?_eq_some_iff_getElem.mp h
  exact hlt

/-- `type_create` on a name that is not in the registry and has no hash: the type is added and then
destroyed. -/
theorem typeCreate_refused {r : TypeTable} {name : Bytes} (h : r.typeGet name = none)
    (hhash : TypeTable.calcHash name = 0) (kind : GqlKind) (desc : Option Bytes) :
    (typeCreate kind name desc).exec r =
      (.error (errSet .arg (name ++ bytes " is not a valid GraphQL type name.")),
        (r.addType ⟨name, desc, [], kind, false, TypeTable.calcHash name ≠ 0, .unset⟩).typeDestroy
          r.types.length) := by
  unfold typeCreate
  rw [TableM.exec_get, h]
  dsimp only
  rw [if_pos hhash]
  rfl

/-- With a hash the type is added. -/
theorem typeCreate_added {r : TypeTable} {name : Bytes} (h : r.typeGet name = none)
    (hhash : TypeTable.calcHash name ≠ 0) (kind : GqlKind) (desc : Option Bytes) :
    (typeCreate kind name desc).exec r =
      (.ok r.types.length,
        r.addType ⟨name, desc, [], kind, false, TypeTable.calcHash name ≠ 0, .unset⟩) := by
  unfold typeCreate
  rw [TableM.exec_get, h]
  dsimp only
  rw [if_neg hhash]
  rfl

/-- A name that the registry has: its type gets a kind when it has none, and else is refused. -/
theorem typeCreate_some {r : TypeTable} {name : Bytes} {t : ℕ} (h : r.typeGet name = some t)
    (kind : GqlKind) (desc : Option Bytes) :
    r.kind t = .undef ∧ (typeCreate kind name desc).exec r =
        (.ok t, r.update t fun type => { type with desc, kind }) ∨
      ∃ e, (typeCreate kind name desc).exec r = (.error e, r) := by
  unfold typeCreate
  rw [TableM.exec_get, h]
  dsimp only
  by_cases hkind : r.kind t = .undef
  · rw [if_pos hkind]
    exact Or.inl ⟨hkind, rfl⟩
  refine Or.inr ?_
  rw [if_neg hkind]
  split_ifs
  · exact ⟨_, rfl⟩
  · exact ⟨_, rfl⟩
  · exact ⟨_, rfl⟩

/-- `type_create` gives the kind asked for. -/
theorem typeCreate_spec (kind : GqlKind) (name : Bytes) (desc : Option Bytes) (r : TypeTable) :
    (typeCreate kind name desc).GrowsAt r ∧ ∀ t, ((typeCreate kind name desc).exec r).1 = .ok t →
      ((typeCreate kind name desc).exec r).2.kind t = kind := by
  unfold TableM.GrowsAt
  cases hget : r.typeGet name with
  | none =>
    by_cases hhash : TypeTable.calcHash name = 0
    · rw [typeCreate_refused hget hhash]
      exact ⟨(grows_addType _ _).trans (grows_typeDestroy _ _), fun t ht => by cases ht⟩
    · rw [typeCreate_added hget hhash]
      refine ⟨grows_addType _ _, fun t ht => ?_⟩
      obtain rfl := Except.ok.inj ht
      exact kind_addType_new _ _
  | some t =>
    obtain ⟨hundef, hok⟩ | ⟨e, he⟩ := typeCreate_some hget kind desc
    · rw [hok]
      refine ⟨grows_define hundef desc kind, fun t' ht => ?_⟩
      obtain rfl := Except.ok.inj ht
      exact kind_define (lt_of_typeGet hget) desc kind
    · rw [he]
      exact ⟨Grows.refl r, fun t ht => by cases ht⟩

/-- A type is created with the member of its kind. -/
theorem createWith_spec {kind : GqlKind} {m : Member} (hm : kind.member = some m) (members : Members)
    (name : Bytes) (desc : Option Bytes) (r : TypeTable) :
    (createWith kind m members name desc).GrowsAt r ∧
      ∀ t, ((createWith kind m members name desc).exec r).1 = .ok t →
        ((createWith kind m members name desc).exec r).2.kind t = kind := by
  obtain ⟨hgrows, hkind⟩ := typeCreate_spec kind name desc r
  refine ⟨growsAt_bind hgrows fun t ht => ?_, fun t ht => ?_⟩
  · refine growsAt_bind (growsAt_modify (grows_store ?_)) fun _ _ => growsAt_pure t _
    rw [hkind t ht, hm]
  · unfold createWith at ht ⊢
    rw [TableM.exec_bind] at ht ⊢
    cases hc : ((typeCreate kind name desc).exec r).1 with
    | error e =>
      rw [hc] at ht
      cases ht
    | ok t' =>
      rw [hc] at ht
      obtain rfl : t' = t := Except.ok.inj ht
      exact (kind_store _ _ _ _ _).trans (hkind t' hc)

/-- The functions that create types give the kind asked for. -/
theorem gqlCreate_spec (kind : GqlKind) (name : Bytes) (desc : Option Bytes) (r : TypeTable) :
    (gqlCreate kind name desc).GrowsAt r ∧ ∀ t, ((gqlCreate kind name desc).exec r).1 = .ok t →
      ((gqlCreate kind name desc).exec r).2.kind t = kind := by
  cases kind with
  | schema => exact createWith_spec rfl _ _ _ r
  | object => exact createWith_spec rfl _ _ _ r
  | union => exact createWith_spec rfl _ _ _ r
  | enum => exact createWith_spec rfl _ _ _ r
  | input => exact createWith_spec rfl _ _ _ r
  | interface => exact createWith_spec rfl _ _ _ r
  | scalar => exact createWith_spec rfl _ _ _ r
  | undef => exact typeCreate_spec _ _ _ r
  | frag => exact typeCreate_spec _ _ _ r
  | list => exact typeCreate_spec _ _ _ r
  | nonNull => exact typeCreate_spec _ _ _ r

theorem growsAt_assureType (name : Bytes) (r : TypeTable) : (gqlAssureType name).GrowsAt r := by
  refine growsAt_get ?_
  cases r.typeGet name with
  | none => exact (typeCreate_spec .undef name none r).1
  | some t => exact growsAt_pure t r

theorem growsAt_assureAround {kind : GqlKind} (hkind : kind.member = some .base) (name : Bytes)
    (base : ℕ) (r : TypeTable) : (assureAround kind name base).GrowsAt r := by
  refine growsAt_ite (fun _ => growsAt_bind (growsAt_setErr _ _ r) fun _ h => by cases h) fun _ => ?_
  refine growsAt_get ?_
  cases r.typeGet name with
  | none => exact (createWith_spec hkind _ _ _ r).1
  | some t => exact growsAt_pure t r

theorem growsAt_assureList (base : ℕ) (r : TypeTable) : (gqlAssureList base).GrowsAt r :=
  growsAt_get (growsAt_assureAround rfl _ base r)

theorem growsAt_assureNonnull (base : ℕ) (r : TypeTable) : (gqlAssureNonnull base).GrowsAt r :=
  growsAt_get (growsAt_assureAround rfl _ base r)

/-! ## Members -/

theorem growsAt_typeField {t : ℕ} {r : TypeTable} (h : (r.kind t).member = some .fields)
    (name : Bytes) (type : ℕ) (default : Option (GqlValue ℕ)) (desc : Option Bytes)
    (dir : List (DirUse ℕ ℕ)) : (gqlTypeField t name type default desc dir).GrowsAt r := by
  refine growsAt_get (growsAt_bind (growsAt_set ?_) fun _ _ => growsAt_pure _ _)
  refine (grows_access h).trans (grows_update fun owner => ?_)
  split
  · rfl
  · rfl

theorem growsAt_fieldArg (field : ℕ × ℕ) (name : Bytes) (type : ℕ) (desc : Option Bytes)
    (default : Option (GqlValue ℕ)) (r : TypeTable) :
    (gqlFieldArg field name type desc default).GrowsAt r := by
  refine growsAt_modify (grows_update fun owner => ?_)
  split
  · rfl
  · rfl

theorem growsAt_inputArg {t : ℕ} {r : TypeTable} (h : (r.kind t).member = some .args) (name : Bytes)
    (type : ℕ) (desc : Option Bytes) (default : Option (GqlValue ℕ)) (dir : List (DirUse ℕ ℕ)) :
    (gqlInputArg t name type desc default dir).GrowsAt r := by
  refine growsAt_modify ((grows_access h).trans (grows_update fun owner => ?_))
  split
  · rfl
  · rfl

theorem growsAt_unionAdd {t : ℕ} {r : TypeTable} (h : (r.kind t).member = some .types) (member : ℕ) :
    (gqlUnionAdd t member).GrowsAt r := by
  refine growsAt_modify ((grows_access h).trans (grows_update fun owner => ?_))
  split
  · rfl
  · rfl

theorem grows_addInterface {t : ℕ} {r : TypeTable} (h : (r.kind t).member = some .fields)
    (interface : ℕ) : Grows r (addInterface t interface r) := by
  refine (grows_access h).trans (grows_update fun owner => ?_)
  split
  · rfl
  · rfl

theorem growsAt_enumAppend {t : ℕ} {r : TypeTable} (h : (r.kind t).member = some .choices)
    (value : Bytes) (len : ℕ) (desc : Option Bytes) (dir : List (DirUse ℕ ℕ)) :
    (gqlEnumAppend t value len desc dir).GrowsAt r := by
  refine growsAt_get (growsAt_bind (growsAt_set (grows_access h)) fun _ _ => ?_)
  refine growsAt_ite (fun _ => growsAt_bind (growsAt_setErr _ _ _) fun _ h => by cases h) fun _ => ?_
  refine growsAt_set (grows_update fun owner => ?_)
  split
  · rfl
  · rfl

/-! ## Directives -/

theorem growsAt_assureDirective (name : Bytes) (r : TypeTable) :
    (assureDirective name).GrowsAt r := by
  refine growsAt_get ?_
  cases r.directiveGet name with
  | some d => exact growsAt_pure d r
  | none =>
    exact growsAt_bind (growsAt_set (grows_addDir r _)) fun _ _ => growsAt_pure _ _

theorem growsAt_directiveCreate (name : Bytes) (desc : Option Bytes) (r : TypeTable) :
    (gqlDirectiveCreate name desc).GrowsAt r := by
  refine growsAt_get ?_
  cases r.directiveGet name with
  | some d => exact growsAt_bind (growsAt_set (grows_updateDir r d _)) fun _ _ => growsAt_pure d _
  | none => exact growsAt_bind (growsAt_set (grows_addDir r _)) fun _ _ => growsAt_pure _ _

theorem growsAt_dirArg (d : ℕ) (name : Bytes) (type : ℕ) (desc : Option Bytes)
    (default : Option (GqlValue ℕ)) (r : TypeTable) :
    (gqlDirArg d name type desc default).GrowsAt r := growsAt_modify (grows_updateDir r d _)

theorem growsAt_directiveOn (d : ℕ) (loc : Bytes) (r : TypeTable) :
    (gqlDirectiveOn d loc).GrowsAt r := growsAt_modify (grows_updateDir r d _)

end Agoo
