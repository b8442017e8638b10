import Agoo.TypeTableGrows

/-!
# What calls add to types

`OnlyAdds t r r'`: from `r` to `r'` the type `t` keeps what it has, in order and unchanged, and more may
follow; no other type changes, and new types come behind those there. Every call of `graphql.c` that
`sdl_parse` makes in an extension of `t` does that, except that the uses of directives of an enum are set.
-/

namespace Agoo

open TypeTable

variable {α : Type}

/-! ## Types that only get more -/

/-- The members in the first are the first ones in the second. -/
inductive Members.Adds : Members → Members → Prop
  | same (m : Members) : Members.Adds m m
  | fields {fs fs' : List GqlField} {is is' : List ℕ} (hf : fs <+: fs') (hi : is <+: is') :
      Members.Adds (.fields fs is) (.fields fs' is')
  | types {ts ts' : List ℕ} (h : ts <+: ts') : Members.Adds (.types ts) (.types ts')
  | choices {cs cs' : List GqlEnumVal} (h : cs <+: cs') : Members.Adds (.choices cs) (.choices cs')
  | args {as as' : List GqlArg} (h : as <+: as') : Members.Adds (.args as) (.args as')

theorem Members.Adds.trans {m m' m'' : Members} (h : m.Adds m') (h' : m'.Adds m'') : m.Adds m'' := by
  cases h with
  | same => exact h'
  | fields hf hi =>
    cases h' with
    | same => exact .fields hf hi
    | fields hf' hi' => exact .fields (hf.trans hf') (hi.trans hi')
  | types h =>
    cases h' with
    | same => exact .types h
    | types h' => exact .types (h.trans h')
  | choices h =>
    cases h' with
    | same => exact .choices h
    | choices h' => exact .choices (h.trans h')
  | args h =>
    cases h' with
    | same => exact .args h
    | args h' => exact .args (h.trans h')

/-- A type keeps what it has, and may get more. -/
structure GqlType.Adds (a b : GqlType) : Prop where
  name : b.name = a.name
  desc : b.desc = a.desc
  kind : b.kind = a.kind
  core : b.core = a.core
  slot : b.slot = a.slot
  dir : a.dir <+: b.dir
  members : a.members.Adds b.members

theorem GqlType.Adds.refl (a : GqlType) : a.Adds a :=
  ⟨rfl, rfl, rfl, rfl, rfl, List.prefix_rfl, .same _⟩

theorem GqlType.Adds.trans {a b c : GqlType} (h : a.Adds b) (h' : b.Adds c) : a.Adds c where
  name := h'.name.trans h.name
  desc := h'.desc.trans h.desc
  kind := h'.kind.trans h.kind
  core := h'.core.trans h.core
  slot := h'.slot.trans h.slot
  dir := h.dir.trans h'.dir
  members := h.members.trans h'.members

/-- More members. -/
theorem GqlType.Adds.of_members (a : GqlType) {members : Members} (h : a.members.Adds members) :
    a.Adds { a with members } := ⟨rfl, rfl, rfl, rfl, rfl, List.prefix_rfl, h⟩

/-- The type `t` only gets more, and no other type changes. -/
structure OnlyAdds (t : ℕ) (r r' : TypeTable) : Prop where
  others : ∀ i a, i ≠ t → r.types[i]? = some a → r'.types[i]? = some a
  type : ∀ a, r.types[t]? = some a → ∃ b, r'.types[t]? = some b ∧ a.Adds b

theorem OnlyAdds.trans {t : ℕ} {r r' r'' : TypeTable} (h : OnlyAdds t r r') (h' : OnlyAdds t r' r'') :
    OnlyAdds t r r'' := by
  refine ⟨fun i a hi ha => h'.others i a hi (h.others i a hi ha), fun a ha => ?_⟩
  obtain ⟨b, hb, hab⟩ := h.type a ha
  obtain ⟨c, hc, hbc⟩ := h'.type b hb
  exact ⟨c, hc, hab.trans hbc⟩

/-- New types come behind those there. -/
theorem onlyAdds_of_prefix {r r' : TypeTable} (h : r.types <+: r'.types) (t : ℕ) : OnlyAdds t r r' := by
  obtain ⟨more, hmore⟩ := h
  have hget : ∀ i a, r.types[i]? = some a → r'.types[i]? = some a := fun i a ha => by
    obtain ⟨hlt, -⟩ := List.getElem?_eq_some_iff.mp ha
    rw [← hmore, List.getElem?_append_left hlt, ha]
  exact ⟨fun i a _ => hget i a, fun a ha => ⟨a, hget t a ha, GqlType.Adds.refl a⟩⟩

theorem OnlyAdds.refl (t : ℕ) (r : TypeTable) : OnlyAdds t r r := onlyAdds_of_prefix List.prefix_rfl t

theorem onlyAdds_of_types {r q : TypeTable} (h : q.types = r.types) (t : ℕ) : OnlyAdds t r q :=
  onlyAdds_of_prefix (h ▸ List.prefix_rfl) t

/-- The type at another place. -/
theorem getElem?_update_ne {r : TypeTable} {t i : ℕ} (h : i ≠ t) (f : GqlType → GqlType) :
    (r.update t f).types[i]? = r.types[i]? := List.getElem?_modify_ne f r.types h.symm

theorem getElem?_update_self (r : TypeTable) (t : ℕ) (f : GqlType → GqlType) :
    (r.update t f).types[t]? = r.types[t]?.map f := List.getElem?_modify_eq f t r.types

theorem onlyAdds_update {r : TypeTable} {t : ℕ} {f : GqlType → GqlType}
    (h : ∀ a, r.types[t]? = some a → a.Adds (f a)) : OnlyAdds t r (r.update t f) := by
  refine ⟨fun i a hi ha => (getElem?_update_ne hi f).trans ha, fun a ha => ⟨f a, ?_, h a ha⟩⟩
  rw [getElem?_update_self, ha]
  rfl

/-! ## Calls that make types -/

/-- Types are the same up to one that may be put at the end. -/
def NewType (P : GqlType → Prop) (r r' : TypeTable) : Prop :=
  r'.types = r.types ∨ ∃ a, r'.types = r.types ++ [a] ∧ P a

theorem NewType.isPrefix {P : GqlType → Prop} {r r' : TypeTable} (h : NewType P r r') :
    r.types <+: r'.types := by
  obtain h | ⟨a, h, -⟩ := h
  · exact h ▸ List.prefix_rfl
  · exact h ▸ List.prefix_append _ _

/-- A type that was put at the end is changed. -/
theorem update_concat {r q : TypeTable} {a : GqlType} (h : q.types = r.types ++ [a])
    (f : GqlType → GqlType) : (q.update r.types.length f).types = r.types ++ [f a] := by
  unfold update
  dsimp only
  rw [h, List.modify_eq_take_cons_drop (by simp)]
  simp

theorem store_concat {r q : TypeTable} {a : GqlType} (h : q.types = r.types ++ [a]) (m : Member)
    (members : Members) :
    (q.store r.types.length m members).types = r.types ++ [{ a with members }] :=
  update_concat (q := q.access r.types.length m) h _

/-- A type at the end is cleaned. -/
theorem typeClean_concat {r q : TypeTable} {a : GqlType} (h : q.types = r.types ++ [a]) :
    ∃ b, (q.typeClean r.types.length).types = r.types ++ [b] ∧ b.slot = a.slot := by
  have hclear := update_concat h fun type => { type with desc := none, dir := [] }
  unfold typeClean
  dsimp only
  generalize q.update r.types.length (fun type => { type with desc := none, dir := [] }) = q' at hclear
  cases q'.kind r.types.length with
  | schema => exact ⟨_, store_concat hclear _ _, rfl⟩
  | object => exact ⟨_, store_concat hclear _ _, rfl⟩
  | interface => exact ⟨_, store_concat hclear _ _, rfl⟩
  | input => exact ⟨_, store_concat hclear _ _, rfl⟩
  | union => exact ⟨_, store_concat hclear _ _, rfl⟩
  | enum => exact ⟨_, store_concat hclear _ _, rfl⟩
  | undef => exact ⟨_, hclear, rfl⟩
  | frag => exact ⟨_, hclear, rfl⟩
  | scalar => exact ⟨_, hclear, rfl⟩
  | list => exact ⟨_, hclear, rfl⟩
  | nonNull => exact ⟨_, hclear, rfl⟩

/-- A type with a name that is not in the registry: it is put at the end, or is refused and left there
without a slot. -/
theorem typeCreate_new {r : TypeTable} {name : Bytes} (h : r.typeGet name = none) (kind : GqlKind)
    (desc : Option Bytes) :
    TypeTable.calcHash name ≠ 0 ∧ (typeCreate kind name desc).exec r =
        (.ok r.types.length, r.addType ⟨name, desc, [], kind, false, true, .unset⟩) ∨
      TypeTable.calcHash name = 0 ∧ (∃ e, ((typeCreate kind name desc).exec r).1 = .error e) ∧
        NewType (fun a => a.slot = false) r ((typeCreate kind name desc).exec r).2 := by
  by_cases hhash : TypeTable.calcHash name = 0
  · let r₁ := r.addType ⟨name, desc, [], kind, false, TypeTable.calcHash name ≠ 0, .unset⟩
    have hlast : r₁.types[r.types.length]? =
        some ⟨name, desc, [], kind, false, TypeTable.calcHash name ≠ 0, .unset⟩ :=
      List.getElem?_concat_length
    have hname : r₁.name r.types.length = name := by
      unfold TypeTable.name
      rw [hlast]
      rfl
    have hnone : r₁.typeGet name = none := by
      unfold typeGet
      rw [if_pos hhash]
    have hremove : r₁.typeRemove r.types.length = r₁ := by
      unfold typeRemove
      rw [hname, hnone]
    have hstatic : r₁.static r.types.length = false := by
      unfold TypeTable.static
      rw [hlast]
      exact decide_eq_false fun h => Bool.false_ne_true h.2
    obtain ⟨b, hb, hslot⟩ := typeClean_concat (r := r) (q := r₁) rfl
    rw [typeCreate_refused h hhash]
    refine Or.inr ⟨hhash, ⟨_, rfl⟩, Or.inr ⟨b, ?_, ?_⟩⟩
    · unfold typeDestroy
      dsimp only
      rw [hremove, hstatic]
      exact hb
    · exact hslot.trans (decide_eq_false (not_not_intro hhash))
  · refine Or.inl ⟨hhash, ?_⟩
    rw [typeCreate_added h hhash, decide_eq_true hhash]

/-- The same for a type with its member. -/
theorem createWith_new {r : TypeTable} {name : Bytes} (h : r.typeGet name = none) (kind : GqlKind)
    (m : Member) (members : Members) (desc : Option Bytes) :
    TypeTable.calcHash name ≠ 0 ∧
        ((createWith kind m members name desc).exec r).1 = .ok r.types.length ∧
        ((createWith kind m members name desc).exec r).2.types =
          r.types ++ [⟨name, desc, [], kind, false, true, members⟩] ∨
      TypeTable.calcHash name = 0 ∧ (∃ e, ((createWith kind m members name desc).exec r).1 = .error e) ∧
        NewType (fun a => a.slot = false) r ((createWith kind m members name desc).exec r).2 := by
  unfold createWith
  rw [TableM.exec_bind]
  obtain ⟨hhash, hok⟩ | ⟨hhash, ⟨e, he⟩, hnew⟩ := typeCreate_new h kind desc
  · rw [hok]
    have hstore := store_concat (r := r) (q := r.addType ⟨name, desc, [], kind, false, true, .unset⟩)
      rfl m members
    exact Or.inl ⟨hhash, rfl, hstore⟩
  · rw [he]
    exact Or.inr ⟨hhash, ⟨e, rfl⟩, hnew⟩

/-- The new type is found by its name. -/
theorem typeGet_concat {r r' : TypeTable} {a : GqlType} (h : r'.types = r.types ++ [a])
    (hslot : a.slot = true) (hhash : TypeTable.calcHash a.name ≠ 0) (hnone : r.typeGet a.name = none) :
    r'.typeGet a.name = some r.types.length := by
  unfold typeGet at hnone ⊢
  rw [if_neg hhash] at hnone ⊢
  rw [h, List.findIdx?_append, hnone]
  simp [hslot]

theorem exec_assureType {r : TypeTable} {name : Bytes} {t : ℕ} (h : r.typeGet name = some t) :
    (gqlAssureType name).exec r = (.ok t, r) := by
  unfold gqlAssureType
  rw [TableM.exec_get, h]
  rfl

theorem exec_assureType_none {r : TypeTable} {name : Bytes} (h : r.typeGet name = none) :
    (gqlAssureType name).exec r = (typeCreate .undef name none).exec r := by
  unfold gqlAssureType
  rw [TableM.exec_get, h]

theorem exec_assureAround_long {name : Bytes} (h : 256 ≤ name.length) (kind : GqlKind) (base : ℕ)
    (r : TypeTable) :
    (assureAround kind name base).exec r = (.error (errSet .arg (bytes "Name too long")), r) := by
  unfold assureAround
  rw [if_pos h]
  rfl

theorem exec_assureAround {r : TypeTable} {name : Bytes} {t : ℕ} (hlen : ¬ 256 ≤ name.length)
    (h : r.typeGet name = some t) (kind : GqlKind) (base : ℕ) :
    (assureAround kind name base).exec r = (.ok t, r) := by
  unfold assureAround
  rw [if_neg hlen, TableM.exec_bind]
  change (((get : TableM TypeTable) >>= _).exec r) = _
  rw [TableM.exec_get, h]
  rfl

theorem exec_assureAround_none {r : TypeTable} {name : Bytes} (hlen : ¬ 256 ≤ name.length)
    (h : r.typeGet name = none) (kind : GqlKind) (base : ℕ) :
    (assureAround kind name base).exec r = (createWith kind .base (.base base) name none).exec r := by
  unfold assureAround
  rw [if_neg hlen, TableM.exec_bind]
  change (((get : TableM TypeTable) >>= _).exec r) = _
  rw [TableM.exec_get, h]

/-- What a call for a name leaves: at most the type `a` is new, and the type it answers has the name. -/
structure Assures (name : Bytes) (a : GqlType) (r : TypeTable) (q : Except Err ℕ × TypeTable) : Prop where
  new : NewType (fun b => b.slot = true → b = a ∧ TypeTable.calcHash name ≠ 0 ∧ r.typeGet name = none)
    r q.2
  found : ∀ t, q.1 = .ok t → q.2.typeGet name = some t

/-- A call for a name that the registry has. -/
theorem assures_some {r : TypeTable} {name : Bytes} {t : ℕ} (h : r.typeGet name = some t) (a : GqlType) :
    Assures name a r (.ok t, r) := by
  refine ⟨Or.inl rfl, fun t' ht' => ?_⟩
  obtain rfl := Except.ok.inj ht'
  exact h

theorem assures_error (name : Bytes) (a : GqlType) {r r' : TypeTable} (e : Err)
    (h : NewType (fun b => b.slot = false) r r') : Assures name a r (.error e, r') := by
  refine ⟨h.imp id fun ⟨b, hb, hslot⟩ => ⟨b, hb, fun hs => ?_⟩, fun t ht => by cases ht⟩
  exact absurd (hslot.symm.trans hs) Bool.false_ne_true

theorem assures_new {r r' : TypeTable} {a : GqlType} (hnone : r.typeGet a.name = none)
    (hhash : TypeTable.calcHash a.name ≠ 0) (hslot : a.slot = true) (h : r'.types = r.types ++ [a]) :
    Assures a.name a r (.ok r.types.length, r') := by
  refine ⟨Or.inr ⟨a, h, fun _ => ⟨rfl, hhash, hnone⟩⟩, fun t ht => ?_⟩
  obtain rfl := Except.ok.inj ht
  exact typeGet_concat h hslot hhash hnone

/-- `gql_assure_type` puts a type without a kind at the end when there is none of the name. -/
theorem assures_type (name : Bytes) (r : TypeTable) :
    Assures name ⟨name, none, [], .undef, false, true, .unset⟩ r ((gqlAssureType name).exec r) := by
  cases hget : r.typeGet name with
  | some t =>
    rw [exec_assureType hget]
    exact assures_some hget _
  | none =>
    rw [exec_assureType_none hget]
    obtain ⟨hhash, hok⟩ | ⟨-, ⟨e, he⟩, hnew⟩ := typeCreate_new hget .undef none
    · rw [hok]
      exact assures_new (a := ⟨name, none, [], .undef, false, true, .unset⟩) hget hhash rfl rfl
    · have := assures_error name ⟨name, none, [], .undef, false, true, .unset⟩ e hnew
      rwa [← he] at this

/-- `gql_assure_list` and `gql_assure_nonnull` put a type around `base` at the end. -/
theorem assures_around (kind : GqlKind) (name : Bytes) (base : ℕ) (r : TypeTable) :
    Assures name ⟨name, none, [], kind, false, true, .base base⟩ r
      ((assureAround kind name base).exec r) := by
  by_cases hlong : 256 ≤ name.length
  · rw [exec_assureAround_long hlong]
    exact assures_error _ _ _ (Or.inl rfl)
  cases hget : r.typeGet name with
  | some t =>
    rw [exec_assureAround hlong hget]
    exact assures_some hget _
  | none =>
    rw [exec_assureAround_none hlong hget]
    obtain ⟨hhash, hok, hnew⟩ | ⟨-, ⟨e, he⟩, hnew⟩ :=
      createWith_new hget kind .base (.base base) none
    · have := assures_new (a := ⟨name, none, [], kind, false, true, .base base⟩) hget hhash rfl hnew
      rwa [← hok] at this
    · have := assures_error name ⟨name, none, [], kind, false, true, .base base⟩ e hnew
      rwa [← he] at this

theorem Assures.isPrefix {name : Bytes} {a : GqlType} {r : TypeTable} {q : Except Err ℕ × TypeTable}
    (h : Assures name a r q) : r.types <+: q.2.types := h.new.isPrefix

/-- Directives are no types. -/
theorem types_assureDirective (name : Bytes) (r : TypeTable) :
    ((assureDirective name).exec r).2.types = r.types := by
  unfold assureDirective
  rw [TableM.exec_get]
  cases r.directiveGet name with
  | some d => rfl
  | none => rfl

theorem types_directiveCreate (name : Bytes) (desc : Option Bytes) (r : TypeTable) :
    ((gqlDirectiveCreate name desc).exec r).2.types = r.types := by
  unfold gqlDirectiveCreate
  rw [TableM.exec_get]
  cases r.directiveGet name with
  | some d => rfl
  | none => rfl

/-! ## Calls that add to a type -/

section Members

variable {t : ℕ} (r : TypeTable)

/-- The member that a call is for is accessed. -/
theorem onlyAdds_access (m : Member) : OnlyAdds t r (r.access t m) :=
  onlyAdds_of_types (r := r) (q := r.access t m) rfl t

theorem onlyAdds_typeAddDir (use : DirUse ℕ ℕ) :
    OnlyAdds t r (r.update t fun type => { type with dir := type.dir ++ [use] }) :=
  onlyAdds_update fun _ _ => ⟨rfl, rfl, rfl, rfl, rfl, List.prefix_append _ _, .same _⟩

theorem onlyAdds_typeField (name : Bytes) (type : ℕ) (default : Option (GqlValue ℕ))
    (desc : Option Bytes) (dir : List (DirUse ℕ ℕ)) :
    OnlyAdds t r ((gqlTypeField t name type default desc dir).exec r).2 := by
  refine (onlyAdds_access r .fields).trans (onlyAdds_update fun a _ => ?_)
  split
  · next fs is h =>
    refine GqlType.Adds.of_members a ?_
    rw [h]
    exact .fields (List.prefix_append _ _) List.prefix_rfl
  · exact GqlType.Adds.refl a

/-- The place of a new field is behind those there. -/
theorem typeField_place {name : Bytes} {type : ℕ} {default : Option (GqlValue ℕ)} {desc : Option Bytes}
    {dir : List (DirUse ℕ ℕ)} {field : ℕ × ℕ}
    (h : ((gqlTypeField t name type default desc dir).exec r).1 = .ok field) :
    field = (t, (r.fields t).length) := (Except.ok.inj h).symm

theorem onlyAdds_inputArg (name : Bytes) (type : ℕ) (desc : Option Bytes)
    (default : Option (GqlValue ℕ)) (dir : List (DirUse ℕ ℕ)) :
    OnlyAdds t r ((gqlInputArg t name type desc default dir).exec r).2 := by
  refine (onlyAdds_access r .args).trans (onlyAdds_update fun a _ => ?_)
  split
  · next as h =>
    refine GqlType.Adds.of_members a ?_
    rw [h]
    exact .args (List.prefix_append _ _)
  · exact GqlType.Adds.refl a

theorem onlyAdds_unionAdd (member : ℕ) : OnlyAdds t r ((gqlUnionAdd t member).exec r).2 := by
  refine (onlyAdds_access r .types).trans (onlyAdds_update fun a _ => ?_)
  split
  · next ts h =>
    refine GqlType.Adds.of_members a ?_
    rw [h]
    exact .types (List.prefix_append _ _)
  · exact GqlType.Adds.refl a

theorem onlyAdds_addInterface (interface : ℕ) : OnlyAdds t r (addInterface t interface r) := by
  refine (onlyAdds_access r .fields).trans (onlyAdds_update fun a _ => ?_)
  split
  · next fs is h =>
    refine GqlType.Adds.of_members a ?_
    rw [h]
    exact .fields List.prefix_rfl (List.prefix_append _ _)
  · exact GqlType.Adds.refl a

/-- `gql_enum_append` puts choices at the end at most. -/
theorem enumAppend_update (value : Bytes) (len : ℕ) (desc : Option Bytes) (dir : List (DirUse ℕ ℕ)) :
    ∃ f : GqlType → GqlType, (∀ a, f a = a ∨ ∃ cs more, a.members = .choices cs ∧
        f a = { a with members := .choices (cs ++ more) }) ∧
      ((gqlEnumAppend t value len desc dir).exec r).2.types = (r.update t f).types := by
  have hset : ∀ (q : TypeTable) (f : PUnit → TableM Unit),
      ((set q : TableM PUnit) >>= f).exec r = (f ⟨⟩).exec q := fun _ _ => rfl
  unfold gqlEnumAppend
  rw [TableM.exec_get, hset]
  by_cases hany : ((r.access t .choices).choices t).any (·.value == value) = true
  · rw [if_pos hany]
    exact ⟨id, fun a => Or.inl rfl, (List.modify_id t r.types).symm⟩
  · rw [if_neg hany]
    refine ⟨_, fun a => ?_, rfl⟩
    split
    · next cs h => exact Or.inr ⟨cs, _, h, rfl⟩
    · exact Or.inl rfl

/-- The first members stay where a later one is changed. -/
theorem prefix_modify {β : Type} {xs ys : List β} (h : xs <+: ys) {i : ℕ} (hi : xs.length ≤ i)
    (f : β → β) : xs <+: ys.modify i f := by
  rw [List.prefix_iff_eq_take] at h ⊢
  rw [List.take_modify, ← h, List.modify_eq_self hi]

theorem OnlyAdds.fields_le {r r' : TypeTable} (h : OnlyAdds t r r') :
    (r.fields t).length ≤ (r'.fields t).length := by
  unfold TypeTable.fields TypeTable.members
  cases ha : r.types[t]? with
  | none => exact Nat.zero_le _
  | some a =>
    obtain ⟨b, hb, hab⟩ := h.type a ha
    rw [hb]
    have hmembers := hab.members
    dsimp only [Option.map_some, Option.getD_some]
    generalize a.members = m, b.members = m' at hmembers
    cases hmembers with
    | same => exact Nat.le_refl _
    | fields hf hi => exact hf.length_le
    | types h => exact Nat.le_refl _
    | choices h => exact Nat.le_refl _
    | args h => exact Nat.le_refl _

/-- An argument of a field behind those that were there is put at its end. -/
theorem onlyAdds_fieldArg {r₀ : TypeTable} (h : OnlyAdds t r₀ r) {place : ℕ}
    (hplace : (r₀.fields t).length ≤ place) (name : Bytes) (type : ℕ) (desc : Option Bytes)
    (default : Option (GqlValue ℕ)) :
    OnlyAdds t r₀ ((gqlFieldArg (t, place) name type desc default).exec r).2 := by
  refine ⟨fun i a hi ha => (getElem?_update_ne hi _).trans (h.others i a hi ha), fun a ha => ?_⟩
  obtain ⟨b, hb, hab⟩ := h.type a ha
  refine ⟨_, (getElem?_update_self r t _).trans (congrArg _ hb), ?_⟩
  dsimp only
  split
  · next fs is hfields =>
    have hmembers := hab.members
    rw [hfields] at hmembers
    have hold : ∀ fs₀ is₀, a.members = .fields fs₀ is₀ → fs₀.length ≤ place := by
      intro fs₀ is₀ hm
      unfold TypeTable.fields TypeTable.members at hplace
      rw [ha, Option.map_some, Option.getD_some, hm] at hplace
      exact hplace
    refine { hab with members := ?_ }
    generalize a.members = m at hmembers hold
    cases hmembers with
    | same => exact .fields (prefix_modify List.prefix_rfl (hold _ _ rfl) _) List.prefix_rfl
    | fields hf hi => exact .fields (prefix_modify hf (hold _ _ rfl) _) hi
  · exact hab

end Members

end Agoo
