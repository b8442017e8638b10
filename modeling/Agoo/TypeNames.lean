import Agoo.SdlDestroy

/-!
# Names of list and non-null types

The type around another has that one's name in its own, and was made after it. Definitions give a kind
only to types that had none, so they never make or unmake a type around another.

`Reached.named`: **in the registry after any texts, whether they were accepted or not, every list and
non-null type is named by the type in it, and following them down ends.**
-/

namespace Agoo

open Agoo.Parser Scanner TypeTable TypeRefs

variable {text : Bytes} {α β : Type}

namespace TypeNames

/-- The kinds of types around another. -/
def wrappers : List GqlKind := [.list, .nonNull]

/-- The name of a type around one of the name. -/
def around (kind : GqlKind) (name : Bytes) : Bytes :=
  if kind = .list then bytes "[" ++ name ++ bytes "]" else name ++ bytes "!"

/-- If the type is of such a kind, there is one in it. -/
def Whole (r : TypeTable) (t : ℕ) : Prop :=
  ∀ a, r.types[t]? = some a → a.kind ∈ wrappers → ∃ c, a.members = .base c

/-- Types around others come behind them and have their names, and only those are of such kinds. -/
structure Named (r : TypeTable) : Prop where
  sound : Sound r
  base : ∀ (u : ℕ) (a : GqlType) (c : ℕ), r.types[u]? = some a → a.members = .base c →
    a.kind ∈ wrappers ∧ c < u ∧ a.name = around a.kind (r.name c) ∧ Whole r c
  whole : ∀ u, Alive r u → Whole r u

/-! ## What a call may do -/

/-- A type stays around the same type, or around none. -/
structure Same (a b : GqlType) : Prop where
  name : b.name = a.name
  slot : b.slot = true → a.slot = true
  kind : a.kind ∈ wrappers ∨ b.kind ∈ wrappers → b.kind = a.kind
  base : ∀ c, b.members = .base c ↔ a.members = .base c
  unset : b.slot = true → (a.kind = .undef → a.members = .unset) → b.kind = .undef → b.members = .unset

/-- A new type: with a slot it has a new name, and around another it has that one's name. -/
structure Fresh (r : TypeTable) (b : GqlType) : Prop where
  slot : b.slot = true → TypeTable.calcHash b.name ≠ 0 ∧ r.typeGet b.name = none ∧
    (b.kind = .undef → b.members = .unset) ∧ (b.kind ∈ wrappers → ∃ c, b.members = .base c)
  base : ∀ c, b.members = .base c →
    b.kind ∈ wrappers ∧ c < r.types.length ∧ b.name = around b.kind (r.name c) ∧ Whole r c

/-- Types stay what they are around, and at most one is new. -/
structure Evolves (r q : TypeTable) : Prop where
  old : ∀ (u : ℕ) (a : GqlType), r.types[u]? = some a → ∃ b, q.types[u]? = some b ∧ Same a b
  new : ∀ (u : ℕ) (b : GqlType), q.types[u]? = some b → r.types[u]? = none →
    u = r.types.length ∧ Fresh r b

theorem Same.refl (a : GqlType) : Same a a :=
  ⟨rfl, fun h => h, fun _ => rfl, fun _ => Iff.rfl, fun _ h => h⟩

variable {r q : TypeTable}

theorem Evolves.lt (h : Evolves r q) {u : ℕ} (hu : u < r.types.length) : u < q.types.length := by
  obtain ⟨b, hb, -⟩ := h.old u _ (List.getElem?_eq_getElem hu)
  exact (List.getElem?_eq_some_iff.mp hb).1

/-- A type after the call is one from before or new. -/
theorem Evolves.cases (h : Evolves r q) {u : ℕ} {b : GqlType} (hb : q.types[u]? = some b) :
    (∃ a, r.types[u]? = some a ∧ Same a b) ∨ u = r.types.length ∧ Fresh r b := by
  cases ha : r.types[u]? with
  | none => exact Or.inr (h.new u b hb ha)
  | some a =>
    obtain ⟨b', hb', hab⟩ := h.old u a ha
    obtain rfl := Option.some.inj (hb.symm.trans hb')
    exact Or.inl ⟨a, rfl, hab⟩

theorem Evolves.name (h : Evolves r q) {u : ℕ} (hu : u < r.types.length) : q.name u = r.name u := by
  have ha := List.getElem?_eq_getElem hu
  obtain ⟨b, hb, hab⟩ := h.old u _ ha
  unfold TypeTable.name
  rw [ha, hb]
  exact hab.name

theorem Evolves.whole (h : Evolves r q) {u : ℕ} (hu : u < r.types.length) (hw : Whole r u) : Whole q u := by
  intro b hb hkind
  have ha := List.getElem?_eq_getElem hu
  obtain ⟨b', hb', hab⟩ := h.old u _ ha
  obtain rfl := Option.some.inj (hb.symm.trans hb')
  obtain ⟨c, hc⟩ := hw _ ha (hab.kind (Or.inr hkind) ▸ hkind)
  exact ⟨c, (hab.base c).mpr hc⟩

theorem Evolves.sound (h : Evolves r q) (hr : Sound r) : Sound q := by
  have hnew : ∀ {u : ℕ} {a b c : GqlType}, r.types[u]? = some a → Same a b → Fresh r c → b.slot = true →
      c.slot = true → b.name ≠ c.name := by
    intro u a b c ha hab hc hb hcs hname
    obtain ⟨-, hnone, -⟩ := hc.slot hcs
    rw [← hname, hab.name, hr.typeGet ha (hab.slot hb)] at hnone
    cases hnone
  refine ⟨fun u b hb hslot => ?_, fun u v b c hb hc hbs hcs hname => ?_, fun u b hb hslot hkind => ?_⟩
  · rcases h.cases hb with ⟨a, ha, hab⟩ | ⟨-, hfresh⟩
    · rw [hab.name]
      exact hr.hash u a ha (hab.slot hslot)
    · exact (hfresh.slot hslot).1
  · rcases h.cases hb with ⟨a, ha, hab⟩ | ⟨hu, hfresh⟩
    · rcases h.cases hc with ⟨a', ha', hac⟩ | ⟨-, hfresh⟩
      · exact hr.unique u v a a' ha ha' (hab.slot hbs) (hac.slot hcs)
          (hab.name.symm.trans (hname.trans hac.name))
      · exact absurd hname (hnew ha hab hfresh hbs hcs)
    · rcases h.cases hc with ⟨a', ha', hac⟩ | ⟨hv, -⟩
      · exact absurd hname.symm (hnew ha' hac hfresh hcs hbs)
      · exact hu.trans hv.symm
  · rcases h.cases hb with ⟨a, ha, hab⟩ | ⟨-, hfresh⟩
    · exact hab.unset hslot (hr.unset u a ha (hab.slot hslot)) hkind
    · exact (hfresh.slot hslot).2.2.1 hkind

/-- **What a call may do keeps the names.** -/
theorem Named.evolves (hr : Named r) (h : Evolves r q) : Named q := by
  refine ⟨h.sound hr.sound, fun u b c hb hc => ?_, fun u hu => ?_⟩
  · rcases h.cases hb with ⟨a, ha, hab⟩ | ⟨rfl, hfresh⟩
    · obtain ⟨hkind, hlt, hname, hwhole⟩ := hr.base u a c ha ((hab.base c).mp hc)
      have hcu := hlt.trans (List.getElem?_eq_some_iff.mp ha).1
      rw [hab.kind (Or.inl hkind), hab.name, h.name hcu]
      exact ⟨hkind, hlt, hname, h.whole hcu hwhole⟩
    · obtain ⟨hkind, hlt, hname, hwhole⟩ := hfresh.base c hc
      rw [h.name hlt]
      exact ⟨hkind, hlt, hname, h.whole hlt hwhole⟩
  · obtain ⟨b, hb, hslot⟩ := hu
    rcases h.cases hb with ⟨a, ha, hab⟩ | ⟨rfl, hfresh⟩
    · exact h.whole (List.getElem?_eq_some_iff.mp ha).1 (hr.whole u ⟨a, ha, hab.slot hslot⟩)
    · intro b' hb' hkind
      obtain rfl := Option.some.inj (hb.symm.trans hb')
      exact (hfresh.slot hslot).2.2.2 hkind

theorem evolves_of_types (h : q.types = r.types) : Evolves r q := by
  refine ⟨fun u a ha => ⟨a, h ▸ ha, Same.refl a⟩, fun u b hb hu => ?_⟩
  rw [h, hu] at hb
  cases hb

theorem evolves_update {t : ℕ} {f : GqlType → GqlType} (hq : q.types = (r.update t f).types)
    (h : ∀ a, r.types[t]? = some a → Same a (f a)) : Evolves r q := by
  refine ⟨fun u a ha => ?_, fun u b hb hu => ?_⟩
  · rw [hq]
    by_cases hut : u = t
    · subst hut
      refine ⟨f a, ?_, h a ha⟩
      rw [getElem?_update_self, ha]
      rfl
    · exact ⟨a, (getElem?_update_ne hut f).trans ha, Same.refl a⟩
  · rw [hq] at hb
    by_cases hut : u = t
    · subst hut
      rw [getElem?_update_self, hu] at hb
      cases hb
    · rw [getElem?_update_ne hut, hu] at hb
      cases hb

theorem evolves_concat {b : GqlType} (hq : q.types = r.types ++ [b]) (h : Fresh r b) : Evolves r q := by
  refine ⟨fun u a ha => ⟨a, ?_, Same.refl a⟩, fun u c hc hu => ?_⟩
  · rw [hq, List.getElem?_append_left (List.getElem?_eq_some_iff.mp ha).1, ha]
  · have hle : r.types.length ≤ u := List.getElem?_eq_none_iff.mp hu
    have hlt : u < q.types.length := (List.getElem?_eq_some_iff.mp hc).1
    rw [hq, List.length_append, List.length_singleton] at hlt
    obtain rfl : u = r.types.length := by omega
    rw [hq, List.getElem?_concat_length] at hc
    obtain rfl := Option.some.inj hc
    exact ⟨rfl, h⟩

/-! ## Calls that change a type -/

/-- Members that are set, and are no type in this one. -/
def Plain (m : Members) : Prop := m ≠ .unset ∧ ∀ c, m ≠ .base c

theorem same_of_members {a : GqlType} {m m' : Members} (hm : a.members = m) (h : Plain m) (h' : Plain m') :
    Same a { a with members := m' } := by
  subst hm
  exact ⟨rfl, fun h => h, fun _ => rfl, fun c => iff_of_false (h'.2 c) (h.2 c),
    fun _ hunset hkind => absurd (hunset hkind) h.1⟩

theorem plain_fields (fs : List GqlField) (is : List ℕ) : Plain (.fields fs is) :=
  ⟨Members.noConfusion, fun _ => Members.noConfusion⟩

theorem plain_types (ts : List ℕ) : Plain (.types ts) := ⟨Members.noConfusion, fun _ => Members.noConfusion⟩

theorem plain_choices (cs : List GqlEnumVal) : Plain (.choices cs) :=
  ⟨Members.noConfusion, fun _ => Members.noConfusion⟩

theorem plain_args (as : List GqlArg) : Plain (.args as) :=
  ⟨Members.noConfusion, fun _ => Members.noConfusion⟩

theorem plain_funcs : Plain .funcs := ⟨Members.noConfusion, fun _ => Members.noConfusion⟩

/-- The description and the uses of directives are changed. -/
theorem evolves_setDir (t : ℕ) (desc : GqlType → Option Bytes) (uses : GqlType → List (DirUse ℕ ℕ)) :
    Evolves r (r.update t fun type => { type with desc := desc type, dir := uses type }) :=
  evolves_update rfl fun _ _ => ⟨rfl, fun h => h, fun _ => rfl, fun _ => Iff.rfl, fun _ h => h⟩

theorem evolves_typeField (t : ℕ) (name : Bytes) (type : ℕ) (default : Option (GqlValue ℕ))
    (desc : Option Bytes) (dir : List (DirUse ℕ ℕ)) :
    Evolves r ((gqlTypeField t name type default desc dir).exec r).2 := by
  refine evolves_update rfl fun a _ => ?_
  split
  · next fs is h => exact same_of_members h (plain_fields _ _) (plain_fields _ _)
  · exact Same.refl a

theorem evolves_fieldArg (field : ℕ × ℕ) (name : Bytes) (type : ℕ) (desc : Option Bytes)
    (default : Option (GqlValue ℕ)) :
    Evolves r ((gqlFieldArg field name type desc default).exec r).2 := by
  refine evolves_update rfl fun a _ => ?_
  split
  · next fs is h => exact same_of_members h (plain_fields _ _) (plain_fields _ _)
  · exact Same.refl a

theorem evolves_inputArg (t : ℕ) (name : Bytes) (type : ℕ) (desc : Option Bytes)
    (default : Option (GqlValue ℕ)) (dir : List (DirUse ℕ ℕ)) :
    Evolves r ((gqlInputArg t name type desc default dir).exec r).2 := by
  refine evolves_update rfl fun a _ => ?_
  split
  · next as h => exact same_of_members h (plain_args _) (plain_args _)
  · exact Same.refl a

theorem evolves_unionAdd (t member : ℕ) : Evolves r ((gqlUnionAdd t member).exec r).2 := by
  refine evolves_update rfl fun a _ => ?_
  split
  · next ts h => exact same_of_members h (plain_types _) (plain_types _)
  · exact Same.refl a

theorem evolves_addInterface (t interface : ℕ) : Evolves r (addInterface t interface r) := by
  refine evolves_update rfl fun a _ => ?_
  split
  · next fs is h => exact same_of_members h (plain_fields _ _) (plain_fields _ _)
  · exact Same.refl a

theorem evolves_enumAppend (t : ℕ) (value : Bytes) (len : ℕ) (desc : Option Bytes)
    (dir : List (DirUse ℕ ℕ)) : Evolves r ((gqlEnumAppend t value len desc dir).exec r).2 := by
  obtain ⟨f, hf, htypes⟩ := enumAppend_update (t := t) r value len desc dir
  refine evolves_update htypes fun a _ => ?_
  rcases hf a with heq | ⟨cs, more, hcs, heq⟩
  · rw [heq]
    exact Same.refl a
  · rw [heq]
    exact same_of_members hcs (plain_choices _) (plain_choices _)

/-! ## Types that are destroyed -/

theorem Named.store (hr : Named r) {t : ℕ} (ht : r.kind t ∉ wrappers) (hundef : r.kind t ≠ .undef) (m : Member)
    {members : Members} (hm : Plain members) : Named (r.store t m members) := by
  refine hr.evolves (evolves_update (r := r) rfl fun a ha => ?_)
  have hkind := kind_eq ha
  refine ⟨rfl, fun h => h, fun _ => rfl, fun c => iff_of_false (hm.2 c) fun hc => ?_,
    fun _ _ h => absurd (hkind.trans h) hundef⟩
  exact ht (hkind ▸ (hr.base t a c ha hc).1)

theorem Named.clean (hr : Named r) (t : ℕ) : Named (r.typeClean t) := by
  have hclear := hr.evolves (evolves_setDir t (fun _ => none) fun _ => [])
  unfold typeClean
  dsimp only
  cases hkind : (r.update t fun type => { type with desc := none, dir := [] }).kind t with
  | schema => exact hclear.store (by rw [hkind]; decide) (by rw [hkind]; decide) _ (plain_fields _ _)
  | object => exact hclear.store (by rw [hkind]; decide) (by rw [hkind]; decide) _ (plain_fields _ _)
  | interface => exact hclear.store (by rw [hkind]; decide) (by rw [hkind]; decide) _ (plain_fields _ _)
  | input => exact hclear.store (by rw [hkind]; decide) (by rw [hkind]; decide) _ (plain_args _)
  | union => exact hclear.store (by rw [hkind]; decide) (by rw [hkind]; decide) _ (plain_types _)
  | enum => exact hclear.store (by rw [hkind]; decide) (by rw [hkind]; decide) _ (plain_choices _)
  | undef => exact hclear
  | frag => exact hclear
  | scalar => exact hclear
  | list => exact hclear
  | nonNull => exact hclear

theorem Named.destroy (hr : Named r) (t : ℕ) : Named (r.typeDestroy t) := by
  have hremove : Named (r.typeRemove t) := by
    unfold typeRemove
    cases r.typeGet (r.name t) with
    | none => exact hr
    | some i =>
      refine hr.evolves (evolves_update rfl fun a _ => ?_)
      exact ⟨rfl, fun h => absurd h Bool.false_ne_true, fun _ => rfl, fun _ => Iff.rfl,
        fun h => absurd h Bool.false_ne_true⟩
  unfold typeDestroy
  dsimp only
  split
  · exact hremove
  · exact hremove.clean t

/-! ## Types that are made -/

/-- A type that the registry refuses is left without a slot. -/
theorem Named.refused (hr : Named r) {name : Bytes} (hhash : TypeTable.calcHash name = 0) (kind : GqlKind)
    (desc : Option Bytes) :
    Named ((r.addType ⟨name, desc, [], kind, false, TypeTable.calcHash name ≠ 0, .unset⟩).typeDestroy
      r.types.length) := by
  refine (hr.evolves (evolves_concat rfl ⟨fun h => ?_, fun _ h => Members.noConfusion h⟩)).destroy _
  exact absurd hhash (of_decide_eq_true h)

/-- A type is created with members of its kind, or given that kind. -/
theorem Named.createWith (hr : Named r) {kind : GqlKind} (hkind : kind ∉ wrappers) (hundef : kind ≠ .undef)
    (m : Member) {members : Members} (hm : Plain members) (name : Bytes) (desc : Option Bytes) :
    Named ((createWith kind m members name desc).exec r).2 := by
  unfold Agoo.createWith
  rw [TableM.exec_bind]
  cases hget : r.typeGet name with
  | none =>
    by_cases hhash : TypeTable.calcHash name = 0
    · rw [typeCreate_refused hget hhash]
      exact hr.refused hhash kind desc
    · rw [typeCreate_added hget hhash]
      have htypes := store_concat (r := r) (q := r.addType ⟨name, desc, [], kind, false,
        TypeTable.calcHash name ≠ 0, .unset⟩) rfl m members
      refine hr.evolves (evolves_concat htypes ⟨fun _ => ?_, fun c hc => absurd hc (hm.2 c)⟩)
      exact ⟨hhash, hget, fun h => absurd h hundef, fun h => absurd h hkind⟩
  | some t =>
    obtain ⟨hold, hok⟩ | ⟨e, he⟩ := typeCreate_some hget kind desc
    · rw [hok]
      have htypes : ((r.update t fun type => { type with desc, kind }).store t m members).types =
          (r.update t fun type => { type with desc, kind, members }).types :=
        List.modify_modify_eq _ _ t r.types
      refine hr.evolves (evolves_update htypes fun a ha => ?_)
      have hno : a.kind ∉ wrappers := by
        rw [← kind_eq ha, hold]
        decide
      refine ⟨rfl, fun h => h, fun h => absurd h (not_or_intro hno hkind), fun c => ?_,
        fun _ _ h => absurd h hundef⟩
      exact iff_of_false (hm.2 c) fun hc => hno (hr.base t a c ha hc).1
    · rw [he]
      exact hr

theorem Named.gqlCreate (hr : Named r) {kind : GqlKind} (hkind : kind ∈ definedKinds) (name : Bytes)
    (desc : Option Bytes) : Named ((gqlCreate kind name desc).exec r).2 := by
  have hno : kind ∉ wrappers ∧ kind ≠ .undef := by
    revert kind
    decide
  cases kind with
  | schema => exact hr.createWith hno.1 hno.2 _ (plain_fields _ _) _ _
  | object => exact hr.createWith hno.1 hno.2 _ (plain_fields _ _) _ _
  | union => exact hr.createWith hno.1 hno.2 _ (plain_types _) _ _
  | enum => exact hr.createWith hno.1 hno.2 _ (plain_choices _) _ _
  | input => exact hr.createWith hno.1 hno.2 _ (plain_args _) _ _
  | interface => exact hr.createWith hno.1 hno.2 _ (plain_fields _ _) _ _
  | scalar => exact hr.createWith hno.1 hno.2 _ plain_funcs _ _
  | undef => exact absurd rfl hno.2
  | frag => exact absurd hkind (by decide)
  | list => exact absurd hkind (by decide)
  | nonNull => exact absurd hkind (by decide)

/-! ## Types that are read -/

theorem Named.assureType (hr : Named r) (name : Bytes) : Named ((gqlAssureType name).exec r).2 := by
  cases hget : r.typeGet name with
  | some t =>
    rw [exec_assureType hget]
    exact hr
  | none =>
    rw [exec_assureType_none hget]
    by_cases hhash : TypeTable.calcHash name = 0
    · rw [typeCreate_refused hget hhash]
      exact hr.refused hhash _ _
    · rw [typeCreate_added hget hhash]
      refine hr.evolves (evolves_concat rfl ⟨fun _ => ?_, fun _ h => Members.noConfusion h⟩)
      exact ⟨hhash, hget, fun _ => rfl, fun h => absurd h (by decide : GqlKind.undef ∉ wrappers)⟩

/-- A type around one that is in place, under its name. -/
theorem Named.assureAround (hr : Named r) {kind : GqlKind} (hkind : kind ∈ wrappers) {base : ℕ}
    (hbase : Alive r base) : Named ((assureAround kind (around kind (r.name base)) base).exec r).2 := by
  obtain ⟨a, ha, hslot⟩ := hbase
  by_cases hlong : 256 ≤ (around kind (r.name base)).length
  · rw [exec_assureAround_long hlong]
    exact hr
  cases hget : r.typeGet (around kind (r.name base)) with
  | some t =>
    rw [exec_assureAround hlong hget]
    exact hr
  | none =>
    rw [exec_assureAround_none hlong hget]
    by_cases hhash : TypeTable.calcHash (around kind (r.name base)) = 0
    · unfold Agoo.createWith
      rw [TableM.exec_bind, typeCreate_refused hget hhash]
      exact hr.refused hhash _ _
    · obtain ⟨-, -, htypes⟩ | ⟨hzero, -⟩ := createWith_new hget kind .base (.base base) none
      · refine hr.evolves (evolves_concat htypes ⟨fun _ => ?_, fun c hc => ?_⟩)
        · have hundef : kind ≠ .undef := by
            rintro rfl
            exact absurd hkind (by decide)
          exact ⟨hhash, hget, fun h => absurd h hundef, fun _ => ⟨base, rfl⟩⟩
        · obtain rfl : base = c := Members.base.inj hc
          exact ⟨hkind, (List.getElem?_eq_some_iff.mp ha).1, rfl, hr.whole base ⟨a, ha, hslot⟩⟩
      · exact absurd hzero hhash

/-! ## Definitions -/

section Definitions

variable {root : TypeTable → Option ℕ}

/-- And the type that was read last has a slot. -/
def Read (t : ℕ) (r : TypeTable) : Prop := Named r ∧ Alive r t

theorem keeps_of_evolves {f : TypeTable → Except Err α × TypeTable} (h : ∀ r, Evolves r (f r).2) :
    Keeps Named f := fun r hr => hr.evolves (h r)

theorem keeps_of_types {f : TypeTable → Except Err α × TypeTable} (h : ∀ r, (f r).2.types = r.types) :
    Keeps Named f := keeps_of_evolves fun r => evolves_of_types (h r)

/-- A call with the type that was read last. -/
theorem gives_read {f : TypeTable → Except Err α × TypeTable} {t : ℕ} (h : ∀ r, Evolves r (f r).2) :
    Gives (Read t) (fun _ => Named) Named f :=
  fun r hr => ⟨fun _ _ => hr.1.evolves (h r), fun _ _ => hr.1.evolves (h r)⟩

theorem readsTypes (root : TypeTable → Option ℕ) : ReadsTypes (gqlRegistry root) Named Read Named where
  fails _ h := h
  leaves _ _ h := h.1
  type name r hr := by
    have hnamed := hr.assureType name
    exact ⟨fun t ht => ⟨hnamed, alive_assures (assures_type name r) ht⟩, fun _ _ => hnamed⟩
  list t r hr := by
    have hnamed := hr.1.assureAround (show GqlKind.list ∈ wrappers by decide) hr.2
    exact ⟨fun u hu => ⟨hnamed, alive_assures (assures_around .list _ t r) hu⟩, fun _ _ => hnamed⟩
  nonnull t r hr := by
    have hnamed := hr.1.assureAround (show GqlKind.nonNull ∈ wrappers by decide) hr.2
    exact ⟨fun u hu => ⟨hnamed, alive_assures (assures_around .nonNull _ t r) hu⟩, fun _ _ => hnamed⟩

theorem keeps_assureDirective (root : TypeTable → Option ℕ) (name : Bytes) :
    Keeps Named ((gqlRegistry root).assureDirective name) := keeps_of_types (types_assureDirective name)

theorem builds (root : TypeTable → Option ℕ) (t : ℕ) : Builds (gqlRegistry root) Named Read Named t where
  toReadsTypes := readsTypes root
  directive := keeps_assureDirective root
  directiveRead u name r hr := by
    have htypes : ((assureDirective name).exec r).2.types = r.types := types_assureDirective name r
    refine ⟨hr.1.evolves (evolves_of_types htypes), ?_⟩
    obtain ⟨a, ha, hslot⟩ := hr.2
    exact ⟨a, htypes ▸ ha, hslot⟩
  addDir use r hr := hr.evolves (evolves_setDir t (·.desc) fun type => type.dir ++ [use])

theorem holds_makeField (root : TypeTable → Option ℕ) (fuel t : ℕ) :
    Holds Named Named (makeField (gqlRegistry root) fuel t : Parser text TypeTable Unit) := by
  refine Agoo.holds_makeField (F := fun _ => True) (builds root t) (fun name type dval desc uses r hr => ?_)
    fun field _ => Agoo.holds_fieldArgs (readsTypes root) fun name type desc dval =>
      gives_read fun r => evolves_fieldArg field name type desc dval
  have hnamed := hr.1.evolves (evolves_typeField t name type dval desc uses)
  exact ⟨fun _ _ => ⟨trivial, hnamed⟩, fun _ _ => hnamed⟩

/-- The type of a definition is made or opened. -/
theorem opens (root : TypeTable → Option ℕ) {kind : GqlKind} (hkind : kind ∈ definedKinds)
    (desc : Option Bytes) (x : Bool) (name : Bytes) :
    Opens text (gqlRegistry root) kind desc x Named Named (fun _ => Named) name :=
  opens_of_keeps (fun _ h => h) fun _ hr => hr.gqlCreate hkind name desc

theorem names (key : Bytes) :
    Names text (fun s => Named s.user.reg) (fun _ => Named) Named key := (frame_extractName key).holds fun _ h => h

theorem definesAll (root : TypeTable → Option ℕ) (fuel : ℕ) (desc : Option Bytes) (x : Bool) :
    DefinesAll text (gqlRegistry root) Named Named (fun s => Named s.user.reg) fuel desc x := by
  have hE : ∀ r, Named r → Named r := fun _ h => h
  have hdestroy : ∀ t : ℕ, x = false → ∀ r, Named r → Named ((gqlRegistry root).typeDestroy t r) :=
    fun t _ _ h => h.destroy t
  refine ⟨fun s h => h, hE, ?_, ?_, ?_, ?_, ?_, ?_, ?_, ?_⟩
  · exact Triple.bind (names _) fun name => Triple.bind (opens root (by decide) desc x name) fun t =>
      holds_typeDirUse (builds root t) fuel
  · refine Triple.bind (names _) fun name =>
      Triple.bind (holds_extractDirUse hE (keeps_assureDirective root) fuel) fun use =>
        Triple.bind (frame_skipWhite.holds hE) fun _ => Triple.bind ((frame_expect _ _).holds hE) fun _ =>
          Triple.bind (opens root (by decide) desc x name) fun t => ?_
    refine (holds_changeReg fun _ h => h.evolves (evolves_setDir t (·.desc) fun _ => use.toList)).bind
      fun _ => ?_
    exact holds_enumBody hE (keeps_assureDirective root) hE (hdestroy t) fun value desc uses =>
      (keeps_of_evolves fun r => evolves_enumAppend t value (tokenLen value) desc uses).gives hE
  · exact Triple.bind (names _) fun name => Triple.bind (opens root (by decide) desc x name) fun t =>
      holds_unionBody (builds root t) hE (hdestroy t) fun member =>
        gives_read fun r => evolves_unionAdd t member
  · exact Triple.bind (names _) fun name => Triple.bind (opens root (by decide) desc x name) fun t =>
      triple_interfaceBody (builds root t) hE (hdestroy t) hE hE (hdestroy t) (holds_makeField root fuel t)
  · exact Triple.bind (names _) fun name => Triple.bind (opens root (by decide) desc x name) fun t =>
      holds_inputBody (builds root t) hE (hdestroy t) fun name type desc dval uses =>
        gives_read fun r => evolves_inputArg t name type desc dval uses
  · exact Triple.bind (names _) fun name => Triple.bind (opens root (by decide) desc x name) fun t =>
      holds_typeBody (builds root t) hE (hdestroy t)
        (fun interface _ hr => hr.1.evolves (evolves_addInterface t interface)) (holds_makeField root fuel t)
  · exact Triple.bind ((frame_keyWord _).holds hE) fun _ =>
      Triple.bind (opens root (by decide) desc x _) fun t =>
        holds_schemaBody (builds root t) hE (hdestroy t) (holds_makeField root fuel t)
  · exact holds_makeDirective hE (fun name => keeps_of_types (types_directiveCreate name desc))
      (fun _ _ => keeps_of_types fun _ => rfl) fun dir =>
        holds_dirArgs (readsTypes root) fun name type desc dval => gives_read fun _ => evolves_of_types rfl

end Definitions

/-! ## Runs -/

/-- The registry after `sdl_parse` on a text. -/
def parsed (root : TypeTable → Option ℕ) (fuel : ℕ) (text : Bytes) (r : TypeTable) : TypeTable :=
  ((sdlParse (gqlRegistry root) fuel).run (docInit text none r)).2.user.reg

/-- The registries that come from `gql_init` by reading texts, whether they are accepted or not. -/
inductive Reached (root : TypeTable → Option ℕ) : TypeTable → Prop
  | init : Reached root gqlInit
  | parse (text : Bytes) (fuel : ℕ) {r : TypeTable} (h : Reached root r) : Reached root (parsed root fuel text r)

theorem named_init : Named gqlInit := by
  have hbases : ∀ u < gqlInit.types.length, ∀ c ∈ gqlInit.listBase u, gqlInit.kind u ∈ wrappers ∧ c < u ∧
      gqlInit.name u = around (gqlInit.kind u) (gqlInit.name c) := by decide +kernel
  have hwhole : ∀ u < gqlInit.types.length, gqlInit.kind u ∈ wrappers → (gqlInit.listBase u).isSome := by
    decide +kernel
  have hbase : ∀ {u : ℕ} {a : GqlType} {c : ℕ}, gqlInit.types[u]? = some a → a.members = .base c →
      gqlInit.listBase u = some c := by
    intro u a c ha hc
    unfold listBase TypeTable.members
    rw [ha, Option.map_some, Option.getD_some, hc]
  have hin : ∀ t, Whole gqlInit t := by
    intro t a ha hkind
    have hsome := hwhole t (List.getElem?_eq_some_iff.mp ha).1 (kind_eq ha ▸ hkind)
    unfold listBase TypeTable.members at hsome
    rw [ha, Option.map_some, Option.getD_some] at hsome
    generalize a.members = m at hsome
    cases m with
    | base c => exact ⟨c, rfl⟩
    | unset => cases hsome
    | fields fs is => cases hsome
    | types ts => cases hsome
    | choices cs => cases hsome
    | args as => cases hsome
    | funcs => cases hsome
  refine ⟨SdlDestroy.inv_init.sound, fun u a c ha hc => ?_, fun u _ => hin u⟩
  obtain ⟨hkind, hlt, hname⟩ := hbases u (List.getElem?_eq_some_iff.mp ha).1 c (hbase ha hc)
  rw [kind_eq ha] at hkind hname
  have hown : gqlInit.name u = a.name := by
    unfold TypeTable.name
    rw [ha]
    rfl
  exact ⟨hkind, hlt, hown ▸ hname, hin c⟩

/-- **After any texts every list and non-null type is named by the type in it, which was made before it.** -/
theorem Reached.named {root : TypeTable → Option ℕ} {r : TypeTable} (h : Reached root r) : Named r := by
  induction h with
  | init => exact named_init
  | parse text fuel hr ih =>
    exact holds_after (Agoo.holds_sdlParse (fun _ h => h) fun b => definesAll root fuel b.1 b.2)
      (s := docInit text none _) ih

end TypeNames

end Agoo
