import Agoo.TypeTableAdds

/-!
# What types refer to

`Steps r q`: types get references to types with slots, and a new type refers to types with slots. Every
call of `graphql.c` for a definition does that, when the types it is given have their slots.
-/

namespace Agoo

open TypeTable

namespace TypeRefs

/-! ## References -/

def fieldRefs (f : GqlField) : List ℕ := f.type :: f.args.map (·.type)

/-- The types that fields and their arguments, arguments, interfaces, members and a base refer to. -/
def membersRefs : Members → List ℕ
  | .fields fields interfaces => fields.flatMap fieldRefs ++ interfaces
  | .types types => types
  | .args args => args.map (·.type)
  | .base base => [base]
  | .choices _ => []
  | .funcs => []
  | .unset => []

def refs (type : GqlType) : List ℕ := membersRefs type.members

/-- The type `t` has its slot. -/
def Alive (r : TypeTable) (t : ℕ) : Prop := ∃ a, r.types[t]? = some a ∧ a.slot = true

/-- The type `u` has its slot and refers to `t`. -/
def Refers (r : TypeTable) (u t : ℕ) : Prop := ∃ a, r.types[u]? = some a ∧ a.slot = true ∧ t ∈ refs a

instance (r : TypeTable) (u t : ℕ) : Decidable (Refers r u t) :=
  decidable_of_iff ((r.types[u]?).any (fun a => a.slot && decide (t ∈ refs a)) = true) <| by
    rw [Option.any_eq_true]
    simp only [Bool.and_eq_true, decide_eq_true_eq]
    exact Iff.rfl

theorem Refers.lt {r : TypeTable} {u t : ℕ} (h : Refers r u t) : u < r.types.length := by
  obtain ⟨a, ha, -⟩ := h
  exact (List.getElem?_eq_some_iff.mp ha).1

/-- The types that are found by a name, and those that they refer to. -/
inductive Reachable (r : TypeTable) : ℕ → Prop
  | found {name : Bytes} {t : ℕ} (h : r.typeGet name = some t) : Reachable r t
  | ref {u t : ℕ} {a : GqlType} (h : Reachable r u) (ha : r.types[u]? = some a) (ht : t ∈ refs a) :
      Reachable r t

/-! ## Sound registries -/

/-- Types with a slot have names of their own, and one without a kind has no members yet. -/
structure Sound (r : TypeTable) : Prop where
  hash : ∀ (u : ℕ) (a : GqlType), r.types[u]? = some a → a.slot = true → TypeTable.calcHash a.name ≠ 0
  unique : ∀ (u v : ℕ) (a b : GqlType), r.types[u]? = some a → r.types[v]? = some b → a.slot = true →
    b.slot = true → a.name = b.name → u = v
  unset : ∀ (u : ℕ) (a : GqlType), r.types[u]? = some a → a.slot = true → a.kind = .undef → a.members = .unset

/-- A type with a slot is found by its name. -/
theorem Sound.typeGet {r : TypeTable} (h : Sound r) {u : ℕ} {a : GqlType} (ha : r.types[u]? = some a)
    (hslot : a.slot = true) : r.typeGet a.name = some u := by
  unfold TypeTable.typeGet
  rw [if_neg (h.hash u a ha hslot), List.findIdx?_eq_some_iff_getElem]
  obtain ⟨hlt, rfl⟩ := List.getElem?_eq_some_iff.mp ha
  refine ⟨hlt, by simp [hslot], fun j hj => ?_⟩
  have hjlt : j < r.types.length := hj.trans hlt
  intro hpred
  obtain ⟨hjslot, hjname⟩ : r.types[j].slot = true ∧ r.types[j].name = r.types[u].name := by
    simpa using hpred
  have := h.unique j u _ _ (List.getElem?_eq_getElem hjlt) ha hjslot hslot hjname
  omega

theorem alive_of_typeGet {r : TypeTable} {name : Bytes} {t : ℕ} (h : r.typeGet name = some t) :
    ∃ a, r.types[t]? = some a ∧ a.slot = true ∧ a.name = name := by
  unfold TypeTable.typeGet at h
  split_ifs at h
  obtain ⟨hlt, hpred, -⟩ := List.findIdx?_eq_some_iff_getElem.mp h
  obtain ⟨hslot, hname⟩ : r.types[t].slot = true ∧ r.types[t].name = name := by simpa using hpred
  exact ⟨_, List.getElem?_eq_getElem hlt, hslot, hname⟩

/-! ## Steps -/

/-- A type gets at most references to types with `S`. -/
structure Gets (S : ℕ → Prop) (a b : GqlType) : Prop where
  name : b.name = a.name
  slot : b.slot = a.slot
  kind : a.kind ≠ .undef → b.kind = a.kind
  keeps : ∀ t ∈ refs a, t ∈ refs b
  gets : ∀ t ∈ refs b, t ∈ refs a ∨ S t
  unset : (a.kind = .undef → a.members = .unset) → b.kind = .undef → b.members = .unset

theorem Gets.refl (S : ℕ → Prop) (a : GqlType) : Gets S a a :=
  ⟨rfl, rfl, fun _ => rfl, fun _ h => h, fun _ h => Or.inl h, fun h => h⟩

/-- Types get references to types with slots, and a new type with a slot has a new name and refers to
types with slots. -/
structure Steps (r q : TypeTable) : Prop where
  old : ∀ (u : ℕ) (a : GqlType), r.types[u]? = some a → ∃ b, q.types[u]? = some b ∧ Gets (Alive r) a b
  new : ∀ (u : ℕ) (b : GqlType), q.types[u]? = some b → r.types[u]? = none → b.slot = true →
    u = r.types.length ∧ TypeTable.calcHash b.name ≠ 0 ∧ r.typeGet b.name = none ∧
      (b.kind = .undef → b.members = .unset) ∧ ∀ t ∈ refs b, Alive r t

theorem Steps.alive {r q : TypeTable} (h : Steps r q) {t : ℕ} (ht : Alive r t) : Alive q t := by
  obtain ⟨a, ha, hslot⟩ := ht
  obtain ⟨b, hb, hab⟩ := h.old t a ha
  exact ⟨b, hb, hab.slot.trans hslot⟩

theorem Steps.refers {r q : TypeTable} (h : Steps r q) {u t : ℕ} (ht : Refers r u t) :
    Refers q u t := by
  obtain ⟨a, ha, hslot, hmem⟩ := ht
  obtain ⟨b, hb, hab⟩ := h.old u a ha
  exact ⟨b, hb, hab.slot.trans hslot, hab.keeps t hmem⟩

/-- A type after the step is one from before or new. -/
theorem Steps.cases {r q : TypeTable} (h : Steps r q) {u : ℕ} {b : GqlType} (hb : q.types[u]? = some b) :
    (∃ a, r.types[u]? = some a ∧ Gets (Alive r) a b) ∨ r.types[u]? = none := by
  cases ha : r.types[u]? with
  | none => exact Or.inr rfl
  | some a =>
    obtain ⟨b', hb', hab⟩ := h.old u a ha
    obtain rfl := Option.some.inj (hb.symm.trans hb')
    exact Or.inl ⟨a, rfl, hab⟩

theorem Sound.steps {r q : TypeTable} (hr : Sound r) (h : Steps r q) : Sound q := by
  have hnew : ∀ {u v : ℕ} {a b c : GqlType}, r.types[u]? = some a → Gets (Alive r) a b →
      q.types[v]? = some c → r.types[v]? = none → b.slot = true → c.slot = true → b.name ≠ c.name := by
    intro u v a b c ha hab hc hv hb hcs hname
    obtain ⟨-, -, hnone, -⟩ := h.new v c hc hv hcs
    rw [← hname, hab.name, hr.typeGet ha (hab.slot ▸ hb)] at hnone
    cases hnone
  constructor
  · intro u b hb hslot
    rcases h.cases hb with ⟨a, ha, hab⟩ | hu
    · rw [hab.name]
      exact hr.hash u a ha (hab.slot ▸ hslot)
    · exact (h.new u b hb hu hslot).2.1
  · intro u v b c hb hc hbs hcs hname
    rcases h.cases hb with ⟨a, ha, hab⟩ | hu
    · rcases h.cases hc with ⟨a', ha', hac⟩ | hv
      · exact hr.unique u v a a' ha ha' (hab.slot ▸ hbs) (hac.slot ▸ hcs)
          (hab.name.symm.trans (hname.trans hac.name))
      · exact absurd hname (hnew ha hab hc hv hbs hcs)
    · rcases h.cases hc with ⟨a', ha', hac⟩ | hv
      · exact absurd hname.symm (hnew ha' hac hb hu hcs hbs)
      · exact (h.new u b hb hu hbs).1.trans (h.new v c hc hv hcs).1.symm
  · intro u b hb hslot hkind
    rcases h.cases hb with ⟨a, ha, hab⟩ | hu
    · exact hab.unset (hr.unset u a ha (hab.slot ▸ hslot)) hkind
    · exact (h.new u b hb hu hslot).2.2.2.1 hkind

/-- The kind of a type that is there. -/
theorem kind_eq {r : TypeTable} {u : ℕ} {a : GqlType} (h : r.types[u]? = some a) : r.kind u = a.kind := by
  unfold TypeTable.kind
  rw [h]
  rfl

theorem steps_of_types {r q : TypeTable} (h : q.types = r.types) : Steps r q := by
  refine ⟨fun u a ha => ⟨a, h ▸ ha, Gets.refl _ a⟩, fun u b hb hu => ?_⟩
  rw [h, hu] at hb
  cases hb

theorem steps_update {r q : TypeTable} {t : ℕ} {f : GqlType → GqlType}
    (hq : q.types = (r.update t f).types) (h : ∀ a, Gets (Alive r) a (f a)) : Steps r q := by
  constructor
  · intro u a ha
    rw [hq]
    by_cases hu : u = t
    · subst hu
      refine ⟨f a, ?_, h a⟩
      rw [getElem?_update_self, ha]
      rfl
    · exact ⟨a, (getElem?_update_ne hu f).trans ha, Gets.refl _ a⟩
  · intro u b hb hu
    rw [hq] at hb
    by_cases hut : u = t
    · subst hut
      rw [getElem?_update_self, hu] at hb
      cases hb
    · rw [getElem?_update_ne hut, hu] at hb
      cases hb

/-- A type is put at the end, or none is. -/
theorem steps_newType {r q : TypeTable} {P : GqlType → Prop} (h : NewType P r q)
    (hP : ∀ a, P a → a.slot = true → TypeTable.calcHash a.name ≠ 0 ∧ r.typeGet a.name = none ∧
      (a.kind = .undef → a.members = .unset) ∧ ∀ t ∈ refs a, Alive r t) : Steps r q := by
  rcases h with h | ⟨a, h, ha⟩
  · exact steps_of_types h
  constructor
  · intro u b hb
    refine ⟨b, ?_, Gets.refl _ b⟩
    rw [h, List.getElem?_append_left (List.getElem?_eq_some_iff.mp hb).1, hb]
  · intro u b hb hu hslot
    have hle : r.types.length ≤ u := List.getElem?_eq_none_iff.mp hu
    have hlt : u < q.types.length := (List.getElem?_eq_some_iff.mp hb).1
    rw [h, List.length_append, List.length_singleton] at hlt
    obtain rfl : u = r.types.length := by omega
    rw [h, List.getElem?_concat_length] at hb
    obtain rfl := Option.some.inj hb
    exact ⟨rfl, hP a ha hslot⟩

/-! ## Calls that add to a type -/

section Members

variable {S : ℕ → Prop} {r : TypeTable}

/-- Other members. -/
theorem gets_of_members {a : GqlType} {m m' : Members} (hm : a.members = m) (hunset : m ≠ .unset)
    (hkeeps : ∀ t ∈ membersRefs m, t ∈ membersRefs m')
    (hgets : ∀ t ∈ membersRefs m', t ∈ membersRefs m ∨ S t) : Gets S a { a with members := m' } := by
  subst hm
  exact ⟨rfl, rfl, fun _ => rfl, hkeeps, hgets, fun h hkind => absurd (h hkind) hunset⟩

theorem steps_setDir (t : ℕ) (uses : GqlType → List (DirUse ℕ ℕ)) :
    Steps r (r.update t fun type => { type with dir := uses type }) :=
  steps_update rfl fun _ => ⟨rfl, rfl, fun _ => rfl, fun _ h => h, fun _ h => Or.inl h, fun h => h⟩

theorem steps_typeField {t type : ℕ} (htype : Alive r type) (name : Bytes) (default : Option (GqlValue ℕ))
    (desc : Option Bytes) (dir : List (DirUse ℕ ℕ)) :
    Steps r ((gqlTypeField t name type default desc dir).exec r).2 := by
  refine steps_update rfl fun a => ?_
  split
  · next fs is h =>
    refine gets_of_members h Members.noConfusion (fun u hu => ?_) fun u hu => ?_
    · rcases List.mem_append.mp hu with hu | hu
      · refine List.mem_append_left _ ?_
        rw [List.flatMap_append]
        exact List.mem_append_left _ hu
      · exact List.mem_append_right _ hu
    · rcases List.mem_append.mp hu with hu | hu
      · rw [List.flatMap_append] at hu
        rcases List.mem_append.mp hu with hu | hu
        · exact Or.inl (List.mem_append_left _ hu)
        · obtain rfl : u = type := by simpa [fieldRefs] using hu
          exact Or.inr htype
      · exact Or.inl (List.mem_append_right _ hu)
  · exact Gets.refl _ a

/-- An element of a list in which one is changed. -/
theorem mem_modify {β : Type} {xs : List β} {i : ℕ} {f : β → β} {y : β} (h : y ∈ xs.modify i f) :
    y ∈ xs ∨ ∃ x ∈ xs, y = f x := by
  obtain ⟨j, hj⟩ := List.mem_iff_getElem?.mp h
  rw [List.getElem?_modify] at hj
  cases hx : xs[j]? with
  | none =>
    rw [hx] at hj
    cases hj
  | some x =>
    rw [hx] at hj
    have hmem : x ∈ xs := List.mem_of_getElem? hx
    obtain rfl : (if i = j then f x else x) = y := Option.some.inj hj
    split
    · exact Or.inr ⟨x, hmem, rfl⟩
    · exact Or.inl hmem

theorem mem_modify_of_mem {β : Type} {xs : List β} (i : ℕ) (f : β → β) {x : β} (h : x ∈ xs) :
    x ∈ xs.modify i f ∨ f x ∈ xs.modify i f := by
  obtain ⟨j, hj⟩ := List.mem_iff_getElem?.mp h
  by_cases hij : i = j
  · subst hij
    refine Or.inr (List.mem_iff_getElem?.mpr ⟨i, ?_⟩)
    rw [List.getElem?_modify_eq, hj]
    rfl
  · refine Or.inl (List.mem_iff_getElem?.mpr ⟨j, ?_⟩)
    rw [List.getElem?_modify_ne f xs hij, hj]

theorem steps_fieldArg {type : ℕ} (htype : Alive r type) (field : ℕ × ℕ) (name : Bytes)
    (desc : Option Bytes) (default : Option (GqlValue ℕ)) :
    Steps r ((gqlFieldArg field name type desc default).exec r).2 := by
  refine steps_update rfl fun a => ?_
  split
  · next fs is h =>
    refine gets_of_members h Members.noConfusion (fun u hu => ?_) fun u hu => ?_
    · rcases List.mem_append.mp hu with hu | hu
      · refine List.mem_append_left _ ?_
        obtain ⟨f, hf, hu⟩ := List.mem_flatMap.mp hu
        rcases mem_modify_of_mem field.2 (fun f : GqlField =>
          { f with args := f.args ++ [⟨name, desc, type, default, []⟩] }) hf with hf | hf
        · exact List.mem_flatMap.mpr ⟨f, hf, hu⟩
        · refine List.mem_flatMap.mpr ⟨_, hf, ?_⟩
          simp only [fieldRefs, List.map_append, List.mem_cons, List.mem_append] at hu ⊢
          exact hu.imp id Or.inl
      · exact List.mem_append_right _ hu
    · rcases List.mem_append.mp hu with hu | hu
      · obtain ⟨f, hf, hu⟩ := List.mem_flatMap.mp hu
        rcases mem_modify hf with hf | ⟨f', hf', rfl⟩
        · exact Or.inl (List.mem_append_left _ (List.mem_flatMap.mpr ⟨f, hf, hu⟩))
        · simp only [fieldRefs, List.map_append, List.mem_cons, List.mem_append, List.map_cons,
            List.map_nil, List.not_mem_nil, or_false] at hu
          rcases hu with hu | hu | rfl
          · exact Or.inl (List.mem_append_left _ (List.mem_flatMap.mpr ⟨f', hf', by simp [fieldRefs, hu]⟩))
          · exact Or.inl (List.mem_append_left _
              (List.mem_flatMap.mpr ⟨f', hf', List.mem_cons_of_mem _ hu⟩))
          · exact Or.inr htype
      · exact Or.inl (List.mem_append_right _ hu)
  · exact Gets.refl _ a

theorem steps_inputArg {t type : ℕ} (htype : Alive r type) (name : Bytes) (desc : Option Bytes)
    (default : Option (GqlValue ℕ)) (dir : List (DirUse ℕ ℕ)) :
    Steps r ((gqlInputArg t name type desc default dir).exec r).2 := by
  refine steps_update rfl fun a => ?_
  split
  · next as h =>
    refine gets_of_members h Members.noConfusion (fun u hu => ?_) fun u hu => ?_
    · have hmem : u ∈ as.map GqlArg.type := hu
      change u ∈ (as ++ [(⟨name, desc, type, default, dir⟩ : GqlArg)]).map GqlArg.type
      rw [List.map_append]
      exact List.mem_append_left _ hmem
    · have hmem : u ∈ (as ++ [(⟨name, desc, type, default, dir⟩ : GqlArg)]).map GqlArg.type := hu
      rw [List.map_append] at hmem
      refine (List.mem_append.mp hmem).imp id fun hlast => ?_
      obtain rfl : u = type := List.mem_singleton.mp hlast
      exact htype
  · exact Gets.refl _ a

theorem steps_unionAdd {t member : ℕ} (hmember : Alive r member) :
    Steps r ((gqlUnionAdd t member).exec r).2 := by
  refine steps_update rfl fun a => ?_
  split
  · next ts h =>
    refine gets_of_members h Members.noConfusion (fun u hu => List.mem_append_left _ hu) fun u hu => ?_
    refine (List.mem_append.mp hu).imp id fun hu => ?_
    rw [List.mem_singleton.mp hu]
    exact hmember
  · exact Gets.refl _ a

theorem steps_addInterface {t interface : ℕ} (hinterface : Alive r interface) :
    Steps r (addInterface t interface r) := by
  refine steps_update rfl fun a => ?_
  split
  · next fs is h =>
    refine gets_of_members h Members.noConfusion (fun u hu => ?_) fun u hu => ?_
    · change u ∈ fs.flatMap fieldRefs ++ (is ++ [interface])
      rw [← List.append_assoc]
      exact List.mem_append_left _ hu
    · have hmem : u ∈ fs.flatMap fieldRefs ++ (is ++ [interface]) := hu
      rw [← List.append_assoc] at hmem
      refine (List.mem_append.mp hmem).imp id fun hlast => ?_
      rw [List.mem_singleton.mp hlast]
      exact hinterface
  · exact Gets.refl _ a

theorem steps_enumAppend (t : ℕ) (value : Bytes) (len : ℕ) (desc : Option Bytes)
    (dir : List (DirUse ℕ ℕ)) : Steps r ((gqlEnumAppend t value len desc dir).exec r).2 := by
  obtain ⟨f, hf, htypes⟩ := enumAppend_update (t := t) r value len desc dir
  refine steps_update htypes fun a => ?_
  rcases hf a with h | ⟨cs, more, hcs, h⟩
  · rw [h]
    exact Gets.refl _ a
  · rw [h]
    exact gets_of_members hcs Members.noConfusion (fun _ hu => hu) fun _ hu => Or.inl hu

end Members

/-! ## Types that are read -/

theorem steps_assures {name : Bytes} {a : GqlType} {r : TypeTable} {q : Except Err ℕ × TypeTable}
    (h : Assures name a r q) (hname : a.name = name) (hunset : a.kind = .undef → a.members = .unset)
    (hrefs : ∀ t ∈ refs a, Alive r t) : Steps r q.2 := by
  refine steps_newType h.new fun b hb hslot => ?_
  obtain ⟨rfl, hhash, hnone⟩ := hb hslot
  rw [hname]
  exact ⟨hhash, hnone, hunset, hrefs⟩

theorem alive_assures {name : Bytes} {a : GqlType} {r : TypeTable} {q : Except Err ℕ × TypeTable}
    (h : Assures name a r q) {t : ℕ} (ht : q.1 = .ok t) : Alive q.2 t := by
  obtain ⟨b, hb, hslot, -⟩ := alive_of_typeGet (h.found t ht)
  exact ⟨b, hb, hslot⟩

theorem steps_assureType (name : Bytes) (r : TypeTable) : Steps r ((gqlAssureType name).exec r).2 :=
  steps_assures (assures_type name r) rfl (fun _ => rfl) fun _ h => nomatch h

theorem steps_assureAround {kind : GqlKind} (hkind : kind ≠ .undef) {r : TypeTable} {base : ℕ}
    (hbase : Alive r base) (name : Bytes) : Steps r ((assureAround kind name base).exec r).2 := by
  refine steps_assures (assures_around kind name base r) rfl (fun h => absurd h hkind) fun t ht => ?_
  rw [List.mem_singleton.mp ht]
  exact hbase

/-! ## Types that are made -/

/-- A type that had no kind before is made. -/
def Makes (r : TypeTable) (q : Except Err ℕ × TypeTable) : Prop :=
  Steps r q.2 ∧ ∀ t, q.1 = .ok t → r.kind t = .undef ∧ Alive q.2 t

theorem makes_createWith {r : TypeTable} (hr : Sound r) {kind : GqlKind} (hkind : kind ≠ .undef)
    (m : Member) {members : Members} (hrefs : membersRefs members = []) (name : Bytes)
    (desc : Option Bytes) : Makes r ((createWith kind m members name desc).exec r) := by
  cases hget : r.typeGet name with
  | none =>
    obtain ⟨hhash, hok, htypes⟩ | ⟨-, ⟨e, he⟩, hnew⟩ := createWith_new hget kind m members desc
    · refine ⟨steps_newType (Or.inr ⟨_, htypes, rfl⟩) ?_, fun t ht => ?_⟩
      · rintro a rfl -
        refine ⟨hhash, hget, fun h => absurd h hkind, fun t ht => ?_⟩
        have hno : t ∈ membersRefs members := ht
        rw [hrefs] at hno
        cases hno
      · rw [hok] at ht
        obtain rfl := Except.ok.inj ht
        refine ⟨?_, ⟨name, desc, [], kind, false, true, members⟩, ?_, rfl⟩
        · unfold TypeTable.kind
          rw [List.getElem?_eq_none (Nat.le_refl _)]
          rfl
        · rw [htypes, List.getElem?_concat_length]
    · refine ⟨steps_newType hnew fun a ha hslot => ?_, fun t ht => ?_⟩
      · exact absurd (ha.symm.trans hslot) Bool.false_ne_true
      · rw [he] at ht
        cases ht
  | some t =>
    obtain ⟨a, ha, hslot, -⟩ := alive_of_typeGet hget
    unfold createWith
    rw [TableM.exec_bind]
    obtain ⟨hundef, hok⟩ | ⟨e, he⟩ := typeCreate_some hget kind desc
    · rw [hok]
      have hunset : a.members = .unset := hr.unset t a ha hslot ((kind_eq ha).symm.trans hundef)
      have htypes : ((r.update t fun type => { type with desc, kind }).store t m members).types =
          (r.update t fun type => { type with desc, kind, members }).types :=
        List.modify_modify_eq _ _ t r.types
      refine ⟨?_, fun t' ht' => ?_⟩
      · constructor
        · intro u b hb
          by_cases hu : u = t
          · subst hu
            obtain rfl := Option.some.inj (ha.symm.trans hb)
            refine ⟨{ a with desc, kind, members }, ?_, rfl, rfl, fun h => ?_, fun v hv => ?_,
              fun v hv => ?_, fun _ h => absurd h hkind⟩
            · exact htypes ▸ (getElem?_update_self r u _).trans (congrArg _ ha)
            · exact absurd ((kind_eq ha).symm.trans hundef) h
            · unfold refs at hv
              rw [hunset] at hv
              cases hv
            · have hno : v ∈ membersRefs members := hv
              rw [hrefs] at hno
              cases hno
          · exact ⟨b, htypes ▸ (getElem?_update_ne hu _).trans hb, Gets.refl _ b⟩
        · intro u b hb hu
          change ((r.update t fun type => { type with desc, kind }).store t m members).types[u]? =
            some b at hb
          rw [htypes] at hb
          by_cases hut : u = t
          · subst hut
            rw [hu] at ha
            cases ha
          · rw [getElem?_update_ne hut, hu] at hb
            cases hb
      · obtain rfl := Except.ok.inj ht'
        refine ⟨hundef, { a with desc, kind, members }, ?_, hslot⟩
        exact htypes ▸ (getElem?_update_self r t _).trans (congrArg _ ha)
    · rw [he]
      exact ⟨steps_of_types rfl, fun t ht => nomatch ht⟩

/-- The kinds of definitions. -/
def definedKinds : List GqlKind := [.schema, .object, .union, .enum, .input, .interface, .scalar]

theorem makes_gqlCreate {r : TypeTable} (hr : Sound r) {kind : GqlKind} (hkind : kind ∈ definedKinds)
    (name : Bytes) (desc : Option Bytes) : Makes r ((gqlCreate kind name desc).exec r) := by
  have hundef : kind ≠ .undef := by
    rintro rfl
    revert hkind
    decide
  cases kind with
  | schema => exact makes_createWith hr hundef _ rfl _ _
  | object => exact makes_createWith hr hundef _ rfl _ _
  | union => exact makes_createWith hr hundef _ rfl _ _
  | enum => exact makes_createWith hr hundef _ rfl _ _
  | input => exact makes_createWith hr hundef _ rfl _ _
  | interface => exact makes_createWith hr hundef _ rfl _ _
  | scalar => exact makes_createWith hr hundef _ rfl _ _
  | undef => exact absurd rfl hundef
  | frag => exact absurd hkind (by decide)
  | list => exact absurd hkind (by decide)
  | nonNull => exact absurd hkind (by decide)

/-! ## Types that are destroyed -/

/-- Only `t` changes, and loses its slot. -/
structure Drops (t : ℕ) (r q : TypeTable) : Prop where
  others : ∀ u, u ≠ t → q.types[u]? = r.types[u]?
  type : ∃ b, q.types[t]? = some b ∧ b.slot = false

/-- `type_clean` leaves the slot. -/
theorem typeClean_update (r : TypeTable) (t : ℕ) :
    ∃ f : GqlType → GqlType, (∀ a, (f a).slot = a.slot) ∧
      (r.typeClean t).types = (r.update t f).types := by
  have hstore : ∀ (m : Member) (members : Members),
      ∃ f : GqlType → GqlType, (∀ a, (f a).slot = a.slot) ∧
        ((r.update t fun type => { type with desc := none, dir := [] }).store t m members).types =
          (r.update t f).types := fun m members =>
    ⟨fun type => { type with desc := none, dir := [], members }, fun _ => rfl,
      List.modify_modify_eq _ _ t r.types⟩
  have hclear : ∃ f : GqlType → GqlType, (∀ a, (f a).slot = a.slot) ∧
      (r.update t fun type => { type with desc := none, dir := [] }).types = (r.update t f).types :=
    ⟨fun type => { type with desc := none, dir := [] }, fun _ => rfl, rfl⟩
  unfold typeClean
  dsimp only
  cases (r.update t fun type => { type with desc := none, dir := [] }).kind t with
  | schema => exact hstore _ _
  | object => exact hstore _ _
  | interface => exact hstore _ _
  | input => exact hstore _ _
  | union => exact hstore _ _
  | enum => exact hstore _ _
  | undef => exact hclear
  | frag => exact hclear
  | scalar => exact hclear
  | list => exact hclear
  | nonNull => exact hclear

/-- `gql_type_destroy` of a type with a slot. -/
theorem drops_typeDestroy {r : TypeTable} (hr : Sound r) {t : ℕ} (ht : Alive r t) :
    Drops t r (r.typeDestroy t) := by
  obtain ⟨a, ha, hslot⟩ := ht
  have hname : r.name t = a.name := by
    unfold TypeTable.name
    rw [ha]
    rfl
  have hremove : Drops t r (r.typeRemove t) := by
    unfold typeRemove
    rw [hname, hr.typeGet ha hslot]
    refine ⟨fun u hu => getElem?_update_ne hu _, { a with slot := false }, ?_, rfl⟩
    exact (getElem?_update_self r t _).trans (congrArg _ ha)
  unfold typeDestroy
  dsimp only
  split
  · exact hremove
  · obtain ⟨f, hf, htypes⟩ := typeClean_update (r.typeRemove t) t
    obtain ⟨b, hb, hgone⟩ := hremove.type
    refine ⟨fun u hu => ?_, f b, ?_, (hf b).trans hgone⟩
    · rw [htypes, getElem?_update_ne hu]
      exact hremove.others u hu
    · rw [htypes, getElem?_update_self, hb]
      rfl

theorem Drops.get {t : ℕ} {r q : TypeTable} (h : Drops t r q) {u : ℕ} {b : GqlType}
    (hb : q.types[u]? = some b) (hslot : b.slot = true) : u ≠ t ∧ r.types[u]? = some b := by
  have hne : u ≠ t := by
    rintro rfl
    obtain ⟨b', hb', hgone⟩ := h.type
    obtain rfl := Option.some.inj (hb.symm.trans hb')
    exact Bool.false_ne_true (hgone.symm.trans hslot)
  exact ⟨hne, h.others u hne ▸ hb⟩

theorem Drops.refers {t : ℕ} {r q : TypeTable} (h : Drops t r q) {u v : ℕ} (hu : u ≠ t)
    (hv : Refers r u v) : Refers q u v := by
  obtain ⟨a, ha, hrest⟩ := hv
  exact ⟨a, (h.others u hu).trans ha, hrest⟩

theorem Drops.kind {t : ℕ} {r q : TypeTable} (h : Drops t r q) {u : ℕ} (hu : u ≠ t) :
    q.kind u = r.kind u := by
  unfold TypeTable.kind
  rw [h.others u hu]

theorem Sound.drops {t : ℕ} {r q : TypeTable} (hr : Sound r) (h : Drops t r q) : Sound q := by
  refine ⟨fun u b hb hslot => ?_, fun u v b c hb hc hbs hcs => ?_, fun u b hb hslot => ?_⟩
  · exact hr.hash u b (h.get hb hslot).2 hslot
  · exact hr.unique u v b c (h.get hb hbs).2 (h.get hc hcs).2 hbs hcs
  · exact hr.unset u b (h.get hb hslot).2 hslot

/-- A type that refers to another one has a kind. -/
theorem Sound.kind_of_refers {r : TypeTable} (hr : Sound r) {u t : ℕ} (h : Refers r u t) :
    r.kind u ≠ .undef := by
  obtain ⟨a, ha, hslot, ht⟩ := h
  rw [kind_eq ha]
  intro hundef
  unfold refs at ht
  rw [hr.unset u a ha hslot hundef] at ht
  cases ht

end TypeRefs

end Agoo
