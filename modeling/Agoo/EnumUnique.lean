import Agoo.GqlInit
import Agoo.SdlHolds
import Agoo.TypeTableAdds
import Mathlib.Data.List.Nodup

/-!
# Values of enums

A value is compared with the choices there as the text from its first byte to the end of the document, so
that it is found among them only where nothing follows its name.

`unique_iff`: **after any texts the choices of every type are different, and the repeated values and no others
were refused, exactly when nothing followed the name of a repeated value.**
-/

namespace Agoo

open Agoo.Parser Scanner TypeTable

variable {text : Bytes} {α β : Type}

namespace EnumUnique

/-! ## What the other calls do to choices -/

def choicesOf : Members → List GqlEnumVal
  | .choices choices => choices
  | _ => []

/-- Every type keeps its choices, or has none left. -/
def Spares (r q : TypeTable) : Prop := ∀ t, q.choices t = r.choices t ∨ q.choices t = []

theorem choices_eq (r : TypeTable) (t : ℕ) :
    r.choices t = ((r.types[t]?.map fun a => choicesOf a.members).getD [] : List GqlEnumVal) := by
  unfold TypeTable.choices TypeTable.members choicesOf
  cases r.types[t]? with
  | none => rfl
  | some a =>
    obtain ⟨name, desc, dir, kind, core, slot, members⟩ := a
    cases members with
    | unset | fields | types | choices | args | base | funcs => rfl

theorem choices_of_types {r q : TypeTable} (h : q.types = r.types) (t : ℕ) : q.choices t = r.choices t := by
  rw [choices_eq, choices_eq, h]

theorem spares_of_types {r q : TypeTable} (h : q.types = r.types) : Spares r q :=
  fun t => .inl (choices_of_types h t)

theorem Spares.refl (r : TypeTable) : Spares r r := fun _ => .inl rfl

theorem Spares.trans {r q p : TypeTable} (h : Spares r q) (h' : Spares q p) : Spares r p := by
  intro t
  rcases h' t with hsame | hnil
  · rw [hsame]
    exact h t
  · exact .inr hnil

theorem choices_update (r : TypeTable) (t u : ℕ) (f : GqlType → GqlType) :
    (r.update t f).choices u =
      ((r.types[u]?.map fun a => choicesOf (if t = u then f a else a).members).getD [] : List GqlEnumVal) := by
  rw [choices_eq]
  unfold TypeTable.update
  dsimp only
  rw [List.getElem?_modify]
  cases r.types[u]? with
  | none => rfl
  | some a => rfl

theorem spares_update {r : TypeTable} {t : ℕ} {f : GqlType → GqlType}
    (h : ∀ a, choicesOf (f a).members = choicesOf a.members ∨ choicesOf (f a).members = []) :
    Spares r (r.update t f) := by
  intro u
  rw [choices_update, choices_eq]
  cases r.types[u]? with
  | none => exact .inl rfl
  | some a =>
    change choicesOf (if t = u then f a else a).members = choicesOf a.members ∨
      choicesOf (if t = u then f a else a).members = []
    split_ifs
    · exact h a
    · exact .inl rfl

theorem spares_addType {r : TypeTable} {a : GqlType} (h : choicesOf a.members = []) : Spares r (r.addType a) := by
  intro u
  rw [choices_eq, choices_eq]
  unfold addType
  dsimp only
  rw [List.getElem?_append]
  split_ifs with hlt
  · exact .inl rfl
  · right
    cases hu : u - r.types.length with
    | zero => exact h
    | succ n => rfl

theorem spares_store {r : TypeTable} {t : ℕ} {m : Member} {members : Members} (h : choicesOf members = []) :
    Spares r (r.store t m members) :=
  Spares.trans (spares_of_types rfl) (spares_update fun _ => .inr h)

theorem spares_typeClean (r : TypeTable) (t : ℕ) : Spares r (r.typeClean t) := by
  have hclear : Spares r (r.update t fun type => { type with desc := none, dir := [] }) :=
    spares_update fun _ => .inl rfl
  refine hclear.trans ?_
  unfold typeClean
  dsimp only
  generalize r.update t (fun type => { type with desc := none, dir := [] }) = q
  cases q.kind t with
  | schema => exact spares_store rfl
  | object => exact spares_store rfl
  | interface => exact spares_store rfl
  | input => exact spares_store rfl
  | union => exact spares_store rfl
  | enum => exact spares_store rfl
  | undef | frag | scalar | list | nonNull => exact Spares.refl q

theorem spares_typeDestroy (r : TypeTable) (t : ℕ) : Spares r (r.typeDestroy t) := by
  have hremove : Spares r (r.typeRemove t) := by
    unfold typeRemove
    cases r.typeGet (r.name t) with
    | none => exact Spares.refl r
    | some i => exact spares_update fun _ => .inl rfl
  refine hremove.trans ?_
  unfold typeDestroy
  dsimp only
  split
  · exact Spares.refl _
  · exact spares_typeClean _ t

/-- A call keeps the choices in the registry `r`. -/
def SparesAt (c : TableM α) (r : TypeTable) : Prop := Spares r (c.exec r).2

theorem sparesAt_bind {c : TableM α} {f : α → TableM β} {r : TypeTable} (h : SparesAt c r)
    (hf : ∀ a, SparesAt (f a) (c.exec r).2) : SparesAt (c >>= f) r := by
  unfold SparesAt at h ⊢
  rw [TableM.exec_bind]
  cases (c.exec r).1 with
  | ok a => exact h.trans (hf a)
  | error e => exact h

theorem sparesAt_typeCreate (kind : GqlKind) (name : Bytes) (desc : Option Bytes) (r : TypeTable) :
    SparesAt (typeCreate kind name desc) r := by
  unfold SparesAt
  cases hget : r.typeGet name with
  | none =>
    by_cases hhash : TypeTable.calcHash name = 0
    · rw [typeCreate_refused hget hhash]
      exact (spares_addType rfl).trans (spares_typeDestroy _ _)
    · rw [typeCreate_added hget hhash]
      exact spares_addType rfl
  | some t =>
    obtain ⟨-, hok⟩ | ⟨e, he⟩ := typeCreate_some hget kind desc
    · rw [hok]
      exact spares_update fun _ => .inl rfl
    · rw [he]
      exact Spares.refl r

theorem sparesAt_createWith {members : Members} (h : choicesOf members = []) (kind : GqlKind) (m : Member)
    (name : Bytes) (desc : Option Bytes) (r : TypeTable) :
    SparesAt (createWith kind m members name desc) r :=
  sparesAt_bind (sparesAt_typeCreate kind name desc r) fun _ =>
    sparesAt_bind (spares_store h) fun _ => Spares.refl _

theorem sparesAt_gqlCreate (kind : GqlKind) (name : Bytes) (desc : Option Bytes) (r : TypeTable) :
    SparesAt (gqlCreate kind name desc) r := by
  cases kind with
  | schema => exact sparesAt_createWith rfl _ _ _ _ r
  | object => exact sparesAt_createWith rfl _ _ _ _ r
  | union => exact sparesAt_createWith rfl _ _ _ _ r
  | enum => exact sparesAt_createWith rfl _ _ _ _ r
  | input => exact sparesAt_createWith rfl _ _ _ _ r
  | interface => exact sparesAt_createWith rfl _ _ _ _ r
  | scalar => exact sparesAt_createWith rfl _ _ _ _ r
  | undef | frag | list | nonNull => exact sparesAt_typeCreate _ _ _ r

theorem sparesAt_assureType (name : Bytes) (r : TypeTable) : SparesAt (gqlAssureType name) r := by
  unfold SparesAt gqlAssureType
  rw [TableM.exec_get]
  cases r.typeGet name with
  | none => exact sparesAt_typeCreate .undef name none r
  | some t => exact Spares.refl r

theorem sparesAt_assureAround (kind : GqlKind) (name : Bytes) (base : ℕ) (r : TypeTable) :
    SparesAt (assureAround kind name base) r := by
  by_cases hlen : 256 ≤ name.length
  · unfold SparesAt
    rw [exec_assureAround_long hlen]
    exact Spares.refl r
  · cases hget : r.typeGet name with
    | some t =>
      unfold SparesAt
      rw [exec_assureAround hlen hget]
      exact Spares.refl r
    | none =>
      unfold SparesAt
      rw [exec_assureAround_none hlen hget]
      exact sparesAt_createWith rfl _ _ _ _ r

theorem sparesAt_typeField (t : ℕ) (name : Bytes) (type : ℕ) (default : Option (GqlValue ℕ))
    (desc : Option Bytes) (dir : List (DirUse ℕ ℕ)) (r : TypeTable) :
    SparesAt (gqlTypeField t name type default desc dir) r := by
  refine Spares.trans (spares_of_types rfl : Spares r (r.access t .fields)) (spares_update fun owner => ?_)
  cases hm : owner.members with
  | fields fs is => exact .inr rfl
  | unset | types | choices | args | base | funcs => exact .inl (congrArg choicesOf hm)

theorem sparesAt_fieldArg (field : ℕ × ℕ) (name : Bytes) (type : ℕ) (desc : Option Bytes)
    (default : Option (GqlValue ℕ)) (r : TypeTable) :
    SparesAt (gqlFieldArg field name type desc default) r := by
  refine spares_update fun owner => ?_
  cases hm : owner.members with
  | fields fs is => exact .inr rfl
  | unset | types | choices | args | base | funcs => exact .inl (congrArg choicesOf hm)

theorem sparesAt_inputArg (t : ℕ) (name : Bytes) (type : ℕ) (desc : Option Bytes)
    (default : Option (GqlValue ℕ)) (dir : List (DirUse ℕ ℕ)) (r : TypeTable) :
    SparesAt (gqlInputArg t name type desc default dir) r := by
  refine Spares.trans (spares_of_types rfl : Spares r (r.access t .args)) (spares_update fun owner => ?_)
  cases hm : owner.members with
  | args as => exact .inr rfl
  | unset | fields | types | choices | base | funcs => exact .inl (congrArg choicesOf hm)

theorem sparesAt_unionAdd (t member : ℕ) (r : TypeTable) : SparesAt (gqlUnionAdd t member) r := by
  refine Spares.trans (spares_of_types rfl : Spares r (r.access t .types)) (spares_update fun owner => ?_)
  cases hm : owner.members with
  | types ts => exact .inr rfl
  | unset | fields | choices | args | base | funcs => exact .inl (congrArg choicesOf hm)

theorem spares_addInterface (t interface : ℕ) (r : TypeTable) : Spares r (addInterface t interface r) := by
  refine Spares.trans (spares_of_types rfl : Spares r (r.access t .fields)) (spares_update fun owner => ?_)
  cases hm : owner.members with
  | fields fs is => exact .inr rfl
  | unset | types | choices | args | base | funcs => exact .inl (congrArg choicesOf hm)

/-! ## Calls of `gql_enum_append` -/

/-- A call of `gql_enum_append`, and the registry before. -/
structure Append where
  table : TypeTable
  type : ℕ
  value : Bytes
  len : ℕ
  desc : Option Bytes
  dir : List (DirUse ℕ ℕ)

namespace Append

def run (a : Append) : Except Err Unit × TypeTable :=
  (gqlEnumAppend a.type a.value a.len a.desc a.dir).exec a.table

/-- The value that is stored, if any is. -/
def stored (a : Append) : Bytes := if a.len = 0 then a.value else a.value.take a.len

/-- The value is among the choices. -/
def Repeats (a : Append) : Prop := a.stored ∈ (a.table.choices a.type).map (·.value)

instance (a : Append) : Decidable a.Repeats := inferInstanceAs (Decidable (_ ∈ _))

/-- The call gives an error. -/
def rejected (a : Append) : Bool := !a.run.1.isOk

/-- Nothing follows the name of the value, if it is a repeated one. -/
def Ends (a : Append) : Prop := a.Repeats → a.value = a.stored

instance (a : Append) : Decidable a.Ends := inferInstanceAs (Decidable (_ → _))

/-- What is compared is the rest of the text. -/
theorem run_cases (a : Append) :
    (a.value ∈ (a.table.choices a.type).map (·.value) ∧ a.rejected = true ∧
        ∀ u, a.run.2.choices u = a.table.choices u) ∨
      (a.value ∉ (a.table.choices a.type).map (·.value) ∧ a.rejected = false ∧
        ∀ u, a.run.2.choices u = a.table.choices u ∨
          u = a.type ∧ a.run.2.choices u = a.table.choices u ++ [⟨a.stored, a.desc, a.dir⟩]) := by
  have hset : ∀ (q : TypeTable) (f : PUnit → TableM Unit),
      ((set q : TableM PUnit) >>= f).exec a.table = (f ⟨⟩).exec q := fun _ _ => rfl
  have hany : ((a.table.access a.type .choices).choices a.type).any (·.value == a.value) = true ↔
      a.value ∈ (a.table.choices a.type).map (·.value) := by
    have hsame : (a.table.access a.type .choices).choices a.type = a.table.choices a.type :=
      choices_of_types rfl a.type
    rw [hsame, List.any_eq_true, List.mem_map]
    simp only [beq_iff_eq]
  unfold rejected run gqlEnumAppend
  rw [TableM.exec_get, hset]
  by_cases hin : a.value ∈ (a.table.choices a.type).map (·.value)
  · rw [if_pos (hany.mpr hin)]
    exact .inl ⟨hin, rfl, choices_of_types rfl⟩
  · rw [if_neg fun h => hin (hany.mp h)]
    refine .inr ⟨hin, rfl, fun u => ?_⟩
    change ((a.table.access a.type .choices).update a.type _).choices u = _ ∨ _ ∧
      ((a.table.access a.type .choices).update a.type _).choices u = _
    rw [choices_update, choices_eq]
    change ((a.table.types[u]?.map _).getD [] : List GqlEnumVal) = _ ∨ _ ∧
      ((a.table.types[u]?.map _).getD [] : List GqlEnumVal) = _
    cases a.table.types[u]? with
    | none => exact .inl rfl
    | some owner =>
      by_cases hu : a.type = u
      · simp only [Option.map_some, Option.getD_some, if_pos hu]
        cases hm : owner.members with
        | choices cs => exact .inr ⟨hu.symm, rfl⟩
        | unset | fields | types | args | base | funcs => exact .inl (congrArg choicesOf hm)
      · simp only [Option.map_some, Option.getD_some, if_neg hu]
        exact .inl trivial

end Append

/-! ## The verdict -/

/-- A value is a name, or no name begins it. -/
def Whole (value : Bytes) : Prop := tokenLen value = 0 ∨ tokenLen value = value.length

instance (value : Bytes) : Decidable (Whole value) := inferInstanceAs (Decidable (_ ∨ _))

def AllWhole (r : TypeTable) : Prop := ∀ t, ∀ c ∈ r.choices t, Whole c.value

/-- No type has a value twice among its choices. -/
def Unique (r : TypeTable) : Prop := ∀ t, ((r.choices t).map (·.value)).Nodup

theorem AllWhole.spares {r q : TypeTable} (h : AllWhole r) (hq : Spares r q) : AllWhole q := by
  intro t c hc
  rcases hq t with hsame | hnil
  · rw [hsame] at hc
    exact h t c hc
  · rw [hnil] at hc
    cases hc

theorem Unique.spares {r q : TypeTable} (h : Unique r) (hq : Spares r q) : Unique q := by
  intro t
  rcases hq t with hsame | hnil
  · rw [hsame]
    exact h t
  · rw [hnil]
    exact List.nodup_nil

/-- What follows the name in a text is not read with it. -/
theorem tokenLen_take (value : Bytes) : tokenLen (value.take (tokenLen value)) = tokenLen value := by
  cases value with
  | nil => rfl
  | cons b rest =>
    by_cases hb : isToken b ∧ chr '9' < b
    · have hlen : tokenLen (b :: rest) = 1 + (rest.takeWhile isToken).length := if_pos hb
      have htake : (b :: rest).take (1 + (rest.takeWhile isToken).length) = b :: rest.takeWhile isToken := by
        rw [Nat.add_comm, List.take_succ_cons]
        exact congrArg (b :: ·) (List.prefix_iff_eq_take.mp (List.takeWhile_prefix _)).symm
      rw [hlen, htake]
      change (if isToken b ∧ chr '9' < b then _ else 0) = _
      rw [if_pos hb, List.takeWhile_takeWhile]
      simp
    · have hlen : tokenLen (b :: rest) = 0 := if_neg hb
      rw [hlen]
      rfl

namespace Append

/-- A call for the name at the beginning of a text, on a registry of names. -/
structure Reads (a : Append) : Prop where
  len : a.len = tokenLen a.value
  whole : AllWhole a.table

theorem Reads.stored_whole {a : Append} (h : a.Reads) : Whole a.stored := by
  unfold stored
  rw [h.len]
  split_ifs with hzero
  · exact .inl hzero
  · right
    rw [tokenLen_take, List.length_take]
    exact (Nat.min_eq_left (tokenLen_le a.value)).symm

/-- A text that is among the choices is a name with nothing behind it. -/
theorem Reads.ends {a : Append} (h : a.Reads) (hin : a.value ∈ (a.table.choices a.type).map (·.value)) :
    a.value = a.stored := by
  obtain ⟨c, hc, hvalue⟩ := List.mem_map.mp hin
  have hwhole := h.whole a.type c hc
  rw [hvalue] at hwhole
  unfold stored
  rw [h.len]
  rcases hwhole with hzero | hlen
  · rw [if_pos hzero]
  · rw [hlen, List.take_length, ite_self]

/-- A value that is no repeated one is never rejected. -/
theorem Reads.repeats {a : Append} (h : a.Reads) (hrej : a.rejected = true) : a.Repeats := by
  rcases a.run_cases with ⟨hin, -, -⟩ | ⟨-, hacc, -⟩
  · unfold Repeats
    rw [← h.ends hin]
    exact hin
  · exact absurd (hrej.symm.trans hacc) (by decide)

/-- A repeated value is rejected exactly when nothing follows it. -/
theorem Reads.verdict_iff {a : Append} (h : a.Reads) : (a.rejected = true ↔ a.Repeats) ↔ a.Ends := by
  constructor
  · intro hverdict hrep
    rcases a.run_cases with ⟨hin, -, -⟩ | ⟨-, hacc, -⟩
    · exact h.ends hin
    · exact absurd ((hverdict.mpr hrep).symm.trans hacc) (by decide)
  · intro hends
    refine ⟨h.repeats, fun hrep => ?_⟩
    have heq := hends hrep
    rcases a.run_cases with ⟨-, hrej, -⟩ | ⟨hout, -, -⟩
    · exact hrej
    · refine absurd hrep ?_
      unfold Repeats
      rwa [← heq]

/-- Where nothing follows a repeated value, the choices stay different. -/
theorem Ends.unique {a : Append} (h : a.Ends) (hunique : Unique a.table) : Unique a.run.2 := by
  intro u
  rcases a.run_cases with ⟨-, -, hsame⟩ | ⟨hout, -, hadd⟩
  · rw [hsame u]
    exact hunique u
  · rcases hadd u with hsame | ⟨rfl, hadd⟩
    · rw [hsame]
      exact hunique u
    · have hnew : a.stored ∉ (a.table.choices a.type).map (·.value) :=
        fun hrep => hout (by rw [h hrep]; exact hrep)
      rw [hadd, List.map_append]
      refine List.nodup_append.mpr ⟨hunique _, List.nodup_singleton _, ?_⟩
      intro v hv w hw heq
      rw [heq, List.mem_singleton.mp hw] at hv
      exact hnew hv

theorem Reads.all_whole {a : Append} (h : a.Reads) : AllWhole a.run.2 := by
  intro u c hc
  rcases a.run_cases with ⟨-, -, hsame⟩ | ⟨-, -, hadd⟩
  · rw [hsame u] at hc
    exact h.whole u c hc
  · rcases hadd u with hsame | ⟨rfl, hadd⟩
    · rw [hsame] at hc
      exact h.whole u c hc
    · rw [hadd] at hc
      rcases List.mem_append.mp hc with hc | hc
      · exact h.whole _ c hc
      · obtain rfl := List.mem_singleton.mp hc
        exact h.stored_whole

end Append

/-! ## A registry that records the values -/

structure Watched where
  table : TypeTable
  appends : List Append

/-- A call on the registry beside the record. -/
def watchedCall (f : TypeTable → Except Err α × TypeTable) (w : Watched) : Except Err α × Watched :=
  ((f w.table).1, { w with table := (f w.table).2 })

/-- A call of `gql_enum_append`, and its record. -/
def watchedAppend (t : ℕ) (value : Bytes) (len : ℕ) (desc : Option Bytes) (dir : List (DirUse ℕ ℕ))
    (w : Watched) : Except Err Unit × Watched :=
  let a : Append := ⟨w.table, t, value, len, desc, dir⟩
  (a.run.1, ⟨a.run.2, a :: w.appends⟩)

/-- The functions of `graphql.c`, with a record of the values that are added to enums. -/
def watched (reg : Registry TypeTable ℕ ℕ (ℕ × ℕ)) : Registry Watched ℕ ℕ (ℕ × ℕ) where
  typeGet w := reg.typeGet w.table
  kind w := reg.kind w.table
  base w := reg.base w.table
  name w := reg.name w.table
  fields w := reg.fields w.table
  stringType := reg.stringType
  rootType w := reg.rootType w.table
  typeCreate kind name desc := watchedCall (reg.typeCreate kind name desc)
  typeDestroy t w := { w with table := reg.typeDestroy t w.table }
  assureType name := watchedCall (reg.assureType name)
  assureList t := watchedCall (reg.assureList t)
  assureNonnull t := watchedCall (reg.assureNonnull t)
  typeSetDir t uses w := { w with table := reg.typeSetDir t uses w.table }
  typeAddDir t use w := { w with table := reg.typeAddDir t use w.table }
  addInterface t interface w := { w with table := reg.addInterface t interface w.table }
  assureDirective name := watchedCall (reg.assureDirective name)
  enumAppend t value len desc dir := watchedAppend t value len desc dir
  unionAdd t member := watchedCall (reg.unionAdd t member)
  directiveCreate name desc := watchedCall (reg.directiveCreate name desc)
  dirArg dir name type desc dval := watchedCall (reg.dirArg dir name type desc dval)
  directiveOn dir on := watchedCall (reg.directiveOn dir on)
  typeField t name type dval desc uses := watchedCall (reg.typeField t name type dval desc uses)
  fieldArg field name type desc dval := watchedCall (reg.fieldArg field name type desc dval)
  inputArg t name type desc dval uses := watchedCall (reg.inputArg t name type desc dval uses)

/-- A run of `sdl_parse` on a text. -/
def parse (root : TypeTable → Option ℕ) (fuel : ℕ) (text : Bytes) (r : TypeTable) :
    Outcome Unit × DocState text Watched :=
  (sdlParse (watched (gqlRegistry root)) fuel).run (docInit text none ⟨r, []⟩)

/-- A text that was read: whether it was accepted, and the values in it. -/
structure Reading where
  accepted : Bool
  appends : List Append

def isOk : Outcome Unit → Bool
  | .ok _ => true
  | _ => false

def reading (root : TypeTable → Option ℕ) (fuel : ℕ) (text : Bytes) (r : TypeTable) : Reading :=
  ⟨isOk (parse root fuel text r).1, (parse root fuel text r).2.user.reg.appends⟩

/-- The registries that come from `gql_init` by reading texts, whether they are accepted or not. -/
inductive Reached (root : TypeTable → Option ℕ) : List Reading → TypeTable → Prop
  | init : Reached root [] gqlInit
  | parse (text : Bytes) (fuel : ℕ) {rs : List Reading} {r : TypeTable} (h : Reached root rs r) :
      Reached root (reading root fuel text r :: rs) (parse root fuel text r).2.user.reg.table

/-- The choices were different before and after every value, a value was refused if and only if it was a
repeated one, and with it the text. -/
structure Reading.Right (rd : Reading) : Prop where
  unique : ∀ a ∈ rd.appends, Unique a.table ∧ Unique a.run.2
  verdict : ∀ a ∈ rd.appends, a.rejected = true ↔ a.Repeats
  refused : ∀ a ∈ rd.appends, a.rejected = true → rd.accepted = false

/-! ## What is kept -/

/-- The values are names, and if nothing followed a repeated one, the choices are different; `P` says so of
earlier texts. -/
structure Held (P : Prop) (w : Watched) : Prop where
  whole : AllWhole w.table
  reads : ∀ a ∈ w.appends, a.Reads
  unique : P → (∀ a ∈ w.appends, a.Ends) → Unique w.table ∧ ∀ a ∈ w.appends, Unique a.table

/-- And no value was refused. -/
def Accepting (P : Prop) (w : Watched) : Prop := Held P w ∧ ∀ a ∈ w.appends, a.rejected = false

variable {P : Prop}

theorem Held.spares {w : Watched} (h : Held P w) {q : TypeTable} (hq : Spares w.table q) :
    Held P { w with table := q } where
  whole := h.whole.spares hq
  reads := h.reads
  unique hP hends := ⟨(h.unique hP hends).1.spares hq, (h.unique hP hends).2⟩

theorem Accepting.spares {w : Watched} (h : Accepting P w) {q : TypeTable} (hq : Spares w.table q) :
    Accepting P { w with table := q } := ⟨h.1.spares hq, h.2⟩

theorem keeps_call {f : TypeTable → Except Err α × TypeTable} (h : ∀ r, Spares r (f r).2) :
    Keeps (Accepting P) (watchedCall f) := fun w hw => hw.spares (h w.table)

/-- A value that was read is added, or refused. -/
theorem gives_append (t : ℕ) (value : Bytes) (desc : Option Bytes) (dir : List (DirUse ℕ ℕ)) :
    Gives (Accepting P) (fun _ => Accepting P) (Held P) (watchedAppend t value (tokenLen value) desc dir) := by
  intro w hw
  let a : Append := ⟨w.table, t, value, tokenLen value, desc, dir⟩
  have hreads : a.Reads := ⟨rfl, hw.1.whole⟩
  have hheld : Held P ⟨a.run.2, a :: w.appends⟩ := by
    refine ⟨hreads.all_whole, List.forall_mem_cons.mpr ⟨hreads, hw.1.reads⟩, fun hP hends => ?_⟩
    rw [List.forall_mem_cons] at hends
    obtain ⟨hunique, hall⟩ := hw.1.unique hP hends.2
    exact ⟨hends.1.unique hunique, List.forall_mem_cons.mpr ⟨hunique, hall⟩⟩
  constructor
  · intro u hok
    have hacc : a.rejected = false := by
      unfold Append.rejected
      rw [show a.run.1 = .ok u from hok]
      rfl
    exact ⟨hheld, List.forall_mem_cons.mpr ⟨hacc, hw.2⟩⟩
  · intro e _
    exact hheld

theorem keepsAll (root : TypeTable → Option ℕ) :
    KeepsAll (watched (gqlRegistry root)) (Accepting P) (Held P) := by
  have hcalls : KeepsCalls (watched (gqlRegistry root)) (Accepting P) :=
    ⟨fun name => keeps_call fun r => sparesAt_assureType name r,
      fun t => keeps_call fun r => sparesAt_assureAround _ _ t r,
      fun t => keeps_call fun r => sparesAt_assureAround _ _ t r,
      fun name => keeps_call fun r => spares_of_types (types_assureDirective name r)⟩
  exact
    { types := ⟨fun _ h => h.1, fun _ _ h => h, fun _ => hcalls,
        fun t _ _ h => h.spares (spares_update fun _ => .inl rfl),
        fun t _ _ h => h.spares (spares_update fun _ => .inl rfl),
        fun t w h => h.spares (spares_typeDestroy w.table t),
        fun t w h => h.spares (spares_typeDestroy w.table t)⟩
      calls := hcalls
      typeCreate := fun kind name desc => keeps_call fun r => sparesAt_gqlCreate kind name desc r
      addInterface := fun t interface w h => h.spares (spares_addInterface t interface w.table)
      enumAppend := gives_append
      unionAdd := fun t member => keeps_call fun r => sparesAt_unionAdd t member r
      directiveCreate := fun name desc => keeps_call fun r => spares_of_types (types_directiveCreate name desc r)
      dirArg := fun _ _ _ _ _ => keeps_call fun _ => spares_of_types rfl
      directiveOn := fun _ _ => keeps_call fun _ => spares_of_types rfl
      typeField := fun t name type dval desc uses => keeps_call fun r =>
        sparesAt_typeField t name type dval desc uses r
      fieldArg := fun field name type desc dval => keeps_call fun r =>
        sparesAt_fieldArg field name type desc dval r
      inputArg := fun t name type desc dval uses => keeps_call fun r =>
        sparesAt_inputArg t name type desc dval uses r }

/-! ## Runs -/

/-- What a text leaves, and an accepted one. -/
theorem parse_held (root : TypeTable → Option ℕ) (fuel : ℕ) (text : Bytes) {r : TypeTable}
    (h : Held P ⟨r, []⟩) :
    Held P (parse root fuel text r).2.user.reg ∧
      (isOk (parse root fuel text r).1 = true →
        ∀ a ∈ (parse root fuel text r).2.user.reg.appends, a.rejected = false) := by
  have hall : KeepsAll (watched (gqlRegistry root)) (Accepting P) (Held P) := keepsAll root
  have hholds : Holds (Accepting P) (Held P) (sdlParse (watched (gqlRegistry root)) fuel :
      Parser text Watched Unit) := holds_sdlParse hall.types.fails fun b => hall.definesAll b.1 b.2
  have hrun := hholds (docInit text none ⟨r, []⟩) ⟨h, fun a ha => absurd ha List.not_mem_nil⟩
  change Leaves _ _ (parse root fuel text r) at hrun
  generalize parse root fuel text r = q at hrun
  obtain ⟨o, s'⟩ := q
  cases o with
  | ok u => exact ⟨hrun.1, fun _ => hrun.2⟩
  | fail => exact ⟨hrun, fun hok => absurd hok Bool.false_ne_true⟩
  | fault => exact ⟨hrun, fun hok => absurd hok Bool.false_ne_true⟩
  | crash => exact ⟨hrun, fun hok => absurd hok Bool.false_ne_true⟩
  | timeout => exact ⟨hrun, fun hok => absurd hok Bool.false_ne_true⟩

/-- What holds of texts and of the registry behind them. -/
structure Sound (rs : List Reading) (r : TypeTable) : Prop where
  whole : AllWhole r
  reads : ∀ rd ∈ rs, ∀ a ∈ rd.appends, a.Reads
  unique : (∀ rd ∈ rs, ∀ a ∈ rd.appends, a.Ends) → Unique r ∧ ∀ rd ∈ rs, ∀ a ∈ rd.appends, Unique a.table
  refused : ∀ rd ∈ rs, ∀ a ∈ rd.appends, a.rejected = true → rd.accepted = false

theorem sound_init : Sound [] gqlInit := by
  have hchoices : ∀ a ∈ gqlInit.types, (∀ c ∈ choicesOf a.members, Whole c.value) ∧
      ((choicesOf a.members).map (·.value)).Nodup := by decide +kernel
  have hat : ∀ t, (∀ c ∈ gqlInit.choices t, Whole c.value) ∧ ((gqlInit.choices t).map (·.value)).Nodup := by
    intro t
    rw [choices_eq]
    cases ht : gqlInit.types[t]? with
    | none => exact ⟨fun c hc => absurd hc List.not_mem_nil, List.nodup_nil⟩
    | some a => exact hchoices a (List.mem_of_getElem? ht)
  exact ⟨fun t => (hat t).1, fun rd hrd => absurd hrd List.not_mem_nil,
    fun _ => ⟨fun t => (hat t).2, fun rd hrd => absurd hrd List.not_mem_nil⟩,
    fun rd hrd => absurd hrd List.not_mem_nil⟩

theorem Sound.parse {rs : List Reading} {r : TypeTable} (h : Sound rs r) (root : TypeTable → Option ℕ)
    (fuel : ℕ) (text : Bytes) :
    Sound (reading root fuel text r :: rs) (parse root fuel text r).2.user.reg.table := by
  have hstart : Held (∀ rd ∈ rs, ∀ a ∈ rd.appends, a.Ends) ⟨r, []⟩ :=
    ⟨h.whole, fun a ha => absurd ha List.not_mem_nil,
      fun hP _ => ⟨(h.unique hP).1, fun a ha => absurd ha List.not_mem_nil⟩⟩
  obtain ⟨hheld, hok⟩ := parse_held root fuel text hstart
  refine ⟨hheld.whole, List.forall_mem_cons.mpr ⟨hheld.reads, h.reads⟩, fun hends => ?_,
    List.forall_mem_cons.mpr ⟨fun a ha hrej => ?_, h.refused⟩⟩
  · rw [List.forall_mem_cons] at hends
    obtain ⟨hunique, happends⟩ := hheld.unique hends.2 hends.1
    exact ⟨hunique, List.forall_mem_cons.mpr ⟨happends, (h.unique hends.2).2⟩⟩
  · refine Bool.eq_false_iff.mpr fun hacc => ?_
    exact absurd (hrej.symm.trans (hok hacc a ha)) (by decide)

theorem Reached.sound {root : TypeTable → Option ℕ} {rs : List Reading} {r : TypeTable}
    (h : Reached root rs r) : Sound rs r := by
  induction h with
  | init => exact sound_init
  | parse text fuel _ ih => exact ih.parse root fuel text

theorem Sound.right_iff {rs : List Reading} {r : TypeTable} (h : Sound rs r) :
    (Unique r ∧ ∀ rd ∈ rs, rd.Right) ↔ ∀ rd ∈ rs, ∀ a ∈ rd.appends, a.Ends := by
  constructor
  · rintro ⟨-, hright⟩ rd hrd a ha
    exact (h.reads rd hrd a ha).verdict_iff.mp ((hright rd hrd).verdict a ha)
  · intro hends
    obtain ⟨hunique, happends⟩ := h.unique hends
    refine ⟨hunique, fun rd hrd => ⟨fun a ha => ?_, fun a ha => ?_, h.refused rd hrd⟩⟩
    · exact ⟨happends rd hrd a ha, (hends rd hrd a ha).unique (happends rd hrd a ha)⟩
    · exact (h.reads rd hrd a ha).verdict_iff.mpr (hends rd hrd a ha)

/-- **After any texts the choices of every type are and were different, and the repeated values and no others
were refused, with their texts, exactly when nothing followed the name of a repeated value.** -/
theorem unique_iff {root : TypeTable → Option ℕ} {rs : List Reading} {r : TypeTable} (h : Reached root rs r) :
    (Unique r ∧ ∀ rd ∈ rs, rd.Right) ↔ ∀ rd ∈ rs, ∀ a ∈ rd.appends, a.Ends :=
  h.sound.right_iff

/-- A definition and an extension with another value. -/
def colorText : Bytes := bytes "enum Color \x7b RED \x7d extend enum Color \x7b BLUE \x7d"

theorem colors_differ :
    Unique (parse (fun _ => none) 40 colorText gqlInit).2.user.reg.table ∧
      ∀ rd ∈ [reading (fun _ => none) 40 colorText gqlInit], rd.Right :=
  (unique_iff (.parse colorText 40 .init)).mpr (by decide +kernel)

/-- A definition with a value twice. -/
def twiceText : Bytes := bytes "enum Color \x7b RED RED \x7d"

/-- It is accepted, and the enum has the value twice. -/
theorem twice_accepted :
    Reached (fun _ => none) [reading (fun _ => none) 40 twiceText gqlInit]
      (parse (fun _ => none) 40 twiceText gqlInit).2.user.reg.table ∧
    (reading (fun _ => none) 40 twiceText gqlInit).accepted = true ∧
    ((parse (fun _ => none) 40 twiceText gqlInit).2.user.reg.table.choices gqlInit.types.length).map (·.value) =
      [bytes "RED", bytes "RED"] ∧
    ¬ (Unique (parse (fun _ => none) 40 twiceText gqlInit).2.user.reg.table ∧
      ∀ rd ∈ [reading (fun _ => none) 40 twiceText gqlInit], rd.Right) := by
  have hrun : Reached (fun _ => none) [reading (fun _ => none) 40 twiceText gqlInit]
      (parse (fun _ => none) 40 twiceText gqlInit).2.user.reg.table := .parse twiceText 40 .init
  -- The text is read once for all three.
  have hread : (reading (fun _ => none) 40 twiceText gqlInit).accepted = true ∧
      ((parse (fun _ => none) 40 twiceText gqlInit).2.user.reg.table.choices gqlInit.types.length).map (·.value) =
        [bytes "RED", bytes "RED"] ∧
      ¬ ∀ rd ∈ [reading (fun _ => none) 40 twiceText gqlInit], ∀ a ∈ rd.appends, a.Ends := by decide +kernel
  refine ⟨hrun, hread.1, hread.2.1, ?_⟩
  rw [hrun.sound.right_iff]
  exact hread.2.2

end EnumUnique

end Agoo
