import Agoo.SdlHolds
import Agoo.TypeRefs

/-!
# Types that are destroyed

A definition that fails destroys its type, and frees it, whoever refers to it: types that were read
before it, and the list and non-null types around it that the definition itself has made.

`intact_iff`: **after any texts no type that can be reached was destroyed exactly when no definition
failed whose type another one in the registry referred to.**
-/

namespace Agoo

open Agoo.Parser Scanner TypeTable TypeRefs

variable {text : Bytes} {α β : Type}

namespace SdlDestroy

/-! ## A registry that records what is destroyed -/

/-- A type that was destroyed, and the registry before. -/
structure Destroyed where
  type : ℕ
  table : TypeTable

/-- No other type referred to it. -/
def Destroyed.Apart (d : Destroyed) : Prop := ∀ u, u ≠ d.type → ¬ Refers d.table u d.type

instance : DecidablePred Destroyed.Apart := fun d =>
  decidable_of_iff (∀ u < d.table.types.length, u ≠ d.type → ¬ Refers d.table u d.type)
    ⟨fun h u hu ht => h u ht.lt hu ht, fun h u _ => h u⟩

structure Watched where
  table : TypeTable
  destroyed : List Destroyed

/-- No type that can be reached was destroyed. -/
def Watched.Intact (w : Watched) : Prop :=
  ∀ t, Reachable w.table t → ∀ d ∈ w.destroyed, d.type ≠ t

/-- A call on the registry beside the record. -/
def watchedCall (f : TypeTable → Except Err α × TypeTable) (w : Watched) : Except Err α × Watched :=
  ((f w.table).1, { w with table := (f w.table).2 })

/-- The functions of `graphql.c`, with a record of what the parser destroys. -/
def watched (reg : Registry TypeTable ℕ ℕ (ℕ × ℕ)) : Registry Watched ℕ ℕ (ℕ × ℕ) where
  typeGet w := reg.typeGet w.table
  kind w := reg.kind w.table
  base w := reg.base w.table
  name w := reg.name w.table
  fields w := reg.fields w.table
  stringType := reg.stringType
  rootType w := reg.rootType w.table
  typeCreate kind name desc := watchedCall (reg.typeCreate kind name desc)
  typeDestroy t w := ⟨reg.typeDestroy t w.table, ⟨t, w.table⟩ :: w.destroyed⟩
  assureType name := watchedCall (reg.assureType name)
  assureList t := watchedCall (reg.assureList t)
  assureNonnull t := watchedCall (reg.assureNonnull t)
  typeSetDir t uses w := { w with table := reg.typeSetDir t uses w.table }
  typeAddDir t use w := { w with table := reg.typeAddDir t use w.table }
  addInterface t interface w := { w with table := reg.addInterface t interface w.table }
  assureDirective name := watchedCall (reg.assureDirective name)
  enumAppend t value len desc uses := watchedCall (reg.enumAppend t value len desc uses)
  unionAdd t member := watchedCall (reg.unionAdd t member)
  directiveCreate name desc := watchedCall (reg.directiveCreate name desc)
  dirArg dir name type desc dval := watchedCall (reg.dirArg dir name type desc dval)
  directiveOn dir on := watchedCall (reg.directiveOn dir on)
  typeField t name type dval desc uses := watchedCall (reg.typeField t name type dval desc uses)
  fieldArg field name type desc dval := watchedCall (reg.fieldArg field name type desc dval)
  inputArg t name type desc dval uses := watchedCall (reg.inputArg t name type desc dval uses)

/-- The registry after `sdl_parse` on a text. -/
def parsed (root : TypeTable → Option ℕ) (fuel : ℕ) (text : Bytes) (w : Watched) : Watched :=
  ((sdlParse (watched (gqlRegistry root)) fuel).run (docInit text none w)).2.user.reg

/-- The registries that come from `gql_init` by reading texts, whether they are accepted or not. -/
inductive Reached (root : TypeTable → Option ℕ) : Watched → Prop
  | init : Reached root ⟨gqlInit, []⟩
  | parse (text : Bytes) (fuel : ℕ) {w : Watched} (h : Reached root w) :
      Reached root (parsed root fuel text w)

/-! ## What is kept -/

/-- Destroyed types have no slot. If no other type referred to any of them, references lead to types with
slots; and one that was referred to still is, by another type than `made`, which may be destroyed. -/
structure Inv (w : Watched) (made : Option ℕ) : Prop where
  sound : Sound w.table
  gone : ∀ d ∈ w.destroyed, ∃ a, w.table.types[d.type]? = some a ∧ a.slot = false
  alive : (∀ d ∈ w.destroyed, d.Apart) → ∀ u t, Refers w.table u t → Alive w.table t
  held : ∀ d ∈ w.destroyed, ¬ d.Apart →
    ∃ u, some u ≠ made ∧ w.table.kind u ≠ .undef ∧ Refers w.table u d.type

/-- Where no destroyed type was referred to, what can be reached has its slot. -/
theorem Inv.reachable {w : Watched} {made : Option ℕ} (h : Inv w made)
    (hapart : ∀ d ∈ w.destroyed, d.Apart) {t : ℕ} (ht : Reachable w.table t) : Alive w.table t := by
  induction ht with
  | found hget =>
    obtain ⟨a, ha, hslot, -⟩ := alive_of_typeGet hget
    exact ⟨a, ha, hslot⟩
  | ref hu ha ht ih =>
    obtain ⟨b, hb, hslot⟩ := ih
    obtain rfl := Option.some.inj (ha.symm.trans hb)
    exact h.alive hapart _ _ ⟨_, ha, hslot, ht⟩

theorem Inv.intact_apart {w : Watched} {made : Option ℕ} (h : Inv w made) :
    w.Intact ↔ ∀ d ∈ w.destroyed, d.Apart := by
  constructor
  · intro hintact d hd
    by_contra hno
    obtain ⟨u, -, -, a, ha, hslot, ht⟩ := h.held d hd hno
    exact hintact d.type (.ref (.found (h.sound.typeGet ha hslot)) ha ht) d hd rfl
  · intro hapart t ht d hd hdt
    obtain ⟨a, ha, hslot⟩ := h.reachable hapart ht
    obtain ⟨b, hb, hgone⟩ := h.gone d hd
    rw [hdt, ha] at hb
    obtain rfl := Option.some.inj hb
    exact Bool.false_ne_true (hgone.symm.trans hslot)

theorem Inv.steps {w : Watched} {made : Option ℕ} (hw : Inv w made) {q : TypeTable}
    (h : Steps w.table q) : Inv ⟨q, w.destroyed⟩ made := by
  refine ⟨hw.sound.steps h, fun d hd => ?_, fun hapart u t ht => ?_, fun d hd hno => ?_⟩
  · obtain ⟨a, ha, hgone⟩ := hw.gone d hd
    obtain ⟨b, hb, hab⟩ := h.old d.type a ha
    exact ⟨b, hb, hab.slot.trans hgone⟩
  · obtain ⟨b, hb, hslot, hmem⟩ := ht
    refine h.alive ?_
    rcases h.cases hb with ⟨a, ha, hab⟩ | hu
    · exact (hab.gets t hmem).elim
        (fun hold => hw.alive hapart u t ⟨a, ha, hab.slot ▸ hslot, hold⟩) id
    · exact (h.new u b hb hu hslot).2.2.2.2 t hmem
  · obtain ⟨u, hne, hkind, hrefers⟩ := hw.held d hd hno
    refine ⟨u, hne, ?_, h.refers hrefers⟩
    obtain ⟨a, ha, -⟩ := hrefers
    obtain ⟨b, hb, hab⟩ := h.old u a ha
    rw [kind_eq ha] at hkind
    rw [kind_eq hb, hab.kind hkind]
    exact hkind

/-- The type that is made is none that a destroyed one needs. -/
theorem Inv.makes {w : Watched} (hw : Inv w none) {q : TypeTable} {t : ℕ} (h : Steps w.table q)
    (ht : w.table.kind t = .undef) : Inv ⟨q, w.destroyed⟩ (some t) := by
  have hq := hw.steps h
  refine ⟨hq.sound, hq.gone, hq.alive, fun d hd hno => ?_⟩
  obtain ⟨u, -, hkind, hrefers⟩ := hw.held d hd hno
  refine ⟨u, fun hu => hkind (Option.some.inj hu ▸ ht), ?_, h.refers hrefers⟩
  obtain ⟨a, ha, -⟩ := hrefers
  obtain ⟨b, hb, hab⟩ := h.old u a ha
  rw [kind_eq ha] at hkind
  rw [kind_eq hb, hab.kind hkind]
  exact hkind

theorem Inv.forget {w : Watched} {made : Option ℕ} (h : Inv w made) : Inv w none := by
  refine ⟨h.sound, h.gone, h.alive, fun d hd hno => ?_⟩
  obtain ⟨u, -, hkind, hrefers⟩ := h.held d hd hno
  exact ⟨u, Option.some_ne_none u, hkind, hrefers⟩

/-- The type that was made is destroyed. -/
theorem Inv.destroy {w : Watched} {t : ℕ} (hw : Inv w (some t)) {q : TypeTable}
    (h : Drops t w.table q) : Inv ⟨q, ⟨t, w.table⟩ :: w.destroyed⟩ none := by
  refine ⟨hw.sound.drops h, fun d hd => ?_, fun hapart u v hv => ?_, fun d hd hno => ?_⟩
  · rcases List.mem_cons.mp hd with rfl | hd
    · exact h.type
    · by_cases hdt : d.type = t
      · exact hdt ▸ h.type
      · obtain ⟨a, ha, hgone⟩ := hw.gone d hd
        exact ⟨a, (h.others _ hdt).trans ha, hgone⟩
  · obtain ⟨b, hb, hslot, hmem⟩ := hv
    obtain ⟨hut, hold⟩ := h.get hb hslot
    have hrefers : Refers w.table u v := ⟨b, hold, hslot, hmem⟩
    have hvt : v ≠ t := by
      rintro rfl
      exact hapart ⟨v, w.table⟩ List.mem_cons_self u hut hrefers
    obtain ⟨a, ha, haslot⟩ := hw.alive (fun d hd => hapart d (List.mem_cons_of_mem _ hd)) u v hrefers
    exact ⟨a, (h.others v hvt).trans ha, haslot⟩
  · have hstays : ∀ u v, u ≠ t → Refers w.table u v →
        ∃ u, some u ≠ (none : Option ℕ) ∧ q.kind u ≠ .undef ∧ Refers q u v := fun u v hut hv =>
      ⟨u, Option.some_ne_none u, h.kind hut ▸ hw.sound.kind_of_refers hv, h.refers hut hv⟩
    rcases List.mem_cons.mp hd with rfl | hd
    · obtain ⟨u, hut, hu⟩ : ∃ u, u ≠ t ∧ Refers w.table u t := by
        by_contra hnone
        exact hno fun u hut hu => hnone ⟨u, hut, hu⟩
      exact hstays u t hut hu
    · obtain ⟨u, hne, -, hu⟩ := hw.held d hd hno
      exact hstays u d.type (fun hut => hne (congrArg some hut)) hu

/-! ## Definitions -/

section Definitions

variable {root : TypeTable → Option ℕ} {made : Option ℕ} {held : List ℕ}

/-- The types that a definition has made or read have their slots. -/
def Keeping (made : Option ℕ) (held : List ℕ) (w : Watched) : Prop :=
  Inv w made ∧ ∀ t ∈ held, Alive w.table t

theorem Keeping.steps {w : Watched} (h : Keeping made held w) {q : TypeTable} (hq : Steps w.table q) :
    Keeping made held ⟨q, w.destroyed⟩ :=
  ⟨h.1.steps hq, fun t ht => hq.alive (h.2 t ht)⟩

theorem Keeping.cons {w : Watched} (h : Keeping made held w) {t : ℕ} (ht : Alive w.table t) :
    Keeping made (t :: held) w :=
  ⟨h.1, List.forall_mem_cons.mpr ⟨ht, h.2⟩⟩

theorem Keeping.tail {w : Watched} {t : ℕ} (h : Keeping made (t :: held) w) : Keeping made held w :=
  ⟨h.1, fun u hu => h.2 u (List.mem_cons_of_mem _ hu)⟩

theorem Keeping.head {w : Watched} {t : ℕ} (h : Keeping made (t :: held) w) : Alive w.table t :=
  h.2 t List.mem_cons_self

theorem keeps_call {f : TypeTable → Except Err α × TypeTable}
    (h : ∀ w, Keeping made held w → Steps w.table (f w.table).2) :
    Keeps (Keeping made held) (watchedCall f) := fun w hw => hw.steps (h w hw)

/-- A call with the type that was read last. -/
theorem gives_call {f : TypeTable → Except Err α × TypeTable} {t : ℕ}
    (h : ∀ r, Alive r t → Steps r (f r).2) :
    Gives (Keeping made (t :: held)) (fun _ => Keeping made held) (Keeping made held) (watchedCall f) :=
  fun w hw => ⟨fun _ _ => hw.tail.steps (h w.table hw.head), fun _ _ => hw.tail.steps (h w.table hw.head)⟩

/-- A call that reads a type. -/
theorem gives_assures {f : TypeTable → Except Err ℕ × TypeTable} {P : Watched → Prop}
    (hP : ∀ w, P w → Keeping made held w ∧ Steps w.table (f w.table).2 ∧
      ∀ t, (f w.table).1 = .ok t → Alive (f w.table).2 t) :
    Gives P (fun t => Keeping made (t :: held)) (Keeping made held) (watchedCall f) := by
  intro w hw
  obtain ⟨hkeep, hsteps, halive⟩ := hP w hw
  exact ⟨fun t ht => (hkeep.steps hsteps).cons (halive t ht), fun _ _ => hkeep.steps hsteps⟩

theorem readsTypes (root : TypeTable → Option ℕ) (made : Option ℕ) (held : List ℕ) :
    ReadsTypes (watched (gqlRegistry root)) (Keeping made held) (fun t => Keeping made (t :: held))
      (Keeping made held) where
  fails _ h := h
  leaves _ _ h := h.tail
  type name := gives_assures fun w hw =>
    ⟨hw, steps_assureType name w.table, fun _ ht => alive_assures (assures_type name w.table) ht⟩
  list t := gives_assures fun w hw => ⟨hw.tail, steps_assureAround GqlKind.noConfusion hw.head _,
    fun _ ht => alive_assures (assures_around .list _ t w.table) ht⟩
  nonnull t := gives_assures fun w hw => ⟨hw.tail, steps_assureAround GqlKind.noConfusion hw.head _,
    fun _ ht => alive_assures (assures_around .nonNull _ t w.table) ht⟩

theorem keeps_assureDirective (root : TypeTable → Option ℕ) (made : Option ℕ) (held : List ℕ)
    (name : Bytes) : Keeps (Keeping made held) ((watched (gqlRegistry root)).assureDirective name) :=
  keeps_call fun w _ => steps_of_types (types_assureDirective name w.table)

theorem builds (root : TypeTable → Option ℕ) (made : Option ℕ) (held : List ℕ) (t : ℕ) :
    Builds (watched (gqlRegistry root)) (Keeping made held) (fun t => Keeping made (t :: held))
      (Keeping made held) t where
  toReadsTypes := readsTypes root made held
  directive := keeps_assureDirective root made held
  directiveRead u := keeps_assureDirective root made (u :: held)
  addDir _ _ h := h.steps (steps_setDir t _)

theorem holds_makeField (root : TypeTable → Option ℕ) (made : Option ℕ) (held : List ℕ) (fuel t : ℕ) :
    Holds (Keeping made held) (Keeping made held)
      (makeField (watched (gqlRegistry root)) fuel t : Parser text Watched Unit) := by
  refine Agoo.holds_makeField (F := fun _ => True) (builds root made held t)
    (fun name type dval desc uses w hw => ?_) fun field _ =>
      Agoo.holds_fieldArgs (readsTypes root made held) fun name type desc dval =>
        gives_call fun r hr => steps_fieldArg hr field name desc dval
  have hsteps := hw.tail.steps (steps_typeField (t := t) hw.head name dval desc uses)
  exact ⟨fun _ _ => ⟨trivial, hsteps⟩, fun _ _ => hsteps⟩

/-- The type that a definition made, or with `x` the one that it opened. -/
def madeBy (x : Bool) (t : ℕ) : Option ℕ := if x then none else some t

/-- The type of a definition is made or opened. -/
theorem opens (root : TypeTable → Option ℕ) {kind : GqlKind} (hkind : kind ∈ definedKinds)
    (desc : Option Bytes) (x : Bool) (name : Bytes) :
    Opens text (watched (gqlRegistry root)) kind desc x (Keeping none []) (Keeping none [])
      (fun t => Keeping (madeBy x t) [t]) name := by
  unfold Opens definedType
  refine Triple.ite (fun hx => ?_) fun hx => ?_
  · subst hx
    intro s hs
    have hask : (askReg ((watched (gqlRegistry root)).typeGet · name) :
        Parser text Watched (Option ℕ)).run s = (.ok (s.user.reg.table.typeGet name), s) := rfl
    rw [run_bind, hask, andThen_ok]
    cases hget : s.user.reg.table.typeGet name with
    | some t =>
      obtain ⟨a, ha, hslot, -⟩ := alive_of_typeGet hget
      exact Keeping.cons hs ⟨a, ha, hslot⟩
    | none => exact hs
  · obtain rfl : x = false := Bool.eq_false_iff.mpr hx
    refine triple_callReg_of (I := Keeping none []) (fun w t hw hok => ?_) fun w e hw _ => ?_
    · obtain ⟨hsteps, hmade⟩ := makes_gqlCreate hw.1.sound hkind name desc
      obtain ⟨hundef, halive⟩ := hmade t hok
      exact ⟨hw.1.makes hsteps hundef, List.forall_mem_singleton.mpr halive⟩
    · exact hw.steps (makes_gqlCreate hw.1.sound hkind name desc).1

/-- A failed definition destroys its type. -/
theorem Keeping.destroy {w : Watched} {t : ℕ} {x : Bool} (hx : x = false)
    (h : Keeping (madeBy x t) [t] w) :
    Keeping none [] ((watched (gqlRegistry root)).typeDestroy t w) := by
  subst hx
  exact ⟨h.1.destroy (drops_typeDestroy h.1.sound h.head), fun _ hu => nomatch hu⟩

theorem Keeping.forget {w : Watched} (h : Keeping made held w) : Keeping none [] w :=
  ⟨h.1.forget, fun _ hu => nomatch hu⟩

theorem holds_forget {t : ℕ} {x : Bool} {p : Parser text Watched Unit}
    (h : Holds (Keeping (madeBy x t) [t]) (Keeping none []) p) :
    Triple (fun s => Keeping (madeBy x t) [t] s.user.reg) p (fun _ s => Keeping none [] s.user.reg)
      fun s => Keeping none [] s.user.reg :=
  h.mono (fun _ hs => hs) (fun _ _ hs => hs.forget) fun _ hs => hs

theorem names (key : Bytes) :
    Names text (fun s => Keeping none [] s.user.reg) (fun _ => Keeping none []) (Keeping none []) key :=
  (frame_extractName key).holds fun _ h => h

theorem definesAll (root : TypeTable → Option ℕ) (fuel : ℕ) (desc : Option Bytes) (x : Bool) :
    DefinesAll text (watched (gqlRegistry root)) (Keeping none []) (Keeping none [])
      (fun s => Keeping none [] s.user.reg) fuel desc x := by
  have hE : ∀ w, Keeping none [] w → Keeping none [] w := fun _ h => h
  have hB : ∀ t : ℕ, Builds (watched (gqlRegistry root)) (Keeping (madeBy x t) [t])
      (fun u => Keeping (madeBy x t) [u, t]) (Keeping (madeBy x t) [t]) t := fun t =>
    builds root (madeBy x t) [t] t
  have hleave : ∀ (t : ℕ) w, Keeping (madeBy x t) [t] w → Keeping none [] w := fun _ _ h => h.forget
  have hdestroy : ∀ t : ℕ, x = false → ∀ w, Keeping (madeBy x t) [t] w →
      Keeping none [] ((watched (gqlRegistry root)).typeDestroy t w) := fun _ hx _ h => h.destroy hx
  have hfield : ∀ t : ℕ, Holds (Keeping (madeBy x t) [t]) (Keeping (madeBy x t) [t])
      (makeField (watched (gqlRegistry root)) fuel t : Parser text Watched Unit) := fun t =>
    holds_makeField root (madeBy x t) [t] fuel t
  refine ⟨fun s h => h, hE, ?_, ?_, ?_, ?_, ?_, ?_, ?_, ?_⟩
  · refine Triple.bind (names _) fun name => Triple.bind (opens root (by decide) desc x name) fun t => ?_
    exact (holds_typeDirUse (hB t) fuel).mono (fun _ hs => hs) (fun _ _ hs => hs.forget)
      fun _ hs => hs.forget
  · refine Triple.bind (names _) fun name =>
      Triple.bind (holds_extractDirUse hE (keeps_assureDirective root none []) fuel) fun use =>
        Triple.bind (frame_skipWhite.holds hE) fun _ => Triple.bind ((frame_expect _ _).holds hE) fun _ =>
          Triple.bind (opens root (by decide) desc x name) fun t => holds_forget ?_
    refine (holds_changeReg fun _ h => h.steps (steps_setDir t _)).bind fun _ => ?_
    exact holds_enumBody (fun _ h => h) (keeps_assureDirective root _ _) (hleave t) (hdestroy t)
      fun value desc uses => (keeps_call fun w _ =>
        steps_enumAppend t value (tokenLen value) desc uses).gives fun _ h => h
  · refine Triple.bind (names _) fun name => Triple.bind (opens root (by decide) desc x name) fun t =>
      holds_forget ?_
    exact holds_unionBody (hB t) (hleave t) (hdestroy t) fun member =>
      gives_call fun r hr => steps_unionAdd hr
  · refine Triple.bind (names _) fun name => Triple.bind (opens root (by decide) desc x name) fun t => ?_
    exact triple_interfaceBody (hB t) (hleave t) (hdestroy t) (hleave t) hE (hdestroy t) (hfield t)
  · refine Triple.bind (names _) fun name => Triple.bind (opens root (by decide) desc x name) fun t =>
      holds_forget ?_
    exact holds_inputBody (hB t) (hleave t) (hdestroy t) fun name type desc dval uses =>
      gives_call fun r hr => steps_inputArg hr name desc dval uses
  · refine Triple.bind (names _) fun name => Triple.bind (opens root (by decide) desc x name) fun t =>
      holds_forget ?_
    exact holds_typeBody (hB t) (hleave t) (hdestroy t)
      (fun interface w hw => hw.tail.steps (steps_addInterface hw.head)) (hfield t)
  · refine Triple.bind ((frame_keyWord _).holds hE) fun _ =>
      Triple.bind (opens root (by decide) desc x _) fun t => holds_forget ?_
    exact holds_schemaBody (hB t) (hleave t) (hdestroy t) (hfield t)
  · refine holds_makeDirective hE (fun name => ?_) (fun dir loc => ?_) fun dir =>
      holds_dirArgs (readsTypes root none []) fun name type desc dval =>
        gives_call fun r _ => steps_of_types rfl
    · exact keeps_call fun w _ => steps_of_types (types_directiveCreate name desc w.table)
    · exact keeps_call fun w _ => steps_of_types rfl

end Definitions

/-! ## Runs -/

theorem holds_sdlParse (root : TypeTable → Option ℕ) (fuel : ℕ) :
    Holds (Keeping none []) (Keeping none [])
      (sdlParse (watched (gqlRegistry root)) fuel : Parser text Watched Unit) :=
  Agoo.holds_sdlParse (fun _ h => h) fun b => definesAll root fuel b.1 b.2

theorem inv_init : Inv ⟨gqlInit, []⟩ none := by
  have hslots : ∀ a ∈ gqlInit.types, a.slot = true ∧ TypeTable.calcHash a.name ≠ 0 ∧ a.kind ≠ .undef := by
    decide +kernel
  have hnames : (gqlInit.types.map (·.name)).Nodup := by decide +kernel
  have hrefs : ∀ a ∈ gqlInit.types, ∀ t ∈ refs a, t < gqlInit.types.length := by decide +kernel
  refine ⟨⟨fun u a ha _ => ?_, fun u v a b ha hb _ _ hname => ?_, fun u a ha _ hkind => ?_⟩,
    (fun d hd => nomatch hd), fun _ u t ht => ?_, fun d hd => nomatch hd⟩
  · exact (hslots a (List.mem_of_getElem? ha)).2.1
  · have hu : (gqlInit.types.map (·.name))[u]? = some a.name := by
      rw [List.getElem?_map, ha]
      rfl
    have hv : (gqlInit.types.map (·.name))[v]? = some a.name := by
      rw [List.getElem?_map, hb, hname]
      rfl
    exact (List.getElem?_inj (List.getElem?_eq_some_iff.mp hu).1 hnames).mp (hu.trans hv.symm)
  · exact absurd hkind (hslots a (List.mem_of_getElem? ha)).2.2
  · obtain ⟨a, ha, -, hmem⟩ := ht
    have hlt := hrefs a (List.mem_of_getElem? ha) t hmem
    exact ⟨_, List.getElem?_eq_getElem hlt, (hslots _ (List.getElem_mem hlt)).1⟩

theorem Reached.inv {root : TypeTable → Option ℕ} {w : Watched} (h : Reached root w) : Inv w none := by
  induction h with
  | init => exact inv_init
  | parse text fuel hw ih =>
    exact (holds_after (holds_sdlParse root fuel) (s := docInit text none _)
      ⟨ih, fun _ hu => nomatch hu⟩).1

/-- **After any texts no type that can be reached was destroyed exactly when no other type referred to
one that was.** -/
theorem intact_iff {root : TypeTable → Option ℕ} {w : Watched} (h : Reached root w) :
    w.Intact ↔ ∀ d ∈ w.destroyed, d.Apart :=
  h.inv.intact_apart

/-- A field without a colon, in a text of its own. -/
def boxAlone : Watched := parsed (fun _ => none) 60 (bytes "type Box \x7b size \x7d") ⟨gqlInit, []⟩

/-- The type is destroyed, and nothing referred to it. -/
theorem boxAlone_intact : boxAlone.destroyed ≠ [] ∧ boxAlone.Intact := by
  have hapart : boxAlone.destroyed ≠ [] ∧ ∀ d ∈ boxAlone.destroyed, d.Apart := by decide +kernel
  exact ⟨hapart.1, (intact_iff (.parse (bytes "type Box \x7b size \x7d") 60 .init)).mpr hapart.2⟩

/-- The same text, when an earlier one has a field of that type. -/
def boxUsed : Watched :=
  parsed (fun _ => none) 60 (bytes "type Box \x7b size \x7d")
    (parsed (fun _ => none) 60 (bytes "type Query \x7b box: Box \x7d") ⟨gqlInit, []⟩)

/-- The text is refused, and the type of the field is destroyed. -/
theorem boxUsed_dangles : Reached (fun _ => none) boxUsed ∧
    ((sdlParse (watched (gqlRegistry fun _ => none)) 60).run (docInit (bytes "type Box \x7b size \x7d") none
      (parsed (fun _ => none) 60 (bytes "type Query \x7b box: Box \x7d") ⟨gqlInit, []⟩))).1 = .fail ∧
    ¬ boxUsed.Intact := by
  have hrun : Reached (fun _ => none) boxUsed := .parse _ 60 (.parse _ 60 .init)
  refine ⟨hrun, ?_⟩
  rw [hrun.inv.intact_apart]
  decide +kernel

end SdlDestroy

end Agoo
