import Agoo.SdlHolds
import Agoo.TypeTableGrows

/-!
# Members of types by their kinds

A definition creates a type of its kind, or one that was only referred to before is given that kind,
and so the members that it goes on to use are those of the kind. An extension takes the type of the
name whatever its kind is, and `extend` holds for all definitions behind it in a text.

`accesses_fit`: **in a run of texts in which every extension that begins names a type with the members
of its own kind, every access is to the member that the type's kind selects.**
-/

namespace Agoo

open Agoo.Parser Scanner

variable {text : Bytes} {α β : Type}

namespace KindSafety

/-! ## Extensions -/

/-- The kinds whose definitions use the members of the type. -/
def memberKinds : List GqlKind := [.schema, .object, .input, .union, .interface, .enum]

/-- The key word of a definition. -/
def keyOf : GqlKind → Bytes
  | .object => bytes "type"
  | kind => kind.string

/-- The name in a definition of a kind. -/
def definedName (kind : GqlKind) : Parser text TypeTable Bytes :=
  if kind = .schema then do
    keyWord (bytes "schema")
    return bytes "schema"
  else extractName (keyOf kind)

/-- The type of the name, if there is one, has the members of the kind. -/
def OwnKind (kind : GqlKind) (name : Bytes) (r : TypeTable) : Prop :=
  ∀ t ∈ r.typeGet name, (r.kind t).member = kind.member

instance (kind : GqlKind) (name : Bytes) (r : TypeTable) : Decidable (OwnKind kind name r) := by
  unfold OwnKind
  infer_instance

/-- The outcome of a run satisfies `P`, if it is a value. -/
def IfOk (P : α → Prop) : Outcome α → Prop
  | .ok a => P a
  | .fail => True
  | .fault => True
  | .crash => True
  | .timeout => True

instance (P : α → Prop) [DecidablePred P] : DecidablePred (IfOk P) := fun o => by
  cases o <;> unfold IfOk <;> infer_instance

/-- Whatever definition is read here, the type of its name has the members of its kind. -/
def NamesOwn (s : DocState text TypeTable) : Prop :=
  ∀ kind ∈ memberKinds,
    IfOk (fun name => OwnKind kind name s.user.reg) ((definedName kind).run s).1

instance (s : DocState text TypeTable) : Decidable (NamesOwn s) := by
  unfold NamesOwn
  infer_instance

/-- The same behind the white space. -/
def NextNamesOwn (s : DocState text TypeTable) : Prop :=
  NamesOwn ((nextToken : Parser text TypeTable Unit).run s).2

instance (s : DocState text TypeTable) : Decidable (NextNamesOwn s) := by
  unfold NextNamesOwn
  infer_instance

/-- In each of the rounds of `sdl_parse` left, an extension names a type of its own kind: `s` is the
state and `b` the description and whether `extend` was met. -/
def ExtendsOwn (root : TypeTable → Option ℕ) (fuel : ℕ) :
    ℕ → Option Bytes × Bool → DocState text TypeTable → Prop
  | 0, _, _ => True
  | k + 1, b, s =>
    text.length ≤ s.cur ∨ (b.2 = true → NextNamesOwn s) ∧
      IfOk (fun r => r.1 = true ∨
          ExtendsOwn root fuel k r.2 ((definition (gqlRegistry root) fuel b).run s).2)
        ((definition (gqlRegistry root) fuel b).run s).1

instance (root : TypeTable → Option ℕ) (fuel k : ℕ) (b : Option Bytes × Bool)
    (s : DocState text TypeTable) : Decidable (ExtendsOwn root fuel k b s) := by
  induction k generalizing b s with
  | zero => exact isTrue trivial
  | succ k ih =>
    unfold ExtendsOwn
    haveI : DecidablePred fun r : Bool × Option Bytes × Bool => r.1 = true ∨
        ExtendsOwn root fuel k r.2 ((definition (gqlRegistry root) fuel b).run s).2 := fun r =>
      haveI := ih r.2 ((definition (gqlRegistry root) fuel b).run s).2
      inferInstance
    infer_instance

/-! ## What is kept -/

/-- Every access was to the member that the kind selects. -/
def AllFit (r : TypeTable) : Prop := ∀ a ∈ r.log, a.Fits

/-- And the type `t` has the members of a kind. -/
def HasMember (kind : GqlKind) (t : ℕ) (r : TypeTable) : Prop :=
  AllFit r ∧ (r.kind t).member = kind.member

/-- And a definition that extends the type of the name extends one with the members of its kind. -/
def Named (kind : GqlKind) (x : Bool) (name : Bytes) (r : TypeTable) : Prop :=
  AllFit r ∧ (x = true → OwnKind kind name r)

theorem AllFit.grows {r r' : TypeTable} (h : AllFit r) (hg : Grows r r') : AllFit r' :=
  fun a ha => (hg.fits a ha).elim (h a) id

theorem HasMember.grows {kind : GqlKind} (hkind : kind.member ≠ none) {t : ℕ} {r r' : TypeTable}
    (h : HasMember kind t r) (hg : Grows r r') : HasMember kind t r' := by
  refine ⟨h.1.grows hg, ?_⟩
  rw [hg.kind t, h.2]
  intro hundef
  have hmember := h.2
  rw [hundef] at hmember
  exact hkind hmember.symm

/-- A property that growing keeps is kept by a call that grows. -/
theorem keeps_of_growsAt {I : TypeTable → Prop} (hI : ∀ {r r'}, I r → Grows r r' → I r')
    {c : TableM α} (h : ∀ r, I r → c.GrowsAt r) : Keeps I c := fun r hr => hI hr (h r hr)

theorem keepsCalls (root : TypeTable → Option ℕ) {I : TypeTable → Prop}
    (hI : ∀ {r r'}, I r → Grows r r' → I r') : KeepsCalls (gqlRegistry root) I where
  assureType name := keeps_of_growsAt hI fun r _ => growsAt_assureType name r
  assureList t := keeps_of_growsAt hI fun r _ => growsAt_assureList t r
  assureNonnull t := keeps_of_growsAt hI fun r _ => growsAt_assureNonnull t r
  assureDirective name := keeps_of_growsAt hI fun r _ => growsAt_assureDirective name r

theorem keepsTypes (root : TypeTable → Option ℕ) {J : ℕ → TypeTable → Prop}
    (hleave : ∀ t r, J t r → AllFit r) (hJ : ∀ {t r r'}, J t r → Grows r r' → J t r') :
    KeepsTypes (gqlRegistry root) AllFit AllFit J where
  fails _ h := h
  leaves := hleave
  calls _ := keepsCalls root hJ
  setDir _ _ _ h := hJ h (grows_update fun _ => rfl)
  addDir _ _ _ h := hJ h (grows_update fun _ => rfl)
  destroys t r h := h.grows (grows_typeDestroy r t)
  destroysFailed t r h := h.grows (grows_typeDestroy r t)

/-- A directive that is made sure of changes no type. -/
theorem named_assureDirective (root : TypeTable → Option ℕ) (kind : GqlKind) (x : Bool)
    (name use : Bytes) : Keeps (Named kind x name) ((gqlRegistry root).assureDirective use) := by
  intro r hr
  have htypes : (((gqlRegistry root).assureDirective use) r).2.types = r.types := by
    change ((assureDirective use).exec r).2.types = r.types
    unfold assureDirective
    rw [TableM.exec_get]
    cases r.directiveGet use with
    | some d => rfl
    | none => rfl
  refine ⟨hr.1.grows (growsAt_assureDirective use r), fun hx t ht => ?_⟩
  have hget : ∀ r' : TypeTable, r'.types = r.types → r'.typeGet name = r.typeGet name ∧
      r'.kind t = r.kind t := by
    intro r' h
    unfold TypeTable.typeGet TypeTable.kind
    rw [h]
    exact ⟨rfl, rfl⟩
  obtain ⟨hname, hkind⟩ := hget _ htypes
  rw [hkind]
  exact hr.2 hx t (hname ▸ ht)

/-! ## Definitions -/

/-- Where a definition can begin. -/
def Begins (x : Bool) (s : DocState text TypeTable) : Prop :=
  AllFit s.user.reg ∧ (x = true → NamesOwn s)

theorem names (x : Bool) (kind : GqlKind) (hkind : kind ∈ memberKinds) (hschema : kind ≠ .schema) :
    Names text (Begins x) (Named kind x) AllFit (keyOf kind) := by
  intro s hs
  have hreg := frame_extractName (keyOf kind) s
  have hfit : ∀ r, r = s.user.reg → AllFit r := fun r hr => hr ▸ hs.1
  have hname : ∀ name, ((extractName (keyOf kind)).run s).1 = .ok name → x = true →
      OwnKind kind name s.user.reg := by
    intro name hok hx
    have hown := hs.2 hx kind hkind
    rw [definedName, if_neg hschema, hok] at hown
    exact hown
  generalize (extractName (keyOf kind)).run s = r at hreg hname
  obtain ⟨o, s'⟩ := r
  cases o with
  | ok name =>
    refine ⟨hfit _ hreg, fun hx => ?_⟩
    have hown := hname name rfl hx
    rwa [← hreg] at hown
  | fail => exact hfit _ hreg
  | fault => exact hfit _ hreg
  | crash => exact hfit _ hreg
  | timeout => exact hfit _ hreg

theorem names_scalar (x : Bool) :
    Names text (Begins x) (fun _ => AllFit) AllFit (bytes "scalar") :=
  ((frame_extractName _).holds fun _ h => h).mono (fun _ h => h.1) (fun _ _ h => h) fun _ h => h

theorem names_schema (x : Bool) :
    Triple (Begins x) (keyWord (bytes "schema") : Parser text TypeTable Unit)
      (fun _ s => Named .schema x (bytes "schema") s.user.reg) fun s => AllFit s.user.reg := by
  intro s hs
  have hreg := frame_keyWord (bytes "schema") s
  have hfit : ∀ r, r = s.user.reg → AllFit r := fun r hr => hr ▸ hs.1
  have hname : ((keyWord (bytes "schema")).run s).1 = .ok () → x = true →
      OwnKind .schema (bytes "schema") s.user.reg := by
    intro hok hx
    have hown := hs.2 hx .schema (by decide)
    rw [definedName, if_pos rfl, run_bind] at hown
    generalize (keyWord (bytes "schema")).run s = r at hok hown
    obtain ⟨o, s'⟩ := r
    obtain rfl : o = .ok () := hok
    exact hown
  generalize (keyWord (bytes "schema")).run s = r at hreg hname
  obtain ⟨o, s'⟩ := r
  cases o with
  | ok u =>
    refine ⟨hfit _ hreg, fun hx => ?_⟩
    have hown := hname rfl hx
    rwa [← hreg] at hown
  | fail => exact hfit _ hreg
  | fault => exact hfit _ hreg
  | crash => exact hfit _ hreg
  | timeout => exact hfit _ hreg

/-- A type made or opened by a definition satisfies `J` when a new one of the kind does, and one that
is extended. -/
theorem opens (root : TypeTable → Option ℕ) (kind : GqlKind) (desc : Option Bytes) (x : Bool)
    (name : Bytes) {N : TypeTable → Prop} {J : ℕ → TypeTable → Prop} (hN : ∀ r, N r → AllFit r)
    (hnew : ∀ t r, AllFit r → r.kind t = kind → J t r)
    (hfound : x = true → ∀ t r, N r → r.typeGet name = some t → J t r) :
    Opens text (gqlRegistry root) kind desc x N AllFit J name := by
  unfold Opens definedType
  refine Triple.ite (fun hx => ?_) fun _ => ?_
  · intro s hs
    have hask : (askReg ((gqlRegistry root).typeGet · name) : Parser text TypeTable (Option ℕ)).run s =
        (.ok (s.user.reg.typeGet name), s) := rfl
    rw [run_bind, hask, andThen_ok]
    cases hget : s.user.reg.typeGet name with
    | some t => exact hfound hx t s.user.reg hs hget
    | none => exact hN s.user.reg hs
  · refine triple_callReg_of (I := N) (fun r t hr hok => ?_) fun r e hr _ => ?_
    · obtain ⟨hgrows, hkind⟩ := gqlCreate_spec kind name desc r
      exact hnew t _ ((hN r hr).grows hgrows) (hkind t hok)
    · exact (hN r hr).grows (gqlCreate_spec kind name desc r).1

theorem opens_member (root : TypeTable → Option ℕ) (kind : GqlKind) (desc : Option Bytes) (x : Bool)
    (name : Bytes) :
    Opens text (gqlRegistry root) kind desc x (Named kind x name) AllFit (HasMember kind) name :=
  opens root kind desc x name (fun _ h => h.1) (fun _ _ hr hk => ⟨hr, by rw [hk]⟩)
    fun hx t _ hr hget => ⟨hr.1, hr.2 hx t hget⟩

theorem holds_makeField (root : TypeTable → Option ℕ) {kind : GqlKind}
    (hkind : kind.member = some .fields) (fuel t : ℕ) :
    Holds (HasMember kind t) AllFit
      (makeField (gqlRegistry root) fuel t : Parser text TypeTable Unit) := by
  have hsome : kind.member ≠ none := by simp [hkind]
  have hgrows : ∀ {r r'}, HasMember kind t r → Grows r r' → HasMember kind t r' :=
    fun h hg => h.grows hsome hg
  have hE : ∀ r, HasMember kind t r → AllFit r := fun _ h => h.1
  have hbuilds : Builds (gqlRegistry root) (HasMember kind t) (fun _ => HasMember kind t) AllFit t :=
    (keepsCalls root hgrows).builds hE fun _ _ h => hgrows h (grows_update fun _ => rfl)
  refine Agoo.holds_makeField (F := fun _ => True) hbuilds (fun name type dval desc uses r hr => ?_)
    fun field _ => Agoo.holds_fieldArgs hbuilds.toReadsTypes fun name type desc dval =>
      (keeps_of_growsAt hgrows fun r _ => growsAt_fieldArg field name type desc dval r).gives hE
  have hnew := hgrows hr (growsAt_typeField (hr.2.trans hkind) name type dval desc uses)
  exact ⟨fun _ _ => ⟨trivial, hnew⟩, fun _ _ => hE _ hnew⟩

theorem gives_enumAppend (root : TypeTable → Option ℕ) (t : ℕ) (value : Bytes) (desc : Option Bytes)
    (uses : List (DirUse ℕ ℕ)) :
    Gives (HasMember .enum t) (fun _ => HasMember .enum t) AllFit
      ((gqlRegistry root).enumAppend t value (tokenLen value) desc uses) :=
  Keeps.gives (fun _ h => h.1) fun r hr =>
    hr.grows (by decide) (growsAt_enumAppend (r := r) hr.2 value (tokenLen value) desc uses)

theorem keeps_unionAdd (root : TypeTable → Option ℕ) (t member : ℕ) :
    Keeps (HasMember .union t) ((gqlRegistry root).unionAdd t member) :=
  fun r hr => hr.grows (by decide) (growsAt_unionAdd (r := r) hr.2 member)

theorem keeps_inputArg (root : TypeTable → Option ℕ) (t : ℕ) (name : Bytes) (type : ℕ)
    (desc : Option Bytes) (dval : Option (GqlValue ℕ)) (uses : List (DirUse ℕ ℕ)) :
    Keeps (HasMember .input t) ((gqlRegistry root).inputArg t name type desc dval uses) :=
  fun r hr => hr.grows (by decide) (growsAt_inputArg (r := r) hr.2 name type desc dval uses)

theorem holds_dirArgs (root : TypeTable → Option ℕ) (fuel d : ℕ) :
    Holds AllFit AllFit
      (whileLt (dirArgs (gqlRegistry root) fuel d) fuel () : Parser text TypeTable Unit) := by
  have hcalls : KeepsCalls (gqlRegistry root) AllFit := keepsCalls root fun h hg => h.grows hg
  have hE : ∀ r, AllFit r → AllFit r := fun _ h => h
  exact Agoo.holds_dirArgs (hcalls.readsTypes hE) fun name type desc dval =>
    Keeps.gives hE fun r hr => hr.grows (growsAt_dirArg d name type desc dval r)

theorem definesAll (root : TypeTable → Option ℕ) (fuel : ℕ) (desc : Option Bytes) (x : Bool) :
    DefinesAll text (gqlRegistry root) AllFit AllFit (Begins x) fuel desc x := by
  have hkeeps : ∀ kind : GqlKind, kind.member ≠ none →
      KeepsTypes (gqlRegistry root) AllFit AllFit (HasMember kind) := fun kind hkind =>
    keepsTypes root (fun _ _ h => h.1) fun h hg => h.grows hkind hg
  have hscalar : KeepsTypes (gqlRegistry root) AllFit AllFit fun _ => AllFit :=
    keepsTypes root (fun _ _ h => h) fun h hg => h.grows hg
  refine ⟨fun s h => h.1, fun _ h => h, ?_, ?_, ?_, ?_, ?_, ?_, ?_, ?_⟩
  · exact defines_makeScalar hscalar (names_scalar x) fun name =>
      opens root .scalar desc x name (fun _ h => h) (fun _ _ h _ => h) fun _ _ _ h _ => h
  · exact defines_makeEnum (hkeeps .enum (by decide)) (names x .enum (by decide) (by decide))
      (named_assureDirective root .enum x) (fun _ _ h => h.1) (opens_member root .enum desc x)
      (gives_enumAppend root)
  · exact defines_makeUnion (hkeeps .union (by decide)) (names x .union (by decide) (by decide))
      (opens_member root .union desc x) (keeps_unionAdd root)
  · exact defines_makeInterface (hkeeps .interface (by decide)) (names x .interface (by decide) (by decide))
      (opens_member root .interface desc x) (holds_makeField root rfl fuel)
  · exact defines_makeInput (hkeeps .input (by decide)) (names x .input (by decide) (by decide))
      (opens_member root .input desc x) (keeps_inputArg root)
  · exact defines_makeType (hkeeps .object (by decide)) (names x .object (by decide) (by decide))
      (opens_member root .object desc x)
      (fun t interface r hr => hr.grows (by decide) (grows_addInterface hr.2 interface))
      (holds_makeField root rfl fuel)
  · exact defines_makeSchema (hkeeps .schema (by decide)) (names_schema x)
      (opens_member root .schema desc x _) (holds_makeField root rfl fuel)
  · refine (holds_makeDirective (fun _ h => h) (fun name r hr => ?_) (fun dir loc r hr => ?_)
      (holds_dirArgs root fuel)).mono (fun _ h => h.1) (fun _ _ h => h) fun _ h => h
    · exact hr.grows (growsAt_directiveCreate name desc r)
    · exact hr.grows (growsAt_directiveOn dir loc r)

/-! ## Runs -/

theorem triple_nextToken (x : Bool) :
    Triple (fun s => AllFit s.user.reg ∧ (x = true → NextNamesOwn s))
      (nextToken : Parser text TypeTable Unit) (fun _ => Begins x) fun s => AllFit s.user.reg := by
  intro s hs
  have hreg := frame_nextToken s
  have hfit : ∀ r, r = s.user.reg → AllFit r := fun r hr => hr ▸ hs.1
  have hnext : x = true → NamesOwn ((nextToken : Parser text TypeTable Unit).run s).2 := hs.2
  generalize (nextToken : Parser text TypeTable Unit).run s = r at hreg hnext
  obtain ⟨o, s'⟩ := r
  cases o with
  | ok u => exact ⟨hfit _ hreg, hnext⟩
  | fail => exact hfit _ hreg
  | fault => exact hfit _ hreg
  | crash => exact hfit _ hreg
  | timeout => exact hfit _ hreg

/-- The loop of `sdl_parse`. -/
theorem definitions_fit (root : TypeTable → Option ℕ) (fuel : ℕ) {k : ℕ} {b : Option Bytes × Bool}
    {s : DocState text TypeTable} (hfit : AllFit s.user.reg) (h : ExtendsOwn root fuel k b s) :
    AllFit ((whileLt (definition (gqlRegistry root) fuel) k b).run s).2.user.reg := by
  induction k generalizing b s with
  | zero => exact hfit
  | succ k ih =>
    unfold whileLt
    rw [run_bind, run_pos, andThen_ok]
    split_ifs with hend
    · exact hfit
    · obtain ⟨hown, hrest⟩ := h.resolve_left hend
      have hround := triple_definition (definesAll root fuel b.1 b.2) (triple_nextToken b.2) s
        ⟨hfit, hown⟩
      rw [run_bind]
      generalize (definition (gqlRegistry root) fuel b).run s = r at hround hrest
      obtain ⟨o, s'⟩ := r
      cases o with
      | ok r =>
        obtain ⟨stop, b'⟩ := r
        cases stop with
        | true => exact hround
        | false => exact ih hround (hrest.resolve_left Bool.false_ne_true)
      | fail => exact hround
      | fault => exact hround
      | crash => exact hround
      | timeout => exact hround

/-- The registry after `sdl_parse` on a text. -/
def parsed (root : TypeTable → Option ℕ) (fuel : ℕ) (text : Bytes) (r : TypeTable) : TypeTable :=
  ((sdlParse (gqlRegistry root) fuel).run (docInit text none r)).2.user.reg

/-- The registries that come from `gql_init` by reading texts in which extensions name types of their
own kind. -/
inductive Reached (root : TypeTable → Option ℕ) : TypeTable → Prop
  | init : Reached root gqlInit
  | parse (text : Bytes) (fuel : ℕ) {r : TypeTable} (h : Reached root r)
      (hown : ExtendsOwn root fuel fuel (none, false) (docInit text none r)) :
      Reached root (parsed root fuel text r)

theorem parsed_eq (root : TypeTable → Option ℕ) (fuel : ℕ) (text : Bytes) (r : TypeTable) :
    parsed root fuel text r =
      ((whileLt (definition (gqlRegistry root) fuel) fuel (none, false)).run
        (docInit text none r)).2.user.reg := by
  unfold parsed sdlParse
  rw [run_bind]
  generalize (whileLt (definition (gqlRegistry root) fuel) fuel (none, false)).run
    (docInit text none r) = q
  obtain ⟨o, s'⟩ := q
  cases o with
  | ok b => rfl
  | fail => rfl
  | fault => rfl
  | crash => rfl
  | timeout => rfl

/-- **When every extension names a type with the members of its own kind, every access in a run is to
the member that the type's kind selects.** -/
theorem accesses_fit {root : TypeTable → Option ℕ} {r : TypeTable} (h : Reached root r) :
    ∀ a ∈ r.log, a.Fits := by
  induction h with
  | init => exact fun a ha => absurd ha List.not_mem_nil
  | parse text fuel hr hown ih =>
    rw [parsed_eq]
    exact definitions_fit root fuel ih hown

/-- An enum is defined in one text and extended in another. -/
def colorExtended : TypeTable :=
  parsed (fun _ => none) 40 (bytes "extend enum Color \x7b BLUE \x7d")
    (parsed (fun _ => none) 40 (bytes "enum Color \x7b RED \x7d") gqlInit)

theorem extended_enum_fits :
    Reached (fun _ => none) colorExtended ∧ ∀ a ∈ colorExtended.log, a.Fits := by
  have hrun : Reached (fun _ => none) colorExtended :=
    .parse _ 40 (.parse _ 40 .init (by decide +kernel)) (by decide +kernel)
  exact ⟨hrun, accesses_fit hrun⟩

/-- An enum is extended as an object: its choices are taken for fields. -/
theorem enum_extended_as_type :
    ¬ ∀ a ∈ (parsed (fun _ => none) 60
      (bytes "enum Color \x7b RED \x7d extend type Color \x7b x: Int \x7d") gqlInit).log, a.Fits := by
  decide +kernel

end KindSafety

end Agoo
