import Agoo.KindSafety
import Agoo.TypeTableAdds

/-!
# Extensions

`sdl_parse` notes `extend` in a variable that it never resets, so that every later definition of the
text is read as an extension. An extension of an enum sets the uses of its directives; all else that an
extension does is put behind what the type has.

`extend_iff`: when a text of extensions only adds, and when definitions behind an extension are new ones.
-/

namespace Agoo

open Agoo.Parser Scanner

variable {text : Bytes} {σ τ δ φ α β : Type}

namespace SdlExtend

/-! ## Statements -/

/-- What `sdl_parse` takes the text at the cursor for. -/
inductive Statement
  | desc
  | extend
  | define (kind : GqlKind)
  | directive
  | ends
  | unknown
  deriving DecidableEq

/-- The tests of `sdl_parse`. -/
def statementAt (s : DocState text σ) : Statement :=
  let left := text.length - s.cur
  let c := at0 text s.cur
  let looks (lit : Bytes) : Bool := decide (lit <+: text.drop s.cur)
  if c = chr '"' then .desc
  else if c = chr 's' then
    if 6 < left && looks (bytes "sc") then
      if looks (bytes "sca") then .define .scalar else .define .schema
    else .unknown
  else if c = chr 'e' then
    if 4 < left then
      if looks (bytes "en") then .define .enum else .extend
    else .unknown
  else if c = chr 'u' then .define .union
  else if c = chr 'd' then .directive
  else if c = chr 't' then .define .object
  else if c = chr 'i' then
    if 5 < left && looks (bytes "in") then
      if looks (bytes "inp") then .define .input else .define .interface
    else .unknown
  else if c = 0 then .ends
  else .unknown

/-- The function for a kind. -/
def makeKind (reg : Registry σ τ δ φ) (fuel : ℕ) (kind : GqlKind) (desc : Option Bytes) (x : Bool) :
    Parser text σ Unit :=
  match kind with
  | .scalar => makeScalar reg fuel desc x
  | .enum => makeEnum reg fuel desc x
  | .union => makeUnion reg fuel desc x
  | .interface => makeInterface reg fuel desc x
  | .input => makeInput reg fuel desc x
  | .object => makeType reg fuel desc x
  | .schema => makeSchema reg fuel desc x
  | _ => pure ()

/-- A statement is read. -/
def readStatement (reg : Registry σ τ δ φ) (fuel : ℕ) (b : Option Bytes × Bool) :
    Statement → Parser text σ (Bool × Option Bytes × Bool)
  | .desc => do return (false, ← extractDesc, b.2)
  | .extend => do
    keyWord (bytes "extend")
    return (false, none, true)
  | .define kind => do
    makeKind reg fuel kind b.1 b.2
    return (false, none, b.2)
  | .directive => do
    makeDirective reg fuel b.1
    return (false, none, b.2)
  | .ends => return (true, b)
  | .unknown => docErr (bytes "Unknown directive")

/-- Past the white space. -/
def next (s : DocState text σ) : DocState text σ := ((nextToken : Parser text σ Unit).run s).2

/-- A round of `sdl_parse` reads the statement behind the white space. -/
theorem run_definition (reg : Registry σ τ δ φ) (fuel : ℕ) (b : Option Bytes × Bool)
    {s s₁ : DocState text σ} (h : (nextToken : Parser text σ Unit).run s = (.ok (), s₁)) :
    (definition reg fuel b).run s = (readStatement reg fuel b (statementAt s₁)).run s₁ := by
  have hpeek : (peek : Parser text σ Byte).run s₁ = (.ok (at0 text s₁.cur), s₁) := rfl
  have hlooking : ∀ {β : Type} (lit : Bytes) (f : Bool → Parser text σ β),
      (looking lit >>= f).run s₁ = (f (decide (lit <+: text.drop s₁.cur))).run s₁ := fun lit f => rfl
  unfold definition statementAt
  rw [run_bind, h, andThen_ok, run_bind, run_pos, andThen_ok, run_bind, hpeek, andThen_ok]
  dsimp only
  by_cases hdesc : at0 text s₁.cur = chr '"'
  · rw [if_pos hdesc, if_pos hdesc]
    rfl
  rw [if_neg hdesc, if_neg hdesc]
  by_cases hs : at0 text s₁.cur = chr 's'
  · rw [if_pos hs, if_pos hs, hlooking]
    by_cases hsc : (decide (6 < text.length - s₁.cur) && decide (bytes "sc" <+: text.drop s₁.cur)) = true
    · rw [if_pos hsc, if_pos hsc, hlooking]
      by_cases hmore : decide (bytes "sca" <+: text.drop s₁.cur) = true
      · rw [if_pos hmore, if_pos hmore]
        rfl
      · rw [if_neg hmore, if_neg hmore]
        rfl
    · rw [if_neg hsc, if_neg hsc]
      rfl
  rw [if_neg hs, if_neg hs]
  by_cases he : at0 text s₁.cur = chr 'e'
  · rw [if_pos he, if_pos he]
    by_cases hlen : 4 < text.length - s₁.cur
    · rw [if_pos hlen, if_pos hlen, hlooking]
      by_cases hmore : decide (bytes "en" <+: text.drop s₁.cur) = true
      · rw [if_pos hmore, if_pos hmore]
        rfl
      · rw [if_neg hmore, if_neg hmore]
        rfl
    · rw [if_neg hlen, if_neg hlen]
      rfl
  rw [if_neg he, if_neg he]
  by_cases hu : at0 text s₁.cur = chr 'u'
  · rw [if_pos hu, if_pos hu]
    rfl
  rw [if_neg hu, if_neg hu]
  by_cases hd : at0 text s₁.cur = chr 'd'
  · rw [if_pos hd, if_pos hd]
    rfl
  rw [if_neg hd, if_neg hd]
  by_cases ht : at0 text s₁.cur = chr 't'
  · rw [if_pos ht, if_pos ht]
    rfl
  rw [if_neg ht, if_neg ht]
  by_cases hi : at0 text s₁.cur = chr 'i'
  · rw [if_pos hi, if_pos hi, hlooking]
    by_cases hin : (decide (5 < text.length - s₁.cur) && decide (bytes "in" <+: text.drop s₁.cur)) = true
    · rw [if_pos hin, if_pos hin, hlooking]
      by_cases hmore : decide (bytes "inp" <+: text.drop s₁.cur) = true
      · rw [if_pos hmore, if_pos hmore]
        rfl
      · rw [if_neg hmore, if_neg hmore]
        rfl
    · rw [if_neg hin, if_neg hin]
      rfl
  rw [if_neg hi, if_neg hi]
  by_cases h0 : at0 text s₁.cur = 0
  · rw [if_pos h0, if_pos h0]
    rfl
  · rw [if_neg h0, if_neg h0]
    rfl

/-! ## Rounds -/

/-- A round of `sdl_parse` that ended with a value: the flag, and the states before and after the
statement. -/
structure Round (text : Bytes) where
  x : Bool
  start : DocState text TypeTable
  stop : DocState text TypeTable

/-- The rounds of `sdl_parse`. -/
def rounds (root : TypeTable → Option ℕ) (fuel : ℕ) :
    ℕ → Option Bytes × Bool → DocState text TypeTable → List (Round text)
  | 0, _, _ => []
  | k + 1, b, s =>
    if text.length ≤ s.cur then []
    else match (definition (gqlRegistry root) fuel b).run s with
      | (.ok r, s') => ⟨b.2, next s, s'⟩ :: if r.1 then [] else rounds root fuel k r.2 s'
      | _ => []

/-- The rounds on a text. -/
def roundsOf (root : TypeTable → Option ℕ) (fuel : ℕ) (text : Bytes) (err : Option Err) (r : TypeTable) :
    List (Round text) := rounds root fuel fuel (none, false) (docInit text err r)

def Statement.defines : Statement → Bool
  | .define _ => true
  | _ => false

/-- Whether the next definition is an extension, where `x` tells it for this statement. -/
def Statement.announces (x : Bool) : Statement → Bool
  | .desc => x
  | .extend => true
  | _ => false

/-- The definitions with an `extend` of their own are read as extensions, and the others as new ones. -/
def Treated : Bool → List (Round text) → Prop
  | _, [] => True
  | x, rd :: rest => ((statementAt rd.start).defines = true → rd.x = x) ∧
      Treated ((statementAt rd.start).announces x) rest

/-- Every definition behind an `extend` has one of its own. -/
def EachExtends : Bool → Bool → List Statement → Prop
  | _, _, [] => True
  | met, x, st :: rest => (st.defines = true → met = true → x = true) ∧
      EachExtends (met || st = .extend) (st.announces x) rest

/-- `extend_next` is set by `extend` and never reset. -/
theorem flag_readStatement {reg : Registry σ τ δ φ} {fuel : ℕ} {b : Option Bytes × Bool}
    {st : Statement} {s s' : DocState text σ} {r : Bool × Option Bytes × Bool}
    (h : (readStatement reg fuel b st).run s = (.ok r, s')) :
    r.2.2 = (b.2 || decide (st = .extend)) := by
  cases st with
  | desc =>
    obtain ⟨desc, s₁, -, h⟩ := run_bind_ok h
    obtain rfl := Outcome.ok.inj (Prod.mk.inj h).1
    exact (Bool.or_false _).symm
  | extend =>
    obtain ⟨u, s₁, -, h⟩ := run_bind_ok h
    obtain rfl := Outcome.ok.inj (Prod.mk.inj h).1
    exact (Bool.or_true _).symm
  | define kind =>
    obtain ⟨u, s₁, -, h⟩ := run_bind_ok h
    obtain rfl := Outcome.ok.inj (Prod.mk.inj h).1
    exact (Bool.or_false _).symm
  | directive =>
    obtain ⟨u, s₁, -, h⟩ := run_bind_ok h
    obtain rfl := Outcome.ok.inj (Prod.mk.inj h).1
    exact (Bool.or_false _).symm
  | ends =>
    obtain rfl := Outcome.ok.inj (Prod.mk.inj h).1
    exact (Bool.or_false _).symm
  | unknown => cases h

/-- A round that ends with a value read the statement behind the white space. -/
theorem run_definition_ok {reg : Registry σ τ δ φ} {fuel : ℕ} {b : Option Bytes × Bool}
    {s s' : DocState text σ} {r : Bool × Option Bytes × Bool}
    (h : (definition reg fuel b).run s = (.ok r, s')) :
    (readStatement reg fuel b (statementAt (next s))).run (next s) = (.ok r, s') := by
  obtain ⟨u, s₁, hnext, -⟩ := run_bind_ok h
  have hs₁ : next s = s₁ := congrArg Prod.snd hnext
  rw [hs₁, ← run_definition reg fuel b hnext, h]

/-- **Definitions are told apart as they should be exactly when each behind an `extend` has its own.** -/
theorem treated_iff (root : TypeTable → Option ℕ) (fuel k : ℕ) (b : Option Bytes × Bool) (x : Bool)
    (hx : x = true → b.2 = true) (s : DocState text TypeTable) :
    Treated x (rounds root fuel k b s) ↔
      EachExtends b.2 x ((rounds root fuel k b s).map fun rd => statementAt rd.start) := by
  induction k generalizing b x s with
  | zero => exact Iff.rfl
  | succ k ih =>
    unfold rounds
    split_ifs with hend
    · exact Iff.rfl
    cases hrun : (definition (gqlRegistry root) fuel b).run s with
    | mk o s' =>
      cases o with
      | ok r =>
        have hflag := flag_readStatement (run_definition_ok hrun)
        dsimp only
        rw [List.map_cons, Treated, EachExtends]
        refine and_congr (imp_congr_right fun _ => ?_) ?_
        · constructor
          · intro heq hmet
            exact heq.symm.trans hmet
          · intro himp
            exact Bool.eq_iff_iff.mpr ⟨himp, hx⟩
        · rw [← hflag]
          split_ifs with hstop
          · exact Iff.rfl
          · refine ih r.2 _ (fun h => ?_) s'
            rw [hflag]
            cases hst : statementAt (next s) with
            | desc =>
              rw [hst] at h
              rw [hx h]
              rfl
            | extend => exact Bool.or_true _
            | define kind =>
              rw [hst] at h
              cases h
            | directive =>
              rw [hst] at h
              cases h
            | ends =>
              rw [hst] at h
              cases h
            | unknown =>
              rw [hst] at h
              cases h
      | fail => exact Iff.rfl
      | fault => exact Iff.rfl
      | crash => exact Iff.rfl
      | timeout => exact Iff.rfl

/-! ## Types that are extended -/

section Extends

open KindSafety

variable {root : TypeTable → Option ℕ} {fuel t : ℕ} {r : TypeTable} {desc : Option Bytes}
  {s s' : DocState text TypeTable}

/-- The type that a definition here extends. -/
def target (kind : GqlKind) (s : DocState text TypeTable) : Option ℕ :=
  match ((definedName kind : Parser text TypeTable Bytes).run s).1 with
  | .ok name => s.user.reg.typeGet name
  | _ => none

/-- The uses that an enum has here between its name and its values. -/
def enumUses (root : TypeTable → Option ℕ) (fuel : ℕ) (s : DocState text TypeTable) :
    Option (List (DirUse ℕ ℕ)) :=
  match ((extractName (bytes "enum") >>= fun _ => extractDirUse (gqlRegistry root) fuel :
    Parser text TypeTable (Option (DirUse ℕ ℕ))).run s).1 with
  | .ok use => some use.toList
  | _ => none

/-- A type to extend is the one of the name. -/
theorem definedType_extend {kind : GqlKind} {name : Bytes}
    (h : (definedType (gqlRegistry root) kind name desc true : Parser text TypeTable ℕ).run s =
      (.ok t, s')) : s' = s ∧ s.user.reg.typeGet name = some t := by
  have hask : ∀ f : Option ℕ → Parser text TypeTable ℕ,
      (askReg ((gqlRegistry root).typeGet · name) >>= f).run s =
        (f (s.user.reg.typeGet name)).run s := fun f => rfl
  unfold definedType at h
  rw [if_pos rfl, hask] at h
  cases hget : s.user.reg.typeGet name with
  | none =>
    rw [hget] at h
    cases h
  | some t' =>
    rw [hget] at h
    obtain ⟨ht, hs⟩ := Prod.mk.inj h
    obtain rfl := Outcome.ok.inj ht
    exact ⟨hs.symm, rfl⟩

/-- The name of an extension is read, and then the type is taken. -/
theorem extend_opens {kind : GqlKind} (hschema : kind ≠ .schema) {name : Bytes}
    {s₁ s₂ : DocState text TypeTable}
    (hname : (extractName (keyOf kind) : Parser text TypeTable Bytes).run s = (.ok name, s₁))
    (hreg : s₂.user.reg.types = s.user.reg.types)
    (htype : (definedType (gqlRegistry root) kind name desc true : Parser text TypeTable ℕ).run s₂ =
      (.ok t, s')) : s' = s₂ ∧ target kind s = some t := by
  obtain ⟨hs', hget⟩ := definedType_extend htype
  refine ⟨hs', ?_⟩
  unfold target definedName
  rw [if_neg hschema, hname]
  unfold TypeTable.typeGet at hget ⊢
  rw [hreg] at hget
  exact hget

theorem keeps_onlyAdds {f : TypeTable → Except Err α × TypeTable} (h : ∀ q, OnlyAdds t q (f q).2) :
    Keeps (OnlyAdds t r) f := fun q hq => hq.trans (h q)

theorem gives_onlyAdds {f : TypeTable → Except Err α × TypeTable} (h : ∀ q, OnlyAdds t q (f q).2) :
    Gives (OnlyAdds t r) (fun _ => OnlyAdds t r) (fun _ => True) f :=
  (keeps_onlyAdds h).gives fun _ _ => trivial

theorem builds_onlyAdds (root : TypeTable → Option ℕ) (t : ℕ) (r : TypeTable) :
    Builds (gqlRegistry root) (OnlyAdds t r) (fun _ => OnlyAdds t r) (fun _ => True) t where
  fails _ _ := trivial
  leaves _ _ h := h
  type name := gives_onlyAdds fun q => onlyAdds_of_prefix (assures_type name q).isPrefix t
  list b := gives_onlyAdds fun q => onlyAdds_of_prefix (assures_around .list _ b q).isPrefix t
  nonnull b := gives_onlyAdds fun q => onlyAdds_of_prefix (assures_around .nonNull _ b q).isPrefix t
  directive name := keeps_onlyAdds fun q => onlyAdds_of_types (types_assureDirective name q) t
  directiveRead _ name := keeps_onlyAdds fun q => onlyAdds_of_types (types_assureDirective name q) t
  addDir use q h := h.trans (onlyAdds_typeAddDir q use)

theorem holds_makeField (root : TypeTable → Option ℕ) (fuel t : ℕ) (r : TypeTable) :
    Holds (OnlyAdds t r) (fun _ => True)
      (makeField (gqlRegistry root) fuel t : Parser text TypeTable Unit) := by
  have hbuilds := builds_onlyAdds root t r
  refine Agoo.holds_makeField (F := fun field => field.1 = t ∧ (r.fields t).length ≤ field.2) hbuilds
    (fun name type dval desc uses q hq => ⟨fun field hfield => ?_, fun _ _ => trivial⟩)
    fun field hfield => Agoo.holds_fieldArgs hbuilds.toReadsTypes fun name type desc dval q hq =>
      ⟨fun _ _ => ?_, fun _ _ => trivial⟩
  · refine ⟨?_, hq.trans (onlyAdds_typeField q name type dval desc uses)⟩
    obtain rfl := typeField_place q hfield
    exact ⟨rfl, hq.fields_le⟩
  · obtain ⟨t', place⟩ := field
    obtain ⟨rfl, hplace⟩ := hfield
    exact onlyAdds_fieldArg q hq hplace name type desc dval

/-- The type that an extension of a kind other than enum names only gets more. -/
def ExtendsOnly (kind : GqlKind) (s s' : DocState text TypeTable) : Prop :=
  ∃ t, target kind s = some t ∧ OnlyAdds t s.user.reg s'.user.reg

/-- An extension that reads a name, opens the type and goes on with `body`. -/
theorem extendsOnly_of_body {kind : GqlKind} (hschema : kind ≠ .schema)
    {body : ℕ → Parser text TypeTable Unit}
    (hbody : ∀ t, Triple (fun s₁ => OnlyAdds t s.user.reg s₁.user.reg) (body t)
      (fun _ s₂ => OnlyAdds t s.user.reg s₂.user.reg) fun _ => True)
    (h : (extractName (keyOf kind) >>= fun name => definedType (gqlRegistry root) kind name desc true >>=
      body).run s = (.ok (), s')) : ExtendsOnly kind s s' := by
  obtain ⟨name, s₁, hname, hopen⟩ := run_bind_ok h
  obtain ⟨t, s₂, htype, hrest⟩ := run_bind_ok hopen
  have hreg : s₁.user.reg = s.user.reg := by
    have hframe := frame_extractName (keyOf kind) s
    rwa [hname] at hframe
  obtain ⟨rfl, htarget⟩ := extend_opens hschema hname (congrArg TypeTable.types hreg) htype
  refine ⟨t, htarget, (hbody t).ok ?_ hrest⟩
  rw [hreg]
  exact OnlyAdds.refl t _

theorem extendsOnly_union
    (h : (makeUnion (gqlRegistry root) fuel desc true).run s = (.ok (), s')) :
    ExtendsOnly .union s s' :=
  extendsOnly_of_body (by decide) (fun t => holds_unionBody (x := true) (builds_onlyAdds root t _)
    (fun _ _ => trivial) (fun _ _ _ => trivial) fun member => gives_onlyAdds fun q =>
      onlyAdds_unionAdd q member) h

theorem extendsOnly_interface
    (h : (makeInterface (gqlRegistry root) fuel desc true).run s = (.ok (), s')) :
    ExtendsOnly .interface s s' :=
  extendsOnly_of_body (by decide) (fun t => triple_interfaceBody (x := true) (builds_onlyAdds root t _)
    (fun _ _ => trivial) (fun _ _ _ => trivial) (fun _ hq => hq) (fun _ _ => trivial)
    (fun hx => by cases hx) (holds_makeField root fuel t _)) h

theorem extendsOnly_input
    (h : (makeInput (gqlRegistry root) fuel desc true).run s = (.ok (), s')) :
    ExtendsOnly .input s s' :=
  extendsOnly_of_body (by decide) (fun t => holds_inputBody (x := true) (builds_onlyAdds root t _)
    (fun _ _ => trivial) (fun _ _ _ => trivial) fun name type desc dval uses => gives_onlyAdds fun q =>
      onlyAdds_inputArg q name type desc dval uses) h

theorem extendsOnly_type
    (h : (makeType (gqlRegistry root) fuel desc true).run s = (.ok (), s')) :
    ExtendsOnly .object s s' :=
  extendsOnly_of_body (by decide) (fun t => holds_typeBody (x := true) (builds_onlyAdds root t _)
    (fun _ _ => trivial) (fun _ _ _ => trivial)
    (fun interface q hq => hq.trans (onlyAdds_addInterface q interface))
    (holds_makeField root fuel t _)) h

theorem extendsOnly_schema
    (h : (makeSchema (gqlRegistry root) fuel desc true).run s = (.ok (), s')) :
    ExtendsOnly .schema s s' := by
  obtain ⟨u, s₁, hkey, hopen⟩ := run_bind_ok h
  obtain ⟨t, s₂, htype, hrest⟩ := run_bind_ok hopen
  have hreg : s₁.user.reg = s.user.reg := by
    have hframe := frame_keyWord (bytes "schema") s
    rwa [hkey] at hframe
  obtain ⟨rfl, hget⟩ := definedType_extend htype
  have htarget : target .schema s = some t := by
    unfold target definedName
    rw [if_pos rfl, run_bind, hkey, andThen_ok]
    rw [hreg] at hget
    exact hget
  refine ⟨t, htarget, (holds_schemaBody (x := true) (builds_onlyAdds root t s.user.reg)
    (fun _ _ => trivial) (fun _ _ _ => trivial) (holds_makeField root fuel t _)).ok ?_ hrest⟩
  rw [hreg]
  exact OnlyAdds.refl t _

/-- `make_enum` sets the uses of the type. -/
structure UsesSet (t : ℕ) (uses : List (DirUse ℕ ℕ)) (r r' : TypeTable) : Prop where
  others : ∀ i a, i ≠ t → r.types[i]? = some a → r'.types[i]? = some a
  type : ∀ a, r.types[t]? = some a →
    ∃ b, r'.types[t]? = some b ∧ GqlType.Adds { a with dir := uses } b ∧ b.dir = uses

theorem usesSet_update {uses : List (DirUse ℕ ℕ)} {q : TypeTable} (h : q.types = r.types) :
    UsesSet t uses r (q.update t fun type => { type with dir := uses }) := by
  refine ⟨fun i a hi ha => ?_, fun a ha => ⟨{ a with dir := uses }, ?_, GqlType.Adds.refl _, rfl⟩⟩
  · rw [getElem?_update_ne hi, h, ha]
  · rw [getElem?_update_self, h, ha]
    rfl

theorem UsesSet.update {uses : List (DirUse ℕ ℕ)} {q q' : TypeTable} (h : UsesSet t uses r q)
    {f : GqlType → GqlType} (hf : ∀ a, a.Adds (f a) ∧ (f a).dir = a.dir)
    (hq : q'.types = (q.update t f).types) : UsesSet t uses r q' := by
  refine ⟨fun i a hi ha => ?_, fun a ha => ?_⟩
  · rw [hq, getElem?_update_ne hi]
    exact h.others i a hi ha
  · obtain ⟨b, hb, hab, hdir⟩ := h.type a ha
    refine ⟨f b, ?_, hab.trans (hf b).1, (hf b).2.trans hdir⟩
    rw [hq, getElem?_update_self, hb]
    rfl

theorem UsesSet.of_types {uses : List (DirUse ℕ ℕ)} {q q' : TypeTable} (h : UsesSet t uses r q)
    (hq : q'.types = q.types) : UsesSet t uses r q' := by
  refine ⟨fun i a hi ha => ?_, fun a ha => ?_⟩
  · rw [hq]
    exact h.others i a hi ha
  · rw [hq]
    exact h.type a ha

/-- The type only gets more exactly when its uses are the first ones of those that are set. -/
theorem UsesSet.onlyAdds_iff {uses : List (DirUse ℕ ℕ)} {q : TypeTable} (h : UsesSet t uses r q) :
    OnlyAdds t r q ↔ ∀ a, r.types[t]? = some a → a.dir <+: uses := by
  constructor
  · intro hadds a ha
    obtain ⟨b, hb, hab⟩ := hadds.type a ha
    obtain ⟨b', hb', -, hdir⟩ := h.type a ha
    obtain rfl : b = b' := Option.some.inj (hb.symm.trans hb')
    exact hdir ▸ hab.dir
  · intro hdir
    refine ⟨h.others, fun a ha => ?_⟩
    obtain ⟨b, hb, hab, huses⟩ := h.type a ha
    exact ⟨b, hb, { hab with dir := huses ▸ hdir a ha }⟩

theorem enum_usesSet (h : (makeEnum (gqlRegistry root) fuel desc true).run s = (.ok (), s')) :
    ∃ t uses, target .enum s = some t ∧ enumUses root fuel s = some uses ∧
      UsesSet t uses s.user.reg s'.user.reg := by
  obtain ⟨name, s₁, hname, h₁⟩ := run_bind_ok h
  obtain ⟨use, s₂, huse, h₂⟩ := run_bind_ok h₁
  obtain ⟨n, s₃, hwhite, h₃⟩ := run_bind_ok h₂
  obtain ⟨u, s₄, hbrace, h₄⟩ := run_bind_ok h₃
  obtain ⟨t, s₅, htype, h₅⟩ := run_bind_ok h₄
  obtain ⟨u', s₆, hset, h₆⟩ := run_bind_ok h₅
  have htypes₁ : s₁.user.reg.types = s.user.reg.types := by
    have hframe := frame_extractName (bytes "enum") s
    rw [hname] at hframe
    exact congrArg TypeTable.types hframe
  have htypes₂ : s₂.user.reg.types = s.user.reg.types := by
    have hkeeps : Holds (fun q => q.types = s.user.reg.types) (fun _ => True)
        (extractDirUse (gqlRegistry root) fuel : Parser text TypeTable (Option (DirUse ℕ ℕ))) :=
      holds_extractDirUse (fun _ _ => trivial) (fun use q hq => (types_assureDirective use q).trans hq) fuel
    exact hkeeps.ok htypes₁ huse
  have htypes₄ : s₄.user.reg.types = s.user.reg.types := by
    have hframe := frame_skipWhite s₂
    rw [hwhite] at hframe
    have hframe' := frame_expect (bytes "\x7b") (bytes "Expected '\x7b'") s₃
    rw [hbrace] at hframe'
    exact (congrArg TypeTable.types (hframe'.trans hframe)).trans htypes₂
  have hkey : (extractName (keyOf .enum) : Parser text TypeTable Bytes).run s = (.ok name, s₁) := hname
  obtain ⟨rfl, htarget⟩ := extend_opens (by decide) hkey htypes₄ htype
  obtain rfl := (Prod.mk.inj hset).2
  refine ⟨t, use.toList, htarget, ?_, ?_⟩
  · unfold enumUses
    rw [run_bind, hname, andThen_ok, huse]
  · have hbody : Holds (UsesSet t use.toList s.user.reg) (fun _ => True)
        (enumBody (gqlRegistry root) fuel t true : Parser text TypeTable Unit) :=
      holds_enumBody (fun _ _ => trivial)
        (fun use q hq => hq.of_types (types_assureDirective use q)) (fun _ _ => trivial)
        (fun _ _ _ => trivial) fun value desc uses => Keeps.gives (fun _ _ => trivial) fun q hq => by
          obtain ⟨f, hf, htypes⟩ := enumAppend_update (t := t) q value (tokenLen value) desc uses
          refine hq.update (fun a => ?_) htypes
          rcases hf a with h | ⟨cs, more, hcs, h⟩
          · rw [h]
            exact ⟨GqlType.Adds.refl a, rfl⟩
          · rw [h]
            exact ⟨.of_members a (hcs ▸ .choices (List.prefix_append cs more)), rfl⟩
    exact hbody.ok (usesSet_update htypes₄) h₆

end Extends

/-! ## Texts of extensions -/

section Texts

open KindSafety

variable {root : TypeTable → Option ℕ} {fuel : ℕ}

namespace Round

/-- A definition only adds to the type that it names, and another statement changes no type. -/
def OnlyAdds (rd : Round text) : Prop :=
  match statementAt rd.start with
  | .define kind => ExtendsOnly kind rd.start rd.stop
  | _ => rd.stop.user.reg.types = rd.start.user.reg.types

/-- An enum that is extended has no more uses than the extension repeats first. -/
def KeepsUses (root : TypeTable → Option ℕ) (fuel : ℕ) (rd : Round text) : Prop :=
  statementAt rd.start = .define .enum → ∀ t uses a, target .enum rd.start = some t →
    enumUses root fuel rd.start = some uses → rd.start.user.reg.types[t]? = some a → a.dir <+: uses

/-- A definition here is read as an extension, of a type with the members of its own kind. -/
def Extends (rd : Round text) : Prop :=
  match statementAt rd.start with
  | .define kind => kind ∈ memberKinds ∧ rd.x = true ∧
      ∀ t, target kind rd.start = some t → (rd.start.user.reg.kind t).member = kind.member
  | .directive => False
  | .unknown => False
  | _ => True

/-- A definition here extends the type `t`. -/
def Names (rd : Round text) (t : ℕ) : Prop :=
  ∃ kind, statementAt rd.start = .define kind ∧ target kind rd.start = some t

/-- What the round read. -/
structure Runs (root : TypeTable → Option ℕ) (fuel : ℕ) (rd : Round text) : Prop where
  run : ∃ b r, b.2 = rd.x ∧
    (readStatement (gqlRegistry root) fuel b (statementAt rd.start)).run rd.start = (.ok r, rd.stop)

end Round

theorem runs_of_mem {k : ℕ} {b : Option Bytes × Bool} {s : DocState text TypeTable} {rd : Round text}
    (h : rd ∈ rounds root fuel k b s) : rd.Runs root fuel := by
  induction k generalizing b s with
  | zero => cases h
  | succ k ih =>
    unfold rounds at h
    split_ifs at h with hend
    · cases h
    cases hrun : (definition (gqlRegistry root) fuel b).run s with
    | mk o s' =>
      rw [hrun] at h
      cases o with
      | ok r =>
        rcases List.mem_cons.mp h with rfl | h
        · exact ⟨b, r, rfl, run_definition_ok hrun⟩
        · split_ifs at h with hstop
          · cases h
          · exact ih h
      | fail => cases h
      | fault => cases h
      | crash => cases h
      | timeout => cases h

theorem iff_of_other {P Q : Prop} {st : Statement} (hst : st ≠ .define .enum) (h : Q) :
    Q ↔ (st = .define .enum → P) := ⟨fun _ heq => absurd heq hst, fun _ => h⟩

/-- An extension only adds to the type that it names, unless it sets the uses of an enum to others. -/
theorem onlyAdds_iff {rd : Round text} (hruns : rd.Runs root fuel) (hextends : rd.Extends) :
    rd.OnlyAdds ↔ rd.KeepsUses root fuel := by
  obtain ⟨b, r, hx, hrun⟩ := hruns.run
  unfold Round.Extends at hextends
  unfold Round.OnlyAdds Round.KeepsUses
  cases hst : statementAt rd.start with
  | desc =>
    rw [hst] at hrun
    obtain ⟨desc, s₁, hdesc, hend⟩ := run_bind_ok hrun
    have hframe := frame_extractDesc rd.start
    rw [hdesc] at hframe
    obtain rfl := (Prod.mk.inj hend).2
    exact iff_of_other (by decide) (congrArg TypeTable.types hframe)
  | extend =>
    rw [hst] at hrun
    obtain ⟨u, s₁, hkey, hend⟩ := run_bind_ok hrun
    have hframe := frame_keyWord (bytes "extend") rd.start
    rw [hkey] at hframe
    obtain rfl := (Prod.mk.inj hend).2
    exact iff_of_other (by decide) (congrArg TypeTable.types hframe)
  | directive =>
    rw [hst] at hextends
    exact hextends.elim
  | unknown =>
    rw [hst] at hextends
    exact hextends.elim
  | ends =>
    rw [hst] at hrun
    have hstop : rd.start = rd.stop := (Prod.mk.inj hrun).2
    exact iff_of_other (by decide) (congrArg (fun s => s.user.reg.types) hstop.symm)
  | define kind =>
    rw [hst] at hextends hrun
    obtain ⟨hkind, hextend, -⟩ := hextends
    obtain ⟨u, s₁, hmake, hend⟩ := run_bind_ok hrun
    obtain rfl := (Prod.mk.inj hend).2
    rw [hx, hextend] at hmake
    have hkinds : kind = .schema ∨ kind = .object ∨ kind = .input ∨ kind = .union ∨
        kind = .interface ∨ kind = .enum := by
      simpa [memberKinds] using hkind
    rcases hkinds with rfl | rfl | rfl | rfl | rfl | rfl
    · exact iff_of_other (by decide) (extendsOnly_schema hmake)
    · exact iff_of_other (by decide) (extendsOnly_type hmake)
    · exact iff_of_other (by decide) (extendsOnly_input hmake)
    · exact iff_of_other (by decide) (extendsOnly_union hmake)
    · exact iff_of_other (by decide) (extendsOnly_interface hmake)
    · obtain ⟨t, uses, htarget, huses, hset⟩ := enum_usesSet hmake
      constructor
      · rintro ⟨t', ht', hadds⟩ - t'' uses' a ht'' huses' ha
        obtain rfl : t = t' := Option.some.inj (htarget.symm.trans ht')
        obtain rfl : t = t'' := Option.some.inj (htarget.symm.trans ht'')
        obtain rfl : uses = uses' := Option.some.inj (huses.symm.trans huses')
        exact hset.onlyAdds_iff.mp hadds a ha
      · exact fun h => ⟨t, htarget, hset.onlyAdds_iff.mpr fun a ha => h rfl t uses a htarget huses ha⟩

/-- What a run of rounds does to the types: those that no round names stay the same. -/
def AddsAll (rs : List (Round text)) (r r' : TypeTable) : Prop :=
  ∀ i a, r.types[i]? = some a → ∃ b, r'.types[i]? = some b ∧ a.Adds b ∧
    ((∀ rd ∈ rs, ¬ rd.Names i) → b = a)

theorem addsAll_nil (r : TypeTable) : AddsAll ([] : List (Round text)) r r :=
  fun _ a ha => ⟨a, ha, GqlType.Adds.refl a, fun _ => rfl⟩

theorem AddsAll.cons {rd : Round text} {rs : List (Round text)} (hrd : rd.OnlyAdds) {r r' : TypeTable}
    (hr : rd.start.user.reg = r) (h : AddsAll rs rd.stop.user.reg r') : AddsAll (rd :: rs) r r' := by
  have hround : ∀ i a, r.types[i]? = some a → ∃ b, rd.stop.user.reg.types[i]? = some b ∧ a.Adds b ∧
      (¬ rd.Names i → b = a) := by
    intro i a ha
    rw [← hr] at ha
    unfold Round.OnlyAdds at hrd
    have hsame : rd.stop.user.reg.types = rd.start.user.reg.types →
        ∃ b, rd.stop.user.reg.types[i]? = some b ∧ a.Adds b ∧ (¬ rd.Names i → b = a) :=
      fun h => ⟨a, by rw [h, ha], GqlType.Adds.refl a, fun _ => rfl⟩
    cases hst : statementAt rd.start with
    | define kind =>
      rw [hst] at hrd
      obtain ⟨t, htarget, hadds⟩ := hrd
      by_cases hi : i = t
      · subst hi
        obtain ⟨b, hb, hab⟩ := hadds.type a ha
        exact ⟨b, hb, hab, fun hno => absurd ⟨kind, hst, htarget⟩ hno⟩
      · exact ⟨a, hadds.others i a hi ha, GqlType.Adds.refl a, fun _ => rfl⟩
    | desc =>
      rw [hst] at hrd
      exact hsame hrd
    | extend =>
      rw [hst] at hrd
      exact hsame hrd
    | directive =>
      rw [hst] at hrd
      exact hsame hrd
    | ends =>
      rw [hst] at hrd
      exact hsame hrd
    | unknown =>
      rw [hst] at hrd
      exact hsame hrd
  intro i a ha
  obtain ⟨b, hb, hab, hsame⟩ := hround i a ha
  obtain ⟨c, hc, hbc, hsame'⟩ := h i b hb
  refine ⟨c, hc, hab.trans hbc, fun hno => ?_⟩
  rw [hsame' fun rd' hrd' => hno rd' (List.mem_cons_of_mem _ hrd'), hsame (hno rd List.mem_cons_self)]

/-- Rounds that only add make a run that only adds. -/
theorem addsAll_rounds {k : ℕ} {b b' : Option Bytes × Bool} {s s' : DocState text TypeTable}
    (h : ∀ rd ∈ rounds root fuel k b s, rd.OnlyAdds)
    (hrun : (whileLt (definition (gqlRegistry root) fuel) k b).run s = (.ok b', s')) :
    AddsAll (rounds root fuel k b s) s.user.reg s'.user.reg := by
  induction k generalizing b s with
  | zero => cases hrun
  | succ k ih =>
    unfold rounds at h ⊢
    unfold whileLt at hrun
    rw [run_bind, run_pos, andThen_ok] at hrun
    split_ifs at h hrun ⊢ with hend
    · obtain rfl := (Prod.mk.inj hrun).2
      exact addsAll_nil _
    obtain ⟨r, s₁, hround, hrest⟩ := run_bind_ok hrun
    rw [hround] at h ⊢
    have hreg : (next s).user.reg = s.user.reg := frame_nextToken s
    refine AddsAll.cons (h _ List.mem_cons_self) hreg ?_
    obtain ⟨stop, b₁⟩ := r
    cases stop with
    | true =>
      obtain rfl := (Prod.mk.inj hrest).2
      exact addsAll_nil _
    | false => exact ih (fun rd hrd => h rd (List.mem_cons_of_mem _ hrd)) hrest

end Texts

/-! ## An enum with a use -/

/-- How many uses the type has that is extended here. -/
def usesLeft (kind : GqlKind) (rd : Round text) (s : DocState text TypeTable) : ℕ :=
  (((target kind rd.start).bind fun t => s.user.reg.types[t]?).map (·.dir.length)).getD 0

theorem not_onlyAdds {rd : Round text} {kind : GqlKind} (hst : statementAt rd.start = .define kind)
    (h : usesLeft kind rd rd.stop < usesLeft kind rd rd.start) : ¬ rd.OnlyAdds := by
  unfold Round.OnlyAdds
  rw [hst]
  rintro ⟨t, htarget, hadds⟩
  unfold usesLeft at h
  rw [htarget] at h
  dsimp only [Option.bind_some] at h
  cases ha : rd.start.user.reg.types[t]? with
  | none =>
    rw [ha] at h
    exact absurd h (Nat.not_lt_zero _)
  | some a =>
    obtain ⟨b, hb, hab⟩ := hadds.type a ha
    rw [ha, hb] at h
    exact absurd h (Nat.not_lt.mpr hab.dir.length_le)

instance (met x : Bool) (sts : List Statement) : Decidable (EachExtends met x sts) := by
  induction sts generalizing met x with
  | nil => exact isTrue trivial
  | cons st rest ih =>
    unfold EachExtends
    haveI := ih (met || st = .extend) (st.announces x)
    infer_instance

/-- `enum Color @d { RED }`. -/
def colorTable : TypeTable :=
  KindSafety.parsed (fun _ => none) 40 (bytes "enum Color @d \x7b RED \x7d") gqlInit

end SdlExtend

end Agoo
