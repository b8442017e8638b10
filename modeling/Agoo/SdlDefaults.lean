import Agoo.DocTermination
import Agoo.SdlHolds

/-!
# Default values of arguments

`make_field` and `make_input_arg` pass the equal sign before they read a default value. The readers
of the arguments of fields and directives, `make_field_arg` and `make_dir_arg`, do not: the value is
read at the equal sign, which begins none, so that it is a token of the rest of the text and the
cursor stays. The next argument is looked for at the equal sign, and there the parser stops.

`not_stores`: **no text is accepted and stores a default value for an argument of a field or of a
directive.**
-/

namespace Agoo

open Agoo.Parser Scanner

variable {text : Bytes} {σ τ δ φ α β : Type}

namespace SdlDefaults

/-! ## A registry that records the defaults -/

/-- A call on the registry beside the record. -/
def recordedCall (f : σ → Except Err α × σ) (r : σ × List (GqlValue τ)) :
    Except Err α × σ × List (GqlValue τ) :=
  ((f r.1).1, (f r.1).2, r.2)

/-- A call that stores a default value, if there is one, and puts it in the record. -/
def storingCall (dval : Option (GqlValue τ)) (f : σ → Except Err α × σ)
    (r : σ × List (GqlValue τ)) : Except Err α × σ × List (GqlValue τ) :=
  ((f r.1).1, (f r.1).2, r.2 ++ dval.toList)

/-- The registry `reg`, with a record of the default values that `gql_field_arg` and `gql_dir_arg`
are given. -/
def recorded (reg : Registry σ τ δ φ) : Registry (σ × List (GqlValue τ)) τ δ φ where
  typeGet r := reg.typeGet r.1
  kind r := reg.kind r.1
  base r := reg.base r.1
  name r := reg.name r.1
  fields r := reg.fields r.1
  stringType := reg.stringType
  rootType r := reg.rootType r.1
  typeCreate kind name desc := recordedCall (reg.typeCreate kind name desc)
  typeDestroy t r := (reg.typeDestroy t r.1, r.2)
  assureType name := recordedCall (reg.assureType name)
  assureList t := recordedCall (reg.assureList t)
  assureNonnull t := recordedCall (reg.assureNonnull t)
  typeSetDir t uses r := (reg.typeSetDir t uses r.1, r.2)
  typeAddDir t use r := (reg.typeAddDir t use r.1, r.2)
  addInterface t interface r := (reg.addInterface t interface r.1, r.2)
  assureDirective name := recordedCall (reg.assureDirective name)
  enumAppend t value len desc uses := recordedCall (reg.enumAppend t value len desc uses)
  unionAdd t member := recordedCall (reg.unionAdd t member)
  directiveCreate name desc := recordedCall (reg.directiveCreate name desc)
  dirArg dir name type desc dval := storingCall dval (reg.dirArg dir name type desc dval)
  directiveOn dir on := recordedCall (reg.directiveOn dir on)
  typeField t name type dval desc uses := recordedCall (reg.typeField t name type dval desc uses)
  fieldArg field name type desc dval := storingCall dval (reg.fieldArg field name type desc dval)
  inputArg t name type desc dval uses := recordedCall (reg.inputArg t name type desc dval uses)

/-- `sdl_parse` accepts the text, and these are the default values stored for the arguments of fields
and directives, in order. -/
def Stores (reg : Registry σ τ δ φ) (text : Bytes) (err : Option Err) (u : σ) (fuel : ℕ)
    (values : List (GqlValue τ)) : Prop :=
  ∃ s', (sdlParse (recorded reg) fuel).run (docInit text err (u, [])) = (.ok (), s') ∧
    s'.user.reg.2 = values

/-- No default value is stored yet. -/
def Unstored (r : σ × List (GqlValue τ)) : Prop := r.2 = []

/-- What a failure leaves does not matter. -/
def Anything (_ : σ × List (GqlValue τ)) : Prop := True

theorem anything (r : σ × List (GqlValue τ)) (_ : Unstored r) : Anything r := trivial

theorem keeps_recordedCall (f : σ → Except Err α × σ) :
    Keeps (Unstored (τ := τ)) (recordedCall f) := fun _ h => h

theorem keeps_storingCall (f : σ → Except Err α × σ) :
    Keeps (Unstored (τ := τ)) (storingCall none f) := fun r h => by
  unfold storingCall Unstored
  rw [h]
  rfl

theorem keepsCalls (reg : Registry σ τ δ φ) : KeepsCalls (recorded reg) Unstored :=
  ⟨fun _ => keeps_recordedCall _, fun _ => keeps_recordedCall _, fun _ => keeps_recordedCall _,
    fun _ => keeps_recordedCall _⟩

theorem keepsTypes (reg : Registry σ τ δ φ) :
    KeepsTypes (recorded reg) Unstored Anything fun _ => Unstored :=
  ⟨anything, fun _ _ h => h, fun _ => keepsCalls reg, fun _ _ _ h => h, fun _ _ _ h => h,
    fun _ _ h => h, fun _ _ _ => trivial⟩

/-! ## At the equal sign -/

/-- The cursor is at an equal sign. -/
def AtEqual (s : DocState text σ) : Prop := at0 text s.cur = chr '='

/-- Whatever a run that fails leaves. -/
def Whatever (_ : DocState text σ) : Prop := True

theorem AtEqual.skipWhite {s : DocState text σ} (h : AtEqual s) :
    (skipWhite : Parser text σ ℕ).run s = (.ok 0, s) :=
  skipWhite_stay (by rw [h]; decide) (by rw [h]; decide)

theorem skipWhite_atEqual :
    Triple AtEqual (skipWhite : Parser text σ ℕ) (fun _ => AtEqual) Whatever := by
  intro s hs
  rw [hs.skipWhite]
  exact hs

theorem AtEqual.token {s : DocState text σ} (h : AtEqual s) : tokenLen (text.drop s.cur) = 0 := by
  rw [AtEqual] at h
  rw [drop_cons_of_at0 (by rw [h]; decide), h]
  rfl

/-- The value read at the equal sign is read without moving. -/
theorem readValue_atEqual (reg : Registry σ τ δ φ) (fuel : ℕ) (type : Option τ) :
    Triple AtEqual (readValue reg fuel type : Parser text σ (GqlValue τ)) (fun _ => AtEqual)
      Whatever := by
  intro s hs
  cases fuel with
  | zero => trivial
  | succ fuel =>
    have hw : isWhite (at0 text s.cur) = false := by
      rw [hs]
      decide
    have hc : at0 text s.cur ≠ chr '#' := by
      rw [hs]
      decide
    have hv : startsValue (at0 text s.cur) = false := by
      rw [hs]
      decide
    obtain ⟨v, s', hrun, hcur⟩ := readValue_stay reg fuel type hw hc hv
    rw [hrun]
    change at0 text s'.cur = chr '='
    rw [hcur]
    exact hs

/-- There is no description at the equal sign. -/
theorem extractDesc_atEqual : Triple AtEqual (extractDesc : Parser text σ (Option Bytes))
    (fun _ => AtEqual) Whatever := by
  refine Triple.bind skipWhite_atEqual fun _ => Triple.pos fun q => triple_peek fun c =>
    Triple.ite (fun hc => triple_never fun s hs => ?_) fun _ => triple_pure fun s hs => hs.1.1
  have hat : chr '"' = chr '=' := hc.symm.trans (hs.2.symm.trans hs.1.1)
  exact absurd hat (by decide)

/-- No word begins at the equal sign. -/
theorem word_atEqual {f : Bytes → Parser text σ β} {E : DocState text σ → Prop}
    {Q : β → DocState text σ → Prop} (h : Triple AtEqual (f []) Q E) :
    Triple AtEqual (do
      let start ← Scanner.pos
      readToken
      let word ← since start
      f word) Q E := by
  intro s hs
  have hread : (readToken : Parser text σ Unit).run s = (.ok (), s) := by
    unfold readToken advance step
    simp only [hs.token, Nat.add_zero]
  have hsince : (text.take s.cur).drop s.cur = [] :=
    List.drop_eq_nil_of_le (by rw [List.length_take]; exact Nat.min_le_left _ _)
  rw [run_bind, run_pos, andThen_ok, run_bind, hread, andThen_ok, run_bind]
  change Leaves Q E ((f ((text.take s.cur).drop s.cur)).run s)
  rw [hsince]
  exact h s hs

/-- A call on the registry stays at the equal sign. -/
theorem callReg_atEqual (f : σ → Except Err α × σ) :
    Triple AtEqual (callReg f : Parser text σ α) (fun _ => AtEqual) Whatever :=
  triple_callReg (P := fun p => at0 text p = chr '=') f

theorem require_false {P : DocState text σ → Prop} {c : Prop} [Decidable c] (hc : ¬ c) (msg : Bytes) :
    Triple P (require c msg : Parser text σ Unit) (fun _ _ => False) Whatever := by
  unfold require
  rw [if_neg hc]
  exact fun _ _ => trivial

/-- No argument of a field begins at the equal sign. -/
theorem makeFieldArg_atEqual (reg : Registry σ τ δ φ) (fuel : ℕ) (field : φ) :
    Triple AtEqual (makeFieldArg reg fuel field : Parser text σ Unit) (fun _ _ => False)
      Whatever := by
  have hname : Triple AtEqual (readName : Parser text σ Bytes) (fun _ _ => False) Whatever :=
    word_atEqual <| Triple.bind (require_false (by simp) _) fun _ => triple_never fun _ h => h
  exact Triple.bind extractDesc_atEqual fun _ => Triple.bind skipWhite_atEqual fun _ =>
    Triple.bind hname fun _ => triple_never fun _ h => h

/-- No argument of a directive begins at the equal sign. -/
theorem makeDirArg_atEqual (reg : Registry σ τ δ φ) (fuel : ℕ) (dir : δ) :
    Triple AtEqual (makeDirArg reg fuel dir : Parser text σ Unit) (fun _ _ => False) Whatever :=
  Triple.bind extractDesc_atEqual fun _ => Triple.bind skipWhite_atEqual fun _ =>
    word_atEqual <| Triple.bind (require_false (by simp) _) fun _ => triple_never fun _ h => h

/-! ## Arguments -/

/-- Nothing is stored yet, or no argument can follow. -/
def Doomed (s : DocState text (σ × List (GqlValue τ))) : Prop := Unstored s.user.reg ∨ AtEqual s

/-- A default value is read and stored, with the cursor still at the equal sign. -/
theorem store_atEqual (reg : Registry (σ × List (GqlValue τ)) τ δ φ) (fuel : ℕ) (type : τ)
    {f : GqlValue τ → Parser text (σ × List (GqlValue τ)) Unit}
    (h : ∀ v, Triple AtEqual (f v) (fun _ => AtEqual) Whatever) :
    Triple (fun s => Unstored s.user.reg ∧ at0 text s.cur = chr '=')
      (readValue reg fuel (some type) >>= f) (fun _ => Doomed) Whatever :=
  (Triple.bind (readValue_atEqual reg fuel (some type)) h).mono (fun _ hs => hs.2)
    (fun _ _ hs => Or.inr hs) fun _ hs => hs

theorem makeFieldArg_doomed (reg : Registry σ τ δ φ) (fuel : ℕ) (field : φ) :
    Triple (fun s => Unstored s.user.reg)
      (makeFieldArg (recorded reg) fuel field : Parser text (σ × List (GqlValue τ)) Unit)
      (fun _ => Doomed) Whatever := by
  refine Triple.bind (frame_extractDesc.holds anything) fun desc =>
    Triple.bind (frame_skipWhite.holds anything) fun _ =>
      Triple.bind (frame_readName.holds anything) fun name =>
        Triple.bind (frame_skipWhite.holds anything) fun _ =>
          Triple.bind ((frame_expect _ _).holds anything) fun _ =>
            Triple.bind (holds_readType anything (keepsCalls reg) fuel) fun type =>
              Triple.bind (frame_skipWhite.holds anything) fun _ => triple_peek fun c =>
                Triple.ite ?_ fun _ => ?_
  · rintro rfl
    exact store_atEqual _ fuel type fun v => callReg_atEqual _
  · exact (holds_callReg anything (keeps_storingCall _)).mono (fun _ hs => hs.1)
      (fun _ _ hs => Or.inl hs) fun _ hs => hs

theorem makeDirArg_doomed (reg : Registry σ τ δ φ) (fuel : ℕ) (dir : δ) :
    Triple (fun s => Unstored s.user.reg)
      (makeDirArg (recorded reg) fuel dir : Parser text (σ × List (GqlValue τ)) Unit)
      (fun _ => Doomed) Whatever := by
  have hplain : ∀ name type desc, Triple (fun s => Unstored s.user.reg)
      (callReg ((recorded reg).dirArg dir name type desc none) :
        Parser text (σ × List (GqlValue τ)) Unit) (fun _ => Doomed) Whatever := fun _ _ _ =>
    (holds_callReg anything (keeps_storingCall _)).mono (fun _ hs => hs)
      (fun _ _ hs => Or.inl hs) fun _ hs => hs
  refine Triple.bind (frame_extractDesc.holds anything) fun desc =>
    Triple.bind (frame_skipWhite.holds anything) fun _ =>
      Triple.bind (frame_pos.holds anything) fun start =>
        Triple.bind (frame_readToken.holds anything) fun _ =>
          Triple.bind ((frame_since start).holds anything) fun name =>
            Triple.bind ((frame_require _ _).holds anything) fun _ =>
              Triple.bind (frame_peek.holds anything) fun colon =>
                Triple.bind ((frame_require _ _).holds anything) fun _ =>
                  Triple.bind ((frame_require _ _).holds anything) fun _ =>
                    Triple.bind ((frame_accept _).holds anything) fun _ => ?_
  refine Triple.bind (frame_skipWhite.holds anything) fun _ =>
    Triple.bind (frame_pos.holds anything) fun start =>
      Triple.bind (frame_readToken.holds anything) fun _ =>
        Triple.bind ((frame_since start).holds anything) fun typeName =>
          Triple.bind ((frame_require _ _).holds anything) fun _ =>
            Triple.bind ((frame_require _ _).holds anything) fun _ =>
              Triple.bind (holds_callReg anything ((keepsCalls reg).assureType _)) fun type =>
                Triple.bind (frame_skipWhite.holds anything) fun _ => triple_peek fun c =>
                  Triple.ite (fun _ => ?_) fun _ => Triple.ite ?_ fun _ => ?_
  · refine Triple.mono (Triple.bind (holds_callReg anything ((keepsCalls reg).assureNonnull type))
      fun _ => Triple.bind ((frame_accept _).holds anything) fun _ =>
        Triple.bind (frame_skipWhite.holds anything) fun _ => hplain _ _ _) (fun _ hs => hs.1)
      (fun _ _ hs => hs) fun _ hs => hs
  · rintro rfl
    exact store_atEqual _ fuel type fun v => Triple.bind skipWhite_atEqual fun _ => callReg_atEqual _
  · exact (hplain _ _ _).mono (fun _ hs => hs.1) (fun _ _ hs => hs) fun _ hs => hs

/-- One round of a loop over arguments that ends the loop at a `)`: a default value that was stored is
met again. -/
theorem round_doomed {make : Parser text (σ × List (GqlValue τ)) Unit}
    {close : Parser text (σ × List (GqlValue τ)) (Bool × Unit)}
    (hmake : Triple (fun s => Unstored s.user.reg) make (fun _ => Doomed) Whatever)
    (hequal : Triple AtEqual make (fun _ _ => False) Whatever)
    (hclose : Triple Doomed close (fun r s => if r.1 then Unstored s.user.reg else Doomed s)
      Whatever) :
    Triple Doomed (do
      make
      let _ ← skipWhite
      close) (fun r s => if r.1 then Unstored s.user.reg else Doomed s) Whatever := by
  have hnext : Triple Doomed make (fun _ => Doomed) Whatever :=
    hmake.or (hequal.mono (fun _ h => h) (fun _ _ h => absurd h not_false) fun _ h => h)
  have hskip : Triple Doomed (skipWhite : Parser text (σ × List (GqlValue τ)) ℕ) (fun _ => Doomed)
      Whatever :=
    Triple.or ((frame_skipWhite.holds anything).mono (fun _ h => h) (fun _ _ h => Or.inl h)
      fun _ h => h) (skipWhite_atEqual.mono (fun _ h => h) (fun _ _ h => Or.inr h) fun _ h => h)
  exact Triple.bind hnext fun _ => Triple.bind hskip fun _ => hclose

theorem holds_fieldArgs (reg : Registry σ τ δ φ) (fuel : ℕ) (field : φ) :
    Holds Unstored Anything (forever (fieldArgs (recorded reg) fuel field) fuel () :
      Parser text (σ × List (GqlValue τ)) Unit) := by
  have hround : ∀ b, Triple Doomed
      (fieldArgs (recorded reg) fuel field b : Parser text (σ × List (GqlValue τ)) (Bool × Unit))
      (fun r s => if r.1 then Unstored s.user.reg else Doomed s) Whatever := fun b => by
    refine round_doomed (makeFieldArg_doomed reg fuel field)
      (makeFieldArg_atEqual (recorded reg) fuel field) (triple_peek fun c => triple_pure ?_)
    rintro s ⟨hs, rfl⟩
    by_cases hc : at0 text s.cur = chr ')'
    · rw [if_pos (decide_eq_true hc)]
      refine hs.resolve_right fun heq => ?_
      exact absurd (hc.symm.trans heq) (by decide)
    · rw [if_neg (by simpa using hc)]
      exact hs
  exact (triple_forever hround (fun _ _ _ => trivial) fuel ()).mono (fun _ h => Or.inl h)
    (fun _ _ h => h) fun _ h => h

theorem holds_dirArgs (reg : Registry σ τ δ φ) (fuel : ℕ) (dir : δ) :
    Holds Unstored Anything (whileLt (dirArgs (recorded reg) fuel dir) fuel () :
      Parser text (σ × List (GqlValue τ)) Unit) := by
  have hround : ∀ b, Triple Doomed
      (dirArgs (recorded reg) fuel dir b : Parser text (σ × List (GqlValue τ)) (Bool × Unit))
      (fun r s => if r.1 then Unstored s.user.reg else Doomed s) Whatever := fun b => by
    refine round_doomed (makeDirArg_doomed reg fuel dir)
      (makeDirArg_atEqual (recorded reg) fuel dir) ?_
    have hequal : Triple AtEqual (accept (bytes ")") : Parser text (σ × List (GqlValue τ)) Bool)
        (fun found s => found = false ∧ AtEqual s) Whatever := by
      intro s hs
      have hne : at0 text s.cur ≠ chr ')' := by
        rw [hs]
        decide
      rw [show bytes ")" = [chr ')'] from rfl, accept_false hne]
      exact ⟨rfl, hs⟩
    have haccept : Triple Doomed (accept (bytes ")") : Parser text (σ × List (GqlValue τ)) Bool)
        (fun found s => if found then Unstored s.user.reg else Doomed s) Whatever := by
      refine Triple.or (((frame_accept _).holds anything).mono (fun _ h => h) (fun found s hs => ?_)
        fun _ h => h) (hequal.mono (fun _ h => h) (fun found s hs => ?_) fun _ h => h)
      · split
        · exact hs
        · exact Or.inl hs
      · rw [hs.1]
        exact Or.inr hs.2
    exact Triple.bind haccept fun found => triple_pure fun _ hs => hs
  refine (triple_whileLt (fun b => (hround b).mono (fun _ h => h.1) (fun _ _ h => h) fun _ h => h)
    (fun _ s hs hend => hs.resolve_right fun heq => ?_) (fun _ _ _ => trivial) fuel ()).mono
    (fun _ h => Or.inl h) (fun _ _ h => h) fun _ h => h
  rw [AtEqual, at0_of_le hend] at heq
  exact absurd heq (by decide)

/-! ## Documents -/

theorem holds_makeField (reg : Registry σ τ δ φ) (fuel : ℕ) (t : τ) :
    Holds Unstored Anything
      (makeField (recorded reg) fuel t : Parser text (σ × List (GqlValue τ)) Unit) :=
  Agoo.holds_makeField (F := fun _ => True) ((keepsCalls reg).builds anything fun _ _ h => h)
    (fun _ _ _ _ _ _ hr => ⟨fun _ _ => ⟨trivial, hr⟩, fun _ _ => trivial⟩)
    fun field _ => holds_fieldArgs reg fuel field

theorem names (key : Bytes) :
    Names text (fun s => Unstored s.user.reg) (fun _ => Unstored (τ := τ) (σ := σ)) Anything
      key :=
  (frame_extractName key).holds anything

theorem opens (reg : Registry σ τ δ φ) (kind : GqlKind) (desc : Option Bytes) (x : Bool)
    (name : Bytes) :
    Opens text (recorded reg) kind desc x Unstored Anything (fun _ => Unstored) name :=
  opens_of_keeps anything (keeps_recordedCall _)

theorem definesAll (reg : Registry σ τ δ φ) (fuel : ℕ) (desc : Option Bytes) (x : Bool) :
    DefinesAll text (recorded reg) Unstored Anything (fun s => Unstored s.user.reg) fuel desc x where
  begins _ h := h
  fails := anything
  scalar := defines_makeScalar (keepsTypes reg) (names _) (opens reg .scalar desc x)
  enum := defines_makeEnum (keepsTypes reg) (names _) (fun _ => (keepsCalls reg).assureDirective)
    (fun _ => anything)
    (opens reg .enum desc x) fun _ _ _ _ => (keeps_recordedCall _).gives anything
  union := defines_makeUnion (keepsTypes reg) (names _) (opens reg .union desc x)
    fun _ _ => keeps_recordedCall _
  interface := defines_makeInterface (keepsTypes reg) (names _) (opens reg .interface desc x)
    (holds_makeField reg fuel)
  input := defines_makeInput (keepsTypes reg) (names _) (opens reg .input desc x)
    fun _ _ _ _ _ _ => keeps_recordedCall _
  type := defines_makeType (keepsTypes reg) (names _) (opens reg .object desc x)
    (fun _ _ _ h => h) (holds_makeField reg fuel)
  schema := defines_makeSchema (keepsTypes reg) ((frame_keyWord _).holds anything)
    (opens reg .schema desc x _) (holds_makeField reg fuel)
  directive := holds_makeDirective anything (fun _ => keeps_recordedCall _)
    (fun _ _ => keeps_recordedCall _) (holds_dirArgs reg fuel)

/-- A document that is accepted stores no default value. -/
theorem sdlParse_unstored (reg : Registry σ τ δ φ) (fuel : ℕ) :
    Holds Unstored Anything
      (sdlParse (recorded reg) fuel : Parser text (σ × List (GqlValue τ)) Unit) :=
  holds_sdlParse anything fun b => definesAll reg fuel b.1 b.2

/-- **No text is accepted and stores a default value for an argument of a field or a directive.** -/
theorem not_stores (reg : Registry σ τ δ φ) (text : Bytes) (err : Option Err) (u : σ) (fuel : ℕ)
    (value : GqlValue τ) (more : List (GqlValue τ)) :
    ¬ Stores reg text err u fuel (value :: more) := by
  rintro ⟨s', hrun, hvalues⟩
  have hinit : Unstored (docInit text err (u, ([] : List (GqlValue τ)))).user.reg := rfl
  have hnone : s'.user.reg.2 = [] := (sdlParse_unstored reg fuel).ok hinit hrun
  rw [hnone] at hvalues
  cases hvalues

/-- A field with a default value for its argument is refused. -/
theorem default_refused :
    ¬ ∃ fuel, Stores nameRegistry (bytes "type Query { echo(n: Int = 1): Int }") none () fuel
      [.int 1] := by
  rintro ⟨fuel, s', hrun, hvalues⟩
  have hinit : Unstored (docInit (bytes "type Query \x7b echo(n: Int = 1): Int \x7d") none
    ((), ([] : List (GqlValue Bytes)))).user.reg := rfl
  have hnone : s'.user.reg.2 = [] := (sdlParse_unstored nameRegistry fuel).ok hinit hrun
  rw [hnone] at hvalues
  cases hvalues

end SdlDefaults

end Agoo
