import Agoo.DocFrame

/-!
# What type definitions do to the registry

`sdl_parse` changes the registry through calls of `graphql.c` only. What those calls keep, given the
type that a definition made or opened, every definition keeps: one lemma for each function of `sdl.c`.
-/

namespace Agoo

open Agoo.Parser Scanner

variable {text : Bytes} {σ τ δ φ α β : Type}

/-- The calls that any definition makes keep `I`. -/
structure KeepsCalls (reg : Registry σ τ δ φ) (I : σ → Prop) : Prop where
  assureType : ∀ name, Keeps I (reg.assureType name)
  assureList : ∀ t, Keeps I (reg.assureList t)
  assureNonnull : ∀ t, Keeps I (reg.assureNonnull t)
  assureDirective : ∀ name, Keeps I (reg.assureDirective name)

/-- With `J t` after the type `t` is made or opened: `J t` is kept by the calls for every definition
and by the uses of directives, and gives `I`. What a failure leaves is kept by destroying a type. -/
structure KeepsTypes (reg : Registry σ τ δ φ) (I E : σ → Prop) (J : τ → σ → Prop) : Prop where
  fails : ∀ r, I r → E r
  leaves : ∀ t r, J t r → I r
  calls : ∀ t, KeepsCalls reg (J t)
  setDir : ∀ t uses r, J t r → J t (reg.typeSetDir t uses r)
  addDir : ∀ t use r, J t r → J t (reg.typeAddDir t use r)
  destroys : ∀ t r, I r → I (reg.typeDestroy t r)
  destroysFailed : ∀ t r, E r → E (reg.typeDestroy t r)

variable {reg : Registry σ τ δ φ} {I P E E' : σ → Prop} {J A : τ → σ → Prop}

theorem KeepsTypes.fails' (h : KeepsTypes reg I E J) {t : τ} (r : σ) (hr : J t r) : E r :=
  h.fails r (h.leaves t r hr)

/-- What a call leaves with an answer, and without one. -/
def Gives (P : σ → Prop) (Q : α → σ → Prop) (E : σ → Prop) (f : σ → Except Err α × σ) : Prop :=
  ∀ r, P r → (∀ a, (f r).1 = .ok a → Q a (f r).2) ∧ ∀ e, (f r).1 = .error e → E (f r).2

theorem Gives.callReg {Q : α → σ → Prop} {f : σ → Except Err α × σ} (h : Gives P Q E f) :
    Triple (fun s => P s.user.reg) (callReg f : Parser text σ α) (fun a s => Q a s.user.reg)
      fun s => E s.user.reg :=
  triple_callReg_of (fun r a hr => (h r hr).1 a) fun r e hr => (h r hr).2 e

theorem Keeps.gives (hE : ∀ r, I r → E r) {f : σ → Except Err α × σ} (h : Keeps I f) :
    Gives I (fun _ => I) E f :=
  fun r hr => ⟨fun _ _ => h r hr, fun _ _ => hE _ (h r hr)⟩

/-- Types are read from `I`, and `A t` holds after the type `t` is read. -/
structure ReadsTypes (reg : Registry σ τ δ φ) (I : σ → Prop) (A : τ → σ → Prop) (E : σ → Prop) :
    Prop where
  fails : ∀ r, I r → E r
  leaves : ∀ t r, A t r → I r
  type : ∀ name, Gives I A E (reg.assureType name)
  list : ∀ t, Gives (A t) A E (reg.assureList t)
  nonnull : ∀ t, Gives (A t) A E (reg.assureNonnull t)

/-- And the uses of directives in a definition of the type `t` keep `I`. -/
structure Builds (reg : Registry σ τ δ φ) (I : σ → Prop) (A : τ → σ → Prop) (E : σ → Prop) (t : τ) :
    Prop extends ReadsTypes reg I A E where
  directive : ∀ name, Keeps I (reg.assureDirective name)
  directiveRead : ∀ u name, Keeps (A u) (reg.assureDirective name)
  addDir : ∀ use r, I r → I (reg.typeAddDir t use r)

theorem KeepsCalls.readsTypes (hE : ∀ r, I r → E r) (h : KeepsCalls reg I) :
    ReadsTypes reg I (fun _ => I) E :=
  ⟨hE, fun _ _ hr => hr, fun name => (h.assureType name).gives hE, fun t => (h.assureList t).gives hE,
    fun t => (h.assureNonnull t).gives hE⟩

theorem KeepsCalls.builds (hE : ∀ r, I r → E r) (h : KeepsCalls reg I) {t : τ}
    (hadd : ∀ use r, I r → I (reg.typeAddDir t use r)) : Builds reg I (fun _ => I) E t :=
  ⟨h.readsTypes hE, h.assureDirective, fun _ => h.assureDirective, hadd⟩

theorem KeepsTypes.builds (h : KeepsTypes reg I E J) (t : τ) : Builds reg (J t) (fun _ => J t) E t :=
  (h.calls t).builds h.fails' (h.addDir t)

theorem ReadsTypes.fails' (h : ReadsTypes reg I A E) {t : τ} (r : σ) (hr : A t r) : E r :=
  h.fails r (h.leaves t r hr)

/-! ## Parts of definitions -/

theorem holds_extractDirUse (hE : ∀ r, I r → E r)
    (hdir : ∀ name, Keeps I (reg.assureDirective name)) (fuel : ℕ) :
    Holds I E (extractDirUse reg fuel : Parser text σ (Option (DirUse τ δ))) := by
  refine (frame_skipWhite.holds hE).bind fun _ => ((frame_accept _).holds hE).bind fun _ =>
    Holds.ite ?_ (holds_pure _)
  refine (frame_readName.holds hE).bind fun name =>
    (holds_callReg hE (hdir name)).bind fun dir =>
      (frame_skipWhite.holds hE).bind fun _ => ((frame_accept _).holds hE).bind fun _ =>
        Holds.ite ?_ (holds_pure _)
  refine (holds_whileLt hE (fun use => ?_) fuel _).bind fun _ => holds_pure _
  exact ((frame_makeUseArg reg fuel use).holds hE).bind fun _ =>
    (frame_skipWhite.holds hE).bind fun _ => ((frame_accept _).holds hE).bind fun _ => holds_pure _

theorem holds_typeDirUse {t : τ} (h : Builds reg I A E t) (fuel : ℕ) :
    Holds I E (typeDirUse reg fuel t : Parser text σ Unit) := by
  refine (holds_extractDirUse h.fails h.directive fuel).bind fun use => ?_
  cases use with
  | none => exact holds_pure ()
  | some use => exact holds_changeReg (h.addDir use)

theorem triple_readType (h : ReadsTypes reg I A E) (fuel : ℕ) :
    Triple (fun s => I s.user.reg) (readType reg fuel : Parser text σ τ)
      (fun t s => A t s.user.reg) fun s => E s.user.reg := by
  induction fuel with
  | zero => exact fun s hs => h.fails s.user.reg hs
  | succ fuel ih =>
    have htail : ∀ type, Triple (fun s => A type s.user.reg) (do
        let _ ← skipWhite
        if (← peek) = chr '!' then
          let type ← callReg (reg.assureNonnull type)
          let _ ← accept (bytes "!")
          return type
        return type : Parser text σ τ) (fun t s => A t s.user.reg) fun s => E s.user.reg := fun type =>
      Triple.bind (frame_skipWhite.holds h.fails') fun _ => Triple.bind (frame_peek.holds h.fails')
        fun _ => Triple.ite (fun _ => Triple.bind (h.nonnull type).callReg fun t =>
          Triple.bind ((frame_accept _).holds h.fails') fun _ => triple_pure fun _ hs => hs)
          fun _ => triple_pure fun _ hs => hs
    refine Triple.bind (frame_skipWhite.holds h.fails) fun _ =>
      Triple.bind ((frame_accept _).holds h.fails) fun _ => Triple.ite (fun _ => ?_) fun _ => ?_
    · exact Triple.bind ih fun base => Triple.bind (frame_skipWhite.holds h.fails') fun _ =>
        Triple.bind ((frame_expect _ _).holds h.fails') fun _ =>
          Triple.bind (h.list base).callReg htail
    · exact Triple.bind (frame_readName.holds h.fails) fun name =>
        Triple.bind (h.type name).callReg htail

theorem holds_readType (hE : ∀ r, I r → E r) (hI : KeepsCalls reg I) (fuel : ℕ) :
    Holds I E (readType reg fuel : Parser text σ τ) := triple_readType (hI.readsTypes hE) fuel

/-- A NUL is in no token. -/
theorem tokenLen_cstr (m : Bytes) : tokenLen (cstr m) = tokenLen m := by
  have hzero : ∀ b, isToken b = true → b ≠ 0 := by
    rintro b hb rfl
    exact absurd hb (by decide)
  cases m with
  | nil => rfl
  | cons b m =>
    have hinner : (m.takeWhile (· != 0)).takeWhile isToken = m.takeWhile isToken := by
      have hboth : (fun c => decide (isToken c = true ∧ (c != 0) = true)) = isToken := by
        funext c
        cases hc : isToken c with
        | true => simp [hzero c hc]
        | false => simp
      rw [List.takeWhile_takeWhile, hboth]
    unfold cstr
    by_cases hb : b = 0
    · subst hb
      rfl
    · rw [List.takeWhile_cons_of_pos (by simpa using hb)]
      simp only [tokenLen, hinner]

/-- The value of an enum is compared from where it begins, with the length of the token there. -/
theorem holds_enumValue (hE : ∀ r, I r → E r) (hdir : ∀ name, Keeps I (reg.assureDirective name)) {t : τ}
    (happend : ∀ value desc uses,
      Gives I (fun _ => I) E (reg.enumAppend t value (tokenLen value) desc uses)) (fuel : ℕ) :
    Holds I E (enumValue reg fuel t : Parser text σ Bool) := by
  refine (frame_extractDesc.holds hE).bind fun desc => Triple.pos fun start => ?_
  have htoken : Triple (fun s => I s.user.reg ∧ s.cur = start.1) (readToken : Parser text σ Unit)
      (fun _ s => I s.user.reg ∧ s.cur = start.1 + tokenLen (text.drop start.1))
      fun s => E s.user.reg := by
    rintro s ⟨hs, hcur⟩
    exact ⟨hs, by rw [← hcur]⟩
  have hsince : Triple (fun s => I s.user.reg ∧ s.cur = start.1 + tokenLen (text.drop start.1))
      (since start : Parser text σ Bytes)
      (fun value s => I s.user.reg ∧ value.length = tokenLen (text.drop start.1)) fun s => E s.user.reg := by
    rintro s ⟨hs, hcur⟩
    refine ⟨hs, ?_⟩
    have hle := s.le
    rw [List.length_drop, List.length_take, hcur] at *
    omega
  refine Triple.bind htoken fun _ => Triple.bind hsince fun value s hs => ?_
  have hvalue : value.length = tokenLen (cstr (text.drop start.1)) := hs.2.trans (tokenLen_cstr _).symm
  have hrest : Holds I E (do
      let use ← extractDirUse reg fuel
      if (← Scanner.pos) = start then
        if ← accept (bytes "\x7d") then return true
        docErr (bytes "Invalid Enum value")
      callReg (reg.enumAppend t (cstr (text.drop start)) value.length desc use.toList)
      return false : Parser text σ Bool) := by
    refine (holds_extractDirUse hE hdir fuel).bind fun use => (frame_pos.holds hE).bind fun _ =>
      Holds.ite ?_ ?_
    · exact ((frame_accept _).holds hE).bind fun _ => Holds.ite (holds_pure _) ((frame_docErr _).holds hE)
    · rw [hvalue]
      exact Triple.bind (happend _ _ _).callReg fun _ => holds_pure _
  exact hrest s hs.1

theorem holds_fieldsTo (hE : ∀ r, I r → E r) {make : Parser text σ Unit} (h : Holds I E make)
    (fuel : ℕ) : Holds I E (fieldsTo make fuel) := by
  refine (frame_skipWhite.holds hE).bind fun _ => holds_whileLt hE (fun _ => ?_) fuel ()
  exact ((frame_accept _).holds hE).bind fun _ => Holds.ite (holds_pure _)
    (h.bind fun _ => (frame_skipWhite.holds hE).bind fun _ => holds_pure _)

/-- The loop over the arguments of a field. -/
def fieldArgs (reg : Registry σ τ δ φ) (fuel : ℕ) (field : φ) : Unit → Parser text σ (Bool × Unit) :=
  fun _ => do
    makeFieldArg reg fuel field
    let _ ← skipWhite
    return ((← peek) = chr ')', ())

theorem holds_fieldArgs (h : ReadsTypes reg I A E) {fuel : ℕ} {field : φ}
    (hstore : ∀ name type desc dval, Gives (A type) (fun _ => I) E
      (reg.fieldArg field name type desc dval)) :
    Holds I E (forever (fieldArgs reg fuel field) fuel () : Parser text σ Unit) := by
  refine holds_forever h.fails (fun _ => ?_) fuel ()
  have harg : Holds I E (makeFieldArg reg fuel field : Parser text σ Unit) := by
    refine Triple.bind (frame_extractDesc.holds h.fails) fun desc =>
      Triple.bind (frame_skipWhite.holds h.fails) fun _ =>
        Triple.bind (frame_readName.holds h.fails) fun name =>
          Triple.bind (frame_skipWhite.holds h.fails) fun _ =>
            Triple.bind ((frame_expect _ _).holds h.fails) fun _ =>
              Triple.bind (triple_readType h fuel) fun type =>
                Triple.bind (frame_skipWhite.holds h.fails') fun _ =>
                  Triple.bind (frame_peek.holds h.fails') fun _ =>
                    Triple.ite (fun _ => ?_) fun _ => (hstore name type desc none).callReg
    exact Triple.bind ((frame_readValue _ _ _).holds h.fails') fun dval =>
      (hstore name type desc (some dval)).callReg
  exact harg.bind fun _ => (frame_skipWhite.holds h.fails).bind fun _ =>
    (frame_peek.holds h.fails).bind fun _ => holds_pure _

/-- A field is made, and its arguments are read: `F` is what they need to know of it. -/
theorem holds_makeField {t : τ} (h : Builds reg I A E t) {F : φ → Prop} {fuel : ℕ}
    (hfield : ∀ name type dval desc uses, Gives (A type) (fun field r => F field ∧ I r) E
      (reg.typeField t name type dval desc uses))
    (hargs : ∀ field, F field → Holds I E (forever (fieldArgs reg fuel field) fuel () : Parser text σ Unit)) :
    Holds I E (makeField reg fuel t : Parser text σ Unit) := by
  refine Triple.bind (frame_extractDesc.holds h.fails) fun desc =>
    Triple.bind (frame_skipWhite.holds h.fails) fun _ =>
      Triple.bind (frame_readName.holds h.fails) fun name =>
        Triple.bind (frame_skipWhite.holds h.fails) fun _ =>
          Triple.bind (frame_fieldArgsStart.holds h.fails) fun argStart =>
            Triple.bind (triple_readType h.toReadsTypes fuel) fun type =>
              Triple.bind ((frame_defaultValue reg fuel type).holds h.fails') fun dval =>
                Triple.bind (holds_extractDirUse h.fails' (h.directiveRead type) fuel) fun use =>
                  Triple.bind (hfield name type dval desc use.toList).callReg fun field => ?_
  have hheld : ∀ {β : Type} {p : Parser text σ β}, (F field → Holds I E p) →
      Triple (fun s => F field ∧ I s.user.reg) p (fun _ s => I s.user.reg) fun s => E s.user.reg :=
    fun hp s hs => hp hs.1 s hs.2
  cases argStart with
  | none => exact hheld fun _ => holds_pure ()
  | some start =>
    exact hheld fun hF => (frame_pos.holds h.fails).bind fun cur =>
      ((frame_seek start).holds h.fails).bind fun _ =>
        (hargs field hF).bind fun _ => (frame_seek cur).holds h.fails

theorem holds_makeInputArg {t : τ} (h : Builds reg I A E t) {fuel : ℕ}
    (harg : ∀ name type desc dval uses, Gives (A type) (fun _ => I) E
      (reg.inputArg t name type desc dval uses)) :
    Holds I E (makeInputArg reg fuel t : Parser text σ Unit) :=
  Triple.bind (frame_extractDesc.holds h.fails) fun _ =>
    Triple.bind (frame_skipWhite.holds h.fails) fun _ =>
      Triple.bind (frame_readName.holds h.fails) fun _ =>
        Triple.bind (frame_skipWhite.holds h.fails) fun _ =>
          Triple.bind ((frame_expect _ _).holds h.fails) fun _ =>
            Triple.bind (triple_readType h.toReadsTypes fuel) fun type =>
              Triple.bind ((frame_defaultValue reg fuel type).holds h.fails') fun _ =>
                Triple.bind (holds_extractDirUse h.fails' (h.directiveRead type) fuel) fun _ =>
                  (harg _ _ _ _ _).callReg

theorem holds_extractInterfaces {t : τ} (h : Builds reg I A E t) {fuel : ℕ}
    (hadd : ∀ interface r, A interface r → I (reg.addInterface t interface r)) :
    Holds I E (extractInterfaces reg fuel t : Parser text σ Unit) := by
  refine (frame_skipWhite.holds h.fails).bind fun _ => ((frame_accept _).holds h.fails).bind fun _ =>
    Holds.ite ?_ (holds_pure ())
  refine (frame_skipWhite.holds h.fails).bind fun _ => ((frame_require _ _).holds h.fails).bind fun _ =>
    (holds_whileLt h.fails (fun first => ?_) fuel true).bind fun _ => holds_pure ()
  have hnext : Holds I E (do
      let interface ← readType reg fuel
      changeReg (reg.addInterface t interface)
      return (false, false) : Parser text σ (Bool × Bool)) :=
    Triple.bind (triple_readType h.toReadsTypes fuel) fun interface =>
      Triple.bind (triple_changeReg (hadd interface)) fun _ => holds_pure _
  refine (frame_skipWhite.holds h.fails).bind fun _ => (frame_peek.holds h.fails).bind fun _ =>
    Holds.ite (holds_pure _) (((frame_accept _).holds h.fails).bind fun _ => Holds.ite ?_ ?_)
  · exact (frame_skipWhite.holds h.fails).bind fun _ => hnext
  · exact ((frame_require _ _).holds h.fails).bind fun _ => hnext

/-! ## What follows the name

`E'` holds where a definition fails, before its type is destroyed. -/

section Bodies

variable {t : τ} {fuel : ℕ} {x : Bool}

/-- The values of an enum. -/
def enumBody (reg : Registry σ τ δ φ) (fuel : ℕ) (t : τ) (x : Bool) : Parser text σ Unit :=
  orDestroy reg t x <| Scanner.whileLt (fun _ => do return (← enumValue reg fuel t, ())) fuel ()

/-- The uses and the members of a union. -/
def unionBody (reg : Registry σ τ δ φ) (fuel : ℕ) (t : τ) (x : Bool) : Parser text σ Unit :=
  orDestroy reg t x do
    typeDirUse reg fuel t
    let _ ← skipWhite
    expect (bytes "=") (bytes "Expected '='")
    let _ ← skipWhite
    Scanner.whileLt (fun _ => do
      let member ← readType reg fuel
      callReg (reg.unionAdd t member)
      let _ ← skipWhite
      return (!(← accept (bytes "|")), ())) fuel ()

/-- The uses and the fields of an interface. -/
def interfaceBody (reg : Registry σ τ δ φ) (fuel : ℕ) (t : τ) (x : Bool) : Parser text σ Unit := do
  let brace ← orDestroy reg t x do
    typeDirUse reg fuel t
    let _ ← skipWhite
    accept (bytes "\x7b")
  if brace then
    orDestroy reg t x <| fieldsTo (makeField reg fuel t) fuel
  else
    unless x do changeReg (reg.typeDestroy t)
    errCode

/-- The uses and the arguments of an input. -/
def inputBody (reg : Registry σ τ δ φ) (fuel : ℕ) (t : τ) (x : Bool) : Parser text σ Unit :=
  orDestroy reg t x do
    typeDirUse reg fuel t
    let _ ← skipWhite
    expect (bytes "\x7b") (bytes "Expected '\x7b'")
    fieldsTo (makeInputArg reg fuel t) fuel

/-- The interfaces, the uses and the fields of an object. -/
def typeBody (reg : Registry σ τ δ φ) (fuel : ℕ) (t : τ) (x : Bool) : Parser text σ Unit :=
  orDestroy reg t x do
    extractInterfaces reg fuel t
    typeDirUse reg fuel t
    let _ ← skipWhite
    expect (bytes "\x7b") (bytes "Expected '\x7b'")
    fieldsTo (makeField reg fuel t) fuel

/-- The uses and the fields of the schema. -/
def schemaBody (reg : Registry σ τ δ φ) (fuel : ℕ) (t : τ) (x : Bool) : Parser text σ Unit := do
  typeDirUse reg fuel t
  let _ ← skipWhite
  orDestroy reg t x <| expect (bytes "\x7b") (bytes "Expected '\x7b'")
  fieldsTo (makeField reg fuel t) fuel

theorem holds_enumBody (hE : ∀ r, I r → E' r) (hdir : ∀ name, Keeps I (reg.assureDirective name))
    (hleave : ∀ r, E' r → E r) (hdestroy : x = false → ∀ r, E' r → E (reg.typeDestroy t r))
    (happend : ∀ value desc uses,
      Gives I (fun _ => I) E' (reg.enumAppend t value (tokenLen value) desc uses)) :
    Holds I E (enumBody reg fuel t x : Parser text σ Unit) := by
  refine holds_orDestroy hleave hdestroy (holds_whileLt hE (fun _ => ?_) fuel ())
  exact (holds_enumValue hE hdir happend fuel).bind fun _ => holds_pure _

variable (h : Builds reg I A E' t) (hleave : ∀ r, E' r → E r)
  (hdestroy : x = false → ∀ r, E' r → E (reg.typeDestroy t r))

include h hleave hdestroy

theorem holds_unionBody
    (hadd : ∀ member, Gives (A member) (fun _ => I) E' (reg.unionAdd t member)) :
    Holds I E (unionBody reg fuel t x : Parser text σ Unit) := by
  refine holds_orDestroy hleave hdestroy <| (holds_typeDirUse h fuel).bind fun _ =>
    (frame_skipWhite.holds h.fails).bind fun _ => ((frame_expect _ _).holds h.fails).bind fun _ =>
      (frame_skipWhite.holds h.fails).bind fun _ => holds_whileLt h.fails (fun _ => ?_) fuel ()
  exact Triple.bind (triple_readType h.toReadsTypes fuel) fun member =>
    Triple.bind (hadd member).callReg fun _ => (frame_skipWhite.holds h.fails).bind
      fun _ => ((frame_accept _).holds h.fails).bind fun _ => holds_pure _

/-- An interface without a brace is destroyed without an error. -/
theorem triple_interfaceBody {L : σ → Prop} (hL : ∀ r, I r → L r) (hfails : ∀ r, L r → E r)
    (hgone : x = false → ∀ r, I r → L (reg.typeDestroy t r))
    (hfield : Holds I E' (makeField reg fuel t : Parser text σ Unit)) :
    Triple (fun s => I s.user.reg) (interfaceBody reg fuel t x : Parser text σ Unit)
      (fun _ s => L s.user.reg) fun s => E s.user.reg := by
  have hbrace : Holds I E (orDestroy reg t x do
      typeDirUse reg fuel t
      let _ ← skipWhite
      accept (bytes "\x7b") : Parser text σ Bool) :=
    holds_orDestroy hleave hdestroy <| (holds_typeDirUse h fuel).bind fun _ =>
      (frame_skipWhite.holds h.fails).bind fun _ => (frame_accept _).holds h.fails
  refine Triple.bind hbrace fun brace => Triple.ite (fun _ => ?_) fun _ => ?_
  · exact (holds_orDestroy hleave hdestroy (holds_fieldsTo h.fails hfield fuel)).mono
      (fun _ hs => hs) (fun _ s hs => hL s.user.reg hs) fun _ hs => hs
  · have hend : Holds L E (errCode : Parser text σ Unit) := frame_errCode.holds hfails
    cases x with
    | true => exact fun s hs => hend s (hL s.user.reg hs)
    | false =>
      exact Triple.bind (triple_changeReg (hgone rfl)) fun _ => hend

theorem holds_inputBody
    (harg : ∀ name type desc dval uses, Gives (A type) (fun _ => I) E'
      (reg.inputArg t name type desc dval uses)) :
    Holds I E (inputBody reg fuel t x : Parser text σ Unit) :=
  holds_orDestroy hleave hdestroy <| (holds_typeDirUse h fuel).bind fun _ =>
    (frame_skipWhite.holds h.fails).bind fun _ => ((frame_expect _ _).holds h.fails).bind fun _ =>
      holds_fieldsTo h.fails (holds_makeInputArg h harg) fuel

theorem holds_typeBody
    (hadd : ∀ interface r, A interface r → I (reg.addInterface t interface r))
    (hfield : Holds I E' (makeField reg fuel t : Parser text σ Unit)) :
    Holds I E (typeBody reg fuel t x : Parser text σ Unit) :=
  holds_orDestroy hleave hdestroy <| (holds_extractInterfaces h hadd).bind fun _ =>
    (holds_typeDirUse h fuel).bind fun _ => (frame_skipWhite.holds h.fails).bind fun _ =>
      ((frame_expect _ _).holds h.fails).bind fun _ => holds_fieldsTo h.fails hfield fuel

theorem holds_schemaBody (hfield : Holds I E' (makeField reg fuel t : Parser text σ Unit)) :
    Holds I E (schemaBody reg fuel t x : Parser text σ Unit) := by
  have hout : ∀ {β : Type} {p : Parser text σ β}, Holds I E' p → Holds I E p := fun hp =>
    hp.mono (fun _ hs => hs) (fun _ _ hs => hs) fun s hs => hleave s.user.reg hs
  exact (hout (holds_typeDirUse h fuel)).bind fun _ => (hout (frame_skipWhite.holds h.fails)).bind
    fun _ => (holds_orDestroy hleave hdestroy ((frame_expect _ _).holds h.fails)).bind fun _ =>
      hout (holds_fieldsTo h.fails hfield fuel)

end Bodies

/-! ## Definitions

`P` holds where the definition begins, and `N name` once its name is read, up to the type. -/

section Definitions

variable {P : DocState text σ → Prop} {N : Bytes → σ → Prop} {fuel : ℕ} {desc : Option Bytes}
  {x : Bool}

/-- From `P`, the name is read. -/
def Names (text : Bytes) (P : DocState text σ → Prop) (N : Bytes → σ → Prop) (E : σ → Prop)
    (key : Bytes) : Prop :=
  Triple P (extractName key : Parser text σ Bytes) (fun name s => N name s.user.reg)
    fun s => E s.user.reg

/-- With `N name`, the type is made or opened. -/
def Opens (text : Bytes) (reg : Registry σ τ δ φ) (kind : GqlKind) (desc : Option Bytes) (x : Bool)
    (N : σ → Prop) (E : σ → Prop) (J : τ → σ → Prop) (name : Bytes) : Prop :=
  Triple (fun s => N s.user.reg) (definedType reg kind name desc x : Parser text σ τ)
    (fun t s => J t s.user.reg) fun s => E s.user.reg

/-- A definition goes from `P` to `I`. -/
def Defines (P : DocState text σ → Prop) (I E : σ → Prop) (p : Parser text σ Unit) : Prop :=
  Triple P p (fun _ s => I s.user.reg) fun s => E s.user.reg

theorem Holds.leave {t : τ} (h : KeepsTypes reg I E J) {p : Parser text σ Unit}
    (hp : Holds (J t) E p) : Triple (fun s => J t s.user.reg) p (fun _ s => I s.user.reg)
      fun s => E s.user.reg :=
  hp.mono (fun _ h => h) (fun _ s hs => h.leaves t s.user.reg hs) fun _ h => h

theorem defines_makeScalar (h : KeepsTypes reg I E J) (hname : Names text P N E (bytes "scalar"))
    (hopen : ∀ name, Opens text reg .scalar desc x (N name) E J name) :
    Defines P I E (makeScalar reg fuel desc x) :=
  Triple.bind hname fun name => Triple.bind (hopen name) fun t =>
    Holds.leave h (holds_typeDirUse (h.builds t) fuel)

theorem defines_makeEnum (h : KeepsTypes reg I E J) (hname : Names text P N E (bytes "enum"))
    (hdir : ∀ name use, Keeps (N name) (reg.assureDirective use)) (hfails : ∀ name r, N name r → E r)
    (hopen : ∀ name, Opens text reg .enum desc x (N name) E J name)
    (happend : ∀ t value desc uses,
      Gives (J t) (fun _ => J t) E (reg.enumAppend t value (tokenLen value) desc uses)) :
    Defines P I E (makeEnum reg fuel desc x) := by
  refine Triple.bind hname fun name =>
    Triple.bind (holds_extractDirUse (hfails name) (hdir name) fuel) fun use =>
      Triple.bind (frame_skipWhite.holds (hfails name)) fun _ =>
        Triple.bind ((frame_expect _ _).holds (hfails name)) fun _ =>
          Triple.bind (hopen name) fun t => Holds.leave h ?_
  exact (holds_changeReg (h.setDir t _)).bind fun _ =>
    holds_enumBody h.fails' (h.calls t).assureDirective (fun _ hr => hr) (fun _ => h.destroysFailed t)
      (happend t)

theorem defines_makeUnion (h : KeepsTypes reg I E J) (hname : Names text P N E (bytes "union"))
    (hopen : ∀ name, Opens text reg .union desc x (N name) E J name)
    (hadd : ∀ t member, Keeps (J t) (reg.unionAdd t member)) :
    Defines P I E (makeUnion reg fuel desc x) :=
  Triple.bind hname fun name => Triple.bind (hopen name) fun t => Holds.leave h <|
    holds_unionBody (h.builds t) (fun _ hr => hr) (fun _ => h.destroysFailed t)
      fun member => (hadd t member).gives h.fails'

theorem defines_makeInterface (h : KeepsTypes reg I E J) (hname : Names text P N E (bytes "interface"))
    (hopen : ∀ name, Opens text reg .interface desc x (N name) E J name)
    (hfield : ∀ t, Holds (J t) E (makeField reg fuel t : Parser text σ Unit)) :
    Defines P I E (makeInterface reg fuel desc x) :=
  Triple.bind hname fun name => Triple.bind (hopen name) fun t =>
    triple_interfaceBody (h.builds t) (fun _ hr => hr) (fun _ => h.destroysFailed t) (h.leaves t)
      h.fails (fun _ r hr => h.destroys t r (h.leaves t r hr)) (hfield t)

theorem defines_makeInput (h : KeepsTypes reg I E J) (hname : Names text P N E (bytes "input"))
    (hopen : ∀ name, Opens text reg .input desc x (N name) E J name)
    (harg : ∀ t name type desc dval uses, Keeps (J t) (reg.inputArg t name type desc dval uses)) :
    Defines P I E (makeInput reg fuel desc x) :=
  Triple.bind hname fun name => Triple.bind (hopen name) fun t => Holds.leave h <|
    holds_inputBody (h.builds t) (fun _ hr => hr) (fun _ => h.destroysFailed t)
      fun name type desc dval uses => (harg t name type desc dval uses).gives h.fails'

theorem defines_makeType (h : KeepsTypes reg I E J) (hname : Names text P N E (bytes "type"))
    (hopen : ∀ name, Opens text reg .object desc x (N name) E J name)
    (hadd : ∀ t interface r, J t r → J t (reg.addInterface t interface r))
    (hfield : ∀ t, Holds (J t) E (makeField reg fuel t : Parser text σ Unit)) :
    Defines P I E (makeType reg fuel desc x) :=
  Triple.bind hname fun name => Triple.bind (hopen name) fun t => Holds.leave h <|
    holds_typeBody (h.builds t) (fun _ hr => hr) (fun _ => h.destroysFailed t) (hadd t) (hfield t)

theorem defines_makeSchema (h : KeepsTypes reg I E J) {N : σ → Prop}
    (hkey : Triple P (keyWord (bytes "schema") : Parser text σ Unit) (fun _ s => N s.user.reg)
      fun s => E s.user.reg)
    (hopen : Opens text reg .schema desc x N E J (bytes "schema"))
    (hfield : ∀ t, Holds (J t) E (makeField reg fuel t : Parser text σ Unit)) :
    Defines P I E (makeSchema reg fuel desc x) :=
  Triple.bind hkey fun _ => Triple.bind hopen fun t => Holds.leave h <|
    holds_schemaBody (h.builds t) (fun _ hr => hr) (fun _ => h.destroysFailed t) (hfield t)

/-- The loop over the arguments of a directive. -/
def dirArgs (reg : Registry σ τ δ φ) (fuel : ℕ) (dir : δ) : Unit → Parser text σ (Bool × Unit) :=
  fun _ => do
    makeDirArg reg fuel dir
    let _ ← skipWhite
    return (← accept (bytes ")"), ())

/-- An argument of a directive is stored with its type, which may be made non-null. -/
theorem holds_makeDirArg {I E : σ → Prop} {A : τ → σ → Prop} (h : ReadsTypes reg I A E) {dir : δ}
    (hstore : ∀ name type desc dval, Gives (A type) (fun _ => I) E (reg.dirArg dir name type desc dval)) :
    Holds I E (makeDirArg reg fuel dir : Parser text σ Unit) := by
  refine (frame_extractDesc.holds h.fails).bind fun desc => (frame_skipWhite.holds h.fails).bind fun _ =>
    (frame_pos.holds h.fails).bind fun start => (frame_readToken.holds h.fails).bind fun _ =>
      ((frame_since start).holds h.fails).bind fun name =>
        ((frame_require _ _).holds h.fails).bind fun _ => (frame_peek.holds h.fails).bind fun _ =>
          ((frame_require _ _).holds h.fails).bind fun _ =>
            ((frame_require _ _).holds h.fails).bind fun _ =>
              ((frame_accept _).holds h.fails).bind fun _ => ?_
  refine (frame_skipWhite.holds h.fails).bind fun _ => (frame_pos.holds h.fails).bind fun start =>
    (frame_readToken.holds h.fails).bind fun _ => ((frame_since start).holds h.fails).bind fun typeName =>
      ((frame_require _ _).holds h.fails).bind fun _ => ((frame_require _ _).holds h.fails).bind fun _ =>
        Triple.bind (h.type typeName).callReg fun type =>
          Triple.bind (frame_skipWhite.holds h.fails') fun _ =>
            Triple.bind (frame_peek.holds h.fails') fun _ => Triple.ite (fun _ => ?_) fun _ =>
              Triple.ite (fun _ => ?_) fun _ => (hstore name type desc none).callReg
  · exact Triple.bind (h.nonnull type).callReg fun type =>
      Triple.bind ((frame_accept _).holds h.fails') fun _ =>
        Triple.bind (frame_skipWhite.holds h.fails') fun _ => (hstore name type desc none).callReg
  · exact Triple.bind ((frame_readValue _ _ _).holds h.fails') fun dval =>
      Triple.bind (frame_skipWhite.holds h.fails') fun _ => (hstore name type desc (some dval)).callReg

theorem holds_dirArgs {I E : σ → Prop} {A : τ → σ → Prop} (h : ReadsTypes reg I A E) {dir : δ}
    (hstore : ∀ name type desc dval, Gives (A type) (fun _ => I) E (reg.dirArg dir name type desc dval)) :
    Holds I E (whileLt (dirArgs reg fuel dir) fuel () : Parser text σ Unit) :=
  holds_whileLt h.fails (fun _ => (holds_makeDirArg h hstore).bind fun _ =>
    (frame_skipWhite.holds h.fails).bind fun _ => ((frame_accept _).holds h.fails).bind fun _ =>
      holds_pure _) fuel ()

theorem holds_makeDirective (hE : ∀ r, I r → E r)
    (hcreate : ∀ name, Keeps I (reg.directiveCreate name desc))
    (hon : ∀ dir loc, Keeps I (reg.directiveOn dir loc))
    (hargs : ∀ dir, Holds I E (whileLt (dirArgs reg fuel dir) fuel () : Parser text σ Unit)) :
    Holds I E (makeDirective reg fuel desc : Parser text σ Unit) := by
  have hplaces : ∀ dir, Holds I E (do
      let _ ← skipWhite
      let start ← Scanner.pos
      readToken
      let on ← since start
      require (on = bytes "on") (bytes "Expected 'on'")
      Scanner.whileLt (fun _ => do
        let _ ← skipWhite
        let start ← Scanner.pos
        readToken
        let loc ← since start
        callReg (reg.directiveOn dir (created text start loc.length))
        let _ ← skipWhite
        return (!(← accept (bytes "|")), ())) fuel () : Parser text σ Unit) := fun dir =>
    (frame_skipWhite.holds hE).bind fun _ => (frame_pos.holds hE).bind fun start =>
      (frame_readToken.holds hE).bind fun _ => ((frame_since start).holds hE).bind fun _ =>
        ((frame_require _ _).holds hE).bind fun _ => holds_whileLt hE (fun _ =>
          (frame_skipWhite.holds hE).bind fun _ => (frame_pos.holds hE).bind fun start =>
            (frame_readToken.holds hE).bind fun _ => ((frame_since start).holds hE).bind fun _ =>
              (holds_callReg hE (hon _ _)).bind fun _ => (frame_skipWhite.holds hE).bind fun _ =>
                ((frame_accept _).holds hE).bind fun _ => holds_pure _) fuel ()
  refine ((frame_keyWord _).holds hE).bind fun _ => ((frame_expect _ _).holds hE).bind fun _ =>
    (frame_readName.holds hE).bind fun name => (holds_callReg hE (hcreate name)).bind fun dir =>
      ((frame_accept _).holds hE).bind fun _ => Holds.ite ?_ (hplaces dir)
  exact (hargs dir).bind fun _ => hplaces dir

/-- Every definition that can begin where `P` holds goes from `P` to `I`. -/
structure DefinesAll (text : Bytes) (reg : Registry σ τ δ φ) (I E : σ → Prop)
    (P : DocState text σ → Prop) (fuel : ℕ) (desc : Option Bytes) (x : Bool) : Prop where
  begins : ∀ s, P s → I s.user.reg
  fails : ∀ r, I r → E r
  scalar : Defines P I E (makeScalar reg fuel desc x)
  enum : Defines P I E (makeEnum reg fuel desc x)
  union : Defines P I E (makeUnion reg fuel desc x)
  interface : Defines P I E (makeInterface reg fuel desc x)
  input : Defines P I E (makeInput reg fuel desc x)
  type : Defines P I E (makeType reg fuel desc x)
  schema : Defines P I E (makeSchema reg fuel desc x)
  directive : Defines P I E (makeDirective reg fuel desc)

/-- Looking does not change anything. -/
theorem triple_looking {lit : Bytes} {f : Bool → Parser text σ β} {Q : DocState text σ → Prop}
    {R : β → DocState text σ → Prop} {F : DocState text σ → Prop}
    (h : ∀ found, Triple Q (f found) R F) : Triple Q (looking lit >>= f) R F :=
  fun s hs => h (decide (lit <+: text.drop s.cur)) s hs

/-- A round of `sdl_parse`: after white space comes a definition, a description or `extend`. -/
theorem triple_definition {P₀ : DocState text σ → Prop} (h : DefinesAll text reg I E P fuel desc x)
    (hnext : Triple P₀ (nextToken : Parser text σ Unit) (fun _ => P) fun s => E s.user.reg) :
    Triple P₀ (definition reg fuel (desc, x)) (fun _ s => I s.user.reg) fun s => E s.user.reg := by
  have hmake : ∀ {p : Parser text σ Unit} {b : Bool × Option Bytes × Bool}, Defines P I E p →
      Triple P (p >>= fun _ => pure b) (fun _ s => I s.user.reg) fun s => E s.user.reg := fun hp =>
    Triple.bind hp fun _ => triple_pure fun _ hs => hs
  have hheld : ∀ {β : Type} {p : Parser text σ β}, Holds I E p →
      Triple P p (fun _ s => I s.user.reg) fun s => E s.user.reg := fun hp =>
    hp.mono h.begins (fun _ _ hs => hs) fun _ hs => hs
  have hunknown : Triple P (docErr (bytes "Unknown directive") :
      Parser text σ (Bool × Option Bytes × Bool)) (fun _ s => I s.user.reg)
      fun s => E s.user.reg := hheld ((frame_docErr _).holds h.fails)
  refine Triple.bind hnext fun _ => Triple.pos fun q => triple_peek fun c => ?_
  refine Triple.mono ?_ (fun s hs => hs.1.1) (fun _ _ hs => hs) fun _ hs => hs
  refine Triple.ite (fun _ => ?_) fun _ => Triple.ite (fun _ => ?_) fun _ =>
    Triple.ite (fun _ => ?_) fun _ => Triple.ite (fun _ => ?_) fun _ => Triple.ite (fun _ => ?_)
      fun _ => Triple.ite (fun _ => ?_) fun _ => Triple.ite (fun _ => ?_) fun _ =>
        Triple.ite (fun _ => triple_pure h.begins) fun _ => hunknown
  · exact hheld ((frame_extractDesc.holds h.fails).bind fun _ => holds_pure _)
  · exact triple_looking fun _ => Triple.ite (fun _ => triple_looking fun _ =>
      Triple.ite (fun _ => hmake h.scalar) fun _ => hmake h.schema) fun _ => hunknown
  · refine Triple.ite (fun _ => triple_looking fun _ => Triple.ite (fun _ => hmake h.enum)
      fun _ => ?_) fun _ => hunknown
    exact hheld (((frame_keyWord _).holds h.fails).bind fun _ => holds_pure _)
  · exact hmake h.union
  · exact hmake h.directive
  · exact hmake h.type
  · exact triple_looking fun _ => Triple.ite (fun _ => triple_looking fun _ =>
      Triple.ite (fun _ => hmake h.input) fun _ => hmake h.interface) fun _ => hunknown

end Definitions

/-! ## Registries whose calls all keep an invariant -/

section Calls

variable {fuel : ℕ}

/-- A type is made by a call that keeps `I`, or found. -/
theorem opens_of_keeps (hE : ∀ r, I r → E r) {kind : GqlKind} {desc : Option Bytes} {x : Bool} {name : Bytes}
    (h : Keeps I (reg.typeCreate kind name desc)) : Opens text reg kind desc x I E (fun _ => I) name := by
  unfold Opens definedType
  refine Triple.ite (fun _ => ?_) fun _ => holds_callReg hE h
  refine Triple.bind ((frame_askReg _).holds hE) fun found => ?_
  cases found with
  | none => exact (frame_docErr _).holds hE
  | some t => exact holds_pure t

/-- Every call keeps `I`, but one of `gql_enum_append` that fails leaves `E`. -/
structure KeepsAll (reg : Registry σ τ δ φ) (I E : σ → Prop) : Prop where
  types : KeepsTypes reg I E fun _ => I
  calls : KeepsCalls reg I
  typeCreate : ∀ kind name desc, Keeps I (reg.typeCreate kind name desc)
  addInterface : ∀ t interface r, I r → I (reg.addInterface t interface r)
  enumAppend : ∀ t value desc uses,
    Gives I (fun _ => I) E (reg.enumAppend t value (tokenLen value) desc uses)
  unionAdd : ∀ t member, Keeps I (reg.unionAdd t member)
  directiveCreate : ∀ name desc, Keeps I (reg.directiveCreate name desc)
  dirArg : ∀ dir name type desc dval, Keeps I (reg.dirArg dir name type desc dval)
  directiveOn : ∀ dir loc, Keeps I (reg.directiveOn dir loc)
  typeField : ∀ t name type dval desc uses, Keeps I (reg.typeField t name type dval desc uses)
  fieldArg : ∀ field name type desc dval, Keeps I (reg.fieldArg field name type desc dval)
  inputArg : ∀ t name type desc dval uses, Keeps I (reg.inputArg t name type desc dval uses)

theorem KeepsAll.holds_makeField (h : KeepsAll reg I E) (t : τ) :
    Holds I E (makeField reg fuel t : Parser text σ Unit) := by
  have hreads := h.calls.readsTypes h.types.fails
  refine Agoo.holds_makeField (F := fun _ => True) (h.types.builds t) (fun name type dval desc uses r hr => ?_)
    fun field _ => holds_fieldArgs hreads fun name type desc dval =>
      (h.fieldArg field name type desc dval).gives h.types.fails
  have hnew := h.typeField t name type dval desc uses r hr
  exact ⟨fun _ _ => ⟨trivial, hnew⟩, fun _ _ => h.types.fails _ hnew⟩

theorem KeepsAll.definesAll (h : KeepsAll reg I E) (desc : Option Bytes) (x : Bool) :
    DefinesAll text reg I E (fun s => I s.user.reg) fuel desc x := by
  have hE := h.types.fails
  have hname : ∀ key, Names text (fun s => I s.user.reg) (fun _ => I) E key := fun key =>
    (frame_extractName key).holds hE
  have hopen : ∀ kind name, Opens text reg kind desc x I E (fun _ => I) name := fun kind name =>
    opens_of_keeps hE (h.typeCreate kind name desc)
  exact
    { begins := fun _ hs => hs
      fails := hE
      scalar := defines_makeScalar h.types (hname _) (hopen .scalar)
      enum := defines_makeEnum h.types (hname _) (fun _ => h.calls.assureDirective) (fun _ => hE) (hopen .enum)
        h.enumAppend
      union := defines_makeUnion h.types (hname _) (hopen .union) h.unionAdd
      interface := defines_makeInterface h.types (hname _) (hopen .interface) h.holds_makeField
      input := defines_makeInput h.types (hname _) (hopen .input) h.inputArg
      type := defines_makeType h.types (hname _) (hopen .object) h.addInterface h.holds_makeField
      schema := defines_makeSchema h.types ((frame_keyWord _).holds hE) (hopen .schema _) h.holds_makeField
      directive := holds_makeDirective hE (h.directiveCreate · desc) h.directiveOn fun dir =>
        holds_dirArgs (h.calls.readsTypes hE) fun name type desc dval =>
          (h.dirArg dir name type desc dval).gives hE }

end Calls

/-! ## Runs -/

/-- `sdl_parse` keeps what every definition keeps. -/
theorem holds_sdlParse {fuel : ℕ} (hE : ∀ r, I r → E r)
    (h : ∀ b : Option Bytes × Bool, DefinesAll text reg I E (fun s => I s.user.reg) fuel b.1 b.2) :
    Holds I E (sdlParse reg fuel : Parser text σ Unit) := by
  refine (holds_whileLt hE (fun b => ?_) fuel (none, false)).bind fun _ => holds_pure ()
  exact triple_definition (h b) (frame_nextToken.holds hE)

/-- What any end of a run leaves. -/
theorem holds_after {I : α → Prop} {p : Parser text α β} (h : Holds I I p) {s : DocState text α}
    (hs : I s.user.reg) : I (p.run s).2.user.reg := by
  have hend := h s hs
  generalize p.run s = q at hend
  obtain ⟨o, s'⟩ := q
  cases o with
  | ok b => exact hend
  | fail => exact hend
  | fault => exact hend
  | crash => exact hend
  | timeout => exact hend

end Agoo
