import Agoo.Sdl
import Agoo.Triple

/-!
# What the readers do to the registry

Most readers of a document leave the registry alone (`Frame`). The others change it through the calls
of `graphql.c`, so an invariant of the registry that these calls keep is kept by the readers
(`Holds`).
-/

namespace Agoo

open Agoo.Parser Scanner

variable {text : Bytes} {σ τ δ φ α β : Type}

/-! ## Readers that leave the registry alone -/

/-- No run of `p` changes the registry. -/
def Frame (p : Parser text σ α) : Prop := ∀ s, (p.run s).2.user.reg = s.user.reg

theorem frame_pure (a : α) : Frame (pure a : Parser text σ α) := fun _ => rfl

theorem Frame.bind {p : Parser text σ α} {f : α → Parser text σ β} (h : Frame p)
    (hf : ∀ a, Frame (f a)) : Frame (p >>= f) := by
  intro s
  have hp := h s
  rw [run_bind]
  generalize p.run s = r at hp
  obtain ⟨o, s'⟩ := r
  cases o with
  | ok a => exact (hf a s').trans hp
  | fail => exact hp
  | fault => exact hp
  | crash => exact hp
  | timeout => exact hp

theorem Frame.ite {c : Prop} [Decidable c] {p q : Parser text σ α} (h : Frame p) (h' : Frame q) :
    Frame (if c then p else q) := by
  split
  · exact h
  · exact h'

theorem frame_spent : Frame (spent : Parser text σ α) := fun _ => rfl

theorem frame_pos : Frame (pos : Parser text σ (Pos text)) := fun _ => rfl

theorem frame_seek (c : Pos text) : Frame (seek c : Parser text σ Unit) := fun _ => rfl

theorem frame_peek : Frame (peek : Parser text σ Byte) := fun _ => rfl

theorem frame_advance (f : Bytes → α × ℕ) (h : ∀ rest, (f rest).2 ≤ rest.length) :
    Frame (advance f h : Parser text σ α) := fun _ => rfl

theorem frame_accept (lit : Bytes) : Frame (accept lit : Parser text σ Bool) := frame_advance _ _

theorem frame_since (start : Pos text) : Frame (since start : Parser text σ Bytes) := fun _ => rfl

theorem frame_docErr (msg : Bytes) : Frame (docErr msg : Parser text σ α) := fun _ => rfl

theorem frame_require (c : Prop) [Decidable c] (msg : Bytes) :
    Frame (require c msg : Parser text σ Unit) := Frame.ite (frame_pure ()) (frame_docErr msg)

theorem frame_askReg (f : σ → α) : Frame (askReg f : Parser text σ α) := fun _ => rfl

theorem frame_errCode : Frame (errCode : Parser text σ Unit) := by
  intro s
  have huser : (Scanner.getUser : Parser text σ (DocUser σ)).run s = (.ok s.user, s) := rfl
  unfold errCode
  rw [run_bind, huser, andThen_ok]
  cases s.user.err with
  | none => rfl
  | some e => rfl

theorem frame_sweep {f : DocState text σ → List (DocEvent text) × Option (Pos text)}
    (h : ∀ s, (f s).2 = none ↔ ∃ e ∈ (f s).1, ¬ e.Fits) :
    Frame (sweep f h : Parser text σ Unit) := by
  intro s
  unfold sweep
  dsimp only
  cases (f s).2 with
  | none => rfl
  | some c => rfl

theorem frame_skipWhite : Frame (skipWhite : Parser text σ ℕ) :=
  frame_pos.bind fun _ => (frame_sweep _).bind fun _ => frame_pos.bind fun _ => frame_pure _

theorem frame_nextToken : Frame (nextToken : Parser text σ Unit) :=
  frame_skipWhite.bind fun _ => frame_pure ()

theorem frame_skipTo (c : Byte) : Frame (skipTo c : Parser text σ Bool) := frame_advance _ _

theorem frame_readToken : Frame (readToken : Parser text σ Unit) := frame_advance _ _

theorem frame_readString : Frame (readString : Parser text σ Unit) :=
  (frame_advance _ _).bind fun _ => frame_pos.bind fun _ => frame_require _ _

/-! ## Values -/

theorem frame_digits (f : β → UInt64 → β × Bool) (b : β) (msg : Bytes) :
    Frame (digits f b msg : Parser text σ β) :=
  (frame_advance _ _).bind fun _ => Frame.ite (frame_docErr msg) (frame_pure _)

theorem frame_readSign : Frame (readSign : Parser text σ Bool) :=
  (frame_accept _).bind fun _ => Frame.ite (frame_pure _) <|
    (frame_accept _).bind fun _ => frame_pure _

theorem frame_readExp : Frame (readExp : Parser text σ (Option ℤ)) :=
  Frame.bind ((frame_accept _).bind fun _ => Frame.ite (frame_pure _) (frame_accept _)) fun _ =>
    Frame.ite (frame_readSign.bind fun _ => (frame_digits _ _ _).bind fun _ => frame_pure _)
      (frame_pure _)

theorem frame_readFraction (neg : Bool) (i : UInt64) (dec : ℕ) :
    Frame (readFraction neg i dec : Parser text σ (GqlValue τ)) :=
  (frame_accept _).bind fun _ => Frame.ite
    ((frame_digits _ _ _).bind fun _ => frame_readExp.bind fun _ =>
      Frame.ite (frame_pure _) (frame_pure _)) (frame_pure _)

theorem frame_readNumber : Frame (readNumber : Parser text σ (GqlValue τ)) :=
  frame_readSign.bind fun neg => (frame_digits _ _ _).bind fun r => frame_readFraction neg r.1 r.2

theorem frame_createString (p : ℕ) (quote : at0 text p = chr '"') :
    Frame (createString p quote : Parser text σ (GqlValue τ)) :=
  (frame_sweep _).bind fun _ => frame_pos.bind fun _ => frame_pure _

theorem frame_createToken (reg : Registry σ τ δ φ) (type : Option τ) (start : Pos text) :
    Frame (createToken reg type start : Parser text σ (GqlValue τ)) :=
  frame_pos.bind fun _ => frame_askReg _

theorem frame_readWord (reg : Registry σ τ δ φ) (type : Option τ) (lit : Bytes)
    (value : GqlValue τ) : Frame (readWord reg type lit value : Parser text σ (GqlValue τ)) :=
  frame_pos.bind fun start => frame_readToken.bind fun _ => (frame_since start).bind fun _ =>
    Frame.ite (frame_pure _) (frame_createToken reg type start)

theorem frame_whileLt {body : β → Parser text σ (Bool × β)} (h : ∀ b, Frame (body b)) (k : ℕ)
    (b : β) : Frame (whileLt body k b) := by
  induction k generalizing b with
  | zero => exact frame_spent
  | succ k ih =>
    exact frame_pos.bind fun _ => Frame.ite (frame_pure b) <|
      (h b).bind fun r => Frame.ite (frame_pure r.2) (ih r.2)

theorem frame_membersTo (close : Bytes) {body : β → Parser text σ β} (h : ∀ b, Frame (body b))
    (fuel : ℕ) (b : β) : Frame (membersTo close body fuel b) :=
  frame_whileLt (fun b => frame_skipWhite.bind fun _ => (frame_accept _).bind fun _ =>
    Frame.ite (frame_pure _) ((h b).bind fun _ => frame_pure _)) fuel b

theorem frame_itemType (reg : Registry σ τ δ φ) (type : Option τ) :
    Frame (itemType reg type : Parser text σ (Option τ)) := by
  cases type with
  | none => exact frame_pure none
  | some t =>
    exact (frame_askReg _).bind fun _ => (frame_require _ _).bind fun _ => frame_askReg _

theorem frame_readKey : Frame (readKey : Parser text σ Bytes) :=
  frame_pos.bind fun start => frame_readToken.bind fun _ => (frame_since start).bind fun _ =>
    (frame_require _ _).bind fun _ => (frame_require _ _).bind fun _ => frame_readToken.bind fun _ =>
      (frame_accept _).bind fun _ => (frame_require _ _).bind fun _ => frame_pure _

theorem frame_readValue (reg : Registry σ τ δ φ) (fuel : ℕ) (type : Option τ) :
    Frame (readValue reg fuel type : Parser text σ (GqlValue τ)) := by
  induction fuel generalizing type with
  | zero => exact frame_spent
  | succ fuel ih =>
    refine frame_skipWhite.bind fun _ => frame_pos.bind fun start => ?_
    unfold valueAt
    dsimp only
    refine Frame.ite ?_ ?_
    · exact (frame_accept _).bind fun _ => frame_pos.bind fun _ => frame_readToken.bind fun _ =>
        frame_pos.bind fun _ => frame_pure _
    split
    · exact frame_readString.bind fun _ => frame_createString _ _
    refine Frame.ite frame_readNumber <| Frame.ite (frame_readWord _ _ _ _) <|
      Frame.ite (frame_readWord _ _ _ _) <| Frame.ite (frame_readWord _ _ _ _) <| Frame.ite ?_ <|
        Frame.ite ?_ ?_
    · refine (frame_itemType reg type).bind fun item => (frame_accept _).bind fun _ =>
        (frame_membersTo _ (fun ms => ?_) fuel []).bind fun _ => frame_pure _
      exact Frame.bind (fun _ => rfl) fun _ => (ih item).bind fun _ => frame_pure _
    · refine (frame_accept _).bind fun _ =>
        (frame_membersTo _ (fun ms => ?_) fuel []).bind fun _ => frame_pure _
      exact frame_readKey.bind fun _ => (ih type).bind fun _ => frame_pure _
    · exact frame_readToken.bind fun _ => frame_createToken reg type start

/-! ## Names and descriptions -/

theorem frame_extractDesc : Frame (extractDesc : Parser text σ (Option Bytes)) :=
  frame_skipWhite.bind fun _ => frame_pos.bind fun _ => frame_peek.bind fun _ => Frame.ite
    (frame_readString.bind fun _ => frame_pos.bind fun _ => frame_pure _) (frame_pure _)

theorem frame_readName : Frame (readName : Parser text σ Bytes) :=
  frame_pos.bind fun start => frame_readToken.bind fun _ => (frame_since start).bind fun _ =>
    (frame_require _ _).bind fun _ => (frame_require _ _).bind fun _ => frame_pure _

theorem frame_keyWord (key : Bytes) : Frame (keyWord key : Parser text σ Unit) :=
  (frame_accept _).bind fun _ => (frame_require _ _).bind fun _ => frame_skipWhite.bind fun _ =>
    frame_require _ _

theorem frame_extractName (key : Bytes) : Frame (extractName key : Parser text σ Bytes) :=
  (frame_keyWord key).bind fun _ => frame_readName

theorem frame_expect (lit msg : Bytes) : Frame (expect lit msg : Parser text σ Unit) :=
  (frame_accept _).bind fun _ => frame_require _ _

theorem frame_makeUseArg (reg : Registry σ τ δ φ) (fuel : ℕ) (use : DirUse τ δ) :
    Frame (makeUseArg reg fuel use : Parser text σ (DirUse τ δ)) :=
  frame_readName.bind fun _ => frame_skipWhite.bind fun _ => (frame_expect _ _).bind fun _ =>
    (frame_readValue reg fuel none).bind fun _ => frame_errCode.bind fun _ => frame_pure _

theorem frame_defaultValue (reg : Registry σ τ δ φ) (fuel : ℕ) (type : τ) :
    Frame (defaultValue reg fuel type : Parser text σ (Option (GqlValue τ))) :=
  (frame_accept _).bind fun _ => Frame.ite
    ((frame_readValue reg fuel (some type)).bind fun _ => frame_pure _) (frame_pure _)

theorem frame_fieldArgsStart : Frame (fieldArgsStart : Parser text σ (Option (Pos text))) :=
  (frame_accept _).bind fun _ => Frame.ite
    (frame_pos.bind fun _ => (frame_skipTo _).bind fun _ => (frame_require _ _).bind fun _ =>
      (frame_accept _).bind fun _ => frame_skipWhite.bind fun _ => (frame_expect _ _).bind fun _ =>
        frame_pure _)
    ((frame_expect _ _).bind fun _ => frame_pure _)

/-- `peek` at the front: the byte is the one at the cursor. -/
theorem triple_peek {P : DocState text σ → Prop} {f : Byte → Parser text σ β}
    {R : β → DocState text σ → Prop} {E : DocState text σ → Prop}
    (h : ∀ c, Triple (fun s => P s ∧ at0 text s.cur = c) (f c) R E) : Triple P (peek >>= f) R E :=
  fun s hs => h (at0 text s.cur) s ⟨hs, rfl⟩

/-- A call that answers. -/
theorem run_callReg_ok {f : σ → Except Err α × σ} {s : DocState text σ} {a : α}
    (h : (f s.user.reg).1 = .ok a) :
    (callReg f : Parser text σ α).run s =
      (.ok a, { s with user := { s.user with reg := (f s.user.reg).2 } }) := by
  have huser : (Scanner.getUser : Parser text σ (DocUser σ)).run s = (.ok s.user, s) := rfl
  unfold callReg
  rw [run_bind, huser, andThen_ok, run_bind, h]
  rfl

theorem run_callReg_error {f : σ → Except Err α × σ} {s : DocState text σ} {e : Err}
    (h : (f s.user.reg).1 = .error e) :
    (callReg f : Parser text σ α).run s =
      (fail e : Parser text σ α).run { s with user := { s.user with reg := (f s.user.reg).2 } } := by
  have huser : (Scanner.getUser : Parser text σ (DocUser σ)).run s = (.ok s.user, s) := rfl
  unfold callReg
  rw [run_bind, huser, andThen_ok, run_bind, h]
  rfl

/-- A call on the registry does not move the cursor. -/
theorem triple_callReg {P : ℕ → Prop} (f : σ → Except Err α × σ) :
    Triple (fun s => P s.cur) (callReg f : Parser text σ α) (fun _ s => P s.cur) fun _ => True := by
  intro s hs
  cases hf : (f s.user.reg).1 with
  | ok a =>
    rw [run_callReg_ok hf]
    exact hs
  | error e =>
    rw [run_callReg_error hf]
    trivial

/-! ## Invariants of the registry -/

/-- From a registry with `I`, a run of `p` that ends with a value leaves one with `I`, and any other
run one with `E`. -/
def Holds (I E : σ → Prop) (p : Parser text σ α) : Prop :=
  Triple (fun s => I s.user.reg) p (fun _ s => I s.user.reg) fun s => E s.user.reg

section Invariants

variable {I E : σ → Prop}

theorem Frame.holds (hE : ∀ r, I r → E r) {p : Parser text σ α} (h : Frame p) : Holds I E p := by
  intro s hs
  have hp := h s
  generalize p.run s = r at hp
  obtain ⟨o, s'⟩ := r
  have hI : I s'.user.reg := by
    rw [hp]
    exact hs
  cases o with
  | ok a => exact hI
  | fail => exact hE _ hI
  | fault => exact hE _ hI
  | crash => exact hE _ hI
  | timeout => exact hE _ hI

theorem holds_pure (a : α) : Holds I E (pure a : Parser text σ α) := triple_pure fun _ h => h

theorem Holds.bind {p : Parser text σ α} {f : α → Parser text σ β} (h : Holds I E p)
    (hf : ∀ a, Holds I E (f a)) : Holds I E (p >>= f) := Triple.bind h hf

theorem Holds.ite {c : Prop} [Decidable c] {p q : Parser text σ α} (h : Holds I E p)
    (h' : Holds I E q) : Holds I E (if c then p else q) := Triple.ite (fun _ => h) fun _ => h'

theorem holds_whileLt (hE : ∀ r, I r → E r) {body : β → Parser text σ (Bool × β)}
    (h : ∀ b, Holds I E (body b)) (k : ℕ) (b : β) : Holds I E (whileLt body k b) := by
  refine triple_whileLt (fun b => (h b).mono (fun s hs => hs.1) (fun r s hs => ?_) fun _ h => h)
    (fun _ _ h _ => h) (fun _ s h => hE _ h) k b
  split
  · exact hs
  · exact hs

theorem holds_forever (hE : ∀ r, I r → E r) {body : β → Parser text σ (Bool × β)}
    (h : ∀ b, Holds I E (body b)) (k : ℕ) (b : β) : Holds I E (forever body k b) := by
  refine triple_forever (fun b => (h b).mono (fun s hs => hs) (fun r s hs => ?_) fun _ h => h)
    (fun _ s h => hE _ h) k b
  split
  · exact hs
  · exact hs

/-- A call of `graphql.c` that keeps the invariant, also where it fails. -/
def Keeps (I : σ → Prop) (f : σ → Except Err α × σ) : Prop := ∀ r, I r → I (f r).2

/-- What a call leaves, by its answer. -/
theorem triple_callReg_of {Q : α → σ → Prop} {f : σ → Except Err α × σ}
    (hok : ∀ r a, I r → (f r).1 = .ok a → Q a (f r).2)
    (herror : ∀ r e, I r → (f r).1 = .error e → E (f r).2) :
    Triple (fun s => I s.user.reg) (callReg f : Parser text σ α) (fun a s => Q a s.user.reg)
      fun s => E s.user.reg := by
  intro s hs
  cases hf : (f s.user.reg).1 with
  | ok a =>
    rw [run_callReg_ok hf]
    exact hok _ a hs hf
  | error e =>
    rw [run_callReg_error hf]
    exact herror _ e hs hf

theorem holds_callReg (hE : ∀ r, I r → E r) {f : σ → Except Err α × σ} (h : Keeps I f) :
    Holds I E (callReg f : Parser text σ α) :=
  triple_callReg_of (Q := fun _ => I) (fun r _ hr _ => h r hr) fun r _ hr _ => hE _ (h r hr)

theorem triple_changeReg {L : σ → Prop} {f : σ → σ} (h : ∀ r, I r → L (f r)) :
    Triple (fun s => I s.user.reg) (changeReg f : Parser text σ Unit) (fun _ s => L s.user.reg)
      fun s => E s.user.reg := fun s hs => h s.user.reg hs

theorem holds_changeReg {f : σ → σ} (h : ∀ r, I r → I (f r)) :
    Holds I E (changeReg f : Parser text σ Unit) := triple_changeReg h

/-- A type is destroyed on failure, unless it was extended. -/
theorem holds_orDestroy {reg : Registry σ τ δ φ} {t : τ} {x : Bool} {E' : σ → Prop}
    (hleave : ∀ r, E' r → E r) (hdestroy : x = false → ∀ r, E' r → E (reg.typeDestroy t r))
    {p : Parser text σ α} (h : Holds I E' p) : Holds I E (orDestroy reg t x p) := by
  refine Triple.cleanup h (fun s hs => ?_) fun s hs => hleave s.user.reg hs
  cases x with
  | true => exact hleave s.user.reg hs
  | false => exact hdestroy rfl s.user.reg hs

end Invariants

end Agoo
