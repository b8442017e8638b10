import Agoo.DocValue

/-!
# Reading a value ends

Every member of a list is read by a call that must move the cursor. It does so at any byte that
begins a value; at any other, such as `)` or `:`, it makes a token of the rest of the text and stays,
and the loop comes back to the same byte for ever.

`readValue_returns_iff`: from every place the read returns exactly when every member it comes to
begins a value or is the end of the text, and no comment or string leads past the end.
-/

namespace Agoo

open Agoo.Parser Scanner

variable {text : Bytes} {σ τ δ φ α β : Type}

/-- Some reader takes the byte. -/
def startsValue (b : Byte) : Bool :=
  b == chr '$' || b == chr '"' || b == chr '-' || b == chr '+' || isDigit b || b == chr '[' ||
    b == chr '{' || (isToken b && chr '9' < b)

/-- The call stays in the document and, for a member of a list, moves the cursor or finds the end. -/
def DocEvent.Ends : DocEvent text → Prop
  | .item p => text.length ≤ p ∨ startsValue (at0 text p)
  | e => e.Fits

theorem DocEvent.Ends.fits {e : DocEvent text} (h : e.Ends) : e.Fits := by
  cases e with
  | item p => exact item_fits p
  | comment p => exact h
  | string p => exact h

/-! ## Readers without loops -/

/-- A reader that goes forward, needs no fuel and logs no member of a list. -/
structure Plain (p : Parser text σ α) : Prop where
  forward : p.Forward
  prompt : p.Prompt
  keeps : p.Keeps DocEvent.Ends

theorem plain_pure (a : α) : Plain (pure a : Parser text σ α) :=
  ⟨forward_pure a, fun _ => not_stuck_ok a, keeps_pure a⟩

theorem Plain.bind {p : Parser text σ α} {f : α → Parser text σ β} (h : Plain p)
    (hf : ∀ a, Plain (f a)) : Plain (p >>= f) :=
  ⟨h.forward.bind fun a => (hf a).forward, h.prompt.bind fun a => (hf a).prompt,
    h.keeps.bind fun a => (hf a).keeps⟩

theorem Plain.ite {c : Prop} [Decidable c] {p q : Parser text σ α} (h : Plain p) (h' : Plain q) :
    Plain (if c then p else q) := by
  split
  · exact h
  · exact h'

theorem plain_step {f : DocState text σ → α × Pos text × DocUser σ} (h : ∀ s, s.cur ≤ (f s).2.1.1) :
    Plain (step f : Parser text σ α) :=
  ⟨h, fun _ => not_stuck_ok _, fun _ hs _ => hs⟩

theorem plain_pos : Plain (pos : Parser text σ (Pos text)) := plain_step fun _ => Nat.le_refl _

theorem plain_advance (f : Bytes → α × ℕ) (h : ∀ rest, (f rest).2 ≤ rest.length) :
    Plain (advance f h : Parser text σ α) := plain_step fun _ => Nat.le_add_right _ _

theorem plain_accept (lit : Bytes) : Plain (accept lit : Parser text σ Bool) := plain_advance _ _

theorem plain_since (start : Pos text) : Plain (since start : Parser text σ Bytes) :=
  plain_step fun _ => Nat.le_refl _

theorem plain_docErr (msg : Bytes) : Plain (docErr msg : Parser text σ α) :=
  ⟨fun _ => Nat.le_refl _, fun _ => by simp [docErr, abort, Outcome.Stuck], fun _ hs _ => hs⟩

theorem plain_require (c : Prop) [Decidable c] (msg : Bytes) :
    Plain (require c msg : Parser text σ Unit) := Plain.ite (plain_pure _) (plain_docErr msg)

theorem plain_askReg (f : σ → α) : Plain (askReg f : Parser text σ α) :=
  Plain.bind (plain_step fun _ => Nat.le_refl _) fun _ => plain_pure _

/-- A sweep that goes forward over calls that are no members of lists. -/
theorem plain_sweep {f : DocState text σ → List (DocEvent text) × Option (Pos text)}
    {h : ∀ s, (f s).2 = none ↔ ∃ e ∈ (f s).1, ¬ e.Fits}
    (hle : ∀ s c, (f s).2 = some c → s.cur ≤ c.1)
    (hitem : ∀ s, ∀ e ∈ (f s).1, e.Fits → e.Ends) :
    Plain (sweep f h : Parser text σ Unit) := by
  refine ⟨fun s => ?_, fun s => ?_, fun s hs hret e he => ?_⟩
  · unfold sweep
    dsimp only
    split
    · next c hc => exact hle s c hc
    · exact Nat.le_refl _
  · unfold sweep
    dsimp only
    split <;> simp [Outcome.Stuck]
  · unfold sweep at hret he
    dsimp only at hret he
    split at hret
    · next c hc =>
      simp only [hc] at he
      rcases List.mem_append.mp he with he | he
      · refine hitem s e he ?_
        by_contra hn
        have := (h s).mpr ⟨e, he, hn⟩
        rw [hc] at this
        cases this
      · exact hs e he
    · exact absurd hret not_false

theorem plain_skipWhite : Plain (skipWhite : Parser text σ ℕ) := by
  refine plain_pos.bind fun start => Plain.bind ?_ fun _ => plain_pos.bind fun _ => plain_pure _
  refine plain_sweep (fun s c hc => (skipFrom_le (skipAt_some hc)).1) fun s e he hfit => ?_
  obtain ⟨q, _, rfl⟩ := List.mem_pmap.mp he
  exact hfit

theorem plain_readToken : Plain (readToken : Parser text σ Unit) := plain_advance _ _

theorem plain_digits (f : β → UInt64 → β × Bool) (b : β) (msg : Bytes) :
    Plain (digits f b msg : Parser text σ β) :=
  (plain_advance _ _).bind fun r => Plain.ite (plain_docErr msg) (plain_pure r.1)

theorem plain_readSign : Plain (readSign : Parser text σ Bool) :=
  (plain_accept _).bind fun _ => Plain.ite (plain_pure _)
    ((plain_accept _).bind fun _ => plain_pure _)

theorem plain_acceptE : Plain (acceptE : Parser text σ Bool) :=
  (plain_accept _).bind fun _ => Plain.ite (plain_pure _) (plain_accept _)

theorem plain_readExp : Plain (readExp : Parser text σ (Option ℤ)) :=
  plain_acceptE.bind fun _ => Plain.ite
    (plain_readSign.bind fun _ => (plain_digits _ _ _).bind fun _ => plain_pure _)
    (plain_pure _)

theorem plain_readFraction (neg : Bool) (i : UInt64) (dec : ℕ) :
    Plain (readFraction neg i dec : Parser text σ (GqlValue τ)) := by
  refine (plain_accept _).bind fun _ => Plain.ite ?_ (plain_pure _)
  refine (plain_digits _ _ _).bind fun _ => plain_readExp.bind fun _ => ?_
  exact Plain.ite (plain_pure _) (plain_pure _)

theorem plain_readUnsigned (neg : Bool) : Plain (readUnsigned neg : Parser text σ (GqlValue τ)) :=
  (plain_digits _ _ _).bind fun r => plain_readFraction neg r.1 r.2

theorem plain_readNumber : Plain (readNumber : Parser text σ (GqlValue τ)) :=
  plain_readSign.bind plain_readUnsigned

theorem plain_readString : Plain (readString : Parser text σ Unit) :=
  (plain_advance _ _).bind fun _ => plain_pos.bind fun _ => plain_require _ _

theorem plain_createString (p : ℕ) (quote : at0 text p = chr '"') :
    Plain (createString p quote : Parser text σ (GqlValue τ)) := by
  refine Plain.bind (plain_sweep (fun s c hc => ?_) fun s e he hfit => ?_) fun _ =>
    plain_pos.bind fun _ => plain_pure _
  · obtain ⟨_, -, rfl⟩ := Option.map_eq_some_iff.mp hc
    exact Nat.le_refl _
  · rw [List.mem_singleton.mp he] at hfit ⊢
    exact hfit

theorem plain_createToken (reg : Registry σ τ δ φ) (type : Option τ) (start : Pos text) :
    Plain (createToken reg type start : Parser text σ (GqlValue τ)) :=
  plain_pos.bind fun _ => plain_askReg _

theorem plain_readWord (reg : Registry σ τ δ φ) (type : Option τ) (lit : Bytes)
    (value : GqlValue τ) : Plain (readWord reg type lit value : Parser text σ (GqlValue τ)) :=
  plain_pos.bind fun start => plain_readToken.bind fun _ => (plain_since start).bind fun _ =>
    Plain.ite (plain_pure _) (plain_createToken reg type start)

theorem plain_itemType (reg : Registry σ τ δ φ) (type : Option τ) :
    Plain (itemType reg type : Parser text σ (Option τ)) := by
  cases type with
  | none => exact plain_pure none
  | some t => exact (plain_askReg _).bind fun _ => (plain_require _ _).bind fun _ => plain_askReg _

theorem plain_readKey : Plain (readKey : Parser text σ Bytes) :=
  plain_pos.bind fun start => plain_readToken.bind fun _ => (plain_since start).bind fun _ =>
    (plain_require _ _).bind fun _ => (plain_require _ _).bind fun _ =>
      plain_readToken.bind fun _ => (plain_accept _).bind fun _ =>
        (plain_require _ _).bind fun _ => plain_pure _

/-! ## The loops go forward -/

theorem forward_membersTo {close : Bytes} {body : β → Parser text σ β} (h : ∀ b, (body b).Forward)
    (fuel : ℕ) (b : β) : (membersTo close body fuel b).Forward :=
  whileLt_forward (fun b => plain_skipWhite.forward.bind fun _ =>
    (plain_accept close).forward.bind fun _ =>
      Forward.ite (forward_pure _) ((h b).bind fun _ => forward_pure _)) fuel b

theorem forward_listMember {read : Parser text σ (GqlValue τ)} (h : read.Forward)
    (members : List (GqlValue τ)) : (listMember read members).Forward :=
  Forward.bind (fun _ => Nat.le_refl _) fun _ => h.bind fun _ => forward_pure _

theorem forward_objectMember {read : Parser text σ (GqlValue τ)} (h : read.Forward)
    (members : List (Bytes × GqlValue τ)) : (objectMember read members).Forward :=
  plain_readKey.forward.bind fun _ => h.bind fun _ => forward_pure _

theorem forward_readValue (reg : Registry σ τ δ φ) (fuel : ℕ) (type : Option τ) :
    (readValue reg fuel type : Parser text σ (GqlValue τ)).Forward := by
  induction fuel generalizing type with
  | zero => exact fun _ => Nat.le_refl _
  | succ fuel ih =>
    rw [readValue]
    refine plain_skipWhite.forward.bind fun _ => plain_pos.forward.bind fun start => ?_
    refine Forward.ite ?_ <| Forward.dite (fun hq => ?_) <| Forward.ite plain_readNumber.forward <|
      Forward.ite (plain_readWord _ _ _ _).forward <| Forward.ite (plain_readWord _ _ _ _).forward <|
      Forward.ite (plain_readWord _ _ _ _).forward <| Forward.ite ?_ <| Forward.ite ?_ ?_
    · exact ((plain_accept _).bind fun _ => plain_pos.bind fun _ => plain_readToken.bind
        fun _ => plain_pos.bind fun _ => plain_pure _).forward
    · exact (plain_readString.bind fun _ => plain_createString start hq).forward
    · exact (plain_itemType reg type).forward.bind fun item => (plain_accept _).forward.bind fun _ =>
        (forward_membersTo (forward_listMember (ih item)) fuel []).bind fun _ => forward_pure _
    · exact (plain_accept _).forward.bind fun _ =>
        (forward_membersTo (forward_objectMember (ih type)) fuel []).bind fun _ => forward_pure _
    · exact (plain_readToken.bind fun _ => plain_createToken reg type start).forward

/-! ## Where a call moves the cursor -/

theorem isToken_zero : isToken 0 = false := by decide

theorem isWhite_zero : isWhite 0 = false := by decide

theorem moves_accept {s : DocState text σ} {c : Byte} (hc : c ≠ 0) (h : at0 text s.cur = c) :
    (accept [c] : Parser text σ Bool).Moves s := by
  intro b _
  have hpre : [c] <+: text.drop s.cur := by
    rw [drop_cons_of_at0 (h ▸ hc), h]
    exact ⟨_, rfl⟩
  simp [accept, advance, step, hpre]

theorem accept_false {s : DocState text σ} {c : Byte} (h : at0 text s.cur ≠ c) :
    (accept [c] : Parser text σ Bool).run s = (.ok false, s) := by
  have hpre : ¬ [c] <+: text.drop s.cur := by
    rintro ⟨rest, hr⟩
    exact h (drop_succ_of_drop hr.symm).1
  simp [accept, advance, step, hpre]

theorem run_accept_false {s s' : DocState text σ} {c : Byte} (hc : c ≠ 0)
    (h : (accept [c] : Parser text σ Bool).run s = (.ok false, s')) :
    s = s' ∧ at0 text s.cur ≠ c := by
  have hne : at0 text s.cur ≠ c := by
    intro hat
    have hpre : [c] <+: text.drop s.cur := by
      rw [drop_cons_of_at0 (hat ▸ hc), hat]
      exact ⟨_, rfl⟩
    simp [accept, advance, step, hpre] at h
  rw [accept_false hne] at h
  exact ⟨(Prod.mk.inj h).2, hne⟩

theorem moves_readToken {s : DocState text σ} (h : isToken (at0 text s.cur) ∧ chr '9' < at0 text s.cur) :
    (readToken : Parser text σ Unit).Moves s := by
  intro _ _
  have hne : at0 text s.cur ≠ 0 := fun h0 => by
    rw [h0, isToken_zero] at h
    exact absurd h.1 (by simp)
  have hlen : tokenLen (text.drop s.cur) ≠ 0 := by
    rw [drop_cons_of_at0 hne, tokenLen, if_pos h]
    omega
  simp [readToken, advance, step]
  omega

theorem moves_digits (f : β → UInt64 → β × Bool) (b : β) (msg : Bytes) {s : DocState text σ}
    (h : isDigit (at0 text s.cur)) : (digits f b msg : Parser text σ β).Moves s := by
  intro x hx
  have hne : at0 text s.cur ≠ 0 := fun h0 => by
    rw [h0] at h
    revert h
    decide
  have hloop : (digitLoop f b (text.drop s.cur)).1.2 = true ∨
      0 < (digitLoop f b (text.drop s.cur)).2 := by
    rw [drop_cons_of_at0 hne, digitLoop, if_pos h]
    dsimp only
    split_ifs with he
    · exact Or.inl he
    · exact Or.inr (Nat.succ_pos _)
  rw [digits, run_bind, advance, step, andThen_ok] at hx ⊢
  rcases hloop with he | hlt
  · simp [he, docErr, abort] at hx
  · by_cases he : (digitLoop f b (text.drop s.cur)).1.2 = true
    · simp [he, docErr, abort] at hx
    · simpa [he] using hlt

theorem moves_readNumber {s : DocState text σ}
    (h : at0 text s.cur = chr '-' ∨ at0 text s.cur = chr '+' ∨ isDigit (at0 text s.cur)) :
    (readNumber : Parser text σ (GqlValue τ)).Moves s := by
  rcases h with h | h | h
  · refine Moves.bind (Moves.bind (moves_accept (c := chr '-') (by decide) h) fun b => ?_)
      fun neg => (plain_readUnsigned neg).forward
    exact (Plain.ite (plain_pure _) ((plain_accept _).bind fun _ => plain_pure _)).forward
  · refine Moves.bind (Moves.after (plain_accept _).forward fun b s' hr => ?_)
      fun neg => (plain_readUnsigned neg).forward
    rw [show bytes "-" = [chr '-'] from rfl, accept_false (by rw [h]; decide)] at hr
    obtain ⟨rfl, rfl⟩ : false = b ∧ s = s' := by simpa using hr
    exact Moves.bind (moves_accept (c := chr '+') (by decide) h) fun _ => forward_pure _
  · have hd : ∀ c : Byte, isDigit c = false → at0 text s.cur ≠ c := by
      rintro c hc rfl
      rw [hc] at h
      cases h
    refine Moves.after plain_readSign.forward fun neg s' hr => ?_
    have hsign : (readSign : Parser text σ Bool).run s = (.ok false, s) := by
      rw [readSign, run_bind, show bytes "-" = [chr '-'] from rfl,
        accept_false (hd _ (by decide)), andThen_ok]
      simp only [Bool.false_eq_true, if_false]
      rw [run_bind, show bytes "+" = [chr '+'] from rfl, accept_false (hd _ (by decide))]
      rfl
    rw [hsign] at hr
    obtain ⟨rfl, rfl⟩ : false = neg ∧ s = s' := by simpa using hr
    exact Moves.bind (moves_digits _ _ _ h) fun r => (plain_readFraction _ r.1 r.2).forward

theorem word_moves (reg : Registry σ τ δ φ) (type : Option τ) {lit : Bytes} {value : GqlValue τ}
    {c : Byte} {s : DocState text σ} (h : at0 text s.cur = c) (hc : isToken c ∧ chr '9' < c) :
    (readWord reg type lit value : Parser text σ (GqlValue τ)).Moves s := by
  refine Moves.after plain_pos.forward fun start s' hr => ?_
  obtain rfl : s = s' := (Prod.mk.inj hr).2
  refine (moves_readToken (by rw [h]; exact hc)).bind fun _ => ?_
  exact ((plain_since start).bind fun _ =>
    Plain.ite (plain_pure _) (plain_createToken reg type start)).forward

/-- White space leaves the cursor at a byte that is neither white nor begins a comment. -/
theorem skipFrom_stop {m : Bool} {p q : ℕ} {rest : Bytes} (hr : text.drop p = rest)
    (h : (skipFrom m p rest).2 = some q) :
    isWhite (at0 text q) = false ∧ at0 text q ≠ chr '#' := by
  induction rest generalizing m p with
  | nil =>
    cases m with
    | false =>
      obtain rfl : p = q := by simpa [skipFrom] using h
      rw [at0_of_le (List.drop_eq_nil_iff.mp hr)]
      exact ⟨isWhite_zero, by decide⟩
    | true => simp [skipFrom] at h
  | cons b rest ih =>
    obtain ⟨hb, hr'⟩ := drop_succ_of_drop hr
    cases m with
    | false =>
      unfold skipFrom at h
      split at h
      · exact ih hr' h
      · next hw =>
        split at h
        · exact ih hr' h
        · next hc =>
          obtain rfl : p = q := by simpa using h
          rw [hb]
          exact ⟨Bool.eq_false_iff.mpr hw, hc⟩
    | true =>
      unfold skipFrom at h
      split at h
      · exact ih hr' h
      · exact ih hr' h

theorem run_skipWhite {s s' : DocState text σ} {k : ℕ}
    (h : (skipWhite : Parser text σ ℕ).run s = (.ok k, s')) :
    isWhite (at0 text s'.cur) = false ∧ at0 text s'.cur ≠ chr '#' := by
  rw [skipWhite, run_bind, pos, step, andThen_ok, run_bind, sweep] at h
  dsimp only at h
  split at h
  · next c hc =>
    obtain rfl : s' = _ := (Prod.mk.inj h).2.symm
    exact skipFrom_stop rfl (skipAt_some hc)
  · simp [andThen] at h

/-- At such a byte nothing is skipped. -/
theorem skipWhite_stay {s : DocState text σ} (hw : isWhite (at0 text s.cur) = false)
    (hc : at0 text s.cur ≠ chr '#') : (skipWhite : Parser text σ ℕ).run s = (.ok 0, s) := by
  have hskip : skipFrom false s.cur (text.drop s.cur) = ([], some s.cur) := by
    by_cases h0 : s.cur < text.length
    · have hat : at0 text s.cur = text[s.cur] := by simp [at0, h0]
      rw [hat] at hw hc
      rw [List.drop_eq_getElem_cons h0]
      simp [skipFrom, hw, hc]
    · rw [List.drop_of_length_le (Nat.not_lt.mp h0)]
      rfl
  rw [skipWhite, run_bind, pos, step, andThen_ok, run_bind, sweep]
  dsimp only
  rw [skipAt_stay (s := s) hskip]
  simp

/-! ## One call of `agoo_doc_read_value` -/

theorem startsValue_table :
    ∀ k < 256, startsValue (UInt8.ofNat k) = true →
      isWhite (UInt8.ofNat k) = false ∧ UInt8.ofNat k ≠ chr '#' := by
  decide +kernel

/-- A byte that begins a value is not skipped. -/
theorem startsValue_stay {b : Byte} (h : startsValue b = true) :
    isWhite b = false ∧ b ≠ chr '#' := by
  have := startsValue_table b.toNat b.toNat_lt
  rw [UInt8.ofNat_toNat] at this
  exact this h

theorem itemType_cur (reg : Registry σ τ δ φ) (type : Option τ) (s : DocState text σ) :
    ((itemType reg type).run s).2.cur = s.cur := by
  cases type with
  | none => rfl
  | some t =>
    by_cases hk : reg.kind s.user.reg t = .list
    · simp [itemType, askReg, getUser, step, require, hk]
    · simp [itemType, askReg, getUser, step, require, hk, docErr, abort, andThen]

/-- At a byte that is not skipped the value is read where the cursor is. -/
theorem run_readValue {reg : Registry σ τ δ φ} {fuel : ℕ} {type : Option τ} {s : DocState text σ}
    (hw : isWhite (at0 text s.cur) = false) (hc : at0 text s.cur ≠ chr '#') :
    (readValue reg (fuel + 1) type).run s =
      (valueAt reg (readValue reg fuel) fuel type ⟨s.cur, s.le⟩).run s := by
  rw [readValue, run_bind, skipWhite_stay hw hc]
  rfl

/-- **At a byte that begins a value the read moves the cursor.** -/
theorem moves_readValue (reg : Registry σ τ δ φ) (fuel : ℕ) (type : Option τ) {s : DocState text σ}
    (h : startsValue (at0 text s.cur) = true) : (readValue reg fuel type).Moves s := by
  cases fuel with
  | zero => exact fun a ha => by cases ha
  | succ fuel =>
    obtain ⟨hw, hc⟩ := startsValue_stay h
    have hmoves : (valueAt reg (readValue reg fuel) fuel type ⟨s.cur, s.le⟩).Moves s := by
      unfold valueAt
      dsimp only
      split_ifs with h1 h2 h3 h4 h5 h6 h7 h8
      · exact (moves_accept (by decide) h1).bind fun _ => (plain_pos.bind fun _ =>
          plain_readToken.bind fun _ => plain_pos.bind fun _ => plain_pure _).forward
      · refine Moves.bind ?_ fun _ => (plain_createString _ h2).forward
        refine Moves.bind ?_ fun _ => (plain_pos.bind fun _ => plain_require _ _).forward
        intro _ _
        have hne : at0 text s.cur ≠ 0 := by rw [h2]; decide
        have hlen : 0 < (stringLen (text.drop s.cur)).2 := by
          rw [drop_cons_of_at0 hne, stringLen]
          split_ifs
          · exact Nat.lt_of_lt_of_le (by decide) (Nat.le_add_right 3 _)
          · exact Nat.succ_pos 1
          · exact Nat.lt_of_lt_of_le (by decide) (Nat.le_add_right 1 _)
        simp only [advance, step]
        omega
      · exact moves_readNumber h3
      · exact word_moves reg type h4 (by decide)
      · exact word_moves reg type h5 (by decide)
      · exact word_moves reg type h6 (by decide)
      · refine Moves.after (plain_itemType reg type).forward fun item s' hr => ?_
        have hcur : s'.cur = s.cur := by
          rw [← itemType_cur reg type s, hr]
        refine (moves_accept (c := chr '[') (by decide) (by rw [hcur]; exact h7)).bind fun _ => ?_
        exact (forward_membersTo (forward_listMember (forward_readValue reg fuel item)) fuel []).bind
          fun _ => forward_pure _
      · refine (moves_accept (c := chr '{') (by decide) h8).bind fun _ => ?_
        exact (forward_membersTo (forward_objectMember (forward_readValue reg fuel type)) fuel []).bind
          fun _ => forward_pure _
      · refine (moves_readToken ?_).bind fun _ => (plain_createToken reg type _).forward
        simp only [startsValue, Bool.or_eq_true, Bool.and_eq_true, beq_iff_eq, decide_eq_true_eq,
          h1, h2, h7, h8, false_or, or_false] at h
        rw [not_or, not_or] at h3
        simpa [h3.1, h3.2.1, h3.2.2] using h
    intro a ha
    rw [run_readValue hw hc] at ha ⊢
    exact hmoves a ha

/-- At a byte that begins no value the read returns a token and leaves the cursor. -/
theorem readValue_stay (reg : Registry σ τ δ φ) (fuel : ℕ) (type : Option τ) {s : DocState text σ}
    (hw : isWhite (at0 text s.cur) = false) (hc : at0 text s.cur ≠ chr '#')
    (h : startsValue (at0 text s.cur) = false) :
    ∃ v s', (readValue reg (fuel + 1) type).run s = (.ok v, s') ∧ s'.cur = s.cur := by
  have hne : ∀ c, startsValue c = true → at0 text s.cur ≠ c := by
    rintro c hc' he
    rw [he, hc'] at h
    cases h
  have hdigit : isDigit (at0 text s.cur) = false := by
    by_contra hd
    rw [Bool.not_eq_false] at hd
    simp [startsValue, hd] at h
  have htoken : tokenLen (text.drop s.cur) = 0 := by
    cases hd : text.drop s.cur with
    | nil => rfl
    | cons b rest =>
      have hb : at0 text s.cur = b := (drop_succ_of_drop hd).1
      rw [tokenLen, if_neg]
      intro ht
      rw [hb] at h
      simp [startsValue, ht] at h
  rw [run_readValue hw hc, valueAt]
  dsimp only
  rw [if_neg (hne _ (by decide)), dif_neg (hne _ (by decide)),
    if_neg (by
      rw [not_or, not_or, hdigit]
      exact ⟨hne _ (by decide), hne _ (by decide), Bool.false_ne_true⟩),
    if_neg (hne _ (by decide)), if_neg (hne _ (by decide)), if_neg (hne _ (by decide)),
    if_neg (hne _ (by decide)), if_neg (hne _ (by decide))]
  exact ⟨_, _, rfl, by simp [htoken]⟩

/-! ## Enough fuel -/

/-- A loop over members ends when each member moves the cursor, is at the end, or is to blame. -/
theorem membersTo_blames {Bad : DocEvent text → Prop} {close : Bytes} {body : β → Parser text σ β}
    {low fuel : ℕ}
    (h : ∀ b s, low ≤ s.cur → (body b).Blames Bad s ∧ ∀ b' s', (body b).run s = (.ok b', s') →
      s.cur < s'.cur ∨ text.length ≤ s.cur ∧ s.cur ≤ s'.cur ∨ ∃ e ∈ s'.log, Bad e)
    {b : β} {s : DocState text σ} (hlow : low ≤ s.cur) (hfuel : text.length < s.cur + fuel) :
    (membersTo close body fuel b).Blames Bad s := by
  refine whileLt_blames (fun b s (hlow : low ≤ s.cur) hlt => ?_) hlow hfuel
  have hfirst : ∀ k s₁ stop s₂, (skipWhite : Parser text σ ℕ).run s = (.ok k, s₁) →
      (accept close : Parser text σ Bool).run s₁ = (.ok stop, s₂) → s.cur ≤ s₂.cur := by
    intro k s₁ stop s₂ h₁ h₂
    have hw := plain_skipWhite.forward s
    have ha := (plain_accept (σ := σ) close).forward s₁
    rw [h₁] at hw
    rw [h₂] at ha
    exact Nat.le_trans hw ha
  constructor
  · refine (blames_of_not (plain_skipWhite.prompt s)).bind fun k s₁ h₁ => ?_
    refine (blames_of_not ((plain_accept close).prompt s₁)).bind fun stop s₂ h₂ => ?_
    cases stop with
    | true => exact blames_of_not (not_stuck_ok _)
    | false =>
      refine (h b s₂ (Nat.le_trans hlow (hfirst _ _ _ _ h₁ h₂))).1.bind fun _ _ _ => ?_
      exact blames_of_not (not_stuck_ok _)
  · intro b' s' hrun
    obtain ⟨k, s₁, h₁, hrun⟩ := run_bind_ok hrun
    obtain ⟨stop, s₂, h₂, hrun⟩ := run_bind_ok hrun
    have hle := hfirst _ _ _ _ h₁ h₂
    cases stop with
    | true => cases hrun
    | false =>
      obtain ⟨b₃, s₃, h₃, hrun⟩ := run_bind_ok hrun
      obtain rfl : s₃ = s' := (Prod.mk.inj hrun).2
      rcases (h b s₂ (Nat.le_trans hlow hle)).2 b₃ s₃ h₃ with hm | ⟨hn, hm⟩ | he
      · exact Or.inl (Nat.lt_of_le_of_lt hle hm)
      · exact Or.inl (by omega)
      · exact Or.inr he

theorem Plain.blames {p : Parser text σ α} (h : Plain p) (Bad : DocEvent text → Prop)
    (s : DocState text σ) : p.Blames Bad s := blames_of_not (h.prompt s)

/-- A member name moves the cursor past its colon. -/
theorem moves_readKey (s : DocState text σ) : (readKey : Parser text σ Bytes).Moves s := by
  refine Moves.after plain_pos.forward fun start s₁ h₁ => ?_
  refine Moves.after plain_readToken.forward fun _ s₂ h₂ => ?_
  refine Moves.after (plain_since start).forward fun name s₃ h₃ => ?_
  refine Moves.after (plain_require _ _).forward fun _ s₄ h₄ => ?_
  refine Moves.after (plain_require _ _).forward fun _ s₅ h₅ => ?_
  refine Moves.after plain_readToken.forward fun _ s₆ h₆ => ?_
  by_cases hc : at0 text s₆.cur = chr ':'
  · exact (moves_accept (by decide) hc).bind fun _ =>
      ((plain_require _ _).bind fun _ => plain_pure _).forward
  · -- without a colon the read stops
    intro a ha
    rw [run_bind, show bytes ":" = [chr ':'] from rfl, accept_false hc] at ha
    cases ha

/-- **With two more steps than bytes left the read ends, unless a member of a list is to blame.** -/
theorem readValue_blames (reg : Registry σ τ δ φ) (fuel : ℕ) (type : Option τ) {s : DocState text σ}
    (hfuel : text.length + 2 ≤ s.cur + fuel) :
    (readValue reg fuel type).Blames (fun e => ¬ e.Ends) s := by
  induction fuel generalizing type s with
  | zero =>
    have := s.le
    omega
  | succ fuel ih =>
    rw [readValue]
    refine (plain_skipWhite.blames _ s).bind fun _ s₁ h₁ => ?_
    refine (plain_pos.blames _ s₁).bind fun start s₂ h₂ => ?_
    obtain ⟨rfl, rfl⟩ : start = ⟨s₁.cur, s₁.le⟩ ∧ s₁ = s₂ := by
      have := Prod.mk.inj h₂
      exact ⟨(Outcome.ok.inj this.1).symm, this.2⟩
    have hle : s.cur ≤ s₁.cur := by
      have := plain_skipWhite.forward s
      rwa [h₁] at this
    -- behind the opening byte the fuel left is enough for the loop and for each member
    have hopen : ∀ {lit : Byte} {b : Bool} {s' s'' : DocState text σ}, s'.cur = s₁.cur → lit ≠ 0 →
        at0 text s₁.cur = lit → (accept [lit] : Parser text σ Bool).run s' = (.ok b, s'') →
        text.length + 2 ≤ s''.cur + fuel := by
      intro lit b s' s'' hcur hlit hat hrun
      have := moves_accept (σ := σ) hlit (hcur ▸ hat) b (by rw [hrun])
      rw [hrun] at this
      dsimp only at this
      omega
    unfold valueAt
    dsimp only
    split_ifs with h1 hq h3 h4 h5 h6 h7 h8
    · exact ((plain_accept _).bind fun _ => plain_pos.bind fun _ => plain_readToken.bind fun _ =>
        plain_pos.bind fun _ => plain_pure _).blames _ _
    · exact (plain_readString.bind fun _ => plain_createString _ hq).blames _ _
    · exact plain_readNumber.blames _ _
    · exact (plain_readWord _ _ _ _).blames _ _
    · exact (plain_readWord _ _ _ _).blames _ _
    · exact (plain_readWord _ _ _ _).blames _ _
    · refine ((plain_itemType reg type).blames _ _).bind fun item s₄ h₄ => ?_
      have hcur : s₄.cur = s₁.cur := by
        rw [← itemType_cur reg type s₁, h₄]
      refine ((plain_accept _).blames _ _).bind fun _ s₅ h₅ => ?_
      have hroom := hopen hcur (by decide) h7 h₅
      refine Blames.bind ?_ fun _ _ _ => (plain_pure _).blames _ _
      refine membersTo_blames (fun members s₆ (hlow : s₅.cur ≤ s₆.cur) => ?_) (Nat.le_refl _)
        (by omega)
      constructor
      · refine Blames.bind (blames_of_not (not_stuck_ok _)) fun _ s₇ h₇ => ?_
        obtain rfl := (Prod.mk.inj h₇).2
        exact (ih item (by dsimp only; omega)).bind fun _ _ _ => (plain_pure _).blames _ _
      · intro members' s₇ hrun
        obtain ⟨_, s₈, h₈, hrun⟩ := run_bind_ok hrun
        obtain rfl := (Prod.mk.inj h₈).2
        obtain ⟨v, s₉, h₉, hrun⟩ := run_bind_ok hrun
        obtain rfl : s₉ = s₇ := (Prod.mk.inj hrun).2
        by_cases hitem : (DocEvent.item s₆.cur : DocEvent text).Ends
        · rcases hitem with hend | hstart
          · have := forward_readValue reg fuel item
              (⟨s₆.cur, s₆.le, .item s₆.cur :: s₆.log, s₆.user⟩ : DocState text σ)
            rw [h₉] at this
            exact Or.inr (Or.inl ⟨hend, this⟩)
          · have := moves_readValue reg fuel item
              (s := (⟨s₆.cur, s₆.le, .item s₆.cur :: s₆.log, s₆.user⟩ : DocState text σ)) hstart v
              (by rw [h₉])
            rw [h₉] at this
            exact Or.inl this
        · refine Or.inr (Or.inr ⟨_, ?_, hitem⟩)
          have := (readValue reg fuel item).log_suffix
            (⟨s₆.cur, s₆.le, .item s₆.cur :: s₆.log, s₆.user⟩ : DocState text σ)
          rw [h₉] at this
          exact this.subset List.mem_cons_self
    · refine ((plain_accept _).blames _ _).bind fun _ s₅ h₅ => ?_
      have hroom := hopen rfl (by decide) h8 h₅
      refine Blames.bind ?_ fun _ _ _ => (plain_pure _).blames _ _
      refine membersTo_blames (fun members s₆ (hlow : s₅.cur ≤ s₆.cur) => ?_) (Nat.le_refl _)
        (by omega)
      constructor
      · refine (plain_readKey.blames _ _).bind fun key s₇ h₇ => ?_
        have := (moves_readKey s₆) key (by rw [h₇])
        rw [h₇] at this
        dsimp only at this
        exact (ih type (by omega)).bind fun _ _ _ => (plain_pure _).blames _ _
      · intro members' s₇ hrun
        obtain ⟨key, s₈, h₈, hrun⟩ := run_bind_ok hrun
        obtain ⟨v, s₉, h₉, hrun⟩ := run_bind_ok hrun
        obtain rfl : s₉ = s₇ := (Prod.mk.inj hrun).2
        have hkey := (moves_readKey s₆) key (by rw [h₈])
        rw [h₈] at hkey
        have hval := forward_readValue reg fuel type s₈
        rw [h₉] at hval
        exact Or.inl (Nat.lt_of_lt_of_le hkey hval)
    · exact (plain_readToken.bind fun _ => plain_createToken reg type _).blames _ _

/-! ## More fuel -/

theorem readValue_extends (reg : Registry σ τ δ φ) {j k : ℕ} (hjk : j ≤ k) (type : Option τ) :
    (readValue reg j type : Parser text σ (GqlValue τ)).Extends (readValue reg k type) := by
  induction j generalizing k type with
  | zero => exact spent_extends _
  | succ j ih =>
    obtain ⟨k, rfl⟩ : ∃ i, k = i + 1 := ⟨k - 1, by omega⟩
    have hle : j ≤ k := by omega
    have hmembers : ∀ {β : Type} {close : Bytes} {f g : β → Parser text σ β}
        (_ : ∀ b, (f b).Extends (g b)) (b : β),
        (membersTo close f j b).Extends (membersTo close g k b) := fun hfg b =>
      whileLt_extends (fun b => (Extends.refl _).bind fun _ => (Extends.refl _).bind fun _ =>
        Extends.ite (.refl _) ((hfg b).bind fun _ => .refl _)) hle b
    rw [readValue, readValue]
    refine (Extends.refl _).bind fun _ => (Extends.refl _).bind fun start => ?_
    refine Extends.ite (.refl _) <| Extends.dite (fun _ => .refl _) <| Extends.ite (.refl _) <|
      Extends.ite (.refl _) <| Extends.ite (.refl _) <| Extends.ite (.refl _) <|
      Extends.ite ?_ <| Extends.ite ?_ (.refl _)
    · refine (Extends.refl _).bind fun item => (Extends.refl _).bind fun _ => ?_
      refine (hmembers (fun _ => ?_) []).bind fun _ => .refl _
      exact (Extends.refl _).bind fun _ => (ih hle item).bind fun _ => .refl _
    · refine (Extends.refl _).bind fun _ => ?_
      refine (hmembers (fun _ => ?_) []).bind fun _ => .refl _
      exact (Extends.refl _).bind fun _ => (ih hle type).bind fun _ => .refl _

/-! ## A read that returns -/

/-- Once the loop is at a byte that begins no value it never ends. -/
theorem listLoop_stuck (reg : Registry σ τ δ φ) (fuel : ℕ) (item : Option τ) (k : ℕ)
    (members : List (GqlValue τ)) {s : DocState text σ} (hlt : s.cur < text.length)
    (hw : isWhite (at0 text s.cur) = false) (hc : at0 text s.cur ≠ chr '#')
    (hclose : at0 text s.cur ≠ chr ']') (hstart : startsValue (at0 text s.cur) = false) :
    ((membersTo (bytes "]") (listMember (readValue reg fuel item)) k members).run s).1 =
      .timeout := by
  induction k generalizing members s with
  | zero => rfl
  | succ k ih =>
    rw [membersTo, whileLt, run_bind, run_pos, andThen_ok]
    simp only [Nat.not_le.mpr hlt, if_false]
    rw [run_bind, run_bind, skipWhite_stay hw hc, andThen_ok, run_bind,
      show bytes "]" = [chr ']'] from rfl, accept_false hclose, andThen_ok]
    simp only [Bool.false_eq_true, if_false]
    rw [run_bind, listMember, run_bind, noteItem, run_note, andThen_ok, run_bind]
    cases fuel with
    | zero => rfl
    | succ fuel =>
      obtain ⟨v, s', hrun, hcur⟩ := readValue_stay reg fuel item
        (s := (⟨s.cur, s.le, .item s.cur :: s.log, s.user⟩ : DocState text σ)) hw hc hstart
      dsimp only at hcur
      rw [hrun]
      simp only [andThen_ok, run_pure, Bool.false_eq_true, if_false]
      exact ih (members ++ [v]) (by omega) (by rwa [hcur]) (by rwa [hcur]) (by rwa [hcur])
        (by rwa [hcur])

/-- Skipping white space before the loop changes nothing: the loop does it first. -/
theorem membersTo_skipWhite {close : Bytes} {body : β → Parser text σ β} {k n : ℕ} {b : β}
    {s s' : DocState text σ} (hs : s.cur < text.length) (hs' : s'.cur < text.length)
    (h : (skipWhite : Parser text σ ℕ).run s = (.ok n, s')) :
    (membersTo close body (k + 1) b).run s = (membersTo close body (k + 1) b).run s' := by
  obtain ⟨hw, hc⟩ := run_skipWhite h
  rw [membersTo, whileLt, run_bind, run_bind, run_pos, run_pos, andThen_ok, andThen_ok]
  simp only [Nat.not_le.mpr hs, Nat.not_le.mpr hs', if_false]
  rw [run_bind, run_bind, run_bind, run_bind, h, skipWhite_stay hw hc]
  rfl

/-- A loop over the members of a list that returns met no such byte. -/
theorem listLoop_keeps {reg : Registry σ τ δ φ} {fuel : ℕ} {item : Option τ}
    (h : (readValue reg fuel item : Parser text σ (GqlValue τ)).Keeps DocEvent.Ends) (k : ℕ)
    (members : List (GqlValue τ)) :
    (membersTo (bytes "]") (listMember (readValue reg fuel item)) k members : Parser text σ _).Keeps
      DocEvent.Ends := by
  induction k generalizing members with
  | zero => exact fun _ _ hret => absurd hret not_false
  | succ k ih =>
    intro s hs hret
    by_cases hend : text.length ≤ s.cur
    · rw [membersTo, whileLt, run_bind, run_pos, andThen_ok, if_pos hend] at *
      exact hs
    have hbody : KeepsAt DocEvent.Ends (do
        let _ ← skipWhite
        if ← accept (bytes "]") then return (true, members)
        return (false, ← listMember (readValue reg fuel item) members)) s := by
      refine KeepsAt.bind (plain_skipWhite.keeps s) fun n s₁ h₁ => ?_
      refine KeepsAt.bind ((plain_accept _).keeps s₁) fun stop s₂ h₂ => ?_
      cases stop with
      | true => exact keeps_pure _ s₂
      | false =>
        refine KeepsAt.bind (KeepsAt.bind ?_ fun _ s₃ _ => ((h.bind fun _ => keeps_pure _) s₃))
          fun _ s₃ _ => keeps_pure _ s₃
        intro hlog _ e he
        rcases List.mem_cons.mp he with rfl | he
        · -- a byte that begins no value would have kept the loop from returning
          by_contra hn
          obtain ⟨hlt, hstart⟩ := not_or.mp hn
          obtain ⟨rfl, hclose⟩ := run_accept_false (by decide) h₂
          obtain ⟨hw, hc⟩ := run_skipWhite h₁
          rw [membersTo_skipWhite (Nat.not_le.mp hend) (Nat.not_le.mp hlt) h₁,
            listLoop_stuck reg fuel item (k + 1) members (Nat.not_le.mp hlt) hw hc hclose
              (Bool.eq_false_iff.mpr hstart)] at hret
          exact hret
        · exact hlog e he
    have hrun : (membersTo (bytes "]") (listMember (readValue reg fuel item)) (k + 1) members).run s =
        ((do
          let _ ← skipWhite
          if ← accept (bytes "]") then return (true, members)
          return (false, ← listMember (readValue reg fuel item) members) : Parser text σ _) >>=
            fun r => if r.1 then pure r.2
              else membersTo (bytes "]") (listMember (readValue reg fuel item)) k r.2).run s := by
      rw [membersTo, whileLt, run_bind, run_pos, andThen_ok, if_neg hend]
      rfl
    rw [hrun] at hret ⊢
    exact (hbody.bind fun r s' _ => Keeps.ite (keeps_pure _) (ih r.2) s') hs hret

theorem readValue_keeps (reg : Registry σ τ δ φ) (fuel : ℕ) (type : Option τ) :
    (readValue reg fuel type : Parser text σ (GqlValue τ)).Keeps DocEvent.Ends := by
  induction fuel generalizing type with
  | zero => exact fun _ _ hret => absurd hret not_false
  | succ fuel ih =>
    have hobject : ∀ k b, (membersTo (bytes "\x7d") (objectMember (readValue reg fuel type)) k b :
        Parser text σ _).Keeps DocEvent.Ends := by
      intro k
      induction k with
      | zero => exact fun _ _ _ hret => absurd hret not_false
      | succ k ihk =>
        intro b
        refine plain_pos.keeps.bind fun _ => Keeps.ite (keeps_pure _) ?_
        refine Keeps.bind (plain_skipWhite.keeps.bind fun _ => (plain_accept _).keeps.bind fun _ =>
          Keeps.ite (keeps_pure _) ?_) fun r => Keeps.ite (keeps_pure _) (ihk r.2)
        exact Keeps.bind (plain_readKey.keeps.bind fun _ => (ih type).bind fun _ => keeps_pure _)
          fun _ => keeps_pure _
    rw [readValue]
    refine plain_skipWhite.keeps.bind fun _ => plain_pos.keeps.bind fun start => ?_
    refine Keeps.ite ?_ <| Keeps.dite (fun hq => ?_) <| Keeps.ite plain_readNumber.keeps <|
      Keeps.ite (plain_readWord _ _ _ _).keeps <| Keeps.ite (plain_readWord _ _ _ _).keeps <|
      Keeps.ite (plain_readWord _ _ _ _).keeps <| Keeps.ite ?_ <| Keeps.ite ?_ ?_
    · exact ((plain_accept _).bind fun _ => plain_pos.bind fun _ => plain_readToken.bind
        fun _ => plain_pos.bind fun _ => plain_pure _).keeps
    · exact (plain_readString.bind fun _ => plain_createString start hq).keeps
    · exact (plain_itemType reg type).keeps.bind fun item => (plain_accept _).keeps.bind fun _ =>
        (listLoop_keeps (ih item) fuel []).bind fun _ => keeps_pure _
    · exact (plain_accept _).keeps.bind fun _ => (hobject fuel []).bind fun _ => keeps_pure _
    · exact (plain_readToken.bind fun _ => plain_createToken reg type start).keeps

/-! ## The result -/

/-- **Reading a value returns, from every place in every text, exactly when every member of a list it
comes to begins a value or is the end of the text, and no comment or string leads past the end.** -/
theorem readValue_returns_iff (reg : Registry σ τ δ φ) (text : Bytes) (start : Pos text)
    (u : DocUser σ) (type : Option τ) :
    (∃ fuel, ((readValue reg fuel type).run ⟨start, start.2, [], u⟩).1.Returns) ↔
      ∀ fuel, ∀ e ∈ ((readValue reg fuel type).run ⟨start, start.2, [], u⟩).2.log, e.Ends := by
  constructor
  · rintro ⟨fuel, hret⟩ k e he
    have hkeeps := readValue_keeps reg fuel type ⟨start, start.2, [], u⟩ (by simp) hret
    rcases Nat.le_total fuel k with hle | hle
    · -- with more fuel the run is the same
      have hne : ((readValue reg fuel type).run ⟨start, start.2, [], u⟩).1 ≠ .timeout := by
        intro ht
        rw [ht] at hret
        exact hret
      rw [← (readValue_extends reg hle type).agree hne] at he
      exact hkeeps e he
    · rcases readValue_extends reg hle type ⟨start, start.2, [], u⟩ with heq | ⟨-, hlog⟩
      · rw [heq] at he
        exact hkeeps e he
      · exact hkeeps e (hlog.subset he)
  · intro hends
    refine ⟨text.length + 2, ?_⟩
    have hlog := hends (text.length + 2)
    have hblames := readValue_blames reg (text.length + 2) type (s := ⟨start, start.2, [], u⟩) (by dsimp only; omega)
    have hfault := (readValue reg (text.length + 2) type).fault_iff
      (s := ⟨start, start.2, [], u⟩) (by simp)
    cases hr : ((readValue reg (text.length + 2) type).run ⟨start, start.2, [], u⟩).1 with
    | ok v => trivial
    | fail => trivial
    | fault =>
      obtain ⟨e, he, hn⟩ := hfault.mp hr
      exact hn (hlog e he).fits
    | crash =>
      obtain ⟨e, he, hn⟩ := hblames (Or.inr hr)
      exact hn (hlog e he)
    | timeout =>
      obtain ⟨e, he, hn⟩ := hblames (Or.inl hr)
      exact hn (hlog e he)

/-- The read of `[)` comes back to the parenthesis for ever. -/
theorem readValue_bracket (reg : Registry σ τ δ φ) (u : DocUser σ) (fuel : ℕ) :
    ((readValue reg fuel none).run
      (⟨0, Nat.zero_le _, [], u⟩ : DocState (bytes "[)") σ)).1 = .timeout := by
  cases fuel with
  | zero => rfl
  | succ fuel =>
    have hskip : ∀ p < 2, isWhite (at0 (bytes "[)") p) = false ∧ at0 (bytes "[)") p ≠ chr '#' := by
      decide
    have hclose : at0 (bytes "[)") 1 ≠ chr ']' := by decide
    have hstart : startsValue (at0 (bytes "[)") 1) = false := by decide
    have hloop := listLoop_stuck reg fuel none fuel []
      (s := (⟨1, by decide, [], u⟩ : DocState (bytes "[)") σ)) (Nat.lt_succ_self 1)
      (hskip 1 (by decide)).1 (hskip 1 (by decide)).2 hclose hstart
    rw [run_readValue (hskip 0 (by decide)).1 (hskip 0 (by decide)).2]
    have hopen : at0 (bytes "[)") 0 = chr '[' := by decide
    rw [valueAt]
    dsimp only
    rw [if_neg (by rw [hopen]; decide), dif_neg (by rw [hopen]; decide),
      if_neg (by rw [hopen]; decide), if_neg (by rw [hopen]; decide), if_neg (by rw [hopen]; decide),
      if_neg (by rw [hopen]; decide), if_pos hopen]
    change (andThen _ ((membersTo (bytes "]") (listMember (readValue reg fuel none)) fuel []).run
      (⟨1, by decide, [], u⟩ : DocState (bytes "[)") σ))).1 = .timeout
    generalize (membersTo (bytes "]") (listMember (readValue reg fuel none)) fuel []).run
      (⟨1, by decide, [], u⟩ : DocState (bytes "[)") σ) = r at hloop
    obtain ⟨o, s'⟩ := r
    obtain rfl : o = .timeout := hloop
    rfl

/-- Not every read returns: that of `[)` does not, with any fuel. -/
theorem readValue_endless :
    ¬ ∀ (text : Bytes) (start : Pos text) (u : DocUser Unit) (type : Option Bytes),
      ∃ fuel, ((readValue nameRegistry fuel type).run ⟨start, start.2, [], u⟩).1.Returns := by
  intro h
  obtain ⟨fuel, hret⟩ := h (bytes "[)") ⟨0, Nat.zero_le _⟩ ⟨none, ()⟩ none
  rw [readValue_bracket] at hret
  exact hret

end Agoo
