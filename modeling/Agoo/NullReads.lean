import Agoo.Calm

/-!
# Null pointers in the parser of queries (`sdl_parse_doc`)

`lookup_field_type` reads through the type and the name it gets. `make_op` looks a named operation up in the
type of its kind, which the schema need not have, and `has_all_fields` the names of selections, which fragments
have none of. `null_free_iff`: when a document is read without a read through a null pointer.
-/

namespace Agoo

open Agoo.Parser Scanner

namespace NullReads

variable {text : Bytes} {σ τ δ φ α β : Type} (reg : Registry σ τ δ φ)

/-! ## Types of fields -/

variable {r : σ} {fuel : ℕ}

/-- What `lookup_field_type` finds in a type; none when the types around others nest too deep. -/
def fieldTypeOf (r : σ) : ℕ → τ → Bytes → Bool → Option (Option τ)
  | 0, _, _, _ => none
  | fuel + 1, type, field, qroot =>
    if reg.kind r type = .schema ∨ reg.kind r type = .object ∨ reg.kind r type = .input ∨
        reg.kind r type = .interface then
      match (reg.fields r type).lookup field with
      | some t => some (some t)
      | none =>
        if field = bytes "__typename" then some (some reg.stringType)
        else if qroot ∧ field = bytes "__type" then some (reg.typeGet r (bytes "__Type"))
        else if qroot ∧ field = bytes "__schema" then some (reg.typeGet r (bytes "__Schema"))
        else some none
    else if reg.kind r type = .list ∨ reg.kind r type = .nonNull then
      fieldTypeOf r fuel (reg.base r type) field false
    else some none

/-- How a lookup ends. -/
def lookedUp (s : DocState text σ) : Option (Option τ) → Outcome (Option τ) × DocState text σ
  | some o => (.ok o, s)
  | none => (.timeout, s)

theorem run_lookupFieldType (fuel : ℕ) (type : τ) (field : Bytes) (qroot : Bool) (s : DocState text σ) :
    (lookupFieldType reg fuel (some type) (some field) qroot).run s =
      lookedUp s (fieldTypeOf reg s.user.reg fuel type field qroot) := by
  induction fuel generalizing type qroot with
  | zero => rfl
  | succ fuel ih =>
    have hask {α : Type} (f : σ → α) : (askReg f : Parser text σ α).run s = (.ok (f s.user.reg), s) := rfl
    unfold lookupFieldType fieldTypeOf
    rw [run_bind, hask, andThen_ok]
    dsimp only
    split
    · rw [run_bind, hask, andThen_ok]
      cases (reg.fields s.user.reg type).lookup field with
      | some t => rfl
      | none =>
        dsimp only
        split_ifs
        all_goals rfl
    · split
      · rw [run_bind, hask, andThen_ok, ih]
      · rfl

/-- A name that is null is read in a type with fields. -/
theorem lookup_nameless {type t : τ} {field : Bytes} {qroot : Bool} {s : DocState text σ}
    (h : fieldTypeOf reg s.user.reg fuel type field qroot = some (some t)) (qroot' : Bool) :
    (lookupFieldType reg fuel (some type) none qroot').run s = (.crash, s) := by
  induction fuel generalizing type qroot qroot' with
  | zero => cases h
  | succ fuel ih =>
    have hask {α : Type} (f : σ → α) : (askReg f : Parser text σ α).run s = (.ok (f s.user.reg), s) := rfl
    unfold fieldTypeOf at h
    unfold lookupFieldType
    rw [run_bind, hask, andThen_ok]
    split at h
    · next hkind =>
      rw [if_pos hkind]
      rfl
    · next hkind =>
      rw [if_neg hkind]
      split at h
      · next hbase =>
        rw [if_pos hbase, run_bind, hask, andThen_ok]
        exact ih h false
      · cases h

/-! ## The lookups of `make_op` -/

/-- A selection without a name is reached by `has_all_fields`: those before it are fields of the type. -/
def NamelessReached (r : σ) (fuel : ℕ) (type : τ) (sels : List (GqlSel τ δ)) : Prop :=
  ∃ before sel behind, sels = before ++ sel :: behind ∧ sel.name = none ∧
    ∀ u ∈ before, ∃ name t, u.name = some name ∧ fieldTypeOf reg r fuel type name false = some (some t)

/-- A null pointer is read where `make_op` looks for the name of an operation in the type of its kind: there is
no schema, the schema has no such type, or a selection has no name. -/
inductive NullLookup (r : σ) (fuel : ℕ) (kindStr name : Bytes) (sels : List (GqlSel τ δ)) : Prop
  | noSchema (h : reg.rootType r = none)
  | noType {schema : τ} (h : reg.rootType r = some schema)
      (htype : fieldTypeOf reg r fuel schema kindStr false = some none)
  | noName {schema type t : τ} (h : reg.rootType r = some schema)
      (htype : fieldTypeOf reg r fuel schema kindStr false = some (some type))
      (hfield : fieldTypeOf reg r fuel type name false = some (some t))
      (hsel : NamelessReached reg r fuel type sels)

/-- `has_all_fields` in a type with fields. -/
theorem hasAllFields_crash {type t : τ} {name : Bytes} {s : DocState text σ} {sels : List (GqlSel τ δ)}
    (h : fieldTypeOf reg s.user.reg fuel type name false = some (some t)) :
    ((hasAllFields reg fuel (some type) sels).run s).1 = .crash ↔
      NamelessReached reg s.user.reg fuel type sels := by
  induction sels with
  | nil =>
    refine iff_of_false (fun h => by cases h) ?_
    rintro ⟨before, sel, behind, hnil, -⟩
    exact List.append_ne_nil_of_right_ne_nil before (List.cons_ne_nil sel behind) hnil.symm
  | cons sel sels ih =>
    unfold hasAllFields
    rw [run_bind]
    cases hname : sel.name with
    | none =>
      rw [lookup_nameless reg h false]
      exact iff_of_true rfl ⟨[], sel, sels, rfl, hname, fun u hu => absurd hu List.not_mem_nil⟩
    | some field =>
      rw [run_lookupFieldType]
      have hlater : NamelessReached reg s.user.reg fuel type (sel :: sels) ↔
          (∃ u, fieldTypeOf reg s.user.reg fuel type field false = some (some u)) ∧
            NamelessReached reg s.user.reg fuel type sels := by
        constructor
        · rintro ⟨before, u, behind, hsels, hu, hbefore⟩
          cases before with
          | nil =>
            obtain ⟨rfl, -⟩ := List.cons.inj hsels
            rw [hname] at hu
            cases hu
          | cons first before =>
            obtain ⟨rfl, rfl⟩ := List.cons.inj hsels
            obtain ⟨name', w, hname', hw⟩ := hbefore sel (.head _)
            rw [hname, Option.some.injEq] at hname'
            exact ⟨⟨w, hname' ▸ hw⟩, before, u, behind, rfl, hu, fun v hv => hbefore v (.tail _ hv)⟩
        · rintro ⟨⟨w, hw⟩, before, u, behind, rfl, hu, hbefore⟩
          refine ⟨sel :: before, u, behind, rfl, hu, fun v hv => ?_⟩
          rcases List.mem_cons.mp hv with rfl | hv
          · exact ⟨field, w, hname, hw⟩
          · exact hbefore v hv
      rw [hlater]
      cases hfield : fieldTypeOf reg s.user.reg fuel type field false with
      | none => exact iff_of_false (fun h => by cases h) fun h => by obtain ⟨⟨_, ⟨⟩⟩, -⟩ := h
      | some o =>
        cases o with
        | none => exact iff_of_false (fun h => by cases h) fun h => by obtain ⟨⟨_, ⟨⟩⟩, -⟩ := h
        | some w =>
          refine Iff.trans ?_ (and_iff_right ⟨w, rfl⟩).symm
          exact ih

theorem lookup_null (hfuel : fuel ≠ 0) (field : Option Bytes) (qroot : Bool) (s : DocState text σ) :
    (lookupFieldType reg fuel none field qroot).run s = (.crash, s) := by
  cases fuel with
  | zero => exact absurd rfl hfuel
  | succ fuel => rfl

/-- What `make_op` does after the selections of a named operation. -/
theorem wrapSels_crash (hfuel : fuel ≠ 0) {kindStr name : Bytes} {s : DocState text σ}
    {sels : List (GqlSel τ δ)} : ((wrapSels reg fuel kindStr name sels).run s).1 = .crash ↔
      NullLookup reg s.user.reg fuel kindStr name sels := by
  have hask {α : Type} (f : σ → α) : (askReg f : Parser text σ α).run s = (.ok (f s.user.reg), s) := rfl
  unfold wrapSels
  rw [run_bind, hask, andThen_ok]
  cases hroot : reg.rootType s.user.reg with
  | none =>
    rw [run_bind, lookup_null reg hfuel]
    exact iff_of_true rfl (.noSchema hroot)
  | some schema =>
    rw [run_bind, run_lookupFieldType]
    cases htype : fieldTypeOf reg s.user.reg fuel schema kindStr false with
    | none =>
      refine iff_of_false (fun h => by cases h) ?_
      rintro (h | ⟨h, h'⟩ | ⟨h, h', -, -⟩)
      · rw [hroot] at h
        cases h
      all_goals
        rw [hroot, Option.some.injEq] at h
        rw [← h, htype] at h'
        cases h'
    | some o =>
      rw [lookedUp, andThen_ok]
      cases o with
      | none =>
        rw [run_bind, lookup_null reg hfuel]
        exact iff_of_true rfl (.noType hroot htype)
      | some type =>
        rw [run_bind, run_lookupFieldType]
        have honly : NullLookup reg s.user.reg fuel kindStr name sels ↔
            ∃ t, fieldTypeOf reg s.user.reg fuel type name false = some (some t) ∧
              NamelessReached reg s.user.reg fuel type sels := by
          constructor
          · rintro (h | ⟨h, h'⟩ | ⟨h, h', hfield, hsel⟩)
            · rw [hroot] at h
              cases h
            all_goals
              rw [hroot, Option.some.injEq] at h
              rw [← h, htype, Option.some.injEq] at h'
            · cases h'
            · obtain rfl := Option.some.inj h'
              exact ⟨_, hfield, hsel⟩
          · rintro ⟨t, hfield, hsel⟩
            exact .noName hroot htype hfield hsel
        rw [honly]
        cases hfield : fieldTypeOf reg s.user.reg fuel type name false with
        | none => exact iff_of_false (fun h => by cases h) fun h => by obtain ⟨_, ⟨⟩, -⟩ := h
        | some o =>
          cases o with
          | none => exact iff_of_false (fun h => by cases h) fun h => by obtain ⟨_, ⟨⟩, -⟩ := h
          | some t =>
            rw [lookedUp, andThen_ok]
            dsimp only
            rw [run_bind_crash, hasAllFields_crash reg hfield]
            constructor
            · rintro (h | ⟨all, s', -, h⟩)
              · exact ⟨t, rfl, h⟩
              · cases all with
                | true => cases h
                | false => cases h
            · rintro ⟨-, -, h⟩
              exact .inl h

/-! ## Operations -/

/-- What `make_op` has read when it comes to the end of the selections. -/
structure OpHead (τ δ : Type) where
  kind : GqlOpKind
  kindStr : Bytes
  name : Bytes
  vars : List (GqlVar τ)
  dir : List (DirUse τ δ)
  sels : List (GqlSel τ δ)

/-- `make_op` up to there. -/
def opHead (fuel : ℕ) (vars : List (GqlVar τ)) (kind : GqlOpKind) : Parser text σ (OpHead τ δ) := do
  let _ ← skipWhite
  let (kind, kindStr) ← opKind kind
  let _ ← skipWhite
  let start ← Scanner.pos
  readToken
  let name ← since start
  require (name.length < 256) (bytes "Name too long")
  let _ ← skipWhite
  let opVars ← opVars reg fuel
  let use ← extractDirUse reg fuel
  expect (bytes "\x7b") (bytes "Expected a \x7b")
  let sels ← selsTo (makeSel reg vars (some opVars) fuel false) fuel
  return ⟨kind, kindStr, name, opVars, use.toList, sels⟩

/-- The rest of `make_op`. -/
def opOf (fuel : ℕ) (head : OpHead τ δ) : Parser text σ (GqlOp τ δ) := do
  if head.name = [] then return ⟨none, head.vars, head.dir, head.sels, head.kind⟩
  return ⟨some head.name, head.vars, head.dir, ← wrapSels reg fuel head.kindStr head.name head.sels, head.kind⟩

theorem makeOp_eq (fuel : ℕ) (vars : List (GqlVar τ)) (kind : GqlOpKind) :
    (makeOp reg fuel vars kind : Parser text σ (GqlOp τ δ)) = opHead reg fuel vars kind >>= opOf reg fuel := by
  unfold makeOp opHead
  simp only [Scanner.bind_assoc, Scanner.pure_bind]
  rfl

theorem calm_opKind (kind : GqlOpKind) : (opKind kind : Parser text σ (GqlOpKind × Bytes)).Calm :=
  calm_pos.bind fun start => calm_readToken.bind fun _ => (calm_since start).bind fun _ =>
    Calm.ite (calm_pure _) <| Calm.ite (calm_pure _) <| Calm.ite (calm_pure _) <|
      Calm.ite (calm_pure _) (calm_docErr _)

theorem calm_opVars (fuel : ℕ) : (opVars reg fuel : Parser text σ (List (GqlVar τ))).Calm :=
  (calm_accept _).bind fun _ => Calm.ite
    ((calm_membersTo (fun _ => (calm_makeOpVar reg fuel).bind fun _ => calm_pure _) fuel []).bind fun _ =>
      calm_skipWhite.bind fun _ => calm_pure _) (calm_pure _)

theorem calm_opHead (fuel : ℕ) (vars : List (GqlVar τ)) (kind : GqlOpKind) :
    (opHead reg fuel vars kind : Parser text σ (OpHead τ δ)).Calm :=
  calm_skipWhite.bind fun _ => (calm_opKind kind).bind fun _ => calm_skipWhite.bind fun _ =>
    calm_pos.bind fun start => calm_readToken.bind fun _ => (calm_since start).bind fun _ =>
      (calm_require _ _).bind fun _ => calm_skipWhite.bind fun _ => (calm_opVars reg fuel).bind fun _ =>
        (calm_extractDirUse reg fuel).bind fun _ => (calm_expect _ _).bind fun _ =>
          (calm_selsTo (calm_makeSel reg vars _ fuel false) fuel).bind fun _ => calm_pure _

/-- Without fuel no selections are read. -/
theorem opHead_fuel {vars : List (GqlVar τ)} {kind : GqlOpKind} {s s' : DocState text σ} {head : OpHead τ δ}
    (h : (opHead reg fuel vars kind).run s = (.ok head, s')) : fuel ≠ 0 := by
  rintro rfl
  have hsels (vars' : List (GqlVar τ)) :
      (selsTo (makeSel reg vars (some vars') 0 false) 0 : Parser text σ (List (GqlSel τ δ))).Valueless :=
    valueless_bind_left fun _ _ _ h => by cases h
  have hhead : (opHead reg 0 vars kind : Parser text σ (OpHead τ δ)).Valueless :=
    valueless_bind fun _ => valueless_bind fun _ => valueless_bind fun _ => valueless_bind fun _ =>
      valueless_bind fun _ => valueless_bind fun _ => valueless_bind fun _ => valueless_bind fun _ =>
        valueless_bind fun _ => valueless_bind fun _ => valueless_bind fun _ => valueless_bind_left (hsels _)
  exact hhead s head s' h

theorem makeOp_crash {vars : List (GqlVar τ)} {kind : GqlOpKind} {s : DocState text σ} :
    ((makeOp reg fuel vars kind).run s).1 = .crash ↔
      ∃ head s', (opHead reg fuel vars kind).run s = (.ok head, s') ∧ head.name ≠ [] ∧
        NullLookup reg s'.user.reg fuel head.kindStr head.name head.sels := by
  rw [makeOp_eq, (calm_opHead reg fuel vars kind).bind_crash]
  refine exists_congr fun head => exists_congr fun s' => and_congr_right fun hrun => ?_
  unfold opOf
  by_cases hname : head.name = []
  · rw [if_pos hname]
    exact iff_of_false (fun h => by cases h) fun h => h.1 hname
  · rw [if_neg hname, calm_bind_crash fun _ => calm_pure _, wrapSels_crash reg (opHead_fuel reg hrun)]
    exact (and_iff_right hname).symm

/-! ## Types of selections -/

/-- `sel_set_type` finds the type of each field that is selected. -/
def Typed (r : σ) : ℕ → Option τ → List (GqlSel τ δ) → Bool → Prop
  | 0, _, _, _ => False
  | _ + 1, _, [], _ => True
  | fuel + 1, type, .mk _ none _ _ _ sels inline on _ inlineSels :: rest, qroot =>
    (inline = true → Typed r fuel (on.or type) inlineSels false) ∧ Typed r fuel type sels false ∧
      Typed r fuel type rest qroot
  | fuel + 1, type, .mk _ (some field) _ _ _ sels _ _ _ _ :: rest, qroot =>
    ∃ t u, type = some t ∧ fieldTypeOf reg r fuel t field qroot = some (some u) ∧
      Typed r fuel (some u) sels false ∧ Typed r fuel type rest qroot

/-- Selections in a fragment without a type, where a field is reached: `sel_set_type` looks for it in the null
type. Inside an inline fragment with a type there is one. -/
def NullRead (r : σ) : ℕ → List (GqlSel τ δ) → Prop
  | 0, _ => False
  | _ + 1, [] => False
  | fuel + 1, .mk _ none _ _ _ sels inline on _ inlineSels :: rest =>
    inline = true ∧ on = none ∧ NullRead r fuel inlineSels ∨
      (inline = true → Typed reg r fuel on inlineSels false) ∧
        (NullRead r fuel sels ∨ Typed reg r fuel none sels false ∧ NullRead r fuel rest)
  | fuel + 1, .mk _ (some _) _ _ _ _ _ _ _ _ :: _ => fuel ≠ 0

theorem selType_ok {type o : Option τ} {field : Bytes} {qroot : Bool} {s s' : DocState text σ} :
    (selType reg fuel type field qroot).run s = (.ok o, s') ↔ s' = s ∧ ∃ t u, type = some t ∧
      fieldTypeOf reg s.user.reg fuel t field qroot = some (some u) ∧ o = some u := by
  unfold selType
  cases type with
  | none =>
    refine iff_of_false ?_ fun h => by obtain ⟨-, _, _, ⟨⟩, -⟩ := h
    intro h
    obtain ⟨_, _, hlookup, -⟩ := run_bind_ok h
    cases fuel with
    | zero => cases hlookup
    | succ fuel => cases hlookup
  | some t =>
    rw [run_bind, run_lookupFieldType]
    cases hfield : fieldTypeOf reg s.user.reg fuel t field qroot with
    | none =>
      refine iff_of_false (fun h => by cases h) ?_
      rintro ⟨-, _, _, ⟨⟩, h, -⟩
      rw [hfield] at h
      cases h
    | some found =>
      cases found with
      | none =>
        refine iff_of_false (fun h => by cases h) ?_
        rintro ⟨-, _, _, ⟨⟩, h, -⟩
        rw [hfield] at h
        cases h
      | some u =>
        constructor
        · rintro ⟨⟩
          exact ⟨rfl, t, u, rfl, hfield, rfl⟩
        · rintro ⟨rfl, _, w, ⟨⟩, h, rfl⟩
          rw [hfield, Option.some.injEq, Option.some.injEq] at h
          rw [h]
          rfl

theorem selType_crash {type : Option τ} {field : Bytes} {qroot : Bool} {s : DocState text σ} :
    ((selType reg fuel type field qroot).run s).1 = .crash ↔ type = none ∧ fuel ≠ 0 := by
  unfold selType
  cases type with
  | none =>
    cases fuel with
    | zero => exact iff_of_false (fun h => by cases h) fun h => h.2 rfl
    | succ fuel => exact iff_of_true rfl ⟨rfl, Nat.succ_ne_zero fuel⟩
  | some t =>
    refine iff_of_false ?_ fun h => by cases h.1
    rw [run_bind, run_lookupFieldType]
    cases fieldTypeOf reg s.user.reg fuel t field qroot with
    | none => exact fun h => by cases h
    | some found =>
      cases found with
      | none => exact fun h => by cases h
      | some u => exact fun h => by cases h

/-- A run of `sel_set_type` that ends well found all types, and changed nothing. -/
theorem selSetType_ok {type : Option τ} {sels : List (GqlSel τ δ)} {qroot : Bool} {s s' : DocState text σ} :
    (selSetType reg fuel type sels qroot).run s = (.ok (), s') ↔
      s' = s ∧ Typed reg s.user.reg fuel type sels qroot := by
  induction fuel generalizing type sels qroot s s' with
  | zero => exact iff_of_false (fun h => by cases h) fun h => h.2
  | succ fuel ih =>
    have hbind {α : Type} {p : Parser text σ α} {f : α → Parser text σ Unit} {s s' : DocState text σ} :
        (p >>= f).run s = (.ok (), s') ↔ ∃ a s₁, p.run s = (.ok a, s₁) ∧ (f a).run s₁ = (.ok (), s') := by
      refine ⟨run_bind_ok, ?_⟩
      rintro ⟨a, s₁, hp, hf⟩
      rw [run_bind, hp, andThen_ok, hf]
    -- two calls that follow each other
    have htwo {t₁ t₂ : Option τ} {sels₁ sels₂ : List (GqlSel τ δ)} {q : Bool} {s s' : DocState text σ} :
        (selSetType reg fuel t₁ sels₁ false >>= fun _ => selSetType reg fuel t₂ sels₂ q).run s = (.ok (), s') ↔
          s' = s ∧ Typed reg s.user.reg fuel t₁ sels₁ false ∧ Typed reg s.user.reg fuel t₂ sels₂ q := by
      rw [hbind]
      constructor
      · rintro ⟨_, s₁, h₁, h₂⟩
        obtain ⟨rfl, h₁⟩ := ih.mp h₁
        obtain ⟨rfl, h₂⟩ := ih.mp h₂
        exact ⟨rfl, h₁, h₂⟩
      · rintro ⟨rfl, h₁, h₂⟩
        exact ⟨(), _, ih.mpr ⟨rfl, h₁⟩, ih.mpr ⟨rfl, h₂⟩⟩
    cases sels with
    | nil =>
      constructor
      · rintro ⟨⟩
        exact ⟨rfl, trivial⟩
      · rintro ⟨rfl, -⟩
        rfl
    | cons sel rest =>
      obtain ⟨selAlias, name, frag, dir, args, inner, inline, on, inlineDir, inlineSels⟩ := sel
      cases name with
      | none =>
        unfold selSetType Typed
        cases inline with
        | false => simpa using htwo
        | true =>
          simp only [if_true, forall_true_left]
          rw [hbind]
          constructor
          · rintro ⟨_, s₁, h₁, h₂⟩
            obtain ⟨rfl, h₁⟩ := ih.mp h₁
            obtain ⟨rfl, h₂⟩ := htwo.mp h₂
            exact ⟨rfl, h₁, h₂⟩
          · rintro ⟨rfl, h₁, h₂⟩
            exact ⟨(), _, ih.mpr ⟨rfl, h₁⟩, htwo.mpr ⟨rfl, h₂⟩⟩
      | some field =>
        unfold selSetType Typed
        rw [hbind]
        constructor
        · rintro ⟨o, s₁, h₁, h₂⟩
          obtain ⟨rfl, t, u, rfl, hu, rfl⟩ := (selType_ok reg).mp h₁
          obtain ⟨rfl, h₂⟩ := htwo.mp h₂
          exact ⟨rfl, t, u, rfl, hu, h₂⟩
        · rintro ⟨rfl, t, u, rfl, hu, h₂⟩
          exact ⟨some u, _, (selType_ok reg).mpr ⟨rfl, t, u, rfl, hu, rfl⟩, htwo.mpr ⟨rfl, h₂⟩⟩

/-- With a type no null pointer is read. -/
theorem calm_selSetType (type : τ) (sels : List (GqlSel τ δ)) (qroot : Bool) :
    (selSetType reg fuel (some type) sels qroot : Parser text σ Unit).Calm := by
  induction fuel generalizing type sels qroot with
  | zero => exact calm_spent
  | succ fuel ih =>
    cases sels with
    | nil => exact calm_pure ()
    | cons sel rest =>
      obtain ⟨selAlias, name, frag, dir, args, inner, inline, on, inlineDir, inlineSels⟩ := sel
      cases name with
      | none =>
        unfold selSetType
        obtain ⟨t, ht⟩ : ∃ t, on.or (some type) = some t := by
          cases on with
          | none => exact ⟨type, rfl⟩
          | some t => exact ⟨t, rfl⟩
        rw [ht]
        have hrest := (ih type inner false).bind fun _ => ih type rest qroot
        cases inline with
        | false => exact hrest
        | true => exact (ih t inlineSels false).bind fun _ => hrest
      | some field =>
        unfold selSetType
        intro s hs
        rcases run_bind_crash.mp hs with hs | ⟨o, s', hrun, hs⟩
        · cases ((selType_crash reg).mp hs).1
        · obtain ⟨-, t, u, -, -, rfl⟩ := (selType_ok reg).mp hrun
          exact ((ih u inner false).bind fun _ => ih type rest qroot) s' hs

/-- Without one, it is where a field is reached. -/
theorem selSetType_crash {sels : List (GqlSel τ δ)} {qroot : Bool} {s : DocState text σ} :
    ((selSetType reg fuel none sels qroot).run s).1 = .crash ↔ NullRead reg s.user.reg fuel sels := by
  induction fuel generalizing sels qroot s with
  | zero => exact iff_of_false (fun h => by cases h) not_false
  | succ fuel ih =>
    have htwo {sels₁ sels₂ : List (GqlSel τ δ)} {q : Bool} {s : DocState text σ} :
        ((selSetType reg fuel none sels₁ false >>= fun _ => selSetType reg fuel none sels₂ q).run s).1 = .crash ↔
          NullRead reg s.user.reg fuel sels₁ ∨
            Typed reg s.user.reg fuel none sels₁ false ∧ NullRead reg s.user.reg fuel sels₂ := by
      rw [run_bind_crash, ih]
      refine or_congr_right ?_
      constructor
      · rintro ⟨_, s₁, h₁, h₂⟩
        obtain ⟨rfl, h₁⟩ := (selSetType_ok reg).mp h₁
        exact ⟨h₁, ih.mp h₂⟩
      · rintro ⟨h₁, h₂⟩
        exact ⟨(), _, (selSetType_ok reg).mpr ⟨rfl, h₁⟩, ih.mpr h₂⟩
    cases sels with
    | nil => exact iff_of_false (fun h => by cases h) not_false
    | cons sel rest =>
      obtain ⟨selAlias, name, frag, dir, args, inner, inline, on, inlineDir, inlineSels⟩ := sel
      cases name with
      | none =>
        unfold selSetType NullRead
        cases inline with
        | false => simpa using htwo
        | true =>
          simp only [if_true, forall_true_left, true_and]
          rw [run_bind_crash, Option.or_none]
          refine or_congr ?_ ?_
          · cases on with
            | none => exact ih.trans (and_iff_right rfl).symm
            | some t => exact iff_of_false (calm_selSetType reg t inlineSels false s) fun h => by cases h.1
          · constructor
            · rintro ⟨_, s₁, h₁, h₂⟩
              obtain ⟨rfl, h₁⟩ := (selSetType_ok reg).mp h₁
              exact ⟨h₁, htwo.mp h₂⟩
            · rintro ⟨h₁, h₂⟩
              exact ⟨(), _, (selSetType_ok reg).mpr ⟨rfl, h₁⟩, htwo.mpr h₂⟩
      | some field =>
        unfold selSetType NullRead
        rw [run_bind_crash]
        constructor
        · rintro (h | ⟨o, s', h, -⟩)
          · exact ((selType_crash reg).mp h).2
          · obtain ⟨-, _, _, ⟨⟩, -⟩ := (selType_ok reg).mp h
        · intro h
          exact .inl ((selType_crash reg).mpr ⟨rfl, h⟩)

/-! ## Documents -/

/-- A fragment without a type is reached in which one is read; the fragments before it have all their types. -/
def NullFragment (r : σ) (fuel : ℕ) (doc : GqlDoc τ δ) : Prop :=
  (∃ schema, reg.rootType r = some schema) ∧ ∃ before frag behind, doc.frags = before ++ frag :: behind ∧
    (∀ f ∈ before, Typed reg r fuel f.on f.sels false) ∧ frag.on = none ∧ NullRead reg r fuel frag.sels

theorem calm_forM {f : α → Parser text σ Unit} (h : ∀ a, (f a).Calm) : ∀ as : List α, (as.forM f).Calm
  | [] => calm_pure ()
  | a :: as => (h a).bind fun _ => calm_forM h as

theorem frags_crash {frags : List (GqlFrag τ δ)} {s : DocState text σ} :
    ((frags.forM fun frag => selSetType reg fuel frag.on frag.sels false).run s).1 = .crash ↔
      ∃ before frag behind, frags = before ++ frag :: behind ∧
        (∀ f ∈ before, Typed reg s.user.reg fuel f.on f.sels false) ∧ frag.on = none ∧
          NullRead reg s.user.reg fuel frag.sels := by
  induction frags with
  | nil =>
    refine iff_of_false (fun h => by cases h) ?_
    rintro ⟨before, frag, behind, hnil, -⟩
    exact List.append_ne_nil_of_right_ne_nil before (List.cons_ne_nil frag behind) hnil.symm
  | cons frag frags ih =>
    unfold List.forM
    rw [run_bind_crash]
    constructor
    · rintro (h | ⟨_, s₁, h₁, h₂⟩)
      · cases hon : frag.on with
        | none =>
          rw [hon] at h
          exact ⟨[], frag, frags, rfl, fun f hf => absurd hf List.not_mem_nil, hon, (selSetType_crash reg).mp h⟩
        | some t =>
          rw [hon] at h
          exact absurd h (calm_selSetType reg t frag.sels false s)
      · obtain ⟨rfl, h₁⟩ := (selSetType_ok reg).mp h₁
        obtain ⟨before, f, behind, rfl, hbefore, hf⟩ := ih.mp h₂
        exact ⟨frag :: before, f, behind, rfl, List.forall_mem_cons.mpr ⟨h₁, hbefore⟩, hf⟩
    · rintro ⟨before, f, behind, hfrags, hbefore, hon, hread⟩
      cases before with
      | nil =>
        obtain ⟨rfl, rfl⟩ := List.cons.inj hfrags
        left
        rw [hon]
        exact (selSetType_crash reg).mpr hread
      | cons first before =>
        obtain ⟨rfl, rfl⟩ := List.cons.inj hfrags
        obtain ⟨hfirst, hbefore⟩ := List.forall_mem_cons.mp hbefore
        exact .inr ⟨(), s, (selSetType_ok reg).mpr ⟨rfl, hfirst⟩,
          ih.mpr ⟨before, f, behind, rfl, hbefore, hon, hread⟩⟩

theorem calm_checkNames (unnamed : Bool) (ops : List (GqlOp τ δ)) :
    (checkNames unnamed ops : Parser text σ Unit).Calm := by
  induction ops generalizing unnamed with
  | nil => exact calm_pure ()
  | cons op ops ih =>
    unfold checkNames
    cases op.name with
    | none => exact Calm.ite (calm_abort _) (ih true)
    | some name => exact Calm.ite (calm_abort _) (ih unnamed)

theorem calm_opSetType (fuel : ℕ) (schema : τ) (op : GqlOp τ δ) :
    (opSetType reg fuel schema op : Parser text σ Unit).Calm := by
  have hlookup : (lookupFieldType reg fuel (some schema) (some op.kind.str) false :
      Parser text σ (Option τ)).Calm := by
    intro s hs
    rw [run_lookupFieldType] at hs
    cases hfield : fieldTypeOf reg s.user.reg fuel schema op.kind.str false with
    | none =>
      rw [hfield] at hs
      cases hs
    | some o =>
      rw [hfield] at hs
      cases hs
  refine hlookup.bind fun o => ?_
  cases o with
  | none => exact calm_abort _
  | some type => exact calm_selSetType reg type op.sels _

theorem validateDoc_crash {doc : GqlDoc τ δ} {s : DocState text σ} :
    ((validateDoc reg fuel doc).run s).1 = .crash ↔ NullFragment reg s.user.reg fuel doc := by
  have hask {α : Type} (f : σ → α) : (askReg f : Parser text σ α).run s = (.ok (f s.user.reg), s) := rfl
  unfold validateDoc NullFragment
  rw [run_bind, hask, andThen_ok]
  cases hroot : reg.rootType s.user.reg with
  | none => exact iff_of_false (fun h => by cases h) fun h => by obtain ⟨⟨_, ⟨⟩⟩, -⟩ := h
  | some schema =>
    have hrest : (checkNames false doc.ops >>= fun _ => doc.ops.forM (opSetType reg fuel schema) :
        Parser text σ Unit).Calm :=
      (calm_checkNames false doc.ops).bind fun _ => calm_forM (calm_opSetType reg fuel schema) doc.ops
    dsimp only
    rw [calm_bind_crash fun _ => hrest, frags_crash]
    exact (and_iff_right ⟨schema, rfl⟩).symm

/-- In a round of `sdl_parse_doc` an operation is read, up to the end of its selections. -/
def ReadsOp (fuel : ℕ) (kind : GqlOpKind) (doc : GqlDoc τ δ) (s : DocState text σ) (head : OpHead τ δ)
    (s' : DocState text σ) : Prop :=
  ∃ s₁, (nextToken : Parser text σ Unit).run s = (.ok (), s₁) ∧ s₁.cur < text.length ∧
    (at0 text s₁.cur = chr '{' ∨ at0 text s₁.cur = chr 'q' ∨ at0 text s₁.cur = chr 'm' ∨
      at0 text s₁.cur = chr 's') ∧ (opHead reg fuel doc.vars kind).run s₁ = (.ok head, s')

theorem docMember_crash {kind : GqlOpKind} {doc : GqlDoc τ δ} {s : DocState text σ} :
    ((docMember reg fuel kind doc).run s).1 = .crash ↔ ∃ head s', ReadsOp reg fuel kind doc s head s' ∧
      head.name ≠ [] ∧ NullLookup reg s'.user.reg fuel head.kindStr head.name head.sels := by
  have hpeek (s : DocState text σ) : (peek : Parser text σ Byte).run s = (.ok (at0 text s.cur), s) := rfl
  have hnext : (nextToken : Parser text σ Unit).Calm := calm_skipWhite.bind fun _ => calm_pure ()
  -- what a round does where it has come to a token
  have hround (s₁ : DocState text σ) : ((do
      let cur ← Scanner.pos
      let c ← peek
      if text.length ≤ cur.1 then
        return (true, doc)
      else if c = chr '{' ∨ c = chr 'q' ∨ c = chr 'm' ∨ c = chr 's' then
        let op ← makeOp reg fuel doc.vars kind
        return (false, { doc with ops := doc.ops ++ [op] })
      else if c = chr 'f' then
        let frag ← makeFragment reg fuel doc.vars
        return (false, { doc with frags := doc.frags ++ [frag] })
      else if c = 0 then
        return (true, doc)
      else
        docErr (bytes "unexpected character") : Parser text σ (Bool × GqlDoc τ δ)).run s₁).1 = .crash ↔
      s₁.cur < text.length ∧ (at0 text s₁.cur = chr '{' ∨ at0 text s₁.cur = chr 'q' ∨
        at0 text s₁.cur = chr 'm' ∨ at0 text s₁.cur = chr 's') ∧
          ((makeOp reg fuel doc.vars kind).run s₁).1 = .crash := by
    rw [run_bind, run_pos, andThen_ok, run_bind, hpeek, andThen_ok]
    by_cases hend : text.length ≤ s₁.cur
    · rw [if_pos hend]
      exact iff_of_false (fun h => by cases h) fun h => absurd hend (Nat.not_le.mpr h.1)
    · rw [if_neg hend, and_iff_right (Nat.not_le.mp hend)]
      by_cases hop : at0 text s₁.cur = chr '{' ∨ at0 text s₁.cur = chr 'q' ∨ at0 text s₁.cur = chr 'm' ∨
          at0 text s₁.cur = chr 's'
      · rw [if_pos hop, calm_bind_crash fun _ => calm_pure _, and_iff_right hop]
      · rw [if_neg hop]
        refine iff_of_false ?_ fun h => hop h.1
        exact Calm.ite ((calm_makeFragment reg fuel doc.vars).bind fun _ => calm_pure _)
          (Calm.ite (calm_pure _) (calm_docErr _)) s₁
  unfold docMember
  rw [hnext.bind_crash]
  simp only [hround, makeOp_crash, ReadsOp]
  constructor
  · rintro ⟨_, s₁, hrun, hin, hc, head, s', hhead, h⟩
    exact ⟨head, s', ⟨s₁, hrun, hin, hc, hhead⟩, h⟩
  · rintro ⟨head, s', ⟨s₁, hrun, hin, hc, hhead⟩, h⟩
    exact ⟨(), s₁, hrun, hin, hc, head, s', hhead, h⟩

/-- A null pointer is read: after some rounds, for a named operation; or for a fragment, after all of them. -/
inductive NullReached (fuel : ℕ) (vars : List (GqlVar τ)) (kind : GqlOpKind) (s : DocState text σ) : Prop
  | operation {j : ℕ} {doc : GqlDoc τ δ} {s₁ s₂ : DocState text σ} {head : OpHead τ δ} (hj : j < fuel)
      (hrounds : Rounds (docMember reg fuel kind) ⟨[], vars, []⟩ s j doc s₁) (hin : s₁.cur < text.length)
      (hop : ReadsOp reg fuel kind doc s₁ head s₂) (hname : head.name ≠ [])
      (h : NullLookup reg s₂.user.reg fuel head.kindStr head.name head.sels)
  | fragment {doc : GqlDoc τ δ} {s₁ : DocState text σ}
      (hread : (whileLt (docMember reg fuel kind) fuel ⟨[], vars, []⟩).run s = (.ok doc, s₁))
      (h : NullFragment reg s₁.user.reg fuel doc)

/-- `sdl_parse_doc` follows no null pointer. -/
def NullFree (fuel : ℕ) (vars : List (GqlVar τ)) (kind : GqlOpKind) (s : DocState text σ) : Prop :=
  ((sdlParseDoc reg fuel vars kind).run s).1 ≠ .crash

theorem null_free_iff (fuel : ℕ) (vars : List (GqlVar τ)) (kind : GqlOpKind) (s : DocState text σ) :
    NullFree reg fuel vars kind s ↔ ¬ NullReached reg fuel vars kind s := by
  refine not_congr ?_
  unfold sdlParseDoc
  rw [run_bind_crash, whileLt_crash]
  simp only [calm_bind_crash fun _ => calm_pure _, validateDoc_crash, docMember_crash]
  constructor
  · rintro (⟨j, hj, doc, s₁, hrounds, hin, head, s₂, hop, hname, h⟩ | ⟨doc, s₁, hread, h⟩)
    · exact .operation hj hrounds hin hop hname h
    · exact .fragment hread h
  · rintro (⟨hj, hrounds, hin, hop, hname, h⟩ | ⟨hread, h⟩)
    · exact .inl ⟨_, hj, _, _, hrounds, hin, _, _, hop, hname, h⟩
    · exact .inr ⟨_, _, hread, h⟩

/-- A schema with queries only. -/
def queryOnly : Registry Unit Bytes Bytes Unit where
  __ := nameRegistry
  kind _ t := if t = bytes "schema" then .schema else .object
  fields _ t := if t = bytes "schema" then [(bytes "query", bytes "Query")] else [(bytes "a", bytes "String")]
  rootType _ := some (bytes "schema")

/-- A mutation with a name. -/
def mutationText : Bytes := bytes "mutation M{a}"

theorem mutation_null :
    ¬ NullFree queryOnly 20 [] .query (⟨0, Nat.zero_le _, [], ⟨none, ()⟩⟩ : DocState mutationText Unit) := by
  intro h
  exact h rfl

end NullReads

end Agoo
