import Agoo.DocFrame
import Agoo.DocTermination
import Agoo.GqlInit
import Agoo.SdlDoc

/-!
# Values of variables

An argument in an operation is bound to a variable when it is read: to the operation's, if that has a
default value, and else to the one of the request. A directive looks its variable up when it is
evaluated: in the operation first, with a default value or without, and then in the request. In a
fragment an argument is read as the name of a variable and bound to none.

`consistent_iff`: when each use of a variable has the value of the request, or else the default. Values
are those before the evaluation converts any in its place.
-/

namespace Agoo

open Agoo.Parser Scanner

variable {text : Bytes} {σ τ δ φ α β : Type}

/-! ## Results of readers -/

/-- A run of `p` that ends with a value ends with one that has `Q`. -/
def Returns (Q : α → Prop) (p : Parser text σ α) : Prop :=
  Triple (fun _ => True) p (fun a _ => Q a) fun _ => True

theorem returns_any (p : Parser text σ α) : Returns (fun _ => True) p := by
  intro s _
  generalize p.run s = r
  obtain ⟨o, s'⟩ := r
  cases o with
  | ok a => trivial
  | fail => trivial
  | fault => trivial
  | crash => trivial
  | timeout => trivial

theorem returns_pure {Q : α → Prop} {a : α} (h : Q a) : Returns Q (pure a : Parser text σ α) :=
  triple_pure fun _ _ => h

theorem Returns.bind {R : α → Prop} {Q : β → Prop} {p : Parser text σ α} {f : α → Parser text σ β}
    (h : Returns R p) (hf : ∀ a, R a → Returns Q (f a)) : Returns Q (p >>= f) :=
  Triple.bind h fun a s ha => hf a ha s trivial

theorem Returns.after {Q : β → Prop} {p : Parser text σ α} {f : α → Parser text σ β}
    (hf : ∀ a, Returns Q (f a)) : Returns Q (p >>= f) :=
  Returns.bind (returns_any p) fun a _ => hf a

theorem Returns.ite {Q : α → Prop} {c : Prop} [Decidable c] {p q : Parser text σ α}
    (h : Returns Q p) (h' : Returns Q q) : Returns Q (if c then p else q) :=
  Triple.ite (fun _ => h) fun _ => h'

theorem returns_docErr {Q : α → Prop} (msg : Bytes) : Returns Q (docErr msg : Parser text σ α) :=
  fun _ _ => trivial

theorem returns_spent {Q : α → Prop} : Returns Q (spent : Parser text σ α) := fun _ _ => trivial

theorem Returns.mono {Q Q' : α → Prop} {p : Parser text σ α} (h : Returns Q p)
    (hQ : ∀ a, Q a → Q' a) : Returns Q' p :=
  Triple.mono h (fun _ hs => hs) (fun a _ ha => hQ a ha) fun _ hs => hs

/-- A loop that keeps `Q`. -/
theorem returns_whileLt {Q : β → Prop} {body : β → Parser text σ (Bool × β)}
    (h : ∀ b, Q b → Returns (fun r => Q r.2) (body b)) (k : ℕ) {b : β} (hb : Q b) :
    Returns Q (whileLt body k b) := by
  refine Triple.mono (triple_whileLt (I := fun b _ => Q b) (fun b s hs => ?_) (fun _ _ h _ => h)
    (fun _ _ _ => trivial) k b) (fun _ _ => hb) (fun _ _ h => h) fun _ h => h
  refine (h b hs.1 s trivial).mono (fun r _ hr => ?_) fun _ h => h
  split
  · exact hr
  · exact hr

theorem returns_membersTo {Q : β → Prop} {close : Bytes} {body : β → Parser text σ β}
    (h : ∀ b, Q b → Returns Q (body b)) (fuel : ℕ) {b : β} (hb : Q b) :
    Returns Q (membersTo close body fuel b) :=
  returns_whileLt (fun b hb => Returns.after fun _ => Returns.after fun _ =>
    Returns.ite (returns_pure hb) (Returns.bind (h b hb) fun _ ha => returns_pure ha)) fuel hb

/-- Members that are put at the end of a list. -/
theorem returns_collected {Q : α → Prop} {close : Bytes} {make : Parser text σ α}
    (h : Returns Q make) (fuel : ℕ) :
    Returns (fun xs => ∀ x ∈ xs, Q x)
      (membersTo close (fun xs => do return xs ++ [← make]) fuel [] : Parser text σ (List α)) := by
  refine returns_membersTo (fun xs hxs => Returns.bind h fun x hx => returns_pure ?_) fuel
    (List.forall_mem_nil _)
  intro y hy
  rcases List.mem_append.mp hy with hy | hy
  · exact hxs y hy
  · rw [List.mem_singleton.mp hy]
    exact hx

/-! ## Values that are no variables -/

/-- The value is no name of a variable. -/
def NoVar (v : GqlValue τ) : Prop := ∀ name, v ≠ .var name

theorem returns_readNumber : Returns NoVar (readNumber : Parser text σ (GqlValue τ)) := by
  have hint : ∀ neg i, NoVar (intValue neg i : GqlValue τ) := by
    intro neg i name
    unfold intValue
    dsimp only
    split
    · nofun
    · nofun
  refine Returns.after fun neg => Returns.after fun r => Returns.after fun point =>
    Returns.ite ?_ (returns_pure (hint _ _))
  exact Returns.after fun r => Returns.after fun exp =>
    Returns.ite (returns_pure nofun) (returns_pure (hint _ _))

theorem returns_createToken (reg : Registry σ τ δ φ) (type : Option τ) (start : Pos text) :
    Returns NoVar (createToken reg type start : Parser text σ (GqlValue τ)) :=
  Returns.after fun _ => fun _ _ => nofun

theorem returns_readWord (reg : Registry σ τ δ φ) (type : Option τ) (lit : Bytes) {value : GqlValue τ}
    (h : NoVar value) : Returns NoVar (readWord reg type lit value : Parser text σ (GqlValue τ)) :=
  Returns.after fun start => Returns.after fun _ => Returns.after fun _ =>
    Returns.ite (returns_pure h) (returns_createToken reg type start)

/-- Only a dollar sign begins a variable. -/
theorem returns_valueAt (reg : Registry σ τ δ φ) (read : Option τ → Parser text σ (GqlValue τ))
    (fuel : ℕ) (type : Option τ) {start : Pos text} (h : at0 text start ≠ chr '$') :
    Returns NoVar (valueAt reg read fuel type start) := by
  unfold valueAt
  dsimp only
  rw [if_neg h]
  split
  · exact Returns.after fun _ => Returns.after fun _ => Returns.after fun _ =>
      returns_pure (by rintro _ ⟨⟩)
  refine Returns.ite returns_readNumber <| Returns.ite (returns_readWord _ _ _ ?_)
    <| Returns.ite (returns_readWord _ _ _ ?_) <| Returns.ite (returns_readWord _ _ _ ?_)
    <| Returns.ite ?_ <| Returns.ite ?_ ?_
  · rintro _ ⟨⟩
  · rintro _ ⟨⟩
  · rintro _ ⟨⟩
  · exact Returns.after fun _ => Returns.after fun _ => Returns.after fun _ =>
      returns_pure (by rintro _ ⟨⟩)
  · exact Returns.after fun _ => Returns.after fun _ => returns_pure (by rintro _ ⟨⟩)
  · exact Returns.after fun _ => returns_createToken reg type start

/-! ## Arguments -/

/-- `sel->frag`. -/
def GqlSel.frag : GqlSel τ δ → Option Bytes
  | mk _ _ frag _ _ _ _ _ _ _ => frag

/-- `sel->dir`. -/
def GqlSel.dir : GqlSel τ δ → List (DirUse τ δ)
  | mk _ _ _ dir _ _ _ _ _ _ => dir

/-- `sel->args`. -/
def GqlSel.args : GqlSel τ δ → List (SelArg τ)
  | mk _ _ _ _ args _ _ _ _ _ => args

/-- `sel->sels`. -/
def GqlSel.sels : GqlSel τ δ → List (GqlSel τ δ)
  | mk _ _ _ _ _ sels _ _ _ _ => sels

/-- `sel->inline_frag->dir`. -/
def GqlSel.inlineDir : GqlSel τ δ → List (DirUse τ δ)
  | mk _ _ _ _ _ _ _ _ inlineDir _ => inlineDir

/-- `sel->inline_frag->sels`. -/
def GqlSel.inlineSels : GqlSel τ δ → List (GqlSel τ δ)
  | mk _ _ _ _ _ _ _ _ _ inlineSels => inlineSels

namespace DocVars

/-- The argument in an operation with these variables, or in none, is bound as it should be. -/
def Bound (vars : List (GqlVar τ)) : Option (List (GqlVar τ)) → SelArg τ → Prop
  | some opVars, a => (∃ var, a.var = some var ∧ findVar vars opVars var.name = some var) ∨
      a.var = none ∧ ∀ v, a.value = some v → NoVar v
  | none, a => a.var = none

theorem findVar_name {vars opVars : List (GqlVar τ)} {name : Bytes} {var : GqlVar τ}
    (h : findVar vars opVars name = some var) : var.name = name := by
  have hnamed : ∀ {xs : List (GqlVar τ)}, xs.find? (·.name = name) = some var → var.name = name :=
    fun hx => by simpa using List.find?_some hx
  unfold findVar at h
  rcases Option.or_eq_some_iff.mp h with h | ⟨-, h⟩
  · exact hnamed (Option.eq_some_of_filter_eq_some h)
  · exact hnamed h

/-- `accept` of a byte that is there. -/
theorem accept_found {s : DocState text σ} {c : Byte} (h : at0 text s.cur = c) (hc : c ≠ 0) :
    ∃ s', (accept [c] : Parser text σ Bool).run s = (.ok true, s') := by
  have hpre : [c] <+: text.drop s.cur := by
    rw [drop_cons_of_at0 (h ▸ hc), h]
    exact ⟨_, rfl⟩
  have hfound : ((accept [c] : Parser text σ Bool).run s).1 = .ok true := by
    simp [accept, advance, step, hpre]
  exact ⟨_, Prod.ext hfound rfl⟩

/-- A value that does not begin with a dollar sign. -/
theorem triple_readValue (reg : Registry σ τ δ φ) (fuel : ℕ) (type : Option τ) :
    Triple (fun s => (isWhite (at0 text s.cur) = false ∧ at0 text s.cur ≠ chr '#') ∧
      at0 text s.cur ≠ chr '$') (readValue reg fuel type : Parser text σ (GqlValue τ))
      (fun v _ => NoVar v) fun _ => True := by
  rintro s ⟨⟨hwhite, hhash⟩, hdollar⟩
  cases fuel with
  | zero => trivial
  | succ fuel =>
    rw [run_readValue hwhite hhash]
    exact returns_valueAt reg (readValue reg fuel) fuel type hdollar s trivial

theorem returns_makeSelArg (reg : Registry σ τ δ φ) (fuel : ℕ) (vars : List (GqlVar τ))
    (op : Option (List (GqlVar τ))) :
    Returns (Bound vars op) (makeSelArg reg fuel vars op : Parser text σ (SelArg τ)) := by
  refine Returns.after fun _ => Returns.after fun name => Returns.after fun _ => Returns.after fun _ => ?_
  cases op with
  | none => exact Returns.after fun _ => Returns.after fun v => returns_pure rfl
  | some opVars =>
    have hwhite : Triple (fun _ => True) (skipWhite : Parser text σ ℕ)
        (fun _ s => isWhite (at0 text s.cur) = false ∧ at0 text s.cur ≠ chr '#') fun _ => True := by
      intro s _
      have hrun : ∀ k s', (skipWhite : Parser text σ ℕ).run s = (.ok k, s') →
          isWhite (at0 text s'.cur) = false ∧ at0 text s'.cur ≠ chr '#' := fun k s' => run_skipWhite
      have hany := returns_any (skipWhite : Parser text σ ℕ) s trivial
      generalize (skipWhite : Parser text σ ℕ).run s = r at hrun hany
      obtain ⟨o, s'⟩ := r
      cases o with
      | ok k => exact hrun k s' rfl
      | fail => trivial
      | fault => trivial
      | crash => trivial
      | timeout => trivial
    have haccept : Triple (fun s : DocState text σ =>
        isWhite (at0 text s.cur) = false ∧ at0 text s.cur ≠ chr '#') (accept (bytes "$"))
        (fun found s => found = false →
          (isWhite (at0 text s.cur) = false ∧ at0 text s.cur ≠ chr '#') ∧ at0 text s.cur ≠ chr '$')
        fun _ => True := by
      intro s hs
      by_cases hdollar : at0 text s.cur = chr '$'
      · obtain ⟨s', hs'⟩ := accept_found hdollar (by decide)
        rw [show bytes "$" = [chr '$'] from rfl, hs']
        exact fun h => Bool.noConfusion h
      · rw [show bytes "$" = [chr '$'] from rfl, accept_false hdollar]
        exact fun _ => ⟨hs, hdollar⟩
    refine Triple.bind hwhite fun _ => Triple.bind haccept fun found => ?_
    cases found with
    | true =>
      refine Triple.mono (P := fun _ => True) (Returns.after fun varName => ?_) (fun _ _ => trivial)
        (fun _ _ h => h) fun _ h => h
      cases hvar : findVar vars opVars varName with
      | none => exact returns_docErr _
      | some var =>
        exact returns_pure (Or.inl ⟨var, rfl, by rw [findVar_name hvar, hvar]⟩)
    | false =>
      refine Triple.mono (P := fun s => (isWhite (at0 text s.cur) = false ∧ at0 text s.cur ≠ chr '#') ∧
        at0 text s.cur ≠ chr '$') (Triple.bind (triple_readValue reg fuel none) fun v => ?_)
        (fun s hs => hs rfl) (fun _ _ h => h) fun _ h => h
      refine triple_pure fun _ hv => Or.inr ⟨rfl, fun u hu => ?_⟩
      obtain rfl := Option.some.inj hu
      exact hv

/-! ## Selections -/

/-- Every argument in the selection has `P`. -/
inductive AllArgs (P : SelArg τ → Prop) : GqlSel τ δ → Prop
  | mk {selAlias name frag : Option Bytes} {dir : List (DirUse τ δ)} {args : List (SelArg τ)}
      {sels : List (GqlSel τ δ)} {inline : Bool} {on : Option τ} {inlineDir : List (DirUse τ δ)}
      {inlineSels : List (GqlSel τ δ)} (hargs : ∀ a ∈ args, P a) (hsels : ∀ sel ∈ sels, AllArgs P sel)
      (hinline : ∀ sel ∈ inlineSels, AllArgs P sel) :
      AllArgs P (.mk selAlias name frag dir args sels inline on inlineDir inlineSels)

section Selections

variable {P : SelArg τ → Prop} {make : Parser text σ (GqlSel τ δ)}

theorem returns_selsTo (h : Returns (AllArgs P) make) (fuel : ℕ) :
    Returns (fun sels => ∀ sel ∈ sels, AllArgs P sel) (selsTo make fuel) :=
  Returns.bind (returns_collected h fuel) fun _ hsels => Returns.after fun _ => returns_pure hsels

theorem returns_subSels (h : Returns (AllArgs P) make) (fuel : ℕ) :
    Returns (fun sels => ∀ sel ∈ sels, AllArgs P sel) (subSels make fuel) :=
  Returns.after fun _ => Returns.ite (returns_selsTo h fuel)
    (returns_pure (List.forall_mem_nil _))

theorem returns_makeSelInline (reg : Registry σ τ δ φ) (h : Returns (AllArgs P) make) (fuel : ℕ) :
    Returns (AllArgs P) (makeSelInline reg make fuel) := by
  refine Returns.after fun _ => Returns.after fun _ => Returns.after fun _ => Returns.ite ?_ ?_
  · exact Returns.after fun _ => Returns.after fun _ => Returns.after fun _ => Returns.after fun _ =>
      Returns.after fun _ => Returns.bind (returns_subSels h fuel) fun _ hsels =>
        returns_pure (.mk (List.forall_mem_nil _) (List.forall_mem_nil _) hsels)
  · refine Returns.after fun _ => Returns.ite ?_ ?_
    · exact Returns.after fun _ => Returns.after fun _ => Returns.bind (returns_subSels h fuel)
        fun _ hsels => returns_pure (.mk (List.forall_mem_nil _) (List.forall_mem_nil _) hsels)
    · exact Returns.after fun _ => returns_pure
        (.mk (List.forall_mem_nil _) (List.forall_mem_nil _) (List.forall_mem_nil _))

theorem returns_fieldHead : Returns (AllArgs P) (fieldHead : Parser text σ (GqlSel τ δ)) :=
  Returns.after fun _ => Returns.after fun _ => Returns.after fun _ => Returns.ite
    (Returns.after fun _ => Returns.after fun _ => Returns.after fun _ =>
      returns_pure (.mk (List.forall_mem_nil _) (List.forall_mem_nil _) (List.forall_mem_nil _)))
    (returns_pure (.mk (List.forall_mem_nil _) (List.forall_mem_nil _) (List.forall_mem_nil _)))

theorem returns_selRest (reg : Registry σ τ δ φ) (h : Returns (AllArgs P) make) (fuel : ℕ)
    (vars : List (GqlVar τ)) (op : Option (List (GqlVar τ)))
    (harg : Returns P (makeSelArg reg fuel vars op : Parser text σ (SelArg τ))) {sel : GqlSel τ δ}
    (hsel : AllArgs P sel) : Returns (AllArgs P) (selRest reg make fuel vars op sel) := by
  obtain ⟨hargs, hsels, hinline⟩ := hsel
  next selAlias name frag dir args sels inline on inlineDir inlineSels =>
  cases frag with
  | some frag => exact Returns.after fun _ => returns_pure (.mk hargs hsels hinline)
  | none =>
    have hread : Returns (fun args => ∀ a ∈ args, P a)
        (selArgs reg fuel vars op : Parser text σ (List (SelArg τ))) :=
      Returns.after fun _ => Returns.ite (Returns.bind (returns_collected harg fuel) fun _ hargs =>
        Returns.after fun _ => returns_pure hargs) (returns_pure (List.forall_mem_nil _))
    exact Returns.bind hread fun _ hread => Returns.after fun _ =>
      Returns.bind (returns_subSels h fuel) fun _ hsub => returns_pure (.mk hread hsub hinline)

end Selections

theorem returns_makeSel (reg : Registry σ τ δ φ) (vars : List (GqlVar τ))
    (op : Option (List (GqlVar τ))) (fuel : ℕ) (parent : Bool) :
    Returns (AllArgs (Bound vars op))
      (makeSel reg vars op fuel parent : Parser text σ (GqlSel τ δ)) := by
  induction fuel generalizing parent with
  | zero => exact returns_spent
  | succ fuel ih =>
    have harg : Returns (Bound vars op) (makeSelArg reg fuel vars op : Parser text σ (SelArg τ)) :=
      returns_makeSelArg reg fuel vars op
    refine Returns.after fun _ => Returns.after fun _ => Returns.after fun _ => Returns.ite ?_ ?_
    · exact Returns.bind (returns_makeSelInline reg (ih true) fuel) fun _ hsel =>
        returns_selRest reg (ih true) fuel vars op harg hsel
    · exact Returns.bind returns_fieldHead fun _ hsel =>
        returns_selRest reg (ih true) fuel vars op harg hsel

/-! ## Documents -/

/-- The arguments of an operation are bound to its variables or those of the request. -/
def OpBound (vars : List (GqlVar τ)) (op : GqlOp τ δ) : Prop :=
  ∀ sel ∈ op.sels, AllArgs (Bound vars (some op.vars)) sel

/-- The arguments of a fragment are bound to none. -/
def FragBound (vars : List (GqlVar τ)) (frag : GqlFrag τ δ) : Prop :=
  ∀ sel ∈ frag.sels, AllArgs (Bound vars none) sel

structure DocBound (vars : List (GqlVar τ)) (doc : GqlDoc τ δ) : Prop where
  same : doc.vars = vars
  ops : ∀ op ∈ doc.ops, OpBound vars op
  frags : ∀ frag ∈ doc.frags, FragBound vars frag

theorem returns_wrapSels (reg : Registry σ τ δ φ) (fuel : ℕ) (kindStr name : Bytes)
    {P : SelArg τ → Prop} {sels : List (GqlSel τ δ)} (h : ∀ sel ∈ sels, AllArgs P sel) :
    Returns (fun sels => ∀ sel ∈ sels, AllArgs P sel)
      (wrapSels reg fuel kindStr name sels : Parser text σ (List (GqlSel τ δ))) := by
  refine Returns.after fun _ => Returns.after fun _ => Returns.after fun found => ?_
  cases found with
  | none => exact returns_pure h
  | some _ =>
    exact Returns.after fun _ => Returns.ite (returns_pure h)
      (returns_pure (List.forall_mem_singleton.mpr (.mk (List.forall_mem_nil _) h (List.forall_mem_nil _))))

theorem returns_makeOp (reg : Registry σ τ δ φ) (fuel : ℕ) (vars : List (GqlVar τ)) (kind : GqlOpKind) :
    Returns (OpBound vars) (makeOp reg fuel vars kind : Parser text σ (GqlOp τ δ)) := by
  refine Returns.after fun _ => Returns.after fun k => Returns.after fun _ => Returns.after fun _ =>
    Returns.after fun _ => Returns.after fun name => Returns.after fun _ => Returns.after fun _ =>
      Returns.after fun opVars => Returns.after fun _ => Returns.after fun _ =>
        Returns.bind (returns_selsTo (returns_makeSel reg vars (some opVars) fuel false) fuel)
          fun sels hsels => Returns.ite (returns_pure hsels) ?_
  exact Returns.bind (returns_wrapSels reg fuel _ name hsels) fun _ hwrap => returns_pure hwrap

theorem returns_makeFragment (reg : Registry σ τ δ φ) (fuel : ℕ) (vars : List (GqlVar τ)) :
    Returns (FragBound vars) (makeFragment reg fuel vars : Parser text σ (GqlFrag τ δ)) :=
  Returns.after fun _ => Returns.after fun _ => Returns.after fun _ => Returns.after fun _ =>
    Returns.after fun _ => Returns.after fun _ => Returns.after fun _ => Returns.after fun _ =>
      Returns.bind (returns_selsTo (returns_makeSel reg vars none fuel true) fuel) fun _ hsels =>
        returns_pure hsels

theorem returns_docMember (reg : Registry σ τ δ φ) (fuel : ℕ) (kind : GqlOpKind)
    {vars : List (GqlVar τ)} {doc : GqlDoc τ δ} (h : DocBound vars doc) :
    Returns (fun r => DocBound vars r.2)
      (docMember reg fuel kind doc : Parser text σ (Bool × GqlDoc τ δ)) := by
  refine Returns.after fun _ => Returns.after fun _ => Returns.after fun _ => Returns.ite (returns_pure h) <|
    Returns.ite ?_ <| Returns.ite ?_ <| Returns.ite (returns_pure h) (returns_docErr _)
  · refine Returns.bind (returns_makeOp reg fuel doc.vars kind) fun op hop => returns_pure ?_
    refine ⟨h.same, fun o ho => ?_, h.frags⟩
    rcases List.mem_append.mp ho with ho | ho
    · exact h.ops o ho
    · rw [List.mem_singleton.mp ho]
      exact h.same ▸ hop
  · refine Returns.bind (returns_makeFragment reg fuel doc.vars) fun frag hfrag => returns_pure ?_
    refine ⟨h.same, h.ops, fun f hf => ?_⟩
    rcases List.mem_append.mp hf with hf | hf
    · exact h.frags f hf
    · rw [List.mem_singleton.mp hf]
      exact h.same ▸ hfrag

/-- In a document that is accepted every argument is bound as it should be. -/
theorem returns_sdlParseDoc (reg : Registry σ τ δ φ) (fuel : ℕ) (vars : List (GqlVar τ))
    (kind : GqlOpKind) :
    Returns (DocBound vars) (sdlParseDoc reg fuel vars kind : Parser text σ (GqlDoc τ δ)) :=
  Returns.bind (returns_whileLt (fun _ h => returns_docMember reg fuel kind h) fuel
    ⟨rfl, List.forall_mem_nil _, List.forall_mem_nil _⟩) fun _ hdoc =>
      Returns.after fun _ => returns_pure hdoc

/-! ## Uses -/

/-- The name of the variable that an argument is. -/
def varName (a : SelArg τ) : Option Bytes :=
  match a.var, a.value with
  | some var, _ => some var.name
  | none, some (.var name) => some name
  | none, _ => none

/-- `sa->var->value`, or `sa->value`. -/
def argRead (a : SelArg τ) : Option (GqlValue τ) :=
  match a.var with
  | some var => var.value
  | none => a.value

/-- `doc_var_value`, where the operation is evaluated. -/
def docVarValue (doc : GqlDoc τ δ) (op : GqlOp τ δ) (key : Bytes) : Option (GqlValue τ) :=
  match op.vars.find? (·.name = key) with
  | some var => var.value
  | none => (doc.vars.find? (·.name = key)).bind (·.value)

/-- `set_doc_op`: the operation that is evaluated. -/
def setDocOp (doc : GqlDoc τ δ) (opName : Option Bytes) : Option (GqlOp τ δ) :=
  match opName with
  | some name => doc.ops.find? (·.name = some name)
  | none => doc.ops.head?

/-- A list of selections that an evaluation of the operation may come to, whether it is inside a
fragment of the document, and the directives on it. -/
inductive Within (doc : GqlDoc τ δ) (op : GqlOp τ δ) :
    Bool → List (GqlSel τ δ) → List (DirUse τ δ) → Prop
  | op : Within doc op false op.sels op.dir
  | sels {b : Bool} {sels : List (GqlSel τ δ)} {dir : List (DirUse τ δ)} {sel : GqlSel τ δ}
      (h : Within doc op b sels dir) (hsel : sel ∈ sels) : Within doc op b sel.sels sel.dir
  | inline {b : Bool} {sels : List (GqlSel τ δ)} {dir : List (DirUse τ δ)} {sel : GqlSel τ δ}
      (h : Within doc op b sels dir) (hsel : sel ∈ sels) : Within doc op b sel.inlineSels sel.inlineDir
  | frag {b : Bool} {sels : List (GqlSel τ δ)} {dir : List (DirUse τ δ)} {sel : GqlSel τ δ}
      {frag : GqlFrag τ δ} (h : Within doc op b sels dir) (hsel : sel ∈ sels)
      (hfrag : frag ∈ doc.frags) (hname : sel.frag = some frag.name) :
      Within doc op true frag.sels frag.dir

/-- Where a variable is used: as an argument, outside or inside of a fragment, or as the `if` of a
directive. -/
inductive Place
  | arg (inFrag : Bool)
  | dir
  deriving DecidableEq

/-- A use of the variable at a place, and the value that it has. -/
inductive Reads (doc : GqlDoc τ δ) (op : GqlOp τ δ) : Place → Bytes → Option (GqlValue τ) → Prop
  | arg {b : Bool} {sels : List (GqlSel τ δ)} {dir : List (DirUse τ δ)} {sel : GqlSel τ δ}
      {a : SelArg τ} {v : Bytes} (h : Within doc op b sels dir) (hsel : sel ∈ sels) (ha : a ∈ sel.args)
      (hv : varName a = some v) : Reads doc op (.arg b) v (argRead a)
  | dir {b : Bool} {sels : List (GqlSel τ δ)} {dir : List (DirUse τ δ)} {use : DirUse τ δ} {v : Bytes}
      (h : Within doc op b sels dir) (huse : use ∈ dir) (ha : (bytes "if", .var v) ∈ use.args) :
      Reads doc op .dir v (docVarValue doc op v)

/-- The value that the request gives. -/
def supplied (doc : GqlDoc τ δ) (v : Bytes) : Option (GqlValue τ) :=
  (doc.vars.find? (·.name = v)).bind (·.value)

/-- The default value in the operation. -/
def defaultOf (op : GqlOp τ δ) (v : Bytes) : Option (GqlValue τ) :=
  (op.vars.find? (·.name = v)).bind (·.value)

/-- The value of the request, or else the default. -/
def intended (doc : GqlDoc τ δ) (op : GqlOp τ δ) (v : Bytes) : Option (GqlValue τ) :=
  (supplied doc v).or (defaultOf op v)

/-- Every use of a variable has the value of the request, or else the default. -/
def Consistent (doc : GqlDoc τ δ) (op : GqlOp τ δ) : Prop :=
  ∀ place v value, Reads doc op place v value → value = intended doc op v

/-- When a use has that value. -/
def Agrees (doc : GqlDoc τ δ) (op : GqlOp τ δ) (v : Bytes) : Place → Prop
  | .arg false => ∀ d s, defaultOf op v = some d → supplied doc v = some s → s = d
  | .arg true => intended doc op v = some (.var v)
  | .dir => ∀ var s, op.vars.find? (·.name = v) = some var → supplied doc v = some s → var.value = some s

/-! ## Values -/

theorem AllArgs.args {P : SelArg τ → Prop} {sel : GqlSel τ δ} (h : AllArgs P sel) :
    ∀ a ∈ sel.args, P a := by
  cases h with
  | mk hargs => exact hargs

theorem AllArgs.sels {P : SelArg τ → Prop} {sel : GqlSel τ δ} (h : AllArgs P sel) :
    ∀ s ∈ sel.sels, AllArgs P s := by
  cases h with
  | mk _ hsels => exact hsels

theorem AllArgs.inlineSels {P : SelArg τ → Prop} {sel : GqlSel τ δ} (h : AllArgs P sel) :
    ∀ s ∈ sel.inlineSels, AllArgs P s := by
  cases h with
  | mk _ _ hinline => exact hinline

/-- Selections that are not inside a fragment have the arguments of an operation. -/
theorem Within.bound {vars : List (GqlVar τ)} {doc : GqlDoc τ δ} {op : GqlOp τ δ}
    (hdoc : DocBound vars doc) (hop : op ∈ doc.ops) {b : Bool} {sels : List (GqlSel τ δ)}
    {dir : List (DirUse τ δ)} (h : Within doc op b sels dir) :
    ∀ sel ∈ sels, AllArgs (Bound vars (if b then none else some op.vars)) sel := by
  induction h with
  | op => exact hdoc.ops op hop
  | sels _ hsel ih => exact (ih _ hsel).sels
  | inline _ hsel ih => exact (ih _ hsel).inlineSels
  | frag _ _ hfrag _ _ => exact hdoc.frags _ hfrag

/-- An argument of an operation has the default value, or else the one of the request. -/
theorem argRead_bound {doc : GqlDoc τ δ} {op : GqlOp τ δ} {a : SelArg τ} {v : Bytes}
    (h : Bound doc.vars (some op.vars) a) (hv : varName a = some v) :
    argRead a = (defaultOf op v).or (supplied doc v) := by
  rcases h with ⟨var, hvar, hfound⟩ | ⟨hvar, hvalue⟩
  · obtain rfl : var.name = v := by simpa [varName, hvar] using hv
    unfold argRead
    rw [hvar]
    dsimp only
    unfold defaultOf supplied
    unfold findVar at hfound
    cases hop : op.vars.find? (·.name = var.name) with
    | none =>
      rw [hop] at hfound
      obtain hfound : doc.vars.find? (·.name = var.name) = some var := hfound
      rw [hfound]
      rfl
    | some own =>
      rw [hop] at hfound
      cases hown : own.value with
      | none =>
        have hfilter : (some own).filter (·.value.isSome) = (none : Option (GqlVar τ)) := by
          simp [Option.filter, hown]
        rw [hfilter, Option.none_or] at hfound
        rw [hfound]
        simp [hown]
      | some d =>
        have hfilter : (some own).filter (·.value.isSome) = some own := by
          simp [Option.filter, hown]
        rw [hfilter, Option.some_or] at hfound
        obtain rfl := Option.some.inj hfound
        simp [hown]
  · unfold varName at hv
    rw [hvar] at hv
    cases hval : a.value with
    | none => simp [hval] at hv
    | some u =>
      rw [hval] at hv
      have hno := hvalue u hval
      cases u with
      | var name => exact absurd rfl (hno name)
      | null => cases hv
      | bool _ => cases hv
      | int _ => cases hv
      | i64 _ => cases hv
      | float _ => cases hv
      | string _ => cases hv
      | token _ _ => cases hv
      | list _ _ => cases hv
      | object _ => cases hv

/-- An argument of a fragment has the name of the variable for its value. -/
theorem argRead_unbound {a : SelArg τ} {v : Bytes} (h : a.var = none) (hv : varName a = some v) :
    argRead a = some (.var v) := by
  unfold varName at hv
  unfold argRead
  rw [h] at hv ⊢
  cases hval : a.value with
  | none => simp [hval] at hv
  | some u =>
    rw [hval] at hv
    cases u with
    | var name =>
      obtain rfl : name = v := Option.some.inj hv
      rfl
    | null => cases hv
    | bool _ => cases hv
    | int _ => cases hv
    | i64 _ => cases hv
    | float _ => cases hv
    | string _ => cases hv
    | token _ _ => cases hv
    | list _ _ => cases hv
    | object _ => cases hv

/-- Two orders to look in agree when both have the same. -/
theorem or_comm_iff {α : Type} {x y : Option α} :
    x.or y = y.or x ↔ ∀ d s, x = some d → y = some s → s = d := by
  cases x with
  | none => simp
  | some d =>
    cases y with
    | none => simp
    | some s => simp [eq_comm]

/-- **A use has the value of the request, or else the default, exactly when `Agrees` says so.** -/
theorem Reads.agrees {vars : List (GqlVar τ)} {doc : GqlDoc τ δ} {op : GqlOp τ δ}
    (hdoc : DocBound vars doc) (hop : op ∈ doc.ops) {place : Place} {v : Bytes}
    {value : Option (GqlValue τ)} (h : Reads doc op place v value) :
    value = intended doc op v ↔ Agrees doc op v place := by
  cases h with
  | arg hwithin hsel ha hv =>
    next b sels dir sel a =>
    have hbound := (hwithin.bound hdoc hop _ hsel).args a ha
    cases b with
    | false =>
      rw [argRead_bound (hdoc.same ▸ hbound) hv]
      exact or_comm_iff
    | true =>
      rw [argRead_unbound hbound hv]
      exact eq_comm
  | dir =>
    unfold intended docVarValue defaultOf Agrees
    cases hfind : op.vars.find? (·.name = v) with
    | none =>
      unfold supplied
      simp
    | some var =>
      cases hsup : supplied doc v with
      | none => simp
      | some s => simp

/-- A schema with a field that takes a Boolean. -/
def echoTable : TypeTable :=
  ((ExceptT.run (do
    let query ← gqlTypeCreate (bytes "Query") none
    let field ← gqlTypeField query (bytes "echo") gqlBoolType none none []
    gqlFieldArg field (bytes "x") gqlBoolType none none
    let root ← gqlTypeCreate (bytes "Root") none
    let _ ← gqlTypeField root (bytes "query") query none none []
    return () : TableM Unit)).run gqlInit).2

/-- A variable with a default value is the argument. -/
def echoText : Bytes := bytes "query($v: Boolean = false) \x7b echo(x: $v) \x7d"

def echoRun (vars : List (GqlVar ℕ)) : Outcome (GqlDoc ℕ ℕ) × DocState echoText TypeTable :=
  (sdlParseDoc (gqlRegistry (·.typeGet (bytes "Root"))) 60 vars .query).run
    (docInit echoText none echoTable)

/-- The Boolean that a value is. -/
def boolOf : Option (GqlValue ℕ) → Option Bool
  | some (.bool b) => some b
  | _ => none

/-- The arguments of the fields of the first operation, when there is no fragment. -/
def echoUses : Outcome (GqlDoc ℕ ℕ) → List (Option Bytes × Option Bool)
  | .ok doc => if doc.frags.isEmpty then
      (setDocOp doc none).toList.flatMap fun op => op.sels.flatMap fun sel =>
        sel.args.map fun a => (varName a, boolOf (argRead a))
    else []
  | _ => []

theorem echoRun_reads (vars : List (GqlVar ℕ)) {v : Bytes} {b : Bool}
    (h : (some v, some b) ∈ echoUses (echoRun vars).1) :
    ∃ doc op s', echoRun vars = (.ok doc, s') ∧ setDocOp doc none = some op ∧ doc.frags = [] ∧
      Reads doc op (.arg false) v (some (.bool b)) := by
  generalize hrun : echoRun vars = r at h
  obtain ⟨o, s'⟩ := r
  cases o with
  | ok doc =>
    unfold echoUses at h
    dsimp only at h
    split_ifs at h with hfrags
    · obtain ⟨op, hop, h⟩ := List.mem_flatMap.mp h
      obtain ⟨sel, hsel, h⟩ := List.mem_flatMap.mp h
      obtain ⟨a, ha, hread⟩ := List.mem_map.mp h
      obtain ⟨hname, hbool⟩ := Prod.mk.inj hread
      have hvalue : argRead a = some (.bool b) := by
        unfold boolOf at hbool
        split at hbool
        · next hb => rw [hb, Option.some.inj hbool]
        · cases hbool
      refine ⟨doc, op, s', rfl, Option.mem_toList.mp hop, List.isEmpty_iff.mp hfrags, ?_⟩
      exact hvalue ▸ .arg .op hsel ha hname
    · cases h
  | fail => cases h
  | fault => cases h
  | crash => cases h
  | timeout => cases h

/-- The variable, true in the request. -/
def echoVars : List (GqlVar ℕ) := [⟨bytes "v", some gqlBoolType, some (.bool true)⟩]

end DocVars

end Agoo
