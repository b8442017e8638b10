import Agoo.EvalFrame

/-!
# What successful evaluations keep

`Lasts J Q p`: where `p` succeeds from a state with `J`, it leaves one with `J`, and what it returns has
`Q`. Below the root introspection is refused, so that an evaluation on Ruby objects that succeeds keeps
what calls of Ruby and conversions keep, and with it the functions of the document.
-/

namespace Agoo

namespace Eval

variable {ρ ω α β : Type}

/-- Success keeps `J`, and what is returned has `Q`. -/
def Lasts (J : State ω → Prop) (Q : α → Prop) (p : EvalM ω α) : Prop :=
  ∀ s a, J s → (exec p s).1 = .ok a → J (exec p s).2 ∧ Q a

variable {J : State ω → Prop} {Q : α → Prop} {R : β → Prop}

/-! ## The rules -/

theorem lasts_pure {a : α} (h : Q a) : Lasts J Q (pure a : EvalM ω α) := by
  intro s b hs hb
  obtain rfl := Except.ok.inj hb
  exact ⟨hs, h⟩

theorem lasts_throw (e : Stop) : Lasts J Q (throw e : EvalM ω α) := fun _ _ _ h => by cases h

theorem lasts_setErr (code : ErrCode) (msg : Bytes) : Lasts J Q (setErr code msg : EvalM ω α) :=
  fun _ _ _ h => by cases h

theorem Lasts.bind {p : EvalM ω α} {f : α → EvalM ω β} (h : Lasts J Q p)
    (hf : ∀ a, Q a → Lasts J R (f a)) : Lasts J R (p >>= f) := by
  intro s b hs hb
  cases hp : exec p s with
  | mk o s' =>
    cases o with
    | error e =>
      rw [exec_bind_error hp] at hb
      cases hb
    | ok a =>
      obtain ⟨hs', ha⟩ := h s a hs (by rw [hp])
      rw [hp] at hs'
      rw [exec_bind_ok hp] at hb ⊢
      exact hf a ha s' b hs' hb

theorem Lasts.ite {c : Prop} [Decidable c] {p q : EvalM ω α} (hp : c → Lasts J Q p)
    (hq : ¬ c → Lasts J Q q) : Lasts J Q (if c then p else q) := by
  split_ifs with h
  · exact hp h
  · exact hq h

theorem lasts_ask (f : ω → α) : Lasts J Anything (ask f) := fun _ _ hs _ => ⟨hs, trivial⟩

theorem lasts_goOn (o : Except Stop Unit) : Lasts J Anything (goOn o : EvalM ω Unit) := by
  cases o with
  | ok u => exact lasts_pure trivial
  | error stop => exact lasts_throw stop

theorem lasts_forM {γ : Type} {f : γ → EvalM ω PUnit} {xs : List γ}
    (h : ∀ x ∈ xs, Lasts J Anything (f x)) : Lasts J Anything (xs.forM f) := by
  induction xs with
  | nil => exact lasts_pure trivial
  | cons x xs ih =>
    exact (h x List.mem_cons_self).bind fun _ _ => ih fun y hy => h y (List.mem_cons_of_mem x hy)

/-- A stop of what fills an object goes on, with `k` before. -/
theorem Lasts.filled (hres : ∀ s R, J s → J (s.withResult R)) {p : EvalM ω Unit}
    (hp : Lasts J Anything p) {k : Except Stop Unit × GqlValue ℕ → EvalM ω β}
    (hstop : ∀ stop v s b, (exec (k (.error stop, v)) s).1 ≠ .ok b)
    (hk : ∀ v, Lasts J R (k (.ok (), v))) : Lasts J R (filled p >>= k) := by
  intro s b hs hb
  rw [exec_bind_ok (exec_filled p s)] at hb ⊢
  cases hrun : (exec p { s with result := [] }).1 with
  | error stop =>
    rw [hrun] at hb
    exact absurd hb (hstop stop _ _ b)
  | ok u =>
    have hin := (hp _ u (hres s [] hs) hrun).1
    rw [hrun] at hb
    exact hk _ _ b (hres _ s.result hin) hb

/-! ## Resolve functions -/

/-- A conversion that succeeds keeps `J`. -/
def Settles (env : Env ρ ω) (J : State ω → Prop) (field : Option GqlField) (a : Arg) : Prop :=
  ∀ fa, fieldArg field a.name = some fa → ∀ s : State ω, J s →
    (env.convert fa.type ((cellValue s.cells a.cell).getD .null) s.err).ok = true →
      J (exec (convertIn env a.cell ((cellValue s.cells a.cell).getD .null) fa.type) s).2

/-- `J` is about a state with the functions for Ruby, and calls of Ruby and the conversions in the
document keep it. -/
structure Lasting (env : Env ρ ω) (doc : Doc) (J : State ω → Prop) : Prop where
  ruby : ∀ s, J s → s.funcs = .ruby
  result : ∀ s R, J s → J (s.withResult R)
  call : ∀ s ref name arity args, J s →
    J { s with world := (env.call ref name arity args s.world).2 }
  coerce : ∀ s ref type, J s → J { s with world := (env.coerce ref type s.world).2 }
  convert : ∀ sel ∈ doc.nodes, ∀ a ∈ sel.args, ∀ field : Option GqlField,
    (∀ f, field = some f → ∃ t, f ∈ env.table.fields t) → Settles env J field a

/-- A field that only introspection has. -/
def Head.isIntro (head : Head) : Bool :=
  head.name = bytes "__type" || head.name = bytes "__schema"

/-- Objects to fill are Ruby's, at a greater depth. -/
def Reply.Ruby (d : ℕ) : Reply ρ → Prop
  | value _ => True
  | nothing => True
  | inPlace target _ d' => (∃ ref, target = .ruby ref) ∧ d < d'
  | object target _ d' => (∃ ref, target = .ruby ref) ∧ d < d'
  | list _ _ _ => False
  | iterated _ _ _ _ => False
  | elements _ _ d' => d < d'

section Resolve

variable {env : Env ρ ω} {doc : Doc} (hJ : Lasting env doc J)

theorem lasts_argValue {field : Option GqlField} {a : Arg} (h : Settles env J field a) :
    Lasts J Anything (argValue env field a) := by
  intro s v hs hv
  refine ⟨?_, trivial⟩
  unfold argValue at hv ⊢
  rw [exec_get_bind] at hv ⊢
  cases hfa : fieldArg field a.name with
  | none => exact hs
  | some fa =>
    have hconv := h fa hfa s hs
    rw [exec_convertIn] at hconv
    rw [hfa] at hv
    dsimp only at hv ⊢
    rw [exec_bind_ok (exec_convertIn env a.cell _ fa.type s)] at hv ⊢
    split_ifs at hv ⊢ with hok
    · exact hconv hok
    · cases hv

theorem lasts_argValues {field : Option GqlField} {args : List Arg}
    (h : ∀ a ∈ args, Settles env J field a) : Lasts J Anything (argValues env field args) := by
  induction args with
  | nil => exact lasts_pure trivial
  | cons a rest ih =>
    exact (lasts_argValue (h a List.mem_cons_self)).bind fun _ _ =>
      (ih fun b hb => h b (List.mem_cons_of_mem a hb)).bind fun _ _ => lasts_pure trivial

include hJ

theorem lasts_coerced (ref : ρ) (type : Option ℕ) : Lasts J Anything (coerced env ref type) := by
  intro s v hs hv
  refine ⟨?_, trivial⟩
  have hset : ∀ t : State ω, exec (set t : EvalM ω PUnit) s = (.ok (), t) := fun _ => rfl
  have hworld := hJ.coerce s ref type hs
  unfold coerced at hv ⊢
  rw [exec_get_bind, exec_bind_ok (hset _)] at hv ⊢
  cases hc : (env.coerce ref type s.world).1 with
  | ok u => exact hworld
  | error fault =>
    rw [hc] at hv
    cases fault with
    | raised e => cases hv
    | null e =>
      -- The code of an error is returned, so that there is none.
      cases e with
      | some e => cases hv
      | none =>
        cases herr : s.err with
        | some e =>
          have hfail : (exec (coerced env ref type) s).1 = .error .fail := by
            unfold coerced
            rw [exec_get_bind, exec_bind_ok (hset _), hc, herr]
            rfl
          unfold coerced at hfail
          rw [exec_get_bind, exec_bind_ok (hset _), hc, hv] at hfail
          cases hfail
        | none =>
          rw [herr] at hworld
          exact hworld

theorem lasts_call (ref : ρ) (name : Bytes) (arity : ℤ) (args : List (Bytes × GqlValue ℕ)) :
    Lasts J Anything (ruby (env.call ref name arity args)) := by
  intro s v hs hv
  rw [exec_ruby]
  exact ⟨hJ.call s ref name arity args hs, trivial⟩

omit hJ in
theorem lasts_arity (ref : ρ) (name : Bytes) :
    Lasts J Anything (ruby fun w => (env.arity ref name w, w)) := by
  intro s v hs hv
  rw [exec_ruby]
  exact ⟨hs, trivial⟩

omit hJ in
theorem lasts_length (array : ρ) : Lasts J Anything (ruby fun w => (env.length array w, w)) := by
  intro s v hs hv
  rw [exec_ruby]
  exact ⟨hs, trivial⟩

theorem lasts_callMethod (ref : ρ) {field : Option GqlField} {head : Head}
    (h : ∀ a ∈ head.args, Settles env J field a) :
    Lasts J Anything (callMethod env ref field head) :=
  (lasts_arity ref _).bind fun _ _ =>
    (Lasts.ite (fun _ => lasts_pure trivial) fun _ => lasts_argValues h).bind fun _ _ =>
      lasts_call hJ ref _ _ _

theorem lasts_resolveChild (child : ρ) (field : Option GqlField) (head : Head) (noSels : Bool)
    (d : ℕ) : Lasts J (Reply.Ruby d) (resolveChild env child field head noSels d) := by
  have hlt := Nat.lt_succ_self d
  unfold resolveChild
  split
  · exact lasts_pure hlt
  · refine Lasts.ite (fun _ => (lasts_coerced hJ _ _).bind fun v _ => ?_) fun _ =>
      Lasts.ite (fun _ => lasts_pure ⟨⟨child, rfl⟩, hlt⟩) fun _ => lasts_pure ⟨⟨child, rfl⟩, hlt⟩
    cases v with
    | none => exact lasts_pure trivial
    | some v => exact lasts_pure trivial

omit hJ in
/-- Introspection that is refused does not succeed. -/
theorem lasts_introEval {head : Head} {d : ℕ} (h : 2 < d ∨ head.isIntro = false) :
    Lasts J (Reply.Ruby d) (introEval env head d) := by
  refine Lasts.ite (fun hname => Lasts.ite (fun _ => lasts_setErr _ _) fun hd => ?_) fun _ =>
    lasts_setErr _ _
  have hintro : head.isIntro = true := by
    unfold Head.isIntro
    rw [Bool.or_eq_true, decide_eq_true_eq, decide_eq_true_eq]
    exact hname
  rcases h with h | h
  · exact absurd h hd
  · rw [hintro] at h
    cases h

omit hJ in
theorem lasts_resolveInternal (kind : GqlOpKind) (ref : ρ) {head : Head} {d : ℕ}
    (h : 2 < d ∨ head.isIntro = false) :
    Lasts J (fun r => r.2.Ruby d) (resolveInternal env kind ref head d) := by
  refine Lasts.ite (fun _ => (lasts_ask _).bind fun t _ => ?_) fun _ => ?_
  · cases t with
    | none => exact lasts_setErr _ _
    | some t => exact lasts_pure trivial
  · cases kind with
    | query =>
      exact (lasts_introEval h).bind fun _ hr => lasts_pure hr
    | mutation => exact lasts_setErr _ _
    | subscription => exact lasts_setErr _ _

theorem lasts_resolveRuby (kind : GqlOpKind) (ref : ρ) {field : Option GqlField} {head : Head}
    (noSels : Bool) {d : ℕ} (h : ∀ a ∈ head.args, Settles env J field a)
    (hd : 2 < d ∨ head.isIntro = false) :
    Lasts J (fun r => r.2.Ruby d) (resolveRuby env kind ref field head noSels d) := by
  refine Lasts.ite (fun _ => lasts_resolveInternal kind ref hd) fun _ => ?_
  refine (lasts_callMethod hJ ref h).bind fun child _ => (lasts_ask _).bind fun subject _ => ?_
  cases subject with
  | some s => exact lasts_pure trivial
  | none => exact (lasts_resolveChild hJ child field head noSels d).bind fun _ hr => lasts_pure hr

/-- **On a Ruby object a resolve function that succeeds keeps what lasts, if it does not introspect.** -/
theorem lasts_resolve (kind : GqlOpKind) (ref : ρ) {field : Option GqlField} {head : Head}
    (noSels : Bool) {d : ℕ} (h : ∀ a ∈ head.args, Settles env J field a)
    (hd : 2 < d ∨ head.isIntro = false) :
    Lasts J (fun r => r.2.Ruby d) (resolve env kind (.ruby ref) field head noSels d) := by
  intro s r hs hr
  have hrun : exec (resolve env kind (.ruby ref) field head noSels d) s =
      exec (resolveRuby env kind ref field head noSels d) s := by
    unfold resolve
    rw [exec_get_bind, hJ.ruby s hs]
  rw [hrun] at hr ⊢
  exact lasts_resolveRuby hJ kind ref noSels h hd s r hs hr

theorem lasts_fragInclude (ref : ρ) (on : Option ℕ) (uses : List (DirUse ℕ ℕ)) :
    Lasts J Anything (fragInclude env doc (.ruby ref) on uses) := by
  have hdir : Lasts J Anything (dirInclude (ω := ω) env doc uses) := fun _ _ hs _ => ⟨hs, trivial⟩
  cases on with
  | none => exact hdir
  | some t =>
    refine Lasts.bind (Q := Anything) ?_ fun _ _ => Lasts.ite (fun _ => lasts_pure trivial) fun _ => hdir
    intro s a hs _
    refine ⟨?_, trivial⟩
    unfold typeOf
    rw [exec_get_bind, hJ.ruby s hs]
    exact hs

end Resolve

/-! ## Runs -/

section Fill

variable {env : Env ρ ω} {doc : Doc} {eval : Target ρ → Option GqlField → ℕ → EvalM ω Unit} {d : ℕ}
  (hJ : Lasting env doc J)

include hJ

theorem lasts_objectSet (key : Bytes) (v : GqlValue ℕ) :
    Lasts J Anything (objectSet key v : EvalM ω Unit) :=
  fun s _ hs _ => ⟨hJ.result s _ hs, trivial⟩

theorem lasts_elements (array : ρ) (item : Option GqlField ⊕ Option ℕ)
    (he : ∀ ref f, Lasts J Anything (eval (.ruby ref) f d)) (i n : ℕ) :
    Lasts J Anything (elements eval env array item d i n) := by
  induction n generalizing i with
  | zero => exact lasts_pure trivial
  | succ n ih =>
    refine (lasts_ask _).bind fun ref _ => ?_
    cases item with
    | inl field =>
      refine Lasts.filled hJ.result (he ref field) (fun stop v s b hb => ?_) fun v => ?_
      · cases hb
      · exact (lasts_goOn _).bind fun _ _ => (ih (i + 1)).bind fun _ _ => lasts_pure trivial
    | inr type =>
      refine (lasts_coerced hJ ref type).bind fun v _ => ?_
      cases v with
      | none => exact lasts_pure trivial
      | some v => exact (ih (i + 1)).bind fun _ _ => lasts_pure trivial

theorem lasts_give (he : ∀ ref f d', d < d' → Lasts J Anything (eval (.ruby ref) f d')) (key : Bytes)
    {r : Reply ρ} (hr : r.Ruby d) : Lasts J Anything (give eval env key r) := by
  cases r with
  | value v => exact lasts_objectSet hJ key _
  | nothing => exact lasts_pure trivial
  | inPlace target field d' =>
    obtain ⟨⟨ref, rfl⟩, hlt⟩ := hr
    exact he ref field d' hlt
  | object target field d' =>
    obtain ⟨⟨ref, rfl⟩, hlt⟩ := hr
    refine Lasts.filled hJ.result (he ref field d' hlt) (fun stop v s b hb => ?_) fun v => ?_
    · cases hb
    · exact (lasts_objectSet hJ key v).bind fun _ _ => lasts_goOn _
  | list targets field d' => exact hr.elim
  | iterated targets field d' report => exact hr.elim
  | elements array item d' =>
    refine (lasts_length array).bind fun n _ => ?_
    refine (lasts_elements hJ array item (fun ref f => he ref f d' hr) 0 n).bind fun vs _ => ?_
    cases vs with
    | none => exact lasts_pure trivial
    | some vs => exact lasts_objectSet hJ key _

end Fill

/-- `__type` or `__schema`. -/
def Sel.isIntro : Sel → Bool
  | .field head _ _ => head.isIntro
  | .spread _ _ => false
  | .inline _ _ _ _ => false

section Runs

variable {env : Env ρ ω} {doc : Doc} (hJ : Lasting env doc J)

include hJ

theorem lasts_evalSel {eval : EvalSels ρ ω}
    (h : ∀ ref field sels d, 2 ≤ d → nodesAll sels ⊆ doc.nodes →
      Lasts J Anything (eval (.ruby ref) field sels d))
    (ref : ρ) (field : Option GqlField) {d : ℕ} (hd : 2 ≤ d) {sel : Sel} (hsel : sel.nodes ⊆ doc.nodes)
    (hintro : 2 < d ∨ sel.isIntro = false) :
    Lasts J Anything (evalSel env doc eval (.ruby ref) field d sel) := by
  have hfrag : ∀ on uses sels, nodesAll sels ⊆ doc.nodes →
      Lasts J Anything (evalFrag env doc eval (.ruby ref) field d on uses sels) :=
    fun on uses sels hin => (lasts_fragInclude hJ ref on uses).bind fun _ _ =>
      Lasts.ite (fun _ => h ref field sels d hd hin) fun _ => lasts_pure trivial
  cases sel with
  | inline on dir inlineDir sels =>
    exact hfrag on inlineDir sels (List.Subset.trans (List.subset_cons_self _ _) hsel)
  | spread name dir =>
    exact lasts_forM fun frag hmem => hfrag frag.on frag.dir frag.sels
      (frag_nodes_subset (List.mem_filter.mp hmem).1)
  | field head dir sels =>
    have hargs := fun a ha => hJ.convert _ (hsel List.mem_cons_self) a ha _ (sf_mem field head.name)
    refine (lasts_resolve hJ doc.kind ref sels.isEmpty hargs hintro).bind fun r hr => ?_
    exact lasts_give hJ (fun ref f d' hlt => h ref f sels d' (hd.trans hlt.le)
      (List.Subset.trans (List.subset_cons_self _ _) hsel)) r.1 hr

/-- Below the root an evaluation on Ruby objects that succeeds keeps what lasts. -/
theorem lasts_evalSelsFrom (n : ℕ) (ref : ρ) (field : Option GqlField) {sels : List Sel} {d : ℕ}
    (hd : 2 ≤ d) (h : nodesAll sels ⊆ doc.nodes) :
    Lasts J Anything
      (evalSelsFrom env doc (fun _ _ _ _ => throw .crash) n (.ruby ref) field sels d) := by
  induction n generalizing ref field sels d with
  | zero => exact lasts_throw _
  | succ n ih =>
    refine Lasts.ite (fun _ => lasts_setErr _ _) fun _ => lasts_forM fun sel hsel => ?_
    exact lasts_evalSel hJ (fun ref field sels d hd hin => ih ref field hd hin) ref field
      (hd.trans d.le_succ) (List.Subset.trans (nodes_subset hsel) h) (.inl (Nat.lt_succ_of_le hd))

end Runs

end Eval

end Agoo
