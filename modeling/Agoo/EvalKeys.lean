import Agoo.EvalPrune

/-!
# Keys of result objects

`gql_object_set` puts a member at the end and does not look for its key. So the members of an object
have the keys of the fields that `gql_eval_sels` collects for it, with those of all included fragments,
each as often as it was collected.

`docEval_unique`: where the fields collected for a selection set have no key in common, every object of
the result has unique keys, however the evaluation ends.
-/

namespace Agoo

namespace Eval

variable {ρ ω α β : Type}

/-! ## Collected fields -/

/-- The keys that the member of a field may get: its name for `__typename`, which has no alias, and
`subject` for a string that a subscription returns. -/
def keysOf (kind : GqlOpKind) (head : Head) : List Bytes :=
  if head.name = bytes "__typename" then [head.name]
  else if kind = .subscription then [head.key, bytes "subject"]
  else [head.key]

/-- Whether `frag_include` takes a fragment, for a target of the type. -/
def included (table : TypeTable) (doc : Doc) (cells : List (GqlValue ℕ)) (type on : Option ℕ)
    (uses : List (DirUse ℕ ℕ)) : Bool :=
  (on = none || on = type) && !excluded table doc cells uses

/-- The keys of the fields that one selection adds to an object of the type. -/
def collectSel (table : TypeTable) (doc : Doc) (cells : List (GqlValue ℕ)) (type : Option ℕ)
    (collect : List Sel → List (List Bytes)) : Sel → List (List Bytes)
  | .field head _ _ => [keysOf doc.kind head]
  | .spread name _ => (doc.frags.filter (·.name = name)).flatMap fun frag =>
    if included table doc cells type frag.on frag.dir then collect frag.sels else []
  | .inline on _ inlineDir sels =>
    if included table doc cells type on inlineDir then collect sels else []

/-- The keys of the fields that selections add to an object of the type, through fragments that nest
up to `n` deep. -/
def collect (table : TypeTable) (doc : Doc) (cells : List (GqlValue ℕ)) (type : Option ℕ) :
    ℕ → List Sel → List (List Bytes)
  | 0, _ => []
  | n + 1, sels => sels.flatMap (collectSel table doc cells type (collect table doc cells type n))

/-- No two fields that are collected for an object can get one key. -/
def Apart (table : TypeTable) (doc : Doc) (cells : List (GqlValue ℕ)) (sels : List Sel) : Prop :=
  ∀ type n, (collect table doc cells type n sels).Pairwise List.Disjoint

/-- The selections of a field. -/
def Sel.sels : Sel → List Sel
  | .field _ _ sels => sels
  | .spread _ _ => []
  | .inline _ _ _ _ => []

/-- Fields that are collected for one object have no key in common. -/
def Doc.Apart (doc : Doc) (table : TypeTable) (cells : List (GqlValue ℕ)) : Prop :=
  Eval.Apart table doc cells doc.sels ∧ ∀ sel ∈ doc.nodes, Eval.Apart table doc cells sel.sels

/-! ## Unique keys -/

/-- No object in the value has two members with the same key. -/
def UniqueKeys (v : GqlValue ℕ) : Prop :=
  v.All fun u => ∀ ms, u = .object ms → (ms.map Prod.fst).Nodup

theorem uniqueKeys_leaf (v : Leaf) : UniqueKeys v.1 := fun u hu ms h => absurd h (v.2 u hu ms)

theorem uniqueKeys_list {vs : List (GqlValue ℕ)} (h : ∀ v ∈ vs, UniqueKeys v) :
    UniqueKeys (.list none vs) := GqlValue.all_list.mpr ⟨nofun, h⟩

/-- Members with keys from the lists. -/
def Keyed (ms : List (Bytes × GqlValue ℕ)) (ks : List (List Bytes)) : Prop :=
  List.Forall₂ (fun m k => m.1 ∈ k ∧ UniqueKeys m.2) ms ks

theorem uniqueKeys_object {ms : List (Bytes × GqlValue ℕ)} {ks : List (List Bytes)}
    (h : Keyed ms ks) (hks : ks.Pairwise List.Disjoint) : UniqueKeys (.object ms) := by
  refine GqlValue.all_object.mpr ⟨?_, ?_⟩
  · rintro _ ⟨⟩
    induction h with
    | nil => exact List.nodup_nil
    | @cons m k ms ks hm hms ih =>
      obtain ⟨hk, hks⟩ := List.pairwise_cons.mp hks
      refine List.nodup_cons.mpr ⟨fun hmem => ?_, ih hks⟩
      obtain ⟨m', hm', hkey⟩ := List.mem_map.mp hmem
      obtain ⟨i, hi, rfl⟩ := List.mem_iff_getElem.mp hm'
      have hlen := List.Forall₂.length_eq hms
      have hget := (List.forall₂_iff_get.mp hms).2 i hi (hlen ▸ hi)
      exact hk _ (List.getElem_mem (hlen ▸ hi)) hm.1 (hkey ▸ hget.1)
  · intro m hm
    induction h with
    | nil => cases hm
    | cons hm' hms ih =>
      rcases List.mem_cons.mp hm with rfl | hm
      · exact hm'.2
      · exact ih (List.pairwise_cons.mp hks).2 hm

/-! ## What an evaluation adds to the result -/

/-- The variables of directives are as they were, and the result is `R`. -/
def Holding (doc : Doc) (cells : List (GqlValue ℕ)) (R : List (Bytes × GqlValue ℕ)) (s : State ω) :
    Prop := Kept doc cells s ∧ s.result = R

theorem stable_holding (doc : Doc) (cells : List (GqlValue ℕ)) (R : List (Bytes × GqlValue ℕ)) :
    Stable (Holding (ω := ω) doc cells R) :=
  fun s s' hcells hresult hfuncs hs =>
    ⟨free_kept doc cells s s' hcells hfuncs hs.1, hresult.trans hs.2⟩

section Adds

variable {doc : Doc} {cells : List (GqlValue ℕ)}

/-- The evaluation adds members with keys from some of the lists, and unique keys inside. -/
def Adds (doc : Doc) (cells : List (GqlValue ℕ)) (K : List (List Bytes)) (p : EvalM ω α) : Prop :=
  ∀ s, Kept doc cells s → Kept doc cells (exec p s).2 ∧
    ∃ ms ks, (exec p s).2.result = s.result ++ ms ∧ Keyed ms ks ∧ ks.Sublist K

/-- The evaluation leaves the result as it is. -/
def Leaves (doc : Doc) (cells : List (GqlValue ℕ)) (Q : α → Prop) (p : EvalM ω α) : Prop :=
  ∀ R, Meets (Holding doc cells R) Q p

variable {K K' : List (List Bytes)} {Q : α → Prop}

theorem Leaves.adds {p : EvalM ω α} (h : Leaves doc cells Q p) : Adds doc cells K p := by
  intro s hs
  obtain ⟨hkept, hresult⟩ := (h s.result s ⟨hs, rfl⟩).1
  exact ⟨hkept, [], [], hresult.trans (List.append_nil _).symm, .nil, List.nil_sublist K⟩

theorem Adds.bind {p : EvalM ω α} {f : α → EvalM ω β} (h : Adds doc cells K p)
    (hf : ∀ a, Adds doc cells K' (f a)) : Adds doc cells (K ++ K') (p >>= f) := by
  intro s hs
  obtain ⟨hkept, ms, ks, hresult, hkeyed, hsub⟩ := h s hs
  cases hp : exec p s with
  | mk o s' =>
    rw [hp] at hkept hresult
    cases o with
    | error e =>
      rw [exec_bind_error hp]
      exact ⟨hkept, ms, ks, hresult, hkeyed, hsub.trans (List.sublist_append_left K K')⟩
    | ok a =>
      rw [exec_bind_ok hp]
      obtain ⟨hkept', ms', ks', hresult', hkeyed', hsub'⟩ := hf a s' hkept
      refine ⟨hkept', ms ++ ms', ks ++ ks', ?_, List.rel_append hkeyed hkeyed', hsub.append hsub'⟩
      rw [hresult', hresult, List.append_assoc]

theorem Leaves.bind {p : EvalM ω α} {f : α → EvalM ω β} (h : Leaves doc cells Q p)
    (hf : ∀ a, Q a → Adds doc cells K (f a)) : Adds doc cells K (p >>= f) := by
  intro s hs
  obtain ⟨⟨hkept, hresult⟩, hQ⟩ := h s.result s ⟨hs, rfl⟩
  cases hp : exec p s with
  | mk o s' =>
    rw [hp] at hkept hresult hQ
    cases o with
    | error e =>
      rw [exec_bind_error hp]
      exact ⟨hkept, [], [], hresult.trans (List.append_nil _).symm, .nil, List.nil_sublist K⟩
    | ok a =>
      rw [exec_bind_ok hp]
      obtain ⟨hkept', ms, ks, hresult', hkeyed, hsub⟩ := hf a (hQ a rfl) s' hkept
      exact ⟨hkept', ms, ks, by rw [hresult', hresult], hkeyed, hsub⟩

theorem adds_forM {γ : Type} {f : γ → EvalM ω PUnit} {g : γ → List (List Bytes)} {xs : List γ}
    (h : ∀ x ∈ xs, Adds doc cells (g x) (f x)) : Adds doc cells (xs.flatMap g) (xs.forM f) := by
  induction xs with
  | nil => exact Leaves.adds (Q := Anything) fun R => meets_pure trivial
  | cons x xs ih =>
    exact (h x List.mem_cons_self).bind fun _ => ih fun y hy => h y (List.mem_cons_of_mem x hy)

theorem adds_objectSet {key : Bytes} {k : List Bytes} {v : GqlValue ℕ} (hkey : key ∈ k)
    (hv : UniqueKeys v) : Adds (ω := ω) doc cells [k] (objectSet key v) := by
  intro s hs
  exact ⟨hs, [(key, v)], [k], rfl, .cons ⟨hkey, hv⟩ .nil, List.Sublist.refl _⟩

theorem Adds.then {p : EvalM ω α} {f : α → EvalM ω β} (h : Adds doc cells K p)
    (hf : ∀ a, Leaves doc cells Anything (f a)) : Adds doc cells K (p >>= f) := by
  have hbind : Adds doc cells (K ++ []) (p >>= f) := h.bind fun a => (hf a).adds
  rwa [List.append_nil] at hbind

theorem adds_setErr (code : ErrCode) (msg : Bytes) :
    Adds doc cells K (setErr code msg : EvalM ω α) :=
  Leaves.adds (Q := Anything) fun R => meets_setErr (stable_holding doc cells R) code msg

theorem unique_of_adds {p : EvalM ω α} (h : Adds doc cells K p) (hK : K.Pairwise List.Disjoint)
    {s : State ω} (hs : Kept doc cells s) (hempty : s.result = []) :
    UniqueKeys (.object (exec p s).2.result) := by
  obtain ⟨-, ms, ks, hresult, hkeyed, hsub⟩ := h s hs
  rw [hresult, hempty]
  exact uniqueKeys_object hkeyed (hK.sublist hsub)

theorem unique_of_leaves {p : EvalM ω α} {f : α → EvalM ω β} (h : Leaves doc cells Q p)
    (hf : ∀ a (s' : State ω), Kept doc cells s' → s'.result = [] →
      UniqueKeys (.object (exec (f a) s').2.result)) {s : State ω} (hs : Kept doc cells s)
    (hempty : s.result = []) : UniqueKeys (.object (exec (p >>= f) s).2.result) := by
  obtain ⟨⟨hkept, hresult⟩, -⟩ := h [] s ⟨hs, hempty⟩
  cases hp : exec p s with
  | mk o s' =>
    rw [hp] at hkept hresult
    cases o with
    | error e =>
      rw [exec_bind_error hp, hresult]
      exact uniqueKeys_object .nil List.Pairwise.nil
    | ok a =>
      rw [exec_bind_ok hp]
      exact hf a s' hkept hresult

/-- A new object that is filled with members of which no two can have one key. -/
theorem leaves_filled {p : EvalM ω Unit} (h : Adds doc cells K p) (hK : K.Pairwise List.Disjoint) :
    Leaves doc cells (fun r => UniqueKeys r.2) (filled p) := by
  intro R s hs
  obtain ⟨hkept, ms, ks, hresult, hkeyed, hsub⟩ := h { s with result := [] } hs.1
  rw [exec_filled]
  refine ⟨⟨hkept, hs.2⟩, fun r hr => ?_⟩
  obtain rfl := Except.ok.inj hr
  dsimp only
  rw [hresult]
  exact uniqueKeys_object hkeyed (hK.sublist hsub)

end Adds

/-! ## Filling -/

section Fill

variable {env : Env ρ ω} {doc : Doc} {cells : List (GqlValue ℕ)}
  {eval : Target ρ → Option GqlField → ℕ → EvalM ω Unit}

theorem leaves_pure {Q : α → Prop} {a : α} (h : Q a) :
    Leaves doc cells Q (pure a : EvalM ω α) := fun _ => meets_pure h

theorem leaves_throw {Q : α → Prop} (e : Stop) : Leaves doc cells Q (throw e : EvalM ω α) :=
  fun _ => meets_throw e

theorem Leaves.after {Q : α → Prop} {R : β → Prop} {p : EvalM ω α} {f : α → EvalM ω β}
    (h : Leaves doc cells Q p) (hf : ∀ a, Q a → Leaves doc cells R (f a)) :
    Leaves doc cells R (p >>= f) := fun S => (h S).bind fun a ha => hf a ha S

/-- Every evaluation on a target fills an object with unique keys. -/
def Fills (doc : Doc) (cells : List (GqlValue ℕ))
    (eval : Target ρ → Option GqlField → ℕ → EvalM ω Unit) : Prop :=
  ∀ target field d, ∃ K : List (List Bytes), K.Pairwise List.Disjoint ∧
    Adds doc cells K (eval target field d)

theorem Fills.filled (h : Fills doc cells eval) (target : Target ρ) (field : Option GqlField) (d : ℕ) :
    Leaves doc cells (fun r => UniqueKeys r.2) (filled (eval target field d)) := by
  obtain ⟨K, hK, hadds⟩ := h target field d
  exact leaves_filled hadds hK

theorem leaves_filledAll (h : Fills doc cells eval) (field : Option GqlField) (d : ℕ)
    (targets : List (Target ρ)) :
    Leaves doc cells (fun r => ∀ v ∈ r.2, UniqueKeys v) (filledAll eval field d targets) := by
  induction targets with
  | nil => exact leaves_pure nofun
  | cons target rest ih =>
    refine (h.filled target field d).after fun r hr => ?_
    split
    · exact leaves_pure (List.forall_mem_singleton.mpr hr)
    · exact ih.after fun rs hrs => leaves_pure (List.forall_mem_cons.mpr ⟨hr, hrs⟩)

theorem leaves_filledWhile (h : Fills doc cells eval) (field : Option GqlField) (d : ℕ)
    (targets : List (Target ρ)) :
    Leaves doc cells (fun r => ∀ v ∈ r.2, UniqueKeys v) (filledWhile eval field d targets) := by
  induction targets with
  | nil => exact leaves_pure nofun
  | cons target rest ih =>
    refine Leaves.after (Q := Anything) (fun R => meets_get.mono fun _ _ => trivial) fun s _ => ?_
    split_ifs
    · exact leaves_pure nofun
    · refine (h.filled target field d).after fun r hr => ?_
      split
      · exact leaves_pure (List.forall_mem_singleton.mpr hr)
      · exact leaves_pure (List.forall_mem_singleton.mpr hr)
      · exact ih.after fun rs hrs => leaves_pure (List.forall_mem_cons.mpr ⟨hr, hrs⟩)

theorem leaves_elements (h : Fills doc cells eval) (array : ρ) (item : Option GqlField ⊕ Option ℕ)
    (d i n : ℕ) :
    Leaves doc cells (fun vs => ∀ l, vs = some l → ∀ v ∈ l, UniqueKeys v)
      (elements eval env array item d i n) := by
  induction n generalizing i with
  | zero =>
    refine leaves_pure fun l hl => ?_
    obtain rfl := Option.some.inj hl
    exact nofun
  | succ n ih =>
    have hrest : ∀ u : GqlValue ℕ, UniqueKeys u →
        Leaves doc cells (fun vs => ∀ l, vs = some l → ∀ v ∈ l, UniqueKeys v)
          (do return (← elements eval env array item d (i + 1) n).map (u :: ·)) := by
      intro u hu
      refine (ih (i + 1)).after fun vs hvs => leaves_pure fun l hl => ?_
      obtain ⟨l', hl', rfl⟩ := Option.map_eq_some_iff.mp hl
      exact List.forall_mem_cons.mpr ⟨hu, hvs l' hl'⟩
    refine Leaves.after (fun R => meets_ask _) fun ref _ => ?_
    cases item with
    | inl field =>
      exact (h.filled _ field d).after fun r hr =>
        Leaves.after (fun R => meets_goOn _) fun _ _ => hrest r.2 hr
    | inr type =>
      refine Leaves.after (fun R => meets_coerced (stable_holding doc cells R) ref type) fun v _ => ?_
      cases v with
      | none => exact leaves_pure fun l hl => by cases hl
      | some v => exact hrest v.1 (uniqueKeys_leaf v)

/-- A reply, other than to fill the result itself, adds one member. -/
theorem adds_give (h : Fills doc cells eval) {key : Bytes} {k : List Bytes} (hkey : key ∈ k)
    {r : Reply ρ} (hr : ∀ target field d, r ≠ .inPlace target field d) :
    Adds doc cells [k] (give eval env key r) := by
  have hgoOn : ∀ o, Leaves (ω := ω) doc cells Anything (goOn o) := fun o R => meets_goOn o
  cases r with
  | value v => exact adds_objectSet hkey (uniqueKeys_leaf v)
  | nothing => exact (leaves_pure (Q := Anything) trivial).adds
  | inPlace target field d' => exact absurd rfl (hr target field d')
  | object target field d' =>
    exact (h.filled target field d').bind fun r hr =>
      (adds_objectSet hkey hr).then fun _ => hgoOn r.1
  | list targets field d' =>
    exact (leaves_filledAll h field d' targets).bind fun r hr =>
      (adds_objectSet hkey (uniqueKeys_list hr)).then fun _ => hgoOn r.1
  | iterated targets field d' report =>
    refine (leaves_filledWhile h field d' targets).bind fun r hr => ?_
    refine (adds_objectSet hkey (uniqueKeys_list hr)).then fun _ => (hgoOn r.1).after fun _ _ => ?_
    exact fun R => Meets.ite (fun _ => meets_errCode) fun _ => meets_pure trivial
  | elements array item d' =>
    refine Leaves.bind (fun R => meets_ruby (stable_holding doc cells R) _) fun n _ => ?_
    refine (leaves_elements h array item d' 0 n).bind fun vs hvs => ?_
    cases vs with
    | none => exact (leaves_pure (Q := Anything) trivial).adds
    | some vs => exact adds_objectSet hkey (uniqueKeys_list (hvs vs rfl))

end Fill

/-! ## Keys of replies -/

section Keys

variable {env : Env ρ ω} {I : State ω → Prop}

theorem typename_no_method (obj : Cobj) : (obj.methods env).lookup (bytes "__typename") = none := by
  cases obj with
  | root => rfl
  | schema => rfl
  | type t => rfl
  | field f => rfl
  | inputValue a => rfl
  | enumValue v => rfl
  | directive d => rfl

theorem key_mem_keysOf {kind : GqlOpKind} {head : Head} (h : head.name ≠ bytes "__typename") :
    head.key ∈ keysOf kind head := by
  unfold keysOf
  rw [if_neg h]
  split_ifs
  · exact List.mem_cons_self
  · exact List.mem_cons_self

variable (hI : Stable I)

include hI

theorem meets_resolve_key (kind : GqlOpKind) (target : Target ρ) {field : Option GqlField} {head : Head}
    (noSels : Bool) (depth : ℕ) (h : ∀ a ∈ head.args, Converts env I field a) :
    Meets I (fun r => r.1 ∈ keysOf kind head) (resolve env kind target field head noSels depth) := by
  refine meets_get.bind fun s _ => ?_
  split
  · rename_i ref _
    refine Meets.ite (fun _ => Meets.ite (fun hname => ?_) fun hname => ?_) fun hname => ?_
    · refine (meets_ask _).bind fun t _ => ?_
      cases t with
      | none => exact meets_setErr hI _ _
      | some t =>
        refine meets_pure ?_
        unfold keysOf
        rw [if_pos hname]
        exact List.mem_cons_self
    · cases kind with
      | query => exact (meets_introEval hI head depth).bind fun _ _ => meets_pure (key_mem_keysOf hname)
      | mutation => exact meets_setErr hI _ _
      | subscription => exact meets_setErr hI _ _
    · have hne : head.name ≠ bytes "__typename" := fun heq => hname (by rw [heq]; decide)
      refine (meets_callMethod hI ref h).bind fun child _ => ?_
      have hsubject : Meets I (fun s => ∀ b, s = some b → kind = .subscription)
          (ask (subjectOf env kind child)) := by
        refine meets_get.bind fun s _ => meets_pure fun b hb => ?_
        unfold subjectOf at hb
        split_ifs at hb with hkind
        exact hkind
      refine hsubject.bind fun subject hsub => ?_
      cases subject with
      | some b =>
        refine meets_pure ?_
        unfold keysOf
        rw [if_neg hne, if_pos (hsub b rfl)]
        exact List.mem_cons_of_mem _ List.mem_cons_self
      | none =>
        exact (meets_resolveChild hI child field head noSels depth).bind fun _ _ =>
          meets_pure (key_mem_keysOf hne)
  · rename_i obj _
    by_cases hname : head.name = bytes "__typename"
    · have hcobj : cobjResolve env obj field head depth =
          setErr .eval (head.name ++ bytes " is not a field on " ++ obj.className ++ bytes ".") := by
        unfold cobjResolve
        rw [hname, typename_no_method]
      rw [hcobj]
      exact (meets_setErr hI (Q := fun _ => False) _ _).bind fun _ hfalse => hfalse.elim
    · exact (meets_cobjResolve hI obj field head depth h).bind fun _ _ =>
        meets_pure (key_mem_keysOf hname)
  · exact meets_throw _
  · exact meets_throw _

end Keys

/-! ## Evaluations -/

section Runs

variable {env : Env ρ ω} {doc : Doc} {cells : List (GqlValue ℕ)} {ty : ρ → Option ℕ}

/-- The type of a target, when Ruby objects keep their classes. -/
def targetType (env : Env ρ ω) (ty : ρ → Option ℕ) : Target ρ → Option ℕ
  | .ruby ref => ty ref
  | .cobj obj => env.table.typeGet obj.className

variable (hty : ∀ ref w, env.refType ref w = ty ref)

include hty

theorem leaves_typeOf (target : Target ρ) :
    Leaves doc cells (fun t => t = targetType env ty target) (typeOf (ω := ω) env target) := by
  intro R
  refine meets_get.bind fun s _ => ?_
  split
  · exact meets_get.bind fun s _ => meets_pure (hty _ _)
  · exact meets_pure rfl
  · exact meets_throw _
  · exact meets_throw _

theorem leaves_fragInclude (target : Target ρ) (on : Option ℕ) {uses : List (DirUse ℕ ℕ)}
    (huses : uses ⊆ doc.uses) :
    Leaves doc cells (fun b => b = true →
      included env.table doc cells (targetType env ty target) on uses = true)
      (fragInclude (ω := ω) env doc target on uses) := by
  have hdir : ∀ type, (on = none || on = type) = true →
      Leaves (ω := ω) doc cells (fun b => b = true →
        included env.table doc cells type on uses = true) (dirInclude env doc uses) := by
    intro type hon R s hs
    rw [exec_dirInclude hs.1 huses]
    refine ⟨hs, fun b hb hin => ?_⟩
    obtain rfl := Except.ok.inj hb
    unfold included
    rw [hon, hin]
    rfl
  cases on with
  | none => exact hdir _ rfl
  | some t =>
    refine (leaves_typeOf hty target).after fun type htype => ?_
    split_ifs with hne
    · exact leaves_pure fun hfalse => by cases hfalse
    · refine hdir _ ?_
      rw [← htype, not_not.mp hne]
      simp

variable {eval : EvalSels ρ ω} {c : Option ℕ → List Sel → List (List Bytes)}
  (heval : ∀ target field sels d, nodesAll sels ⊆ doc.nodes →
    Adds doc cells (c (targetType env ty target) sels) (eval target field sels d))

include heval

theorem adds_evalFrag (target : Target ρ) (field : Option GqlField) (d : ℕ) (on : Option ℕ)
    {uses : List (DirUse ℕ ℕ)} (huses : uses ⊆ doc.uses) {sels : List Sel}
    (hin : nodesAll sels ⊆ doc.nodes) :
    Adds doc cells
      (if included env.table doc cells (targetType env ty target) on uses then
        c (targetType env ty target) sels else [])
      (evalFrag env doc eval target field d on uses sels) := by
  refine (leaves_fragInclude hty target on huses).bind fun b hb => ?_
  cases b with
  | false => exact (leaves_pure (Q := Anything) trivial).adds
  | true =>
    rw [if_pos (hb rfl)]
    exact heval target field sels d hin

variable (hsteady : Steady env doc cells) (hapart : ∀ sel ∈ doc.nodes, ∀ type,
  (c type sel.sels).Pairwise List.Disjoint)

include hsteady hapart

theorem adds_evalSel (target : Target ρ) (field : Option GqlField) (d : ℕ) {sel : Sel}
    (hsel : sel.nodes ⊆ doc.nodes) :
    Adds doc cells (collectSel env.table doc cells (targetType env ty target)
        (c (targetType env ty target)) sel)
      (evalSel env doc eval target field (d + 1) sel) := by
  cases sel with
  | inline on dir inlineDir sels =>
    refine adds_evalFrag hty heval target field (d + 1) on (fun use hu => ?_)
      (List.Subset.trans (List.subset_cons_self _ _) hsel)
    exact mem_uses (hsel List.mem_cons_self) (List.mem_append_right dir hu)
  | spread name dir =>
    refine adds_forM fun frag hfrag => ?_
    have hmem := (List.mem_filter.mp hfrag).1
    refine adds_evalFrag hty heval target field (d + 1) frag.on (fun use hu => ?_)
      (frag_nodes_subset hmem)
    exact List.mem_append_right _ (List.mem_flatMap.mpr ⟨frag, hmem, hu⟩)
  | field head dir sels =>
    have hmem := hsel List.mem_cons_self
    have hin := List.Subset.trans (List.subset_cons_self _ _) hsel
    have hargs : ∀ R, ∀ a ∈ head.args, Converts env (Holding doc cells R)
        (field.bind fun f => getField env.table f.type head.name) a := by
      intro R a ha fa hfa s v i hs hcell hv
      exact ⟨converts_kept hsteady hmem ha (sf_mem field head.name) fa hfa s v i hs.1 hcell hv, hs.2⟩
    have hfills : Fills doc cells fun t f d' => eval t f sels d' := fun t f d' =>
      ⟨_, hapart _ hmem (targetType env ty t), heval t f sels d' hin⟩
    have hresolve : Leaves doc cells (fun r => r.1 ∈ keysOf doc.kind head ∧ r.2.Deeper (d + 1))
        (resolve env doc.kind target (field.bind fun f => getField env.table f.type head.name) head
          sels.isEmpty (d + 1)) := by
      intro R s hs
      have hstable := stable_holding (ω := ω) doc cells R
      have hkey := meets_resolve_key hstable doc.kind target sels.isEmpty (d + 1) (hargs R) s hs
      have hdeep := meets_resolve hstable doc.kind target sels.isEmpty (d + 1) (hargs R) s hs
      exact ⟨hkey.1, fun r hr => ⟨hkey.2 r hr, hdeep.2 r hr⟩⟩
    refine hresolve.bind fun r hr => adds_give hfills hr.1 fun t f d' heq => ?_
    have hdeep := hr.2
    rw [heq] at hdeep
    exact Nat.succ_ne_zero d hdeep.1

end Runs

section Doc

variable {env : Env ρ ω} {doc : Doc} {cells : List (GqlValue ℕ)} {ty : ρ → Option ℕ}
  (hty : ∀ ref w, env.refType ref w = ty ref) (hsteady : Steady env doc cells)
  (hapart : doc.Apart env.table cells)

include hty hsteady hapart

/-- An evaluation adds members with the keys of the fields that are collected. -/
theorem adds_evalSelsFrom (n : ℕ) (target : Target ρ) (field : Option GqlField) {sels : List Sel}
    (d : ℕ) (hin : nodesAll sels ⊆ doc.nodes) :
    Adds doc cells (collect env.table doc cells (targetType env ty target) n sels)
      (evalSelsFrom env doc (fun _ _ _ _ => throw .crash) n target field sels d) := by
  induction n generalizing target field sels d with
  | zero => exact (leaves_throw (Q := Anything) _).adds
  | succ n ih =>
    change Adds doc cells _ (if maxDepth < d then _ else _)
    split_ifs
    · exact adds_setErr _ _
    · refine adds_forM fun sel hsel => ?_
      exact adds_evalSel hty (c := fun type => collect env.table doc cells type n)
        (fun t f sels d hin => ih t f d hin) hsteady (fun sel hsel type => hapart.2 sel hsel type n)
        target field d (List.Subset.trans (nodes_subset hsel) hin)

end Doc

/-- The keys of a field, and none for a fragment. -/
def Sel.keys (kind : GqlOpKind) : Sel → Option (List Bytes)
  | .field head _ _ => some (keysOf kind head)
  | .spread _ _ => none
  | .inline _ _ _ _ => none

/-- Without fragments the fields that are collected are the selections. -/
theorem apart_of_fields {table : TypeTable} {doc : Doc} {cells : List (GqlValue ℕ)} {sels : List Sel}
    (ks : List (List Bytes)) (h : sels.map (Sel.keys doc.kind) = ks.map some)
    (hks : ks.Pairwise List.Disjoint) : Apart table doc cells sels := by
  intro type n
  cases n with
  | zero => exact List.Pairwise.nil
  | succ n =>
    suffices hcollect : collect table doc cells type (n + 1) sels = ks by rwa [hcollect]
    clear hks
    induction sels generalizing ks with
    | nil =>
      cases ks with
      | nil => rfl
      | cons k ks => cases h
    | cons sel rest ih =>
      cases ks with
      | nil => cases h
      | cons k ks =>
        obtain ⟨hk, hrest⟩ := List.cons.inj h
        cases sel with
        | field head dir sels =>
          obtain rfl := Option.some.inj hk
          exact congrArg (keysOf doc.kind head :: ·) (ih ks hrest)
        | spread frag dir => cases hk
        | inline on dir inlineDir sels => cases hk

/-- `{ a q { b a } }`. -/
def nestedFields : Doc :=
  Sample.doc [Sample.string "a" [],
    .field ⟨none, bytes "q", some Sample.query, []⟩ [] [Sample.string "b" [], Sample.string "a" []]]

end Eval

end Agoo
