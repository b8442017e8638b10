import Agoo.UpList

/-!
# Loops over the upgraded connections (`con.c`)

The loops of `publish_pub` and `unsubscribe_pub` go over `agoo_server.up_list` while other threads change it.

`upList_iff`: in every run the list is well formed; the loops reach each live connection and no other one if and
only if no connection is destroyed where a loop is, and no global unsubscribe is processed while there is one.
`publish_alone`: what a publication sends when nothing else happens.
-/

namespace Agoo

namespace UpList

open Publish LinkedList

/-! ## What should hold -/

/-- From where the loop is, `next` leads to the end over live connections; with those that had a round these are
all that are due, and none comes twice. -/
def Walk.Reaches (w : Walk) (s : State) : Prop :=
  ∃ rest, Follows s.heap w.up rest ∧ (∀ u ∈ rest, s.live u = true) ∧ (w.seen ++ rest).Nodup ∧
    ∀ u, w.due u = true → u ∈ w.seen ++ rest

def State.Reached (s : State) : Prop := ∀ i w, s.working i = some w → w.Reaches s

/-- A connection is not destroyed where a loop is; a global unsubscribe is processed when there is none. -/
def Action.Ok (s : State) : Action → Prop
  | .release u => s.lastRef u = true → ∀ i w, s.working i = some w → w.up ≠ some u
  | .releaseCon u => s.lastRef u = true → ∀ i w, s.working i = some w → w.up ≠ some u
  | .take _ (.unsubscribeAll _) => s.upList = none
  | _ => True

/-! ## The loops reach each live connection -/

namespace Walk

variable {w : Walk} {l : List ℕ} {u : ℕ}

/-- What is left for the loop is the end of the list; with the rounds it had, that is all that is due. -/
def Ahead (w : Walk) (l : List ℕ) : Prop :=
  ∃ rest, rest <:+ l ∧ w.up = rest.head? ∧ (w.seen ++ rest).Nodup ∧ ∀ u, w.due u = true → u ∈ w.seen ++ rest

/-- A connection that is added is behind the loop. -/
theorem Ahead.cons (h : w.Ahead l) (u : ℕ) : w.Ahead (u :: l) := by
  obtain ⟨rest, hsuffix, hrest⟩ := h
  exact ⟨rest, hsuffix.trans (List.suffix_cons u l), hrest⟩

/-- A connection where the loop is not is destroyed. -/
theorem Ahead.erase (h : w.Ahead l) (hnodup : l.Nodup) (hu : w.up ≠ some u) :
    (w.forget u).Ahead (l.erase u) := by
  obtain ⟨rest, ⟨front, rfl⟩, hup, honce, hdue⟩ := h
  refine ⟨rest.erase u, ?_, ?_, ?_, fun v hv => ?_⟩
  · rw [List.erase_append]
    split_ifs with hfront
    · rw [List.erase_of_not_mem (List.disjoint_of_nodup_append hnodup hfront)]
      exact List.suffix_append _ _
    · exact List.suffix_append _ _
  · cases rest with
    | nil => exact hup
    | cons v rest =>
      have hvu : v ≠ u := fun heq => hu (hup.trans (congrArg some heq))
      rw [List.erase_cons_tail (by simpa using hvu)]
      exact hup
  · exact honce.sublist (List.Sublist.append_left List.erase_sublist _)
  · have hvu : v ≠ u := by
      rintro rfl
      simp [forget] at hv
    have hv' : w.due v = true := (Function.update_of_ne hvu ..).symm.trans hv
    rcases List.mem_append.mp (hdue v hv') with hseen | hrest
    · exact List.mem_append_left _ hseen
    · exact List.mem_append_right _ ((List.mem_erase_of_ne hvu).mpr hrest)

/-- A round. -/
theorem Ahead.next {h : Heap ℕ Upgraded} {up : Cell ℕ Upgraded} (hw : w.Ahead l) (hl : Linked h none l none)
    (hu : w.up = some u) (hup : h u = some up) : Ahead { w with up := up.next, seen := w.seen ++ [u] } l := by
  obtain ⟨rest, hsuffix, hrest, honce, hdue⟩ := hw
  obtain ⟨rest, rfl⟩ := List.head?_eq_some_iff.mp (hrest.symm.trans hu)
  have hfollows := hl.follows_suffix hsuffix
  obtain ⟨-, up', hup', hbehind⟩ := hfollows
  obtain rfl := Option.some.inj (hup.symm.trans hup')
  have happend : (w.seen ++ [u]) ++ rest = w.seen ++ u :: rest := by simp
  refine ⟨rest, (List.suffix_cons u rest).trans hsuffix, ?_, by rwa [happend], fun v hv => ?_⟩
  · cases rest with
    | nil => exact hbehind
    | cons v rest => exact hbehind.1
  · rw [happend]
    exact hdue v hv

theorem Ahead.reaches {s : State} (h : w.Ahead l) (hl : s.Listed l) : w.Reaches s := by
  obtain ⟨rest, hsuffix, hup, honce, hdue⟩ := h
  refine ⟨rest, ?_, fun u hu => (hl.mem u).mp (hsuffix.subset hu), honce, hdue⟩
  rw [hup]
  exact hl.linked.follows_suffix hsuffix

/-- A loop that has ended reached all that were due. -/
theorem Reaches.done {s : State} (h : w.Reaches s) (hup : w.up = none) : ∀ u, w.due u = true → u ∈ w.seen := by
  obtain ⟨rest, hrest, -, -, hdue⟩ := h
  rw [hup] at hrest
  cases rest with
  | nil => simpa using hdue
  | cons u rest => cases hrest.1

end Walk

namespace State

variable {s s' : State} {l l' : List ℕ} {a : Action}

/-! ### What a step does -/

/-- What a step does to the list of the live connections and to the loops. -/
inductive Change (s s' : State) (l : List ℕ) : Action → List ℕ → Prop
  | stay {a : Action} (hok : a.Ok s) (hworking : s'.working = s.working) : Change s s' l a l
  | add (u : ℕ) (hworking : s'.working = s.working) : Change s s' l (.add u) (u :: l)
  | destroy {a : Action} (u : ℕ) (ha : a = .release u ∨ a = .releaseCon u) (hlast : s.lastRef u = true)
      (hworking : s'.working = s.forget u) (hfree : s'.heap u = none) : Change s s' l a (l.erase u)
  | take (loop : ℕ) (r : Request) (hworking : s'.working = Function.update s.working loop
      (some ⟨r.pub, s.firstOf r, [], fun u => isGlobal r && s.live u⟩)) : Change s s' l (.take loop r) l
  | round (loop u : ℕ) (w : Walk) (up : Cell ℕ Upgraded) (hw : s.working loop = some w) (hu : w.up = some u)
      (hup : s.heap u = some up) (hworking : s'.working = Function.update s.working loop
      (some { w with up := up.next, seen := w.seen ++ [u] })) : Change s s' l (.round loop) l
  | finish (loop : ℕ) (hworking : s'.working = Function.update s.working loop none) :
      Change s s' l (.finish loop) l

theorem Stays.change (hs : Stays s s') (h : Listed s l) (hok : a.Ok s) : ∃ l', Listed s' l' ∧ Change s s' l a l' :=
  ⟨l, hs.listed h, .stay hok hs.working⟩

theorem Listed.change (h : Listed s l) (hstep : step s a = some s') : ∃ l', Listed s' l' ∧ Change s s' l a l' := by
  cases a with
  | create u c hd =>
    obtain ⟨hlisted, hworking⟩ := h.create hstep
    exact ⟨l, hlisted, .stay trivial hworking⟩
  | add u =>
    obtain ⟨hu, hstep⟩ := Option.ite_none_right_eq_some.mp hstep
    obtain ⟨hlisted, hworking⟩ := h.add hu hstep
    exact ⟨u :: l, hlisted, .add u hworking⟩
  | ref u => exact (stays_modify (Option.ite_none_right_eq_some.mp hstep).2 fun _ _ => rfl).change h trivial
  | unref u => exact (stays_modify (Option.ite_none_right_eq_some.mp hstep).2 fun _ _ => rfl).change h trivial
  | release u =>
    obtain ⟨hu, hstep⟩ := Option.ite_none_right_eq_some.mp hstep
    rcases h.release hu hstep with ⟨hmore, hstays⟩ | ⟨hlast, hlisted, hworking, hfree⟩
    · exact hstays.change h fun hlast => by rw [hmore] at hlast; cases hlast
    · exact ⟨_, hlisted, .destroy u (.inl rfl) hlast hworking hfree⟩
  | releaseCon u =>
    obtain ⟨hu, hstep⟩ := Option.ite_none_right_eq_some.mp hstep
    rcases h.releaseCon hu hstep with ⟨hmore, hlisted, hworking⟩ | ⟨hlast, hlisted, hworking, hfree⟩
    · exact ⟨l, hlisted, .stay (fun hlast => by rw [hmore] at hlast; cases hlast) hworking⟩
    · exact ⟨_, hlisted, .destroy u (.inr rfl) hlast hworking hfree⟩
  | take loop r =>
    obtain ⟨hlisted, hworking⟩ := h.take (Option.ite_none_right_eq_some.mp hstep).2
    exact ⟨l, hlisted, .take loop r hworking⟩
  | round loop =>
    obtain ⟨w, u, up, hw, hu, hup, hlisted, hworking⟩ := h.round hstep
    exact ⟨l, hlisted, .round loop u w up hw hu hup hworking⟩
  | finish loop =>
    obtain ⟨w, -, hstep⟩ := Option.bind_eq_some_iff.mp hstep
    obtain ⟨-, hstep⟩ := Option.ite_none_right_eq_some.mp hstep
    obtain rfl := Option.some.inj hstep
    exact ⟨l, h.setWorking _, .finish loop rfl⟩

/-! ### The loops keep their way -/

/-- The list, and the loops on their way over it. -/
def Inv (s : State) : Prop := ∃ l, s.Listed l ∧ ∀ i w, s.working i = some w → w.Ahead l

theorem Inv.reached (h : s.Inv) : s.Reached := by
  obtain ⟨l, hl, hahead⟩ := h
  exact fun i w hw => (hahead i w hw).reaches hl

/-- Where the loop of a publication begins, all is ahead of it that is due. -/
theorem Listed.ahead_take (h : Listed s l) {loop : ℕ} {r : Request} (hok : (Action.take loop r).Ok s) :
    Walk.Ahead ⟨r.pub, s.firstOf r, [], fun u => isGlobal r && s.live u⟩ l := by
  have hclient : ∀ {u}, r.pub.up = some u → s.firstOf r = none →
      Walk.Ahead ⟨r.pub, s.firstOf r, [], fun u => isGlobal r && s.live u⟩ l := by
    intro u hu hfirst
    refine ⟨[], List.nil_suffix, hfirst, List.nodup_nil, fun v hv => ?_⟩
    simp [isGlobal, hu] at hv
  have hall : ∀ u, s.live u = true → u ∈ l := fun u => (h.mem u).mpr
  cases r with
  | close u => exact hclient rfl rfl
  | write u message bin => exact hclient rfl rfl
  | subscribe u subject => exact hclient rfl rfl
  | unsubscribe u subject => exact hclient rfl rfl
  | unsubscribeAll subject =>
    obtain rfl := List.head?_eq_none_iff.mp (h.head.symm.trans hok)
    exact ⟨[], List.nil_suffix, rfl, List.nodup_nil, fun u hu => hall u hu⟩
  | publish subject message => exact ⟨l, List.suffix_rfl, h.head, h.nodup, fun u hu => hall u hu⟩

/-- The loop that `unsubscribe_pub` has for a global unsubscribe would reach all; `process_pub_con` does not come
to it. -/
theorem Listed.unsubscribePub_ahead (h : Listed s l) (subject : Bytes) :
    ∃ first, s.unsubscribePub (pubUnsubscribe none (some subject)) = some (s, first) ∧
      Walk.Ahead ⟨pubUnsubscribe none (some subject), first, [], s.live⟩ l :=
  ⟨s.upList, rfl, l, List.suffix_rfl, h.head, h.nodup, fun u hu => (h.mem u).mpr hu⟩

/-- One con loop goes on. -/
theorem ahead_update {working : ℕ → Option Walk} {loop : ℕ} {now : Option Walk}
    (hworking : s'.working = Function.update working loop now) (hold : ∀ i w, working i = some w → w.Ahead l)
    (hnow : ∀ w, now = some w → w.Ahead l) : ∀ i w, s'.working i = some w → w.Ahead l := by
  intro i w hw
  rw [hworking] at hw
  by_cases hi : i = loop
  · subst hi
    rw [Function.update_self] at hw
    exact hnow w hw
  · rw [Function.update_of_ne hi] at hw
    exact hold i w hw

/-- What a step that is in order does to the loops. -/
theorem Change.ahead (hc : Change s s' l a l') (h : Listed s l) (hok : a.Ok s)
    (hahead : ∀ i w, s.working i = some w → w.Ahead l) : ∀ i w, s'.working i = some w → w.Ahead l' := by
  cases hc with
  | stay _ hworking => exact hworking ▸ hahead
  | add u hworking => exact fun i w hw => (hahead i w (hworking ▸ hw)).cons u
  | destroy u ha hlast hworking _ =>
    have haway : ∀ i w, s.working i = some w → w.up ≠ some u := by
      rcases ha with rfl | rfl <;> exact hok hlast
    intro i w hw
    rw [hworking] at hw
    obtain ⟨v, hv, rfl⟩ := Option.map_eq_some_iff.mp hw
    exact (hahead i v hv).erase h.nodup (haway i v hv)
  | take loop r hworking =>
    refine ahead_update hworking hahead fun w hw => ?_
    obtain rfl := Option.some.inj hw
    exact h.ahead_take hok
  | round loop u w up hw hu hup hworking =>
    refine ahead_update hworking hahead fun w' hw' => ?_
    obtain rfl := Option.some.inj hw'
    exact (hahead loop w hw).next h.linked hu hup
  | finish loop hworking => exact ahead_update hworking hahead nofun

theorem Inv.step (h : s.Inv) (hok : a.Ok s) (hstep : UpList.step s a = some s') : s'.Inv := by
  obtain ⟨l, hl, hahead⟩ := h
  obtain ⟨l', hl', hc⟩ := hl.change hstep
  exact ⟨l', hl', hc.ahead hl hok hahead⟩

/-! ### Where they leave it -/

/-- A loop that is at a destroyed connection does not reach live ones only. -/
theorem not_reached_of_destroyed {u i : ℕ} {w : Walk} (hw : s.working i = some w) (hu : w.up = some u)
    (hworking : s'.working = s.forget u) (hfree : s'.heap u = none) : ¬ s'.Reached := by
  intro h
  obtain ⟨rest, hrest, -⟩ := h i (w.forget u) (by rw [hworking, forget, hw]; rfl)
  rw [show (w.forget u).up = some u from hu] at hrest
  cases rest with
  | nil => cases hrest
  | cons v rest =>
    obtain ⟨hv, up, hup, -⟩ := hrest
    obtain rfl := Option.some.inj hv
    rw [hfree] at hup
    cases hup

/-- A global unsubscribe does not reach the first connection. -/
theorem Listed.not_reached_of_unsubscribe (h : Listed s l) {loop : ℕ} {subject : Bytes} (hlist : s.upList ≠ none)
    (hworking : s'.working = Function.update s.working loop
      (some ⟨pubUnsubscribe none (some subject), none, [], s.live⟩)) : ¬ s'.Reached := by
  intro hreached
  have hw := congrFun hworking loop
  rw [Function.update_self] at hw
  obtain ⟨u, hu⟩ := Option.ne_none_iff_exists'.mp hlist
  have hlive : s.live u = true := (h.mem u).mp (List.mem_of_head? (h.head.symm.trans hu))
  cases (hreached loop _ hw).done rfl u hlive

theorem Change.not_reached (hc : Change s s' l a l') (h : Listed s l) (hok : ¬ a.Ok s) : ¬ s'.Reached := by
  cases hc with
  | stay hok' _ => exact absurd hok' hok
  | destroy u ha hlast hworking hfree =>
    obtain ⟨i, w, hw, hat⟩ : ∃ i w, s.working i = some w ∧ w.up = some u := by
      rcases ha with rfl | rfl <;> simpa [Action.Ok, hlast] using hok
    exact not_reached_of_destroyed hw hat hworking hfree
  | take loop r hworking =>
    cases r with
    | unsubscribeAll subject => exact h.not_reached_of_unsubscribe hok hworking
    | _ => exact absurd trivial hok
  | _ => exact absurd trivial hok

theorem Inv.not_reached (h : s.Inv) (hok : ¬ a.Ok s) (hstep : UpList.step s a = some s') : ¬ s'.Reached := by
  obtain ⟨l, hl, -⟩ := h
  obtain ⟨l', -, hc⟩ := hl.change hstep
  exact hc.not_reached hl hok

end State

/-! ## A publication while nothing else happens -/

namespace State

variable {s : State} {l : List ℕ} {subject : Bytes} {msg : Option Message} {loop : ℕ}

/-- What a round for `u` appends to connection `c`. -/
def gets (s : State) (subject : Bytes) (msg : Option Message) (loop c u : ℕ) : List Sent :=
  if (s.heap u).any fun up => s.onLoop up.val loop == some c && up.val.isMatch subject then [.message msg] else []

theorem gets_congr {t : State} (hheap : t.heap = s.heap) (hloop : t.loop = s.loop) : t.gets = s.gets := by
  funext subject msg i c u
  unfold gets onLoop
  rw [hheap, hloop]

theorem publishOne_sent {u : ℕ} {up : Cell ℕ Upgraded} (hup : s.heap u = some up) (c : ℕ) :
    (s.publishOne subject msg loop up.val).sent c = s.sent c ++ s.gets subject msg loop c u := by
  unfold publishOne gets
  rw [hup, Option.any_some]
  cases hon : s.onLoop up.val loop with
  | none => simp
  | some d =>
    by_cases hmatch : up.val.isMatch subject = true
    · by_cases hd : d = c
      · subst hd
        simp [hmatch, append]
      · simp [hmatch, append, hd, Function.update_of_ne (Ne.symm hd)]
    · simp [hmatch]

theorem publishOne_fields (s : State) (subject : Bytes) (msg : Option Message) (loop : ℕ) (up : Upgraded) :
    (s.publishOne subject msg loop up).heap = s.heap ∧ (s.publishOne subject msg loop up).loop = s.loop ∧
      (s.publishOne subject msg loop up).working = s.working := by
  unfold publishOne
  split
  · exact ⟨rfl, rfl, rfl⟩
  · split_ifs <;> exact ⟨rfl, rfl, rfl⟩

/-- The rounds for the connections that `next` leads over. -/
theorem runs_rounds {message : Bytes} {l : List ℕ} (s : State) (w : Walk) (hw : s.working loop = some w)
    (hpub : w.pub = pubPublish subject message) (hl : Follows s.heap w.up l) :
    ∃ t, runs step s (List.replicate l.length (.round loop)) = some t ∧
      t.working loop = some { w with up := none, seen := w.seen ++ l } ∧
      ∀ c, t.sent c = s.sent c ++ l.flatMap (s.gets (subjectCreate subject) (some ⟨message, false⟩) loop c) := by
  induction l generalizing s w with
  | nil =>
    refine ⟨s, rfl, ?_, fun c => by simp⟩
    rw [hw, List.append_nil, ← show w.up = none from hl]
  | cons u l ih =>
    obtain ⟨hu, up, hup, hl⟩ := hl
    -- the round for `u`, and then the others
    let t := s.publishOne (subjectCreate subject) (some ⟨message, false⟩) loop up.val
    let w' : Walk := { w with up := up.next, seen := w.seen ++ [u] }
    let s' : State := { t with working := Function.update t.working loop (some w') }
    obtain ⟨hheap, hloop, hworking⟩ :=
      publishOne_fields s (subjectCreate subject) (some ⟨message, false⟩) loop up.val
    have hround : step s (.round loop) = some s' := by
      simp [step, State.round, hw, hu, hup, visit, hpub, pubPublish, s', t, w']
    have hgets : s'.gets = s.gets := gets_congr hheap hloop
    have hl' : Follows s'.heap w'.up l := (congrArg (Follows · up.next l) hheap).mpr hl
    obtain ⟨r, hruns, hend, hsent⟩ := ih s' w' (Function.update_self ..) hpub hl'
    refine ⟨r, ?_, ?_, fun c => ?_⟩
    · rw [List.length_cons, List.replicate_succ, runs, hround, Option.bind_some, hruns]
    · rw [hend]
      simp [w']
    · rw [hsent, hgets, List.flatMap_cons, ← List.append_assoc]
      exact congrArg (· ++ _) (publishOne_sent hup c)

/-- **A publication that a con loop takes is appended once for each live connection on the loop that has a
pattern for it**, after as many rounds as there are live connections. -/
theorem publish_alone (h : s.Listed l) (hidle : s.working loop = none) (subject message : Bytes) :
    ∃ t, runs step s (Action.take loop (.publish subject message) :: List.replicate l.length (.round loop)) =
        some t ∧
      (∃ w, t.working loop = some w ∧ w.up = none ∧ w.seen = l) ∧
      ∀ c, t.sent c = s.sent c ++ l.flatMap (s.gets (subjectCreate subject) (some ⟨message, false⟩) loop c) := by
  let w : Walk := ⟨pubPublish subject message, s.upList, [], s.live⟩
  let s' : State := { s with working := Function.update s.working loop (some w) }
  have htake : step s (.take loop (.publish subject message)) = some s' := by
    simp [step, hidle, processPubCon, processKind, Request.pub, pubPublish, isGlobal, s', w]
  have hfollows : Follows s'.heap w.up l := (congrArg (Follows s.heap · l) h.head).mpr h.linked.follows
  obtain ⟨t, hruns, hend, hsent⟩ := runs_rounds s' w (Function.update_self ..) rfl hfollows
  refine ⟨t, ?_, ⟨_, hend, rfl, rfl⟩, hsent⟩
  rw [runs, htake, Option.bind_some, hruns]

end State

/-! ## Runs -/

theorem listed_start (loop : ℕ → ℕ) : (start loop).Listed [] :=
  ⟨rfl, trivial, List.nodup_nil, fun _ => by simp [start, State.live], nofun, List.nodup_nil⟩

theorem inv_start (loop : ℕ → ℕ) : (start loop).Inv := ⟨[], listed_start loop, nofun⟩

/-- **In every state of a run the list is well formed; in every state each loop reaches each live connection and
no other one, if and only if no step of the run destroys a connection where a loop is or processes a global
unsubscribe while a connection is live.** -/
theorem upList_iff (loop : ℕ → ℕ) (as : List Action) :
    Always step State.WellFormed (start loop) as ∧
      (Always step State.Reached (start loop) as ↔ Along step (fun s a => a.Ok s) (start loop) as) := by
  constructor
  · have hkeep : ∀ (s : State) (a : Action) (s' : State), (∃ l, s.Listed l) → True → step s a = some s' →
        ∃ l, s'.Listed l := by
      rintro s a s' ⟨l, hl⟩ - hstep
      obtain ⟨l', hl', -⟩ := hl.change hstep
      exact ⟨l', hl'⟩
    have hlisted := always_of_along _ hkeep ⟨[], listed_start loop⟩ (along_true (start loop) as)
    exact hlisted.mono fun s h => h.elim fun _ h => h.wellFormed
  · exact always_iff_along State.Inv (fun s a s' h _ hok hstep => h.step hok hstep) (fun s h => h.reached)
      (fun s a s' h _ hok hstep => h.not_reached hok hstep) (inv_start loop) (along_true _ as)

/-- A connection is upgraded, and then a con loop takes a global unsubscribe. -/
def unsubscribeRun : List Action :=
  [.create 0 0 ⟨false, false, true, true, false⟩, .add 0, .take 0 (.unsubscribeAll (bytes "a"))]

/-- `Agoo.unsubscribe` reaches no connection. -/
theorem unsubscribe_reaches_none :
    ¬ ∀ as, Always step (fun s => s.WellFormed ∧ s.Reached) (start fun _ => 0) as := by
  intro h
  obtain ⟨s, hruns, w, hw, hup, hseen, hdue⟩ : ∃ s, runs step (start fun _ => 0) unsubscribeRun = some s ∧
      ∃ w, s.working 0 = some w ∧ w.up = none ∧ w.seen = [] ∧ w.due 0 = true :=
    ⟨_, rfl, _, rfl, rfl, rfl, rfl⟩
  have hmem := (((h unsubscribeRun).last hruns).2 0 w hw).done hup 0 hdue
  rw [hseen] at hmem
  cases hmem

/-- A connection on another con loop is destroyed while the loop of `publish_pub` is at it. -/
def publishRun : List Action :=
  [.create 0 0 ⟨false, false, true, true, false⟩, .add 0, .take 1 (.publish (bytes "a") (bytes "one")),
    .releaseCon 0]

def NoGlobal (_ : State) (a : Action) : Prop := ∀ i subject, a ≠ .take i (.unsubscribeAll subject)

/-- A publication reaches a connection that is destroyed. -/
theorem publish_reaches_destroyed :
    ¬ ∀ as, Along step NoGlobal (start fun _ => 0) as → Always step State.Reached (start fun _ => 0) as := by
  intro h
  obtain ⟨s, hruns, w, hw, hup, hfree⟩ : ∃ s, runs step (start fun _ => 0) publishRun = some s ∧
      ∃ w, s.working 1 = some w ∧ w.up = some 0 ∧ s.heap 0 = none := ⟨_, rfl, _, rfl, rfl, rfl⟩
  have hall : Along step NoGlobal (start fun _ => 0) publishRun := ⟨nofun, nofun, nofun, nofun, trivial⟩
  obtain ⟨rest, hrest, hlive, -⟩ := (h publishRun hall).last hruns 1 w hw
  rw [hup] at hrest
  cases rest with
  | nil => cases hrest
  | cons u rest =>
    obtain rfl := Option.some.inj hrest.1
    have hzero := hlive _ List.mem_cons_self
    simp [State.live, hfree] at hzero

end UpList

end Agoo
