import Agoo.Publish
import Mathlib.Data.Set.Basic

/-!
# What the clients asked for

A client is a set of patterns and what was sent to it; `Client.apply` says what a publication means for
it. `Agrees s u`: the patterns of `u` and what it was sent are what all publications mean that the
loop of its connection took from the queue.

`subjects_iff`: the clients agree in every state of a run if and only if no global unsubscribe names a
pattern that a client holds. The branch for it is never reached.
-/

namespace Agoo

namespace Publish

open Subject

/-! ## Clients -/

structure Client where
  patterns : Set Bytes
  received : List Sent

def Client.new : Client := ⟨∅, []⟩

/-- The patterns that an unsubscribe names: all of them without a subject. -/
def Pub.Removes (pub : Pub) (pattern : Bytes) : Prop := ∀ subject, pub.subject = some subject → pattern = subject

open Classical in
/-- What a publication means for client `u`. -/
noncomputable def Client.apply (u : ℕ) (c : Client) (pub : Pub) : Client :=
  match pub.kind with
  | .sub =>
    if pub.up = some u then { c with patterns := {p | p ∈ c.patterns ∨ pub.subject = some p} } else c
  | .un =>
    if pub.up = some u ∨ pub.up = none then { c with patterns := {p | p ∈ c.patterns ∧ ¬ pub.Removes p} }
    else c
  | .msg =>
    if ∃ p ∈ c.patterns, ∃ subject, pub.subject = some subject ∧ agooSubjectCheck p subject = true then
      { c with received := c.received ++ [.message pub.msg] }
    else c
  | .write => if pub.up = some u then { c with received := c.received ++ [.message pub.msg] } else c
  | .close => if pub.up = some u then { c with received := c.received ++ [.close] } else c

namespace Server

/-- What client `u` should be. -/
noncomputable def wanted (s : Server) (u : ℕ) : Client := (s.taken u).foldl (Client.apply u) Client.new

/-- The client is what it should be. -/
def Agrees (s : Server) (u : ℕ) : Prop :=
  (∀ p, p ∈ (s.up u).subjects ↔ p ∈ (s.wanted u).patterns) ∧ s.sent u = (s.wanted u).received

/-- Each client whose connection is open is what it should be. -/
def AllAgree (s : Server) : Prop := ∀ u ∈ s.upList, (s.up u).con ≠ none → s.Agrees u

/-- The step is no global unsubscribe that names a pattern of a client of its loop. -/
def NotGlobal (s : Server) : Action → Prop
  | .process loop => ∀ pub, s.conLoops[loop]?.bind List.head? = some pub → pub.kind = .un → pub.up = none →
      ∀ u ∈ s.upList, s.onLoop u loop = true → ∀ p ∈ (s.up u).subjects, ¬ pub.Removes p
  | _ => True

/-! ## What stays -/

/-- No client is new, and of those that are left nothing changed but that connections were closed. -/
structure Frame (s s' : Server) : Prop where
  list : s'.upList.Sublist s.upList
  cnt : s'.upCnt = s.upCnt
  con : ∀ u, (s'.up u).con = (s.up u).con ∨ (s'.up u).con = none
  subjects : ∀ u, (s'.up u).subjects = (s.up u).subjects
  sent : s'.sent = s.sent
  taken : s'.taken = s.taken

theorem Frame.trans {s s' s'' : Server} (h : Frame s s') (h' : Frame s' s'') : Frame s s'' where
  list := h'.list.trans h.list
  cnt := h'.cnt.trans h.cnt
  con u := by
    rcases h'.con u with heq | hnone
    · rw [heq]
      exact h.con u
    · exact Or.inr hnone
  subjects u := (h'.subjects u).trans (h.subjects u)
  sent := h'.sent.trans h.sent
  taken := h'.taken.trans h.taken

/-- The two states agree in all that concerns the clients. -/
theorem Frame.of_eq {s s' : Server} (hup : s'.up = s.up) (hlist : s'.upList = s.upList)
    (hcnt : s'.upCnt = s.upCnt) (hsent : s'.sent = s.sent) (htaken : s'.taken = s.taken) : Frame s s' where
  list := hlist ▸ List.Sublist.refl _
  cnt := hcnt
  con _ := Or.inl (by rw [hup])
  subjects _ := by rw [hup]
  sent := hsent
  taken := htaken

theorem Frame.refl (s : Server) : Frame s s := .of_eq rfl rfl rfl rfl rfl

theorem Frame.setUp {s : Server} {u : ℕ} {up : Upgraded} (hcon : up.con = (s.up u).con ∨ up.con = none)
    (hsub : up.subjects = (s.up u).subjects) : Frame s (s.setUp u up) where
  list := List.Sublist.refl _
  cnt := rfl
  con v := by
    by_cases h : v = u
    · subst h
      rw [setUp_self]
      exact hcon
    · rw [setUp_other s h]
      exact Or.inl rfl
  subjects v := by
    by_cases h : v = u
    · subst h
      rw [setUp_self, hsub]
    · rw [setUp_other s h]
  sent := rfl
  taken := rfl

theorem frame_ref (s : Server) (u : ℕ) : Frame s (s.setUp u (s.up u).ref) := .setUp (Or.inl rfl) rfl

theorem frame_unref (s : Server) (u : ℕ) : Frame s (s.setUp u (s.up u).unref) := .setUp (Or.inl rfl) rfl

theorem frame_setTask (s : Server) (t : Task) (ts : List Task) : Frame s (s.setTask t ts) :=
  .of_eq rfl rfl rfl rfl rfl

theorem frame_pushReq (s : Server) (u : ℕ) (method : PushMethod) (hook : Bool) :
    Frame s (s.pushReq u method hook) :=
  (frame_ref s u).trans (.of_eq rfl rfl rfl rfl rfl)

theorem frame_release (s : Server) (u : ℕ) : Frame s (s.release u) := by
  unfold release
  split_ifs
  · have h : Frame s (s.setUp u (s.up u).unref.destroy) := .setUp (Or.inl rfl) rfl
    exact { h with list := List.erase_sublist }
  · exact frame_unref s u

theorem frame_releaseCon (s : Server) (u : ℕ) : Frame s (s.releaseCon u) := by
  have h : Frame s (s.setUp u { s.up u with con := none }) := .setUp (Or.inr rfl) rfl
  exact h.trans (frame_release _ u)

theorem frame_conDestroy (s : Server) (c : ℕ) : Frame s (s.conDestroy c) := by
  have h : Frame s { s with
      closed := Function.update s.closed c true
      conUp := Function.update s.conUp c none } := .of_eq rfl rfl rfl rfl rfl
  unfold conDestroy
  cases s.conUp c with
  | none => exact h
  | some u => exact h.trans (frame_releaseCon _ u)

theorem frame_callerGives (s : Server) (u : ℕ) (incRef : Bool) (ts : List Task) :
    Frame s (s.callerGives u incRef ts) := by
  unfold callerGives
  split_ifs
  · exact (frame_ref s u).trans (.of_eq rfl rfl rfl rfl rfl)
  · exact frame_setTask s _ ts

theorem frame_ask (s : Server) (u : ℕ) (incRef : Bool) (pub : Pub) : Frame s (s.ask u incRef pub) :=
  (frame_callerGives s u incRef _).trans (.setUp (Or.inl rfl) rfl)

theorem frame_upgradedWrite (s : Server) (u : ℕ) (message : Bytes) (bin incRef : Bool) :
    Frame s (s.upgradedWrite u message bin incRef) := by
  unfold upgradedWrite
  dsimp only
  split_ifs
  · exact frame_unref s u
  · exact (frame_unref s u).trans (frame_setTask _ _ _)
  · exact frame_ask s u incRef _

theorem frame_publishTo (s : Server) (pub : Pub) (loop : ℕ) : Frame s (s.publishTo pub loop) := by
  unfold publishTo
  split_ifs
  · exact .of_eq rfl rfl rfl rfl rfl
  · have h : Frame s (s.refPub pub) := by
      unfold refPub
      cases pub.up with
      | none => exact Frame.refl s
      | some u => exact frame_ref s u
    exact h.trans (.of_eq rfl rfl rfl rfl rfl)

theorem frame_releasePub (s : Server) (pub : Pub) : Frame s (s.releasePub pub) := by
  unfold releasePub
  cases pub.up with
  | none => exact Frame.refl s
  | some u => exact frame_release s u

theorem frame_beginHandle (s : Server) (req : PushReq) : Frame s (s.beginHandle req) := by
  unfold beginHandle
  split_ifs
  · exact (frame_ref s req.up).trans (.of_eq rfl rfl rfl rfl rfl)
  · exact .of_eq rfl rfl rfl rfl rfl

theorem frame_donePending (s : Server) (u : ℕ) : Frame s (s.donePending u) := by
  have h : Frame s (s.setUp u { s.up u with pending := (s.up u).pending - 1 }) := .setUp (Or.inl rfl) rfl
  unfold donePending
  dsimp only
  split_ifs
  · exact h.trans (frame_pushReq _ u _ _)
  · exact h

theorem frame_beforeSwitch (s : Server) (pub : Pub) (loop : ℕ) : Frame s (s.beforeSwitch pub loop) := by
  unfold beforeSwitch
  cases pub.up with
  | none => exact Frame.refl s
  | some u =>
    dsimp only
    split_ifs
    · exact frame_donePending s u
    · exact Frame.refl s

end Server

/-! ## What a publication does -/

/-- The patterns of client `u` after the publication, on the loop of its connection. -/
def Pub.subjectsAfter (pub : Pub) (u : ℕ) (up : Upgraded) : List Bytes :=
  if pub.up = some u then
    match pub.kind with
    | .sub => pub.subject.elim up.subjects fun subject => (up.addSubject subject).subjects
    | .un => (up.delSubject pub.subject).subjects
    | _ => up.subjects
  else up.subjects

/-- What client `u` is sent. -/
def Pub.sentTo (pub : Pub) (u : ℕ) (up : Upgraded) : List Sent :=
  match pub.kind with
  | .close => if pub.up = some u then [.close] else []
  | .write => if pub.up = some u then [.message pub.msg] else []
  | .msg => if pub.subject.any up.isMatch then [.message pub.msg] else []
  | _ => []

namespace Server

/-- The publication did to each client of the loop what it does, and nothing else. -/
structure Effect (s s' : Server) (pub : Pub) (loop : ℕ) : Prop where
  list : s'.upList = s.upList
  cnt : s'.upCnt = s.upCnt
  taken : s'.taken = s.taken
  con : ∀ u, (s'.up u).con = (s.up u).con
  subjects : ∀ u, (s'.up u).subjects =
    if s.onLoop u loop = true then pub.subjectsAfter u (s.up u) else (s.up u).subjects
  sent : ∀ u ∈ s.upList, s'.sent u =
    if s.onLoop u loop = true then s.sent u ++ pub.sentTo u (s.up u) else s.sent u

/-- Nothing was to be done. -/
theorem Effect.none {s : Server} {pub : Pub} {loop : ℕ}
    (hsub : ∀ u, s.onLoop u loop = true → pub.subjectsAfter u (s.up u) = (s.up u).subjects)
    (hsent : ∀ u, s.onLoop u loop = true → pub.sentTo u (s.up u) = []) : Effect s s pub loop where
  list := rfl
  cnt := rfl
  taken := rfl
  con _ := rfl
  subjects u := by
    split_ifs with h
    · exact (hsub u h).symm
    · rfl
  sent u _ := by
    split_ifs with h
    · rw [hsent u h, List.append_nil]
    · rfl

/-- One client is sent something. -/
theorem Effect.append {s : Server} {pub : Pub} {loop u : ℕ} (r : Sent) (hu : s.onLoop u loop = true)
    (hsub : ∀ v, pub.subjectsAfter v (s.up v) = (s.up v).subjects)
    (hsent : ∀ v, pub.sentTo v (s.up v) = if v = u then [r] else []) : Effect s (s.append u r) pub loop where
  list := rfl
  cnt := rfl
  taken := rfl
  con _ := rfl
  subjects v := by
    rw [hsub, ite_self]
    rfl
  sent v _ := by
    rw [hsent]
    unfold Server.append
    dsimp only
    by_cases h : v = u
    · subst h
      rw [Function.update_self, if_pos hu, if_pos rfl]
    · rw [Function.update_of_ne h, if_neg h, List.append_nil, ite_self]

/-- The patterns of one client change. -/
theorem Effect.setUp {s : Server} {pub : Pub} {loop u : ℕ} {up : Upgraded} (hu : s.onLoop u loop = true)
    (hcon : up.con = (s.up u).con) (hsub : up.subjects = pub.subjectsAfter u (s.up u))
    (hother : ∀ v, v ≠ u → pub.subjectsAfter v (s.up v) = (s.up v).subjects)
    (hsent : ∀ v, pub.sentTo v (s.up v) = []) : Effect s (s.setUp u up) pub loop where
  list := rfl
  cnt := rfl
  taken := rfl
  con v := by
    by_cases h : v = u
    · subst h
      rw [setUp_self, hcon]
    · rw [setUp_other s h]
  subjects v := by
    by_cases h : v = u
    · subst h
      rw [setUp_self, if_pos hu, hsub]
    · rw [setUp_other s h, hother v h, ite_self]
  sent v _ := by
    rw [hsent, List.append_nil, ite_self]
    rfl

/-- What `publish_pub` sends a client. -/
def published (s : Server) (subject : Bytes) (msg : Option Message) (loop u : ℕ) : List Sent :=
  if s.onLoop u loop && (s.up u).isMatch subject then [.message msg] else []

theorem publishOne_eq (s : Server) (subject : Bytes) (msg : Option Message) (loop u : ℕ) :
    publishOne subject msg loop s u =
      { s with sent := Function.update s.sent u (s.sent u ++ s.published subject msg loop u) } := by
  unfold publishOne published
  split_ifs
  · rfl
  · rw [List.append_nil, Function.update_eq_self]

/-- `publish_pub` goes through the list once. -/
theorem publishAll_eq (subject : Bytes) (msg : Option Message) (loop : ℕ) {us : List ℕ} (hus : us.Nodup)
    (s : Server) :
    us.foldl (publishOne subject msg loop) s = { s with
      sent := fun u => s.sent u ++ if u ∈ us then s.published subject msg loop u else [] } := by
  induction us generalizing s with
  | nil => simp
  | cons v us ih =>
    obtain ⟨hv, hus⟩ := List.nodup_cons.mp hus
    rw [List.foldl_cons, publishOne_eq, ih hus]
    -- a round changes nothing of what the others are sent
    have hsent : ∀ u, Function.update s.sent v (s.sent v ++ s.published subject msg loop v) u ++
        (if u ∈ us then s.published subject msg loop u else []) =
        s.sent u ++ if u ∈ v :: us then s.published subject msg loop u else [] := by
      intro u
      by_cases h : u = v
      · subst h
        rw [Function.update_self, if_neg hv, if_pos List.mem_cons_self, List.append_nil]
      · rw [Function.update_of_ne h]
        simp [h]
    exact congrArg (fun sent => { s with sent := sent }) (funext hsent)

theorem onLoop_iff {s : Server} {u loop : ℕ} : s.onLoop u loop = true ↔ s.conOnLoop u loop = some true := by
  unfold onLoop conOnLoop
  cases (s.up u).con <;> simp

/-- What the switch of `process_pub_con` does. -/
theorem processKind_effect {s s' : Server} {pub : Pub} {loop : ℕ} (hnodup : s.upList.Nodup)
    (h : s.processKind pub loop = some s') : Effect s s' pub loop := by
  obtain ⟨kind, up, subject, msg⟩ := pub
  cases kind with
  | close =>
    obtain ⟨u, rfl, rfl⟩ : ∃ u, up = some u ∧ (if s.onLoop u loop then s.append u .close else s) = s' := by
      simpa [processKind, Option.bind_eq_some_iff] using h
    split_ifs with hu
    · exact .append .close hu (fun v => by simp [Pub.subjectsAfter]) fun v => by simp [Pub.sentTo, eq_comm]
    · refine .none (fun v _ => by simp [Pub.subjectsAfter]) fun v hv => ?_
      have hne : u ≠ v := fun heq => hu (heq ▸ hv)
      simp [Pub.sentTo, hne]
  | write =>
    obtain ⟨u, rfl, rfl⟩ :
        ∃ u, up = some u ∧ (if s.onLoop u loop then s.append u (.message msg) else s) = s' := by
      simpa [processKind, Option.bind_eq_some_iff] using h
    split_ifs with hu
    · exact .append (.message msg) hu (fun v => by simp [Pub.subjectsAfter])
        fun v => by simp [Pub.sentTo, eq_comm]
    · refine .none (fun v _ => by simp [Pub.subjectsAfter]) fun v hv => ?_
      have hne : u ≠ v := fun heq => hu (heq ▸ hv)
      simp [Pub.sentTo, hne]
  | sub =>
    cases up with
    | none =>
      obtain rfl := Option.some.inj h
      exact .none (fun v _ => by simp [Pub.subjectsAfter]) fun v _ => rfl
    | some u =>
      obtain ⟨here, hhere, h⟩ := Option.bind_eq_some_iff.mp h
      cases here with
      | true =>
        obtain ⟨p, rfl, hs⟩ := Option.bind_eq_some_iff.mp h
        obtain rfl := Option.some.inj hs
        have hcon : ((s.up u).addSubject p).con = (s.up u).con := by
          unfold Upgraded.addSubject
          split_ifs <;> rfl
        refine .setUp (onLoop_iff.mpr hhere) hcon (by simp [Pub.subjectsAfter]) (fun v hv => ?_) fun v => rfl
        simp [Pub.subjectsAfter, hv.symm]
      | false =>
        obtain rfl := Option.some.inj h
        refine .none (fun v hv => ?_) fun v _ => rfl
        have hne : u ≠ v := by
          rintro rfl
          rw [onLoop_iff, hhere] at hv
          cases hv
        simp [Pub.subjectsAfter, hne]
  | un =>
    cases up with
    | none =>
      obtain rfl := Option.some.inj h
      exact .none (fun v _ => by simp [Pub.subjectsAfter]) fun v _ => rfl
    | some u =>
      obtain ⟨here, hhere, h⟩ := Option.bind_eq_some_iff.mp h
      cases here with
      | true =>
        obtain rfl := Option.some.inj h
        have hcon : ((s.up u).delSubject subject).con = (s.up u).con := by
          cases subject <;> rfl
        refine .setUp (onLoop_iff.mpr hhere) hcon (by simp [Pub.subjectsAfter]) (fun v hv => ?_) fun v => rfl
        simp [Pub.subjectsAfter, hv.symm]
      | false =>
        obtain rfl := Option.some.inj h
        refine .none (fun v hv => ?_) fun v _ => rfl
        have hne : u ≠ v := by
          rintro rfl
          rw [onLoop_iff, hhere] at hv
          cases hv
        simp [Pub.subjectsAfter, hne]
  | msg =>
    obtain ⟨p, rfl, h⟩ := Option.bind_eq_some_iff.mp h
    obtain rfl := Option.some.inj h
    unfold publishPub
    rw [publishAll_eq p msg loop hnodup]
    refine ⟨rfl, rfl, rfl, fun _ => rfl, fun v => ?_, fun v hv => ?_⟩
    · simp [Pub.subjectsAfter]
    · dsimp only
      rw [if_pos hv]
      unfold published
      by_cases hl : s.onLoop v loop = true
      · simp [hl, Pub.sentTo]
      · simp [hl]

theorem subjectsAfter_congr {up up' : Upgraded} (h : up'.subjects = up.subjects) (pub : Pub) (u : ℕ) :
    pub.subjectsAfter u up' = pub.subjectsAfter u up := by
  have hadd : ∀ p, (up'.addSubject p).subjects = (up.addSubject p).subjects := fun p => by
    unfold Upgraded.addSubject
    rw [h]
    split_ifs
    · exact h
    · rfl
  have hdel : ∀ p, (up'.delSubject p).subjects = (up.delSubject p).subjects := fun p => by
    cases p with
    | none => rfl
    | some p => exact congrArg (List.erase · p) h
  unfold Pub.subjectsAfter
  rw [h, hdel]
  simp only [hadd]

theorem sentTo_congr {up up' : Upgraded} (h : up'.subjects = up.subjects) (pub : Pub) (u : ℕ) :
    pub.sentTo u up' = pub.sentTo u up := by
  have hmatch : up'.isMatch = up.isMatch := funext fun p => by
    unfold Upgraded.isMatch
    rw [h]
  unfold Pub.sentTo
  rw [hmatch]

/-- What comes before the switch concerns neither connections nor the list. -/
theorem beforeSwitch_same (s : Server) (pub : Pub) (loop : ℕ) :
    (s.beforeSwitch pub loop).upList = s.upList ∧ ∀ u l,
      ((s.beforeSwitch pub loop).up u).con = (s.up u).con ∧
        (s.beforeSwitch pub loop).onLoop u l = s.onLoop u l := by
  have hset : ∀ (s : Server) v up, up.con = (s.up v).con → ∀ u, ((s.setUp v up).up u).con = (s.up u).con := by
    intro s v up hcon u
    by_cases h : u = v
    · subst h
      rw [setUp_self, hcon]
    · rw [setUp_other s h]
  have hdone : ∀ v, (s.donePending v).upList = s.upList ∧ (s.donePending v).loop = s.loop ∧
      ∀ u, ((s.donePending v).up u).con = (s.up u).con := by
    intro v
    have hdown := hset s v { s.up v with pending := (s.up v).pending - 1 } rfl
    have hreq : ∀ (s : Server) u, ((s.pushReq v .onEmpty true).up u).con = (s.up u).con :=
      fun s => hset s v (s.up v).ref rfl
    unfold donePending
    dsimp only
    split_ifs
    · exact ⟨rfl, rfl, fun u => (hreq _ u).trans (hdown u)⟩
    · exact ⟨rfl, rfl, hdown⟩
  have hall : (s.beforeSwitch pub loop).upList = s.upList ∧ (s.beforeSwitch pub loop).loop = s.loop ∧
      ∀ u, ((s.beforeSwitch pub loop).up u).con = (s.up u).con := by
    unfold beforeSwitch
    cases pub.up with
    | none => exact ⟨rfl, rfl, fun _ => rfl⟩
    | some v =>
      dsimp only
      split_ifs
      · exact hdone v
      · exact ⟨rfl, rfl, fun _ => rfl⟩
  obtain ⟨hlist, hloop, hcon⟩ := hall
  refine ⟨hlist, fun u l => ⟨hcon u, ?_⟩⟩
  unfold onLoop
  rw [hcon, hloop]

/-- What processing a publication does. -/
theorem processPubCon_effect {s s' : Server} {pub : Pub} {loop : ℕ} (hnodup : s.upList.Nodup)
    (h : s.processPubCon pub loop = some s') : Effect s s' pub loop := by
  have hframe := frame_beforeSwitch s pub loop
  obtain ⟨hlist, hsame⟩ := beforeSwitch_same s pub loop
  have heffect := processKind_effect (hlist ▸ hnodup) h
  refine ⟨heffect.list.trans hlist, heffect.cnt.trans hframe.cnt, heffect.taken.trans hframe.taken,
    fun u => (heffect.con u).trans (hsame u 0).1, fun u => ?_, fun u hu => ?_⟩
  · rw [heffect.subjects u, (hsame u loop).2, subjectsAfter_congr (hframe.subjects u), hframe.subjects u]
  · rw [heffect.sent u (hlist ▸ hu), (hsame u loop).2, sentTo_congr (hframe.subjects u), hframe.sent]

/-! ## What it should do -/

theorem apply_patterns {c : Client} {up : Upgraded} (hagree : ∀ p, p ∈ up.subjects ↔ p ∈ c.patterns)
    (hnodup : up.subjects.Nodup) (u : ℕ) (pub : Pub) :
    (∀ p, p ∈ pub.subjectsAfter u up ↔ p ∈ (c.apply u pub).patterns) ↔
      (pub.kind = .un → pub.up = none → ∀ p ∈ up.subjects, ¬ pub.Removes p) := by
  obtain ⟨kind, pubUp, subject, msg⟩ := pub
  unfold Pub.subjectsAfter Client.apply
  cases kind with
  | close =>
    dsimp only
    split_ifs <;> simpa using hagree
  | write =>
    dsimp only
    split_ifs <;> simpa using hagree
  | msg =>
    dsimp only
    split_ifs <;> simpa using hagree
  | sub =>
    dsimp only
    split_ifs with hu
    · cases subject with
      | none => simpa using hagree
      | some q =>
        have hadd : ∀ p, p ∈ (up.addSubject q).subjects ↔ p ∈ up.subjects ∨ q = p := by
          intro p
          unfold Upgraded.addSubject
          split_ifs with hq
          · constructor
            · exact Or.inl
            · rintro (hp | rfl)
              · exact hp
              · exact hq
          · rw [List.mem_cons, or_comm, eq_comm]
        simp [hadd, hagree]
    · simpa using hagree
  | un =>
    dsimp only
    rcases eq_or_ne pubUp none with rfl | hne
    · -- no pattern is removed here, and all that the request names should be
      simp only [reduceCtorEq, if_false, or_true, if_true, Set.mem_ofPred_eq, ← hagree]
      constructor
      · exact fun h _ _ p hp => ((h p).mp hp).2
      · exact fun h p => ⟨fun hp => ⟨hp, h trivial trivial p hp⟩, And.left⟩
    · by_cases hu : pubUp = some u
      · rw [if_pos hu, if_pos (Or.inl hu)]
        refine ⟨fun _ _ hnone => absurd hnone hne, fun _ p => ?_⟩
        cases subject with
        | none => simp [Upgraded.delSubject, Pub.Removes]
        | some q =>
          rw [Upgraded.delSubject, hnodup.mem_erase_iff, hagree, and_comm]
          simp [Pub.Removes]
      · rw [if_neg hu, if_neg (not_or.mpr ⟨hu, hne⟩)]
        simpa [hne] using hagree

theorem apply_received {c : Client} {up : Upgraded} (hagree : ∀ p, p ∈ up.subjects ↔ p ∈ c.patterns)
    (u : ℕ) (pub : Pub) : (c.apply u pub).received = c.received ++ pub.sentTo u up := by
  obtain ⟨kind, pubUp, subject, msg⟩ := pub
  unfold Pub.sentTo Client.apply
  cases kind with
  | close =>
    dsimp only
    split_ifs
    · rfl
    · exact (List.append_nil _).symm
  | write =>
    dsimp only
    split_ifs
    · rfl
    · exact (List.append_nil _).symm
  | sub =>
    dsimp only
    split_ifs <;> exact (List.append_nil _).symm
  | un =>
    dsimp only
    split_ifs <;> exact (List.append_nil _).symm
  | msg =>
    have hmatch : (∃ p ∈ c.patterns, ∃ q, subject = some q ∧ agooSubjectCheck p q = true) ↔
        subject.any up.isMatch = true := by
      cases subject with
      | none => simp
      | some q => simp [Upgraded.isMatch, hagree]
    dsimp only
    simp only [hmatch]
    split_ifs
    · rfl
    · exact (List.append_nil _).symm

/-! ## Runs -/

/-- What holds of the list of clients and of their patterns. -/
structure Listed (s : Server) : Prop where
  nodup : s.upList.Nodup
  lt : ∀ u ∈ s.upList, u < s.upCnt
  subjects : ∀ u, (s.up u).subjects.Nodup

theorem Frame.listed {s s' : Server} (h : Frame s s') (hs : s.Listed) : s'.Listed where
  nodup := hs.nodup.sublist h.list
  lt u hu := h.cnt ▸ hs.lt u (h.list.subset hu)
  subjects u := h.subjects u ▸ hs.subjects u

theorem Frame.agrees {s s' : Server} (h : Frame s s') {u : ℕ} : s'.Agrees u ↔ s.Agrees u := by
  unfold Agrees wanted
  rw [h.subjects, h.sent, h.taken]

theorem Frame.allAgree {s s' : Server} (h : Frame s s') (hs : s.AllAgree) : s'.AllAgree := by
  intro u hu hopen
  rw [h.agrees]
  refine hs u (h.list.subset hu) fun hnone => hopen ?_
  rcases h.con u with heq | hnone'
  · rw [heq, hnone]
  · exact hnone'

/-- A step that is neither an upgrade nor processes a publication. -/
theorem step_frame {s s' : Server} {a : Action} (hstep : s.step a = some s')
    (hup : ∀ c h, a ≠ .upgrade c h) (hproc : ∀ loop, a ≠ .process loop) : Frame s s' := by
  cases a with
  | upgrade c h => exact absurd rfl (hup c h)
  | process loop => exact absurd rfl (hproc loop)
  | message c bin =>
    obtain ⟨u, -, h⟩ := Option.bind_eq_some_iff.mp hstep
    split_ifs at h <;> obtain rfl := Option.some.inj h <;> exact frame_pushReq s u _ _
  | error c =>
    obtain ⟨u, -, h⟩ := Option.bind_eq_some_iff.mp hstep
    split_ifs at h
    obtain rfl := Option.some.inj h
    exact frame_pushReq s u _ _
  | closeNotice c =>
    obtain ⟨u, -, h⟩ := Option.bind_eq_some_iff.mp hstep
    split_ifs at h
    obtain rfl := Option.some.inj h
    exact frame_pushReq s u _ _
  | destroyCon c =>
    obtain ⟨-, h⟩ := Option.ite_none_left_eq_some.mp hstep
    obtain rfl := Option.some.inj h
    exact frame_conDestroy s c
  | get u =>
    obtain ⟨-, h⟩ := Option.ite_none_right_eq_some.mp hstep
    obtain rfl := Option.some.inj h
    exact (frame_ref s u).trans (.of_eq rfl rfl rfl rfl rfl)
  | write u message bin incRef =>
    obtain ⟨-, h⟩ := Option.ite_none_right_eq_some.mp hstep
    obtain rfl := Option.some.inj h
    exact frame_upgradedWrite s u message bin incRef
  | subscribe u subject incRef =>
    obtain ⟨-, h⟩ := Option.ite_none_right_eq_some.mp hstep
    obtain rfl := Option.some.inj h
    exact frame_ask s u incRef _
  | unsubscribe u subject incRef =>
    obtain ⟨-, h⟩ := Option.ite_none_right_eq_some.mp hstep
    obtain rfl := Option.some.inj h
    exact frame_ask s u incRef _
  | close u incRef =>
    obtain ⟨-, h⟩ := Option.ite_none_right_eq_some.mp hstep
    obtain rfl := Option.some.inj h
    exact frame_ask s u incRef _
  | query u =>
    obtain ⟨-, h⟩ := Option.ite_none_right_eq_some.mp hstep
    obtain rfl := Option.some.inj h
    exact (frame_unref s u).trans (frame_setTask _ _ _)
  | publish subject message =>
    obtain rfl := Option.some.inj hstep
    exact .of_eq rfl rfl rfl rfl rfl
  | unsubscribeAll subject =>
    obtain rfl := Option.some.inj hstep
    exact .of_eq rfl rfl rfl rfl rfl
  | push pub loop =>
    obtain ⟨-, h⟩ := Option.ite_none_right_eq_some.mp hstep
    obtain rfl := Option.some.inj h
    exact frame_publishTo s pub loop
  | destroyPub pub =>
    obtain ⟨-, h⟩ := Option.ite_none_right_eq_some.mp hstep
    obtain rfl := Option.some.inj h
    exact (frame_setTask s _ _).trans (frame_releasePub _ pub)
  | handle =>
    obtain ⟨req, rest, -, rfl⟩ := s.handleNext_eq_some hstep
    have h : Frame s { s with evalQueue := rest } := .of_eq rfl rfl rfl rfl rfl
    split_ifs
    · exact h.trans (frame_beginHandle _ req)
    · exact h
  | handled req raised =>
    obtain ⟨-, h⟩ := Option.ite_none_right_eq_some.mp hstep
    obtain rfl := Option.some.inj h
    split_ifs
    · exact frame_setTask s _ _
    · exact (frame_setTask s _ _).trans (frame_release _ _)

theorem onLoop_con {s : Server} {u loop : ℕ} (h : s.onLoop u loop = true) : (s.up u).con ≠ none := by
  intro hnone
  rw [onLoop, hnone] at h
  cases h

theorem subjectsAfter_nodup {up : Upgraded} (h : up.subjects.Nodup) (pub : Pub) (u : ℕ) :
    (pub.subjectsAfter u up).Nodup := by
  unfold Pub.subjectsAfter
  split_ifs
  · cases pub.kind with
    | sub =>
      cases pub.subject with
      | none => exact h
      | some p =>
        dsimp only [Option.elim]
        unfold Upgraded.addSubject
        split_ifs with hp
        · exact h
        · exact List.nodup_cons.mpr ⟨hp, h⟩
    | un =>
      cases pub.subject with
      | none => exact List.nodup_nil
      | some p => exact h.erase p
    | _ => exact h
  · exact h

/-- A publication is processed. -/
theorem process_agrees {s s' : Server} {pub : Pub} {rest : List Pub} {loop : ℕ} (hs : s.Listed)
    (hagree : s.AllAgree) (h : (s.take pub rest loop).processPubCon pub loop = some s') :
    s'.Listed ∧ (s'.AllAgree ↔ (pub.kind = .un → pub.up = none →
      ∀ u ∈ s.upList, s.onLoop u loop = true → ∀ p ∈ (s.up u).subjects, ¬ pub.Removes p)) := by
  have heffect : Effect (s.take pub rest loop) s' pub loop := processPubCon_effect hs.nodup h
  have hlist : s'.upList = s.upList := heffect.list
  have hsub : ∀ u, (s'.up u).subjects =
      if s.onLoop u loop = true then pub.subjectsAfter u (s.up u) else (s.up u).subjects := heffect.subjects
  have htaken : ∀ u, s'.taken u = if s.onLoop u loop then s.taken u ++ [pub] else s.taken u :=
    congrFun heffect.taken
  have hsent : ∀ u ∈ s.upList, s'.sent u =
      if s.onLoop u loop = true then s.sent u ++ pub.sentTo u (s.up u) else s.sent u := heffect.sent
  -- a client of this loop agrees if and only if the publication did what it should do
  have hhere : ∀ u ∈ s.upList, s.onLoop u loop = true → (s'.Agrees u ↔
      (pub.kind = .un → pub.up = none → ∀ p ∈ (s.up u).subjects, ¬ pub.Removes p)) := by
    intro u hu hl
    obtain ⟨hpat, hrec⟩ := hagree u hu (onLoop_con hl)
    have hwanted : s'.wanted u = (s.wanted u).apply u pub := by
      unfold wanted
      rw [htaken, if_pos hl, List.foldl_append]
      rfl
    unfold Agrees
    rw [hwanted, hsub, if_pos hl, hsent u hu, if_pos hl, apply_received hpat, hrec,
      apply_patterns hpat (hs.subjects u)]
    exact and_iff_left rfl
  have hthere : ∀ u ∈ s.upList, s.onLoop u loop ≠ true → (s'.Agrees u ↔ s.Agrees u) := by
    intro u hu hl
    have hwanted : s'.wanted u = s.wanted u := by
      unfold wanted
      rw [htaken, if_neg hl]
    unfold Agrees
    rw [hwanted, hsub, if_neg hl, hsent u hu, if_neg hl]
  refine ⟨⟨hlist ▸ hs.nodup, ?_, fun u => ?_⟩, fun hall hkind hup u hu hl => ?_, fun hok u hu hopen => ?_⟩
  · rw [hlist, heffect.cnt]
    exact hs.lt
  · rw [hsub]
    split_ifs
    · exact subjectsAfter_nodup (hs.subjects u) pub u
    · exact hs.subjects u
  · have hopen : (s'.up u).con ≠ none := by
      rw [heffect.con]
      exact onLoop_con hl
    exact (hhere u hu hl).mp (hall u (hlist ▸ hu) hopen) hkind hup
  · rw [hlist] at hu
    rw [heffect.con] at hopen
    by_cases hl : s.onLoop u loop = true
    · exact (hhere u hu hl).mpr fun hkind hup => hok hkind hup u hu hl
    · exact (hthere u hu hl).mpr (hagree u hu hopen)

/-- A new client has no pattern and was sent nothing. -/
theorem upgrade_agrees {s : Server} (c : ℕ) (h : Handler) (hs : s.Listed) (hagree : s.AllAgree) :
    (s.rupgradedCreate c h).Listed ∧ (s.rupgradedCreate c h).AllAgree := by
  have hnew : s.upCnt ∉ s.upList := fun hmem => lt_irrefl _ (hs.lt _ hmem)
  refine ⟨⟨List.nodup_cons.mpr ⟨hnew, hs.nodup⟩, fun u hu => ?_, fun u => ?_⟩, fun u hu hopen => ?_⟩
  · rcases List.mem_cons.mp hu with rfl | hu
    · exact Nat.lt_succ_self _
    · exact (hs.lt u hu).trans (Nat.lt_succ_self _)
  · change ((s.setUp s.upCnt (upgradedCreate c h)).up u).subjects.Nodup
    by_cases heq : u = s.upCnt
    · subst heq
      rw [setUp_self]
      exact List.nodup_nil
    · rw [setUp_other s heq]
      exact hs.subjects u
  · have hsame : ∀ v, ((s.rupgradedCreate c h).up v) = (s.setUp s.upCnt (upgradedCreate c h)).up v :=
      fun _ => rfl
    unfold Agrees wanted
    rcases List.mem_cons.mp hu with rfl | hu
    · rw [hsame, setUp_self]
      simp [rupgradedCreate, upgradedCreate, Client.new]
    · have hne : u ≠ s.upCnt := fun heq => hnew (heq ▸ hu)
      rw [hsame, setUp_other s hne] at hopen ⊢
      have hold := hagree u hu hopen
      unfold Agrees wanted at hold
      simpa [rupgradedCreate, Function.update_of_ne hne] using hold

/-- What a step preserves. -/
theorem agrees_step {s s' : Server} {a : Action} (hs : s.Listed) (hagree : s.AllAgree)
    (hstep : s.step a = some s') : s'.Listed ∧ (s'.AllAgree ↔ s.NotGlobal a) := by
  cases a with
  | upgrade c h =>
    obtain ⟨-, h⟩ := Option.ite_none_left_eq_some.mp hstep
    obtain rfl := Option.some.inj h
    obtain ⟨hlisted, hall⟩ := upgrade_agrees c _ hs hagree
    exact ⟨hlisted, fun _ => trivial, fun _ => hall⟩
  | process loop =>
    obtain ⟨pub, rest, hq, h⟩ := s.processNext_eq_some hstep
    obtain ⟨hlisted, hall⟩ := process_agrees hs hagree h
    refine ⟨hlisted, hall.trans ?_⟩
    simp [NotGlobal, hq]
  | _ =>
    have hframe := step_frame hstep (fun _ _ => Action.noConfusion) fun _ => Action.noConfusion
    exact ⟨hframe.listed hs, fun _ => trivial, fun _ => hframe.allAgree hagree⟩

theorem start_agrees (extra : ℕ) (loop : ℕ → ℕ) (maxPushPending : ℤ) :
    (start extra loop maxPushPending).Listed ∧ (start extra loop maxPushPending).AllAgree :=
  ⟨⟨List.nodup_nil, fun _ h => absurd h List.not_mem_nil, fun _ => List.nodup_nil⟩,
    fun _ h => absurd h List.not_mem_nil⟩

/-- **In every state of a run, each client whose connection is open has the patterns that it should have
and was sent what it should be sent, if and only if no global unsubscribe that a loop processes names a
pattern that a client of it holds.** -/
theorem subjects_iff (extra : ℕ) (loop : ℕ → ℕ) (maxPushPending : ℤ) (as : List Action) :
    Always step AllAgree (start extra loop maxPushPending) as ↔
      Along step NotGlobal (start extra loop maxPushPending) as := by
  have hkeep : ∀ (s : Server) (a : Action) (s' : Server), s.Listed ∧ s.AllAgree → True → s.NotGlobal a →
      step s a = some s' → s'.Listed ∧ s'.AllAgree := by
    intro s a s' h _ hok hstep
    obtain ⟨hlisted, hall⟩ := agrees_step h.1 h.2 hstep
    exact ⟨hlisted, hall.mpr hok⟩
  have hout : ∀ (s : Server) (a : Action) (s' : Server), s.Listed ∧ s.AllAgree → True → ¬ s.NotGlobal a →
      step s a = some s' → ¬ s'.AllAgree :=
    fun s a s' h _ hok hstep hall => hok ((agrees_step h.1 h.2 hstep).2.mp hall)
  exact always_iff_along _ hkeep (fun _ h => h.2) hout (start_agrees extra loop maxPushPending)
    (along_true _ as)

/-- A client subscribes, and all are unsubscribed from its subject. -/
def lostRun : List Action :=
  [.upgrade 0 ⟨false, false, true, true, false⟩, .get 0, .subscribe 0 (bytes "a") false,
    .push (pubSubscribe 0 (bytes "a")) 0, .process 0, .unsubscribeAll (bytes "a"),
    .push (pubUnsubscribe none (some (bytes "a"))) 0, .process 0]

/-- `Agoo.unsubscribe` does not reach a client that subscribed. -/
theorem global_unsubscribe_lost : ¬ ∀ as : List Action, Always step AllAgree (start 0 (fun _ => 0) 32) as := by
  intro h
  obtain ⟨s, hruns, hlist, hopen, hmem, htaken⟩ : ∃ s, runs step (start 0 (fun _ => 0) 32) lostRun = some s ∧
      0 ∈ s.upList ∧ (s.up 0).con ≠ none ∧ bytes "a" ∈ (s.up 0).subjects ∧
        s.taken 0 = [pubSubscribe 0 (bytes "a"), pubUnsubscribe none (some (bytes "a"))] :=
    ⟨_, rfl, by decide, by decide, by decide, by decide⟩
  obtain ⟨hpat, -⟩ := (h lostRun).last hruns 0 hlist hopen
  have hwanted := (hpat _).mp hmem
  rw [wanted, htaken] at hwanted
  have hc : subjectCreate (bytes "a") = bytes "a" := by decide
  simp [Client.apply, pubSubscribe, pubUnsubscribe, Pub.Removes, hc] at hwanted

end Server

end Publish

end Agoo
