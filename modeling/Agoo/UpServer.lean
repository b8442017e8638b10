import Agoo.PublishSets
import Agoo.UpWalks

/-!
# The pointers and the list of the model of publications

`Publish.Server` has the upgraded connections in a list. `Shows` says that this is the list that the pointers of
`UpList.State` stand for: an upgrade, a change of a connection and a release do the same to both, and a loop of
`publish_pub` that nothing disturbs sends what `Server.publishPub` sends.
-/

namespace Agoo

namespace UpList

open Publish LinkedList

/-- The list is that of the pointers, and its connections are the ones in memory. -/
structure Shows (s : State) (p : Server) : Prop where
  listed : s.Listed p.upList
  holds : ∀ u ∈ p.upList, val s.heap u = some (p.up u)
  loop : s.loop = p.loop

namespace Shows

variable {s s' : State} {p : Server} {u : ℕ}

theorem cell (h : Shows s p) (hu : u ∈ p.upList) : ∃ up, s.heap u = some up ∧ up.val = p.up u :=
  Option.map_eq_some_iff.mp (h.holds u hu)

theorem lastRef (h : Shows s p) (hu : u ∈ p.upList) : s.lastRef u = (p.up u).isLast := by
  obtain ⟨up, hup, hval⟩ := h.cell hu
  simp [State.lastRef, hup, hval]

/-- An upgrade, when `calloc` gives the next number. -/
theorem upgrade (h : Shows s p) {c : ℕ} {hd : Handler}
    (hruns : runs step s [.create p.upCnt c hd, .add p.upCnt] = some s') : Shows s' (p.rupgradedCreate c hd) := by
  obtain ⟨t, hcreate, hruns⟩ := Option.bind_eq_some_iff.mp hruns
  obtain ⟨t', hadd, hlast⟩ := Option.bind_eq_some_iff.mp hruns
  obtain rfl := Option.some.inj hlast
  obtain ⟨hcreating, hadd⟩ := Option.ite_none_right_eq_some.mp hadd
  have hlisted := (h.listed.create hcreate).1
  obtain ⟨k, conUp, hk, -, hrel⟩ := hlisted.addUpgraded hcreating
  have hlisted' := (hlisted.add hcreating hadd).1
  have hnot := hlisted.not_mem hcreating
  obtain rfl := Option.some.inj (hk.symm.trans hadd)
  obtain ⟨-, hcreate⟩ := Option.ite_none_left_eq_some.mp hcreate
  obtain rfl := Option.some.inj hcreate
  refine ⟨hlisted', fun v hv => (hrel.val v).trans ?_, h.loop⟩
  by_cases hvu : v = p.upCnt
  · subst hvu
    simp [val, Server.rupgradedCreate, Server.setUp]
  · have hvl : v ∈ p.upList := (List.mem_cons.mp hv).resolve_left hvu
    simpa [val, Server.rupgradedCreate, Server.setUp, hvu] using h.holds v hvl

/-- What is not a link changes. -/
theorem modify (h : Shows s p) {f : Upgraded → Upgraded} (hu : s.live u = true) (hstep : s.modify u f = some s') :
    Shows s' (p.setUp u (f (p.up u))) := by
  have hstays : State.Stays s s' :=
    State.stays_modify hstep fun hcreating => absurd hcreating (State.live_iff.mp hu).2
  obtain ⟨up, hup, hval⟩ := h.cell ((h.listed.mem u).mpr hu)
  obtain ⟨up', hup', rfl⟩ := State.modify_eq_some hstep
  obtain rfl := Option.some.inj (hup.symm.trans hup')
  refine ⟨hstays.listed h.listed, fun v hv => ?_, h.loop⟩
  by_cases hvu : v = u
  · subst hvu
    simp [val, hval]
  · simpa [val, Server.setUp, hvu] using h.holds v hv

/-- `destroy`, which in the other model leaves a connection that is not listed. -/
theorem destroy (h : Shows s p) (hu : u ∈ p.upList) (hstep : s.destroy u = some s') :
    Shows s' { p.setUp u (p.up u).destroy with upList := p.upList.erase u } := by
  obtain ⟨k, hk, -, hrel⟩ := h.listed.destroy hu
  have hlisted := (h.listed.destroyed hu hstep).1
  obtain rfl := Option.some.inj (hk.symm.trans hstep)
  refine ⟨hlisted, fun v hv => ?_, h.loop⟩
  obtain ⟨hvu, hvl⟩ := h.listed.nodup.mem_erase_iff.mp hv
  have hsame : val (Function.update k u none) v = val k v := by simp [val, hvu]
  rw [show (p.setUp u (p.up u).destroy).up v = p.up v from Function.update_of_ne hvu ..]
  exact hsame.trans ((hrel.val v).trans (h.holds v hvl))

/-- **The releases agree.** -/
theorem release (h : Shows s p) (hu : s.live u = true) (hstep : s.release u = some s') :
    Shows s' (p.release u) := by
  have hmem := (h.listed.mem u).mpr hu
  obtain ⟨t, ht, hstep⟩ := Option.bind_eq_some_iff.mp hstep
  have hmodify := h.modify hu ht
  rw [h.lastRef hmem] at hstep
  unfold Server.release
  cases hlast : (p.up u).isLast with
  | false =>
    rw [hlast] at hstep
    obtain rfl := Option.some.inj hstep
    exact hmodify
  | true =>
    rw [hlast] at hstep
    have hdestroy := hmodify.destroy (u := u) hmem hstep
    simpa [Server.setUp] using hdestroy

theorem releaseCon (h : Shows s p) (hu : s.live u = true) (hstep : s.releaseCon u = some s') :
    Shows s' (p.releaseCon u) := by
  obtain ⟨t, ht, hstep⟩ := Option.bind_eq_some_iff.mp hstep
  have hstays : State.Stays s t :=
    State.stays_modify ht fun hcreating => absurd hcreating (State.live_iff.mp hu).2
  exact (h.modify hu ht).release ((hstays.live u).trans hu) hstep

/-- A round sends a connection what the other model sends for it. -/
theorem gets_eq (h : Shows s p) (hu : u ∈ p.upList) (subject : Bytes) (msg : Option Message) (loop c : ℕ) :
    s.gets subject msg loop c u = if (p.up u).con = some c then p.published subject msg loop u else [] := by
  obtain ⟨up, hup, hval⟩ := h.cell hu
  unfold State.gets Server.published
  rw [hup, Option.any_some, State.onLoop, Server.onLoop, hval, h.loop]
  cases hcon : (p.up u).con with
  | none => simp
  | some d =>
    by_cases hd : d = c
    · subst hd
      by_cases hloop : p.loop d = loop <;> simp [hloop]
    · simp [Option.filter, hd]

/-- **A publication that a con loop processes while nothing else happens is sent to the same connections.** -/
theorem publish (h : Shows s p) {loop : ℕ} (hidle : s.working loop = none) (subject message : Bytes) :
    ∃ t, runs step s (Action.take loop (.publish subject message) :: List.replicate p.upList.length (.round loop)) =
        some t ∧
      (∀ c, t.sent c = s.sent c ++ p.upList.flatMap fun u =>
        if (p.up u).con = some c then p.published (subjectCreate subject) (some ⟨message, false⟩) loop u else []) ∧
      ∀ u ∈ p.upList, (p.publishPub (subjectCreate subject) (some ⟨message, false⟩) loop).sent u =
        p.sent u ++ p.published (subjectCreate subject) (some ⟨message, false⟩) loop u := by
  obtain ⟨t, hruns, -, hsent⟩ := State.publish_alone h.listed hidle subject message
  refine ⟨t, hruns, fun c => ?_, fun u hu => ?_⟩
  · rw [hsent, List.flatMap_congr fun u hu => h.gets_eq hu _ _ loop c]
  · rw [Server.publishPub, Server.publishAll_eq _ _ _ h.listed.nodup]
    exact congrArg (p.sent u ++ ·) (if_pos hu)

end Shows

end UpList

end Agoo
