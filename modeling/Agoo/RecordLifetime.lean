import Agoo.ConLoop

/-!
# The life of a response record

While its request is unanswered, a record belongs to that request: it is not on the loop's list, in one
queue at most, and has only messages of that request's handler. `records_kept_iff` tells exactly in
which runs of the loop that holds.
-/

namespace Agoo

namespace Loop

/-! ## The invariant -/

/-- The record that a write has popped from a connection's queue. -/
def popped (c : Loop) (k : ℕ) : List ℕ :=
  match c.pc with
  | .idle => []
  | .finished k' a => if k' = k then [a] else []
  | .testing k' a _ => if k' = k then [a] else []

/-- The records of a connection's queue, and the one that a write has popped. -/
def held (c : Loop) (k : ℕ) : List ℕ := c.popped k ++ (c.con k).queue

/-- A record that belongs to a request. -/
structure Owned (c : Loop) (a q : ℕ) : Prop where
  lt : a < c.cnt
  used : a ∉ c.free
  made : q < c.reqCnt
  res : (c.req q).res = a
  con : (c.mem a).res.con = (c.req q).con
  ping : (c.mem a).res.ping = false
  pong : (c.mem a).res.pong = false

structure Inv (c : Loop) : Prop where
  freeNodup : c.free.Nodup
  freeLt : ∀ a ∈ c.free, a < c.cnt
  heldNodup : ∀ k, (c.held k).Nodup
  held : ∀ k, ∀ a ∈ c.held k, a < c.cnt ∧ a ∉ c.free ∧ (c.mem a).res.con = k
  owner : ∀ a q, c.owner a = some q → c.Owned a q
  unanswered : ∀ q, (c.req q).unanswered → c.owner (c.req q).res = some q ∧
    (c.mem (c.req q).res).res.final = false
  pushers : ∀ a q, some q ∈ (c.mem a).pushers → q < c.reqCnt ∧ (c.req q).con = (c.mem a).res.con
  written : ∀ q k, (q, k) ∈ c.written → q < c.reqCnt ∧ (c.req q).con = k

variable {c c' : Loop}

theorem inv_init : init.Inv where
  freeNodup := List.nodup_nil
  freeLt _ h := by cases h
  heldNodup _ := List.nodup_nil
  held _ _ h := by cases h
  owner _ _ h := by cases h
  unanswered _ h := by cases h
  pushers _ _ h := by cases h
  written _ _ h := by cases h

theorem Inv.kept (h : c.Inv) : c.Kept where
  records q hq := ⟨(h.unanswered q hq).1, (h.owner _ q (h.unanswered q hq).1).used⟩
  written q k hqk := (h.written q k hqk).2

/-- An unanswered request's record waits. -/
theorem Inv.waits (h : c.Inv) {q : ℕ} (hq : (c.req q).unanswered) : c.waits (c.req q).res := by
  rw [Loop.waits, (h.unanswered q hq).1]
  exact hq

theorem exists_of_waits {a : ℕ} (h : c.waits a) :
    ∃ q, c.owner a = some q ∧ (c.req q).unanswered := by
  unfold Loop.waits at h
  cases ho : c.owner a with
  | none =>
    rw [ho] at h
    cases h
  | some q =>
    rw [ho] at h
    exact ⟨q, rfl, h⟩

/-- The queues get shorter. -/
theorem Inv.sub (h : c.Inv) {active : Bool} {con : ℕ → LoopCon} {conCnt : ℕ} {pc : LoopPc}
    (hsub : ∀ k, (Loop.held { c with con := con, pc := pc } k).Sublist (c.held k)) :
    Inv { c with active := active, con := con, conCnt := conCnt, pc := pc } :=
  { h with
    heldNodup := fun k => (h.heldNodup k).sublist (hsub k)
    held := fun k a ha => h.held k a ((hsub k).subset ha)
    owner := fun a q ho => { h.owner a q ho with } }

/-- One connection changes; its queue gets shorter. -/
theorem Inv.setCon (h : c.Inv) {k : ℕ} {d : LoopCon} (hd : d.queue.Sublist (c.con k).queue) :
    (c.setCon k d).Inv := by
  refine h.sub fun k' => ?_
  have hq : (Function.update c.con k d k').queue.Sublist (c.con k').queue := by
    by_cases hk : k' = k
    · rw [hk, Function.update_self]
      exact hd
    · rw [Function.update_of_ne hk]
  exact hq.append_left _

/-- A record changes that is not unanswered, or stays without its final message. -/
theorem Inv.setMem (h : c.Inv) {a : ℕ} {r : Rec} (hsame : (c.mem a).Same r)
    (hfinal : c.waits a → r.res.final = false)
    (hpush : ∀ q, some q ∈ r.pushers → q < c.reqCnt ∧ (c.req q).con = (c.mem a).res.con) :
    (c.setMem a r).Inv := by
  have hmem : ∀ b, (c.mem b).Same ((c.setMem a r).mem b) := by
    intro b
    by_cases hb : b = a
    · rw [hb]
      show (c.mem a).Same (Function.update c.mem a r a)
      rwa [Function.update_self]
    · show (c.mem b).Same (Function.update c.mem a r b)
      rw [Function.update_of_ne hb]
      exact ⟨rfl, rfl, rfl⟩
  exact { h with
    held := fun k b hb => ⟨(h.held k b hb).1, (h.held k b hb).2.1,
      (hmem b).con.trans (h.held k b hb).2.2⟩
    owner := fun b q hb =>
      have ho := h.owner b q hb
      { ho with
        con := (hmem b).con.trans ho.con
        ping := (hmem b).ping.trans ho.ping
        pong := (hmem b).pong.trans ho.pong }
    unanswered := fun q hq => by
      refine ⟨(h.unanswered q hq).1, ?_⟩
      show (Function.update c.mem a r (c.req q).res).res.final = false
      by_cases hb : (c.req q).res = a
      · rw [hb, Function.update_self]
        exact hfinal (hb ▸ h.waits hq)
      · rw [Function.update_of_ne hb]
        exact (h.unanswered q hq).2
    pushers := fun b q hq => by
      have hq : some q ∈ (Function.update c.mem a r b).pushers := hq
      rw [(hmem b).con]
      by_cases hb : b = a
      · rw [hb, Function.update_self] at hq
        rw [hb]
        exact hpush q hq
      · rw [Function.update_of_ne hb] at hq
        exact h.pushers b q hq }

/-- A change that keeps the messages' handlers and `final`. -/
theorem Inv.changeMem (h : c.Inv) {a : ℕ} {r : Rec} (hsame : (c.mem a).Same r)
    (hfinal : r.res.final = (c.mem a).res.final) (hpush : r.pushers ⊆ (c.mem a).pushers) :
    (c.setMem a r).Inv := by
  refine h.setMem hsame (fun hw => ?_) fun q hq => h.pushers a q (hpush hq)
  obtain ⟨q, ho, hq⟩ := exists_of_waits hw
  have hres := (h.owner a q ho).res
  rw [hfinal, ← hres]
  exact (h.unanswered q hq).2

/-- A record in no queue that does not wait goes back to the loop. -/
theorem Inv.destroy (h : c.Inv) {a : ℕ} (hlt : a < c.cnt) (hfree : a ∉ c.free)
    (hheld : ∀ k, a ∉ c.held k) (hwait : c.waits a = false) : (c.destroy a).Inv := by
  have hmem : (c.setMem a (c.mem a).destroy).Inv :=
    h.changeMem ⟨rfl, rfl, rfl⟩ rfl (List.nil_subset _)
  have hother : ∀ b q, Function.update c.owner a none b = some q → b ≠ a ∧ c.owner b = some q := by
    intro b q hb
    have hne : b ≠ a := by
      rintro rfl
      rw [Function.update_self] at hb
      cases hb
    rw [Function.update_of_ne hne] at hb
    exact ⟨hne, hb⟩
  have hfree' : ∀ b, b ≠ a → b ∉ c.free → b ∉ c.free ++ [a] := by
    intro b hne hb hmem
    rcases List.mem_append.mp hmem with hm | hm
    · exact hb hm
    · exact hne (List.mem_singleton.mp hm)
  exact { hmem with
    freeNodup := by
      refine List.nodup_append.mpr ⟨h.freeNodup, List.pairwise_singleton _ a, fun b hb d hd => ?_⟩
      rintro rfl
      obtain rfl := List.mem_singleton.mp hd
      exact hfree hb
    freeLt := fun b hb => by
      rcases List.mem_append.mp hb with hb | hb
      · exact h.freeLt b hb
      · obtain rfl := List.mem_singleton.mp hb
        exact hlt
    held := fun k b hb => by
      have hb' : b ∈ c.held k := hb
      have hne : b ≠ a := fun he => hheld k (he ▸ hb')
      exact ⟨(h.held k b hb').1, hfree' b hne (h.held k b hb').2.1, (hmem.held k b hb).2.2⟩
    owner := fun b q hb => by
      obtain ⟨hne, ho⟩ := hother b q hb
      have howned := hmem.owner b q ho
      exact { howned with used := hfree' b hne howned.used }
    unanswered := fun q hq => by
      have hne : (c.req q).res ≠ a := by
        intro he
        have := h.waits hq
        rw [he, hwait] at this
        cases this
      refine ⟨?_, (hmem.unanswered q hq).2⟩
      show Function.update c.owner a none (c.req q).res = some q
      rw [Function.update_of_ne hne]
      exact (h.unanswered q hq).1 }

/-! ## New records -/

theorem Inv.place (h : c.Inv) : c.place ∉ c.free.tail ∧ (c.place ∈ c.free ∨ c.place = c.cnt ∧ c.free = []) := by
  unfold Loop.place
  cases hf : c.free with
  | nil => exact ⟨by simp, Or.inr ⟨rfl, rfl⟩⟩
  | cons a free =>
    have hnd := h.freeNodup
    rw [hf] at hnd
    exact ⟨(List.nodup_cons.mp hnd).1, Or.inl List.mem_cons_self⟩

/-- The place of a new record is no record in use. -/
theorem Inv.place_new (h : c.Inv) {a : ℕ} (hlt : a < c.cnt) (hfree : a ∉ c.free) : a ≠ c.place := by
  rintro rfl
  rcases h.place.2 with hm | ⟨he, -⟩
  · exact hfree hm
  · omega

theorem held_addRes (k : ℕ) (r : Rec) (k' : ℕ) :
    (c.addRes k r).held k' = if k' = k then c.held k' ++ [c.place] else c.held k' := by
  show c.popped k' ++ (Function.update c.con k _ k').queue = _
  split
  · next hk =>
    rw [hk, Function.update_self]
    exact (List.append_assoc ..).symm
  · next hk =>
    rw [Function.update_of_ne hk]
    rfl

/-- A new record in a queue, without a handler's message. -/
theorem Inv.addRes (h : c.Inv) {k : ℕ} {r : Rec} (hcon : r.res.con = k)
    (hpush : ∀ q, some q ∉ r.pushers) : (c.addRes k r).Inv := by
  obtain ⟨htail, hplace⟩ := h.place
  have hcnt : c.cnt ≤ (c.addRes k r).cnt := by
    show c.cnt ≤ if c.free = [] then c.cnt + 1 else c.cnt
    split <;> omega
  have hlt : c.place < (c.addRes k r).cnt := by
    rcases hplace with hm | ⟨hp, hf⟩
    · exact (h.freeLt _ hm).trans_le hcnt
    · show c.place < if c.free = [] then c.cnt + 1 else c.cnt
      rw [if_pos hf, hp]
      exact Nat.lt_succ_self _
  have hother : ∀ b, b < c.cnt → b ∉ c.free →
      b ∉ (c.addRes k r).free ∧ (c.addRes k r).mem b = c.mem b := fun b hb hfree =>
    ⟨fun hm => hfree (List.mem_of_mem_tail hm),
      Function.update_of_ne (h.place_new hb hfree) _ _⟩
  have hself : (c.addRes k r).mem c.place = r := Function.update_self ..
  have hnew : ∀ k', c.place ∉ c.held k' := fun k' hm =>
    h.place_new (h.held k' _ hm).1 (h.held k' _ hm).2.1 rfl
  exact {
    freeNodup := h.freeNodup.sublist (List.tail_sublist _)
    freeLt := fun b hb => (h.freeLt b (List.mem_of_mem_tail hb)).trans_le hcnt
    heldNodup := fun k' => by
      rw [held_addRes]
      split
      · refine List.nodup_append.mpr ⟨h.heldNodup k', List.pairwise_singleton _ _, ?_⟩
        rintro b hb d hd rfl
        obtain rfl := List.mem_singleton.mp hd
        exact hnew k' hb
      · exact h.heldNodup k'
    held := fun k' b hb => by
      have hold : b ∈ c.held k' →
          b < (c.addRes k r).cnt ∧ b ∉ (c.addRes k r).free ∧ ((c.addRes k r).mem b).res.con = k' := by
        intro hb
        obtain ⟨hb₁, hb₂, hb₃⟩ := h.held k' b hb
        obtain ⟨ho₁, ho₂⟩ := hother b hb₁ hb₂
        exact ⟨hb₁.trans_le hcnt, ho₁, ho₂ ▸ hb₃⟩
      rw [held_addRes] at hb
      split at hb
      · next hk =>
        rcases List.mem_append.mp hb with hb | hb
        · exact hold hb
        · obtain rfl := List.mem_singleton.mp hb
          exact ⟨hlt, htail, by rw [hself, hcon, hk]⟩
      · exact hold hb
    owner := fun b q hb => by
      have ho := h.owner b q hb
      obtain ⟨ho₁, ho₂⟩ := hother b ho.lt ho.used
      exact { ho with
        lt := ho.lt.trans_le hcnt, used := ho₁
        con := ho₂ ▸ ho.con, ping := ho₂ ▸ ho.ping, pong := ho₂ ▸ ho.pong }
    unanswered := fun q hq => by
      obtain ⟨ho, hf⟩ := h.unanswered q hq
      have howned := h.owner _ q ho
      exact ⟨ho, (hother _ howned.lt howned.used).2 ▸ hf⟩
    pushers := fun b q hq => by
      by_cases hb : b = c.place
      · rw [hb, hself] at hq
        exact absurd hq (hpush q)
      · have hmem : (c.addRes k r).mem b = c.mem b := Function.update_of_ne hb _ _
        rw [hmem] at hq ⊢
        exact h.pushers b q hq
    written := h.written }

/-- A new record has no owner yet. -/
theorem Inv.owner_place (h : c.Inv) : c.owner c.place = none := by
  cases ho : c.owner c.place with
  | none => rfl
  | some q =>
    have howned := h.owner _ q ho
    exact absurd rfl (h.place_new howned.lt howned.used)

theorem Inv.request (h : c.Inv) (k : ℕ) (m : Bytes) (hlen : ℕ) : (c.request k m hlen).Inv := by
  obtain ⟨hcon, hping, hpong⟩ := requestRes_flags k m hlen
  have hclosing : (c.setClosing k (shouldClose m hlen)).Inv := h.setCon (List.Sublist.refl _)
  have hadd : ((c.setClosing k (shouldClose m hlen)).addRes k (.create (requestRes k m hlen))).Inv :=
    hclosing.addRes hcon fun q hq => by cases hq
  have hself : (c.request k m hlen).mem c.place = .create (requestRes k m hlen) :=
    Function.update_self ..
  have hreq : ∀ q, q < c.reqCnt → (c.request k m hlen).req q = c.req q := fun q hq =>
    Function.update_of_ne hq.ne _ _
  have hnew : (c.request k m hlen).req c.reqCnt = ⟨k, c.place, true⟩ := Function.update_self ..
  have hlt : ∀ q, q < c.reqCnt → q < (c.request k m hlen).reqCnt := fun q hq => hq.trans_le (Nat.le_succ _)
  have hplace : c.place < (c.request k m hlen).cnt ∧ c.place ∉ (c.request k m hlen).free := by
    have hm : c.place ∈ ((c.setClosing k (shouldClose m hlen)).addRes k
        (.create (requestRes k m hlen))).held k := by
      rw [held_addRes, if_pos rfl]
      exact List.mem_append_right _ List.mem_cons_self
    exact ⟨(hadd.held k _ hm).1, (hadd.held k _ hm).2.1⟩
  refine { hadd with owner := fun a q ha => ?_, unanswered := fun q hq => ?_,
                     pushers := fun a q hq => ?_, written := fun q k' hq => ?_ }
  · have ha : Function.update c.owner c.place (some c.reqCnt) a = some q := ha
    by_cases hp : a = c.place
    · rw [hp, Function.update_self] at ha
      obtain rfl := Option.some.inj ha
      rw [hp]
      exact { lt := hplace.1, used := hplace.2, made := Nat.lt_succ_self _, res := by rw [hnew]
              con := by rw [hself, hnew]; exact hcon, ping := by rw [hself]; exact hping
              pong := by rw [hself]; exact hpong }
    · rw [Function.update_of_ne hp] at ha
      have ho := hadd.owner a q ha
      exact { lt := ho.lt, used := ho.used, made := hlt q ho.made, res := by rw [hreq q ho.made]; exact ho.res
              con := by rw [hreq q ho.made]; exact ho.con, ping := ho.ping, pong := ho.pong }
  · by_cases hq' : q = c.reqCnt
    · rw [hq', hnew]
      exact ⟨Function.update_self .., by rw [hself]; rfl⟩
    · have hr : (c.request k m hlen).req q = c.req q := Function.update_of_ne hq' _ _
      rw [hr] at hq ⊢
      obtain ⟨ho, hf⟩ := hadd.unanswered q hq
      refine ⟨?_, hf⟩
      show Function.update c.owner c.place (some c.reqCnt) (c.req q).res = some q
      rw [Function.update_of_ne]
      · exact ho
      · intro he
        have ho : c.owner (c.req q).res = some q := ho
        rw [he, h.owner_place] at ho
        cases ho
  · obtain ⟨hmade, hc⟩ := hadd.pushers a q hq
    exact ⟨hlt q hmade, by rw [hreq q hmade]; exact hc⟩
  · obtain ⟨hmade, hc⟩ := h.written q k' hq
    exact ⟨hlt q hmade, by rw [hreq q hmade]; exact hc⟩

theorem Inv.respond (h : c.Inv) {k : ℕ} {r : Res} {t : Bytes} (hcon : r.con = k) :
    (c.respond k r t).Inv := by
  refine h.addRes ?_ fun q hq => ?_
  · exact (Rec.same_messagePush _ _ _).con.trans hcon
  · rcases Rec.mem_messagePush _ _ hq with hq | hq
    · cases hq
    · cases hq

/-! ## Handlers -/

theorem Inv.handle (h : c.Inv) {q : ℕ} {f : Rec → Rec} (hsame : ∀ r : Rec, r.Same (f r))
    (hfinal : ∀ r : Rec, (f r).res.final = r.res.final)
    (hpush : ∀ r : Rec, ∀ p ∈ (f r).pushers, p ∈ r.pushers ∨ p = some q)
    (hstep : c.handle q f = some c') : c'.Inv := by
  unfold Loop.handle at hstep
  split at hstep
  · next hq =>
    obtain rfl := Option.some.inj hstep
    obtain ⟨ho, hf⟩ := h.unanswered q hq
    have howned := h.owner _ q ho
    refine h.setMem (hsame _) (fun _ => (hfinal _).trans hf) fun p hp => ?_
    rcases hpush _ _ hp with hp | hp
    · exact h.pushers _ p hp
    · obtain rfl := Option.some.inj hp
      exact ⟨howned.made, howned.con.symm⟩
  · cases hstep

theorem Inv.answered (h : c.Inv) (q : ℕ) : (c.answered q).Inv := by
  have hreq : ∀ q', ((c.answered q).req q').con = (c.req q').con ∧
      ((c.answered q).req q').res = (c.req q').res ∧
      (((c.answered q).req q').unanswered → (c.req q').unanswered) := by
    intro q'
    show (Function.update c.req q _ q').con = _ ∧ (Function.update c.req q _ q').res = _ ∧
      ((Function.update c.req q _ q').unanswered → _)
    by_cases hq : q' = q
    · rw [hq, Function.update_self]
      exact ⟨rfl, rfl, fun h => by cases h⟩
    · rw [Function.update_of_ne hq]
      exact ⟨rfl, rfl, id⟩
  exact { h with
    owner := fun a q' ho =>
      { h.owner a q' ho with
        res := (hreq q').2.1.trans (h.owner a q' ho).res
        con := (h.owner a q' ho).con.trans (hreq q').1.symm }
    unanswered := fun q' hq => by
      rw [(hreq q').2.1]
      exact h.unanswered q' ((hreq q').2.2 hq)
    pushers := fun a q' hq => ⟨(h.pushers a q' hq).1, (hreq q').1.trans (h.pushers a q' hq).2⟩
    written := fun q' k hq => ⟨(h.written q' k hq).1, (hreq q').1.trans (h.written q' k hq).2⟩ }

/-- The answer. -/
theorem Inv.push (h : c.Inv) {q : ℕ} {t : Option Bytes}
    (hstep : c.step (.push q t) = some c') : c'.Inv := by
  obtain ⟨d, hd, rfl⟩ := Option.map_eq_some_iff.mp hstep
  unfold Loop.handle at hd
  split at hd
  · next hq =>
    obtain rfl := Option.some.inj hd
    obtain ⟨ho, -⟩ := h.unanswered q hq
    have howned := h.owner _ q ho
    have hans := h.answered q
    have hreq : (c.answered q).req q = { c.req q with unanswered := false } := Function.update_self ..
    have hwait : (c.answered q).waits (c.req q).res = false := by
      have ho' : (c.answered q).owner (c.req q).res = some q := ho
      rw [Loop.waits, ho', Option.any_some, hreq]
    refine hans.setMem (Rec.same_messagePush _ _ _) (fun hw => ?_) fun p hp => ?_
    · rw [hwait] at hw
      cases hw
    · rcases Rec.mem_messagePush _ _ hp with hp | hp
      · exact hans.pushers _ p hp
      · obtain rfl := Option.some.inj hp
        refine ⟨howned.made, ?_⟩
        rw [hreq]
        exact howned.con.symm
  · cases hd

/-! ## Writes -/

theorem afterWrite_queue (d : LoopCon) (kind : ConKind) : (d.afterWrite kind).queue = d.queue := by
  unfold LoopCon.afterWrite
  split
  · rfl
  · cases kind <;> rfl

theorem Inv.frame (h : c.Inv) (k a : ℕ) : (c.frame k a).Inv := by
  unfold Loop.frame
  split
  · exact h.changeMem ⟨rfl, rfl, rfl⟩ rfl (List.Subset.refl _)
  · exact h

theorem frame_same (c : Loop) (k a : ℕ) :
    (c.frame k a).con = c.con ∧ (c.frame k a).pc = c.pc := by
  unfold Loop.frame
  split <;> exact ⟨rfl, rfl⟩

theorem Inv.logWrite (h : c.Inv) {k a : ℕ} (ha : a ∈ c.held k) : (c.logWrite k a).Inv := by
  unfold Loop.logWrite
  split
  · next q _ hp =>
    refine { h with owner := fun b p ho => { h.owner b p ho with }, written := fun p k' hm => ?_ }
    rcases List.mem_cons.mp hm with he | hm
    · obtain ⟨rfl, rfl⟩ := Prod.mk.inj he
      obtain ⟨hmade, hcon⟩ := h.pushers a p (hp ▸ List.mem_cons_self)
      exact ⟨hmade, hcon.trans (h.held _ a ha).2.2⟩
    · exact h.written p k' hm
  · exact h

theorem logWrite_same (c : Loop) (k a : ℕ) :
    (c.logWrite k a).con = c.con ∧ (c.logWrite k a).pc = c.pc := by
  unfold Loop.logWrite
  split <;> exact ⟨rfl, rfl⟩

/-- A write holds the record that it popped. -/
theorem Inv.pop (h : c.Inv) (hpc : c.pc = .idle) {k a : ℕ} {queue : List ℕ} {d : LoopCon} {pc : LoopPc}
    (hq : (c.con k).queue = a :: queue) (hd : d.queue = queue)
    (hpop : ∀ k', Loop.popped { c with pc := pc } k' = if k = k' then [a] else []) :
    Inv { c.setCon k d with pc := pc } := by
  refine h.sub fun k' => ?_
  have hold : c.held k' = (c.con k').queue := by rw [Loop.held, Loop.popped, hpc, List.nil_append]
  have hnew : Loop.held { c with con := Function.update c.con k d, pc := pc } k' =
      (if k = k' then [a] else []) ++ (Function.update c.con k d k').queue := by
    rw [← hpop]
    rfl
  show (Loop.held { c with con := Function.update c.con k d, pc := pc } k').Sublist _
  rw [hold, hnew]
  by_cases hk : k' = k
  · rw [if_pos hk.symm, hk, Function.update_self, hd, hq]
    exact List.Sublist.refl _
  · rw [if_neg (Ne.symm hk), Function.update_of_ne hk, List.nil_append]

theorem mem_held {k a : ℕ} {queue : List ℕ} (hq : (c.con k).queue = a :: queue) : a ∈ c.held k := by
  rw [Loop.held, hq]
  exact List.mem_append_right _ List.mem_cons_self

theorem Inv.send (h : c.Inv) (hpc : c.pc = .idle) {k a : ℕ} {queue : List ℕ}
    (hq : (c.con k).queue = a :: queue) {r : SendResult} (hstep : c.send k a queue r = some c') :
    c'.Inv := by
  have htail : queue.Sublist (c.con k).queue := hq ▸ List.sublist_cons_self a queue
  unfold Loop.send at hstep
  split at hstep
  · obtain rfl := Option.some.inj hstep
    exact h.setCon (by rw [afterWrite_queue]; exact htail)
  · obtain rfl := Option.some.inj hstep
    exact h.setCon htail
  · have hlog := h.logWrite (k := k) (mem_held hq)
    obtain ⟨hcon, hpc'⟩ := c.logWrite_same k a
    split at hstep
    · cases hstep
    · split at hstep
      · obtain rfl := Option.some.inj hstep
        exact hlog.pop (hpc'.trans hpc) (hcon ▸ hq) rfl fun _ => rfl
      · obtain rfl := Option.some.inj hstep
        refine hlog.setCon ?_
        rw [afterWrite_queue, hcon, hq]
        exact List.Sublist.refl _

/-- A record that is no longer held goes back. -/
theorem Inv.discard (h : c.Inv) {k a : ℕ} (ha : a ∈ c.held k) (hwait : c.waits a = false) {con : ℕ → LoopCon}
    {pc : LoopPc} (hsub : ∀ k', (Loop.held { c with con := con, pc := pc } k').Sublist (c.held k'))
    (hgone : a ∉ Loop.held { c with con := con, pc := pc } k) :
    (Loop.destroy { c with con := con, pc := pc } a).Inv := by
  obtain ⟨hlt, hfree, hcon⟩ := h.held k a ha
  refine (h.sub hsub).destroy hlt hfree (fun k' hm => ?_) hwait
  have hk : k' = k := (h.held k' a ((hsub k').subset hm)).2.2.symm.trans hcon
  exact hgone (hk ▸ hm)

/-- The head record is popped and goes back. -/
theorem Inv.discardHead (h : c.Inv) (hpc : c.pc = .idle) {k a : ℕ} {queue : List ℕ}
    (hq : (c.con k).queue = a :: queue) (hwait : c.waits a = false) {d : LoopCon} (hd : d.queue = queue) :
    ((c.setCon k d).destroy a).Inv := by
  have hheld : c.held k = a :: queue := by rw [Loop.held, Loop.popped, hpc, List.nil_append, hq]
  have hnew : ∀ k', (c.setCon k d).held k' = if k' = k then queue else c.held k' := by
    intro k'
    show c.popped k' ++ (Function.update c.con k d k').queue = _
    split
    · next hk =>
      rw [hk, Function.update_self, Loop.popped, hpc]
      exact hd
    · next hk =>
      rw [Function.update_of_ne hk]
      rfl
  refine h.discard (mem_held hq) hwait (fun k' => ?_) ?_
  · have hn := hnew k'
    show ((c.setCon k d).held k').Sublist _
    rw [hn]
    split
    · next hk =>
      rw [hk, hheld]
      exact List.sublist_cons_self a queue
    · exact List.Sublist.refl _
  · show a ∉ (c.setCon k d).held k
    rw [hnew, if_pos rfl]
    have hnd := h.heldNodup k
    rw [hheld] at hnd
    exact (List.nodup_cons.mp hnd).1

/-- An unanswered request's record that has no message and no close flag is not written. -/
theorem Inv.writeEmpty (h : c.Inv) (hpc : c.pc = .idle) {k a : ℕ} {queue : List ℕ}
    (hq : (c.con k).queue = a :: queue) {r : SendResult}
    (hflag : (c.mem a).res.close ∨ (c.mem a).res.ping)
    (hok : c.waits a → (c.mem a).res.close = false) : (c.writeEmpty k a queue r).Inv := by
  unfold Loop.writeEmpty
  split
  · refine h.setCon ?_
    rw [afterWrite_queue, hq]
    exact List.sublist_cons_self a queue
  · refine h.discardHead hpc hq (Bool.eq_false_iff.mpr fun hw => ?_) rfl
    obtain ⟨q, ho, -⟩ := exists_of_waits hw
    rcases hflag with hc | hp
    · rw [hok hw] at hc
      cases hc
    · rw [(h.owner a q ho).ping] at hp
      cases hp

theorem Inv.write (h : c.Inv) (hpc : c.pc = .idle) {k : ℕ} {r : SendResult} (hok : c.NoClose k)
    (hstep : c.write k r = some c') : c'.Inv := by
  unfold Loop.write at hstep
  unfold NoClose at hok
  cases hq : (c.con k).queue with
  | nil =>
    rw [hq] at hstep
    cases hstep
  | cons a queue =>
    rw [hq] at hstep hok
    simp only [resPop] at hstep
    split at hstep
    · obtain ⟨hcon, hpc'⟩ := c.frame_same k a
      exact (h.frame k a).send (hpc'.trans hpc) (hcon ▸ hq) hstep
    · next hnone =>
      split at hstep
      · next hflag =>
        obtain rfl := Option.some.inj hstep
        have hmsg : (c.mem a).res.message = [] := by simpa [Res.messagePeek] using hnone
        exact h.writeEmpty hpc hq hflag.2 fun hw => hok hw hflag.1 hmsg
      · cases hstep

theorem Inv.next (h : c.Inv) (hstep : c.step .next = some c') : c'.Inv := by
  rw [step] at hstep
  split at hstep
  · next k a hpc =>
    obtain rfl := Option.some.inj hstep
    have hmem : (c.setMem a (c.mem a).messageNext).Inv :=
      h.changeMem ⟨rfl, rfl, rfl⟩ rfl (List.tail_subset _)
    refine hmem.sub fun k' => ?_
    have hpop : c.popped k' = if k = k' then [a] else [] := by rw [Loop.popped, hpc]
    have hq : (Function.update c.con k { c.con k with wcnt := 0 } k').queue = (c.con k').queue := by
      by_cases hk : k' = k
      · rw [hk, Function.update_self]
      · rw [Function.update_of_ne hk]
    show ((if k = k' then [a] else []) ++ (Function.update c.con k _ k').queue).Sublist
      (c.popped k' ++ (c.con k').queue)
    rw [hq, hpop]
  · cases hstep

theorem Inv.finish (h : c.Inv) {k a : ℕ} {last : Bool} (hpc : c.pc = .testing k a last)
    (hok : c.waits a → (c.con k).bind = .sse → last = false) : (c.finish k a last).Inv := by
  have hpop : ∀ k', c.popped k' = if k = k' then [a] else [] := fun k' => by rw [Loop.popped, hpc]
  have hheld : c.held k = a :: (c.con k).queue := by rw [Loop.held, hpop, if_pos rfl]; rfl
  have hsub : ∀ d : LoopCon, d.queue.Sublist (a :: (c.con k).queue) → ∀ k',
      (Loop.held { c with con := Function.update c.con k d, pc := .idle } k').Sublist (c.held k') := by
    intro d hd k'
    show (Function.update c.con k d k').queue.Sublist _
    by_cases hk : k' = k
    · rw [hk, Function.update_self, hheld]
      exact hd
    · rw [Function.update_of_ne hk]
      exact List.sublist_append_right _ _
  unfold Loop.finish
  split
  · next hlast =>
    have hwait : c.waits a = false := by
      refine Bool.eq_false_iff.mpr fun hw => ?_
      obtain ⟨q, ho, hq⟩ := exists_of_waits hw
      rcases hlast with ⟨hl, hs | hf⟩
      · rw [hok hw hs] at hl
        cases hl
      · have hunf := (h.unanswered q hq).2
        rw [(h.owner a q ho).res, hf] at hunf
        cases hunf
    refine h.discard (k := k) (hheld ▸ List.mem_cons_self) hwait (hsub _ ?_) ?_
    · rw [afterWrite_queue]
      exact List.sublist_cons_self a _
    · show a ∉ (Function.update c.con k _ k).queue
      rw [Function.update_self, afterWrite_queue]
      have hnd := h.heldNodup k
      rw [hheld] at hnd
      exact (List.nodup_cons.mp hnd).1
  · refine h.sub (hsub _ ?_)
    rw [afterWrite_queue]
    exact List.Sublist.refl _

/-! ## Checks and the end -/

theorem Inv.removeDead (h : c.Inv) (hpc : c.pc = .idle) {k : ℕ} (hok : c.Unflagged k)
    (hstep : c.removeDead k = some c') : c'.Inv := by
  unfold Loop.removeDead at hstep
  unfold Unflagged at hok
  cases hq : (c.con k).queue with
  | nil =>
    rw [hq] at hstep
    cases hstep
  | cons a queue =>
    rw [hq] at hstep hok
    dsimp only at hstep hok
    split at hstep
    · next hrem =>
      obtain rfl := Option.some.inj hstep
      refine h.discardHead hpc hq (Bool.eq_false_iff.mpr fun hw => ?_) rfl
      obtain ⟨hmsg, hclose⟩ := hok hw
      obtain ⟨q, ho, -⟩ := exists_of_waits hw
      simp [Res.Removed, Res.messagePeek, hmsg, hclose, (h.owner a q ho).ping] at hrem
    · cases hstep

theorem Inv.conDestroy (h : c.Inv) {k : ℕ} (hok : c.AllAnswered k) : (c.conDestroy k).Inv := by
  have hcon : (c.setCon k { c.con k with live := false, queue := [] }).Inv := h.setCon (List.nil_sublist _)
  have howner : ∀ a q, (c.conDestroy k).owner a = some q → c.owner a = some q := by
    intro a q ha
    have ha : (if a ∈ (c.con k).queue then none else c.owner a) = some q := ha
    split at ha
    · cases ha
    · exact ha
  exact { hcon with
    owner := fun a q ha => { hcon.owner a q (howner a q ha) with }
    unanswered := fun q hq => by
      obtain ⟨ho, hf⟩ := h.unanswered q hq
      refine ⟨?_, hf⟩
      show (if (c.req q).res ∈ (c.con k).queue then none else c.owner (c.req q).res) = some q
      rw [if_neg]
      · exact ho
      · intro hm
        have hw := h.waits hq
        rw [hok _ hm] at hw
        cases hw }

/-- Every step that meets the condition keeps the invariant. -/
theorem Inv.step (h : c.Inv) {a : LoopAct} (hok : c.Safe a) (hstep : c.step a = some c') :
    c'.Inv := by
  cases a with
  | accept bind =>
    rw [Loop.step] at hstep
    split at hstep
    · obtain rfl := Option.some.inj hstep
      exact (h.setCon (k := c.conCnt) (d := ⟨true, bind, [], 0, false, false⟩) (List.nil_sublist _)).sub
        fun _ => List.Sublist.refl _
    · cases hstep
  | request k m hlen =>
    rw [Loop.step] at hstep
    split at hstep
    · obtain rfl := Option.some.inj hstep
      exact h.request k m hlen
    · cases hstep
  | page k close t =>
    rw [Loop.step] at hstep
    split at hstep
    · obtain rfl := Option.some.inj hstep
      have hclosing : (c.setClosing k close).Inv := h.setCon (List.Sublist.refl _)
      exact hclosing.respond rfl
    · cases hstep
  | badRequest k t =>
    rw [Loop.step] at hstep
    split at hstep
    · obtain rfl := Option.some.inj hstep
      exact h.respond rfl
    · cases hstep
  | early q links =>
    exact h.handle (f := (·.addEarly (some q) links)) (fun r => r.same_addEarly _ _)
      (fun r => Res.addEarly_final r.res links) (fun r _ hp => r.mem_addEarly _ hp) hstep
  | setClose q =>
    exact h.handle (f := (·.setClose)) (fun _ => ⟨rfl, rfl, rfl⟩) (fun _ => rfl)
      (fun _ _ hp => Or.inl hp) hstep
  | push q t => exact h.push hstep
  | leave q =>
    rw [Loop.step] at hstep
    split at hstep
    · obtain rfl := Option.some.inj hstep
      exact h.answered q
    · cases hstep
  | publish k t =>
    rw [Loop.step] at hstep
    split at hstep
    · obtain rfl := Option.some.inj hstep
      exact h.respond rfl
    · cases hstep
  | pushClose k =>
    rw [Loop.step] at hstep
    split at hstep
    · obtain rfl := Option.some.inj hstep
      exact h.addRes rfl fun q hq => by cases hq
    · cases hstep
  | ping k =>
    rw [Loop.step] at hstep
    split at hstep
    · obtain rfl := Option.some.inj hstep
      exact h.addRes rfl fun q hq => by cases hq
    · cases hstep
  | pong k =>
    rw [Loop.step] at hstep
    split at hstep
    · obtain rfl := Option.some.inj hstep
      exact h.addRes rfl fun q hq => by cases hq
    · cases hstep
  | write k r =>
    rw [Loop.step] at hstep
    split at hstep
    · next hready => exact h.write hready.1.2.1 hok hstep
    · cases hstep
  | next => exact h.next hstep
  | test =>
    rw [Loop.step] at hstep
    have hok : c.NotLast := hok
    unfold NotLast at hok
    split at hstep
    · next k a last hpc =>
      obtain rfl := Option.some.inj hstep
      rw [hpc] at hok
      exact h.finish hpc hok
    · cases hstep
  | die k =>
    rw [Loop.step] at hstep
    split at hstep
    · obtain rfl := Option.some.inj hstep
      exact h.setCon (List.Sublist.refl _)
    · cases hstep
  | expire k =>
    rw [Loop.step] at hstep
    split at hstep
    · obtain rfl := Option.some.inj hstep
      exact h.setCon (List.Sublist.refl _)
    · cases hstep
  | drop k =>
    rw [Loop.step] at hstep
    split at hstep
    · next hchecked => exact h.removeDead hchecked.1.2.1 hok hstep
    · cases hstep
  | close k =>
    rw [Loop.step] at hstep
    split at hstep
    · next hempty =>
      obtain rfl := Option.some.inj hstep
      refine h.conDestroy fun a ha => ?_
      rw [hempty.2] at ha
      cases ha
    · cases hstep
  | stop =>
    rw [Loop.step] at hstep
    split at hstep
    · obtain rfl := Option.some.inj hstep
      exact h.sub fun _ => List.Sublist.refl _
    · cases hstep
  | shut k =>
    rw [Loop.step] at hstep
    split at hstep
    · obtain rfl := Option.some.inj hstep
      exact h.conDestroy hok
    · cases hstep

/-! ## The condition is exact -/

/-- Destroying a record that waits breaks the law. -/
theorem not_kept_of_none {a : ℕ} (hwait : c.waits a) (hreq : c'.req = c.req)
    (hnone : c'.owner a = none) (h : c.Inv) : ¬ c'.Kept := by
  intro hk
  obtain ⟨q, ho, hq⟩ := exists_of_waits hwait
  have hrec := (hk.records q (hreq ▸ hq)).1
  rw [hreq, (h.owner a q ho).res, hnone] at hrec
  cases hrec

theorem not_kept_destroy (h : c.Inv) {a : ℕ} {con : ℕ → LoopCon} {pc : LoopPc} (hwait : c.waits a) :
    ¬ (Loop.destroy { c with con := con, pc := pc } a).Kept :=
  not_kept_of_none hwait rfl (Function.update_self ..) h

/-- A step that does not meet the condition takes the record of an unanswered request. -/
theorem Inv.not_kept (h : c.Inv) {a : LoopAct} (hok : ¬ c.Safe a) (hstep : c.step a = some c') :
    ¬ c'.Kept := by
  cases a with
  | drop k =>
    have hbad : ¬ c.Unflagged k := hok
    rw [Loop.step] at hstep
    split at hstep
    · unfold Loop.removeDead at hstep
      unfold Unflagged at hbad
      cases hq : (c.con k).queue with
      | nil =>
        rw [hq] at hbad
        exact absurd trivial hbad
      | cons a queue =>
        rw [hq] at hstep hbad
        dsimp only at hstep hbad
        split at hstep
        · obtain rfl := Option.some.inj hstep
          exact not_kept_destroy h (Classical.not_imp.mp hbad).1
        · cases hstep
    · cases hstep
  | write k r =>
    have hbad : ¬ c.NoClose k := hok
    rw [Loop.step] at hstep
    split at hstep
    · unfold Loop.write at hstep
      unfold NoClose at hbad
      cases hq : (c.con k).queue with
      | nil =>
        rw [hq] at hbad
        exact absurd trivial hbad
      | cons a queue =>
        rw [hq] at hstep hbad
        simp only [resPop] at hstep hbad
        obtain ⟨hwait, hbad⟩ := Classical.not_imp.mp hbad
        obtain ⟨hbind, hbad⟩ := Classical.not_imp.mp hbad
        obtain ⟨hmsg, hclose⟩ := Classical.not_imp.mp hbad
        obtain ⟨q, ho, -⟩ := exists_of_waits hwait
        have howned := h.owner a q ho
        split at hstep
        · next hsome => simp [Res.messagePeek, hmsg] at hsome
        · split at hstep
          · obtain rfl := Option.some.inj hstep
            unfold Loop.writeEmpty
            split
            · next hping =>
              rcases hping.1 with hp | hp
              · rw [howned.ping] at hp
                cases hp
              · rw [howned.pong] at hp
                cases hp
            · exact not_kept_destroy h hwait
          · next hno =>
            exact absurd ⟨hbind, Or.inl (Bool.not_eq_false _ ▸ hclose)⟩ hno
    · cases hstep
  | test =>
    have hbad : ¬ c.NotLast := hok
    unfold NotLast at hbad
    rw [Loop.step] at hstep
    split at hstep
    · next k a last hpc =>
      obtain rfl := Option.some.inj hstep
      rw [hpc] at hbad
      dsimp only at hbad
      obtain ⟨hwait, hbad⟩ := Classical.not_imp.mp hbad
      obtain ⟨hbind, hlast⟩ := Classical.not_imp.mp hbad
      unfold Loop.finish
      rw [if_pos ⟨by simpa using hlast, Or.inl hbind⟩]
      exact not_kept_destroy h hwait
    · cases hstep
  | shut k =>
    have hbad : ¬ c.AllAnswered k := hok
    unfold AllAnswered at hbad
    push Not at hbad
    obtain ⟨a, ha, hwait⟩ := hbad
    have hwait : c.waits a := by simpa using hwait
    rw [Loop.step] at hstep
    split at hstep
    · obtain rfl := Option.some.inj hstep
      exact not_kept_of_none (c := c) hwait rfl (if_pos ha) h
    · cases hstep
  | _ => exact absurd trivial hok

/-- **In a run of the loop the record of an unanswered request is never destroyed, freed or handed out
again, and a handler's messages go only to its request's connection, exactly when no unanswered
request's record is flagged at a check of a dead or timed out connection, is closed behind an upgrade,
sends its last early message under an SSE bind, or is queued when the loop ends.** -/
theorem records_kept_iff (acts : List LoopAct) :
    Always step Kept init acts ↔ Along step Safe init acts :=
  always_iff_along Inv (fun _ _ _ h _ hok hstep => h.step hok hstep) (fun _ h => h.kept)
    (fun _ _ _ h _ hok hstep => h.not_kept hok hstep) inv_init (along_true _ _)

/-- A client that asks to close and disconnects before the answer. -/
theorem closing_record_destroyed : ¬ ∀ acts, Always step Kept init acts := by
  intro h
  have hacts := h [.accept .http, .request 0 (bytes "Connection: Close") 17, .die 0, .drop 0]
  have hrec := (hacts.2.2.2.2.records 0 (by decide)).1
  revert hrec
  decide

end Loop

end Agoo
