import Agoo.Upgrade

/-!
# The queue of a push connection

Which responses the writers of a WebSocket or SSE connection act on, for which of them the con loop asks
for `POLLOUT`, and which `remove_dead_res` takes away. The tests are written apart in `con.c`, and a pong
is in the first only (`pong_stays`).

`queue_served`: no response is stuck in a run without pongs in which every answer has a text and no
response that closes or pings waits on an SSE connection.
-/

namespace Agoo

/-- `con_ws_write` or `con_sse_write` acts on it. -/
def Res.Acted (r : Res) : Bool := r.messagePeek.isSome || r.ping || r.pong || r.close

namespace UpCon

/-! ## The law -/

/-- `con_ws_events` and `con_sse_events` ask for `POLLOUT`. -/
def wantsOut (c : UpCon) (r : Res) : Bool :=
  r.messagePeek.isSome || (decide (c.bind = .ws) && (r.close || r.ping))

/-- A handler still has to fill it. -/
def Unfilled (c : UpCon) (i : ℕ) : Prop := c.isRequest i = true ∧ (c.http.reply i).res.final = false

/-- No response is stuck: the head is offered to the writer, and what `remove_dead_res` stops at waits for
a handler, so that `con_ready_check` drops the connection when every handler is done. -/
structure NoStall (c : UpCon) : Prop where
  offered : c.http.pc = .idle → c.bind.Upgraded → c.http.dead = false →
    ∀ i ∈ c.http.queue.head?, (c.http.reply i).res.Acted → c.wantsOut (c.http.reply i).res
  removed : c.http.pc = .idle → ∀ i ∈ c.http.removeDead.queue.head?, c.Unfilled i
  dropped : c.http.pc = .idle → (∀ i ∈ c.http.queue, ¬ c.Unfilled i) → c.http.removeDead.queue = []

/-- The kind that the end of a write may take for the bind. -/
def writeKind (c : UpCon) : ConKind :=
  match c.http.pc with
  | .testing i _ => (c.http.reply i).res.conKind
  | _ => c.headKind

/-- When the connection becomes an event stream no response is queued that closes or pings. -/
def NoFlags (c : UpCon) : Prop :=
  c.writeKind = .sse → c.bind ≠ .sse →
    ∀ i ∈ c.http.held, (c.http.reply i).res.close = false ∧ (c.http.reply i).res.ping = false

instance (c : UpCon) : Decidable c.NoFlags := inferInstanceAs (Decidable (_ → _ → _))

/-- A pong is at the head of a push connection's queue. -/
structure PongFirst (c : UpCon) (i : ℕ) : Prop where
  bind : c.bind.Upgraded
  idle : c.http.pc = .idle
  head : c.http.queue.head? = some i
  lt : i < c.http.cnt
  server : c.isRequest i = false
  pong : (c.http.reply i).res.message = [] ∧ (c.http.reply i).res.pong = true ∧
    (c.http.reply i).res.close = false ∧ (c.http.reply i).res.ping = false

/-- What a step must meet for the queue to be served. -/
def Served (c : UpCon) : UpAct → Prop
  | .pong => False
  | .pushClose => c.bind ≠ .sse
  | .setClose _ => c.bind ≠ .sse
  | .answer _ a => a.text.isSome
  | .write _ => c.NoFlags
  | .test => c.NoFlags
  | _ => True

instance (c : UpCon) : DecidablePred c.Served
  | .pong => instDecidableFalse
  | .pushClose => instDecidableNot
  | .setClose _ => instDecidableNot
  | .answer _ a => instDecidableEqBool a.text.isSome true
  | .write _ => inferInstanceAs (Decidable c.NoFlags)
  | .test => inferInstanceAs (Decidable c.NoFlags)
  | .request _ _ => instDecidableTrue
  | .respond _ _ => instDecidableTrue
  | .early _ _ => instDecidableTrue
  | .push _ _ => instDecidableTrue
  | .ping => instDecidableTrue
  | .next => instDecidableTrue
  | .check => instDecidableTrue
  | .die => instDecidableTrue

end UpCon

/-! ## One response -/

namespace Res

/-- A queued response that is not stuck, by whether the bind is SSE and whether it answers a request. -/
structure Fits (sse req : Bool) (r : Res) : Prop where
  pong : r.pong = false
  owned : r.message ≠ [] → req = true ∨ r.final = true
  filled : r.message = [] → (req = true ∧ r.final = false) ∨ r.close = true ∨ r.ping = true
  flags : sse = true → r.message = [] → r.close = false ∧ r.ping = false

/-- A response that a write has popped, and whether a message is left. -/
structure Popped (req more : Bool) (r : Res) : Prop where
  pong : r.pong = false
  owned : req = true ∨ r.final = true
  message : more = true → r.message ≠ []

/-- What becomes of a response while it waits or is popped. -/
structure Grown (sse req : Bool) (r r' : Res) : Prop where
  fits : r.Fits sse req → r'.Fits sse req
  popped : ∀ more, r.Popped req more → r'.Popped req more

variable {sse req : Bool} {r : Res}

theorem messagePeek_isSome : r.messagePeek.isSome = true ↔ r.message ≠ [] := by
  unfold messagePeek
  cases r.message <;> simp

theorem grown_addEarly (h : r.final = false) (links : List Bytes) : Grown sse true r (r.addEarly links) := by
  rw [addEarly_of_not_final h]
  have hne : r.message ++ [earlyText links] ≠ [] := by simp
  constructor
  · intro hr
    exact ⟨hr.pong, fun _ => Or.inl rfl, fun he => absurd he hne, fun _ he => absurd he hne⟩
  · intro more hr
    exact ⟨hr.pong, Or.inl rfl, fun _ => hne⟩

theorem grown_messagePush (h : r.final = false) (t : Bytes) : Grown sse req r (r.messagePush (some t)) := by
  rw [messagePush_of_not_final h]
  have hne : r.message ++ (some t).toList ≠ [] := by simp
  constructor
  · intro hr
    exact ⟨hr.pong, fun _ => Or.inr rfl, fun he => absurd he hne, fun _ he => absurd he hne⟩
  · intro more hr
    exact ⟨hr.pong, Or.inr rfl, fun _ => hne⟩

theorem grown_setClose : Grown false req r { r with close := true } where
  fits hr := ⟨hr.pong, hr.owned, fun _ => Or.inr (Or.inl rfl), fun he => by cases he⟩
  popped _ hr := ⟨hr.pong, hr.owned, hr.message⟩

theorem grown_modifyHead (f : Bytes → Bytes) :
    Grown sse req r { r with message := r.message.modifyHead f } := by
  have hnil : r.message.modifyHead f = [] ↔ r.message = [] := List.modifyHead_eq_nil_iff
  constructor
  · intro hr
    exact ⟨hr.pong, fun hne => hr.owned (hnil.not.mp hne), fun he => hr.filled (hnil.mp he),
      fun hs he => hr.flags hs (hnil.mp he)⟩
  · intro more hr
    exact ⟨hr.pong, hr.owned, fun hm => hnil.not.mpr (hr.message hm)⟩

/-- A popped response that is put back. -/
theorem Popped.fits {more : Bool} (h : r.Popped req more)
    (hleft : more = true ∨ req = true ∧ r.final = false ∧ (sse = true → r.close = false ∧ r.ping = false)) :
    r.Fits sse req := by
  rcases hleft with hmore | ⟨hreq, hfinal, hflags⟩
  · have hne := h.message hmore
    exact ⟨h.pong, fun _ => h.owned, fun he => absurd he hne, fun _ he => absurd he hne⟩
  · exact ⟨h.pong, fun _ => Or.inl hreq, fun _ => Or.inl ⟨hreq, hfinal⟩, fun hs _ => hflags hs⟩

/-- A popped response is left with a message, or waits for its handler, unless it is complete. -/
theorem Fits.popped (h : r.Fits sse req) (hne : r.message ≠ []) : r.Popped req true :=
  ⟨h.pong, h.owned hne, fun _ => hne⟩

end Res

namespace UpCon

variable {c c' : UpCon} {kind : ConKind}

/-! ## The invariant -/

def isSse (c : UpCon) : Bool := decide (c.bind = .sse)

/-- The response that a write has popped. -/
def PoppedFits (c : UpCon) : Prop :=
  match c.http.pc with
  | .idle => True
  | .finished i => (c.http.reply i).res.Popped (c.isRequest i) true
  | .testing i last => (c.http.reply i).res.Popped (c.isRequest i) (!last)

structure Ready (c : UpCon) : Prop where
  lt : ∀ i ∈ c.http.held, i < c.http.cnt
  nodup : c.http.held.Nodup
  fresh : ∀ i, c.http.cnt ≤ i → c.isRequest i = false
  queue : ∀ i ∈ c.http.queue, (c.http.reply i).res.Fits c.isSse (c.isRequest i)
  popped : c.PoppedFits

theorem ready_init (bind : ConKind) : (init bind).Ready where
  lt _ hi := by cases hi
  nodup := List.nodup_nil
  fresh _ _ := rfl
  queue _ hi := by cases hi
  popped := trivial

theorem queue_sublist_held (o : HttpOut) : o.queue.Sublist o.held := by
  unfold HttpOut.held
  split
  · exact List.Sublist.refl _
  · exact List.sublist_cons_self _ _
  · exact List.sublist_cons_self _ _

theorem Ready.removed (h : c.Ready) {i : ℕ} (hi : i ∈ c.http.removeDead.queue.head?) : c.Unfilled i := by
  have hfits := h.queue i ((List.dropWhile_sublist _).subset (List.mem_of_mem_head? hi))
  have hkept := List.head?_dropWhile_not (fun i => (c.http.reply i).res.Removed) c.http.queue
  rw [show (c.http.queue.dropWhile fun i => (c.http.reply i).res.Removed).head? = some i from hi] at hkept
  have hkept : (c.http.reply i).res.Removed = false := hkept
  unfold Res.Removed at hkept
  rw [Bool.or_eq_false_iff, Bool.or_eq_false_iff] at hkept
  obtain ⟨⟨hmessage, hclose⟩, hping⟩ := hkept
  have hnil : (c.http.reply i).res.message = [] := by
    by_contra hne
    rw [Res.messagePeek_isSome.mpr hne] at hmessage
    cases hmessage
  rcases hfits.filled hnil with hunfilled | hc | hp
  · exact hunfilled
  · rw [hclose] at hc
    cases hc
  · rw [hping] at hp
    cases hp

theorem Ready.noStall (h : c.Ready) : c.NoStall where
  offered _ hup _ i hi hacted := by
    have hfits := h.queue i (List.mem_of_mem_head? hi)
    unfold wantsOut
    by_cases hm : (c.http.reply i).res.messagePeek.isSome = true
    · rw [hm]
      rfl
    · have hnil : (c.http.reply i).res.message = [] := not_not.mp (Res.messagePeek_isSome.not.mp hm)
      unfold Res.Acted at hacted
      rw [Bool.eq_false_iff.mpr hm, hfits.pong] at hacted
      rcases hup with hws | hsse
      · rw [hws, Bool.eq_false_iff.mpr hm]
        simpa [or_comm] using hacted
      · obtain ⟨hclose, hping⟩ := hfits.flags (decide_eq_true hsse) hnil
        rw [hclose, hping] at hacted
        cases hacted
  removed _ _ hi := h.removed hi
  dropped _ hall := by
    cases hq : c.http.removeDead.queue with
    | nil => rfl
    | cons i queue =>
      have hi : i ∈ c.http.removeDead.queue := hq ▸ List.mem_cons_self
      refine absurd (h.removed (i := i) ?_) (hall i ((List.dropWhile_sublist _).subset hi))
      rw [hq]
      rfl

/-! ## What the steps are made of -/

/-- A response changes. -/
theorem Ready.set (h : c.Ready) {i : ℕ} {r : Reply}
    (hg : Res.Grown c.isSse (c.isRequest i) (c.http.reply i).res r.res) :
    Ready { c with http := c.http.set i r } where
  lt := h.lt
  nodup := h.nodup
  fresh := h.fresh
  queue j hj := by
    have hfits := h.queue j hj
    by_cases hij : j = i
    · subst hij
      show ((c.http.set j r).reply j).res.Fits c.isSse (c.isRequest j)
      rw [HttpOut.set_self]
      exact hg.fits hfits
    · show ((c.http.set i r).reply j).res.Fits c.isSse (c.isRequest j)
      rw [c.http.set_of_ne hij]
      exact hfits
  popped := by
    have hpopped := h.popped
    have hkeep : ∀ j more, (c.http.reply j).res.Popped (c.isRequest j) more →
        ((c.http.set i r).reply j).res.Popped (c.isRequest j) more := by
      intro j more hj
      by_cases hij : j = i
      · subst hij
        rw [HttpOut.set_self]
        exact hg.popped more hj
      · rw [c.http.set_of_ne hij]
        exact hj
    unfold PoppedFits at hpopped ⊢
    dsimp only [HttpOut.set]
    split at hpopped
    · trivial
    · exact hkeep _ _ hpopped
    · exact hkeep _ _ hpopped

theorem Ready.handle (h : c.Ready) {i : ℕ} {f : Reply → Reply} {o : HttpOut}
    (hg : (c.http.reply i).res.final = false →
      Res.Grown c.isSse (c.isRequest i) (c.http.reply i).res (f (c.http.reply i)).res)
    (hstep : c.http.handle i f = some o) : Ready { c with http := o } := by
  unfold HttpOut.handle at hstep
  split at hstep
  · next hi =>
    obtain rfl := Option.some.inj hstep
    exact h.set (hg hi.2)
  · cases hstep

/-- What a new response with a message, if there is one, makes of the connection. -/
theorem append_pushText {o o' : HttpOut} {r : Res} {t : Option Bytes}
    (hstep : ((o.step (.append r)).bind fun h => pushText h o.cnt t) = some o') :
    ∃ rep : Reply, rep.res = { r with message := t.toList, final := t.isSome } ∧
      o' = { o.set o.cnt rep with cnt := o.cnt + 1, queue := o.queue ++ [o.cnt] } := by
  obtain ⟨o₁, ho, hpush⟩ := Option.bind_eq_some_iff.mp hstep
  obtain rfl := Option.some.inj ho
  cases t with
  | none =>
    obtain rfl := Option.some.inj hpush
    exact ⟨_, rfl, rfl⟩
  | some t =>
    have hself : Function.update o.reply o.cnt (.create r) o.cnt = .create r := Function.update_self ..
    simp only [pushText, HttpOut.step, HttpOut.handle, HttpOut.set, resAppend, hself] at hpush
    split at hpush
    · obtain rfl := Option.some.inj hpush
      refine ⟨(Reply.create r).messagePush (some t), rfl, ?_⟩
      simp only [HttpOut.set, Function.update_idem]
    · next hno => exact absurd ⟨Nat.lt_succ_self _, rfl⟩ hno

theorem Ready.added (h : c.Ready) {r : Res} {t : Option Bytes} {o : HttpOut} {isRequest : ℕ → Bool}
    {isBin : ℕ → Bool}
    (hstep : ((c.http.step (.append r)).bind fun h => pushText h c.http.cnt t) = some o)
    (hother : ∀ i, i ≠ c.http.cnt → isRequest i = c.isRequest i)
    (hfits : ({ r with message := t.toList, final := t.isSome } : Res).Fits c.isSse (isRequest c.http.cnt)) :
    Ready { c with http := o, isRequest := isRequest, isBin := isBin } := by
  obtain ⟨rep, hrep, rfl⟩ := append_pushText hstep
  have hreply : ∀ i ∈ c.http.held, Function.update c.http.reply c.http.cnt rep i = c.http.reply i ∧
      isRequest i = c.isRequest i := fun i hi =>
    ⟨Function.update_of_ne (h.lt i hi).ne _ _, hother i (h.lt i hi).ne⟩
  have hqueue := (queue_sublist_held c.http).subset
  have hheld : HttpOut.held { c.http.set c.http.cnt rep with
      cnt := c.http.cnt + 1, queue := c.http.queue ++ [c.http.cnt] } = c.http.held ++ [c.http.cnt] := by
    unfold HttpOut.held
    cases hpc : c.http.pc <;> simp [hpc, HttpOut.set]
  constructor
  · intro i hi
    rcases List.mem_append.mp (hheld ▸ hi) with hi | hi
    · exact (h.lt i hi).trans (Nat.lt_succ_self _)
    · obtain rfl := List.mem_singleton.mp hi
      exact Nat.lt_succ_self _
  · show (HttpOut.held _).Nodup
    rw [hheld]
    rw [List.nodup_append]
    refine ⟨h.nodup, List.pairwise_singleton _ _, fun i hi j hj => ?_⟩
    obtain rfl := List.mem_singleton.mp hj
    exact (h.lt i hi).ne
  · intro i hi
    have hi : c.http.cnt + 1 ≤ i := hi
    show isRequest i = false
    rw [hother i (by omega)]
    exact h.fresh i (by omega)
  · intro i hi
    show (Function.update c.http.reply c.http.cnt rep i).res.Fits c.isSse (isRequest i)
    rcases List.mem_append.mp hi with hi | hi
    · obtain ⟨hsame, hreq⟩ := hreply i (hqueue hi)
      rw [hsame, hreq]
      exact h.queue i hi
    · obtain rfl := List.mem_singleton.mp hi
      rw [Function.update_self, hrep]
      exact hfits
  · have hpopped := h.popped
    unfold PoppedFits at hpopped ⊢
    dsimp only [HttpOut.set]
    split at hpopped
    · trivial
    · next i hpc =>
      obtain ⟨hsame, hreq⟩ := hreply i (by rw [HttpOut.held, hpc]; exact List.mem_cons_self)
      rw [hsame, hreq]
      exact hpopped
    · next i last hpc =>
      obtain ⟨hsame, hreq⟩ := hreply i (by rw [HttpOut.held, hpc]; exact List.mem_cons_self)
      rw [hsame, hreq]
      exact hpopped

/-- No response is new and none has other flags. -/
structure SameFlags (c o : HttpOut) : Prop where
  held : o.held.Sublist c.held
  flags : ∀ i, (o.reply i).res.close = (c.reply i).res.close ∧ (o.reply i).res.ping = (c.reply i).res.ping

theorem SameFlags.trans {o o' o'' : HttpOut} (h : SameFlags o o') (h' : SameFlags o' o'') : SameFlags o o'' where
  held := h'.held.trans h.held
  flags i := ⟨(h'.flags i).1.trans (h.flags i).1, (h'.flags i).2.trans (h.flags i).2⟩

/-- One response changes, but for its flags. -/
theorem flags_set {o : HttpOut} {i : ℕ} {r : Reply} (hclose : r.res.close = (o.reply i).res.close)
    (hping : r.res.ping = (o.reply i).res.ping) (j : ℕ) :
    ((o.set i r).reply j).res.close = (o.reply j).res.close ∧
      ((o.set i r).reply j).res.ping = (o.reply j).res.ping := by
  by_cases hj : j = i
  · rw [hj, HttpOut.set_self]
    exact ⟨hclose, hping⟩
  · rw [o.set_of_ne hj]
    exact ⟨rfl, rfl⟩

/-- The responses there are, perhaps fewer. -/
theorem Ready.of_held (h : c.Ready) {o : HttpOut} (hheld : o.held.Sublist c.http.held)
    (hcnt : o.cnt = c.http.cnt)
    (hqueue : ∀ i ∈ o.queue, (o.reply i).res.Fits c.isSse (c.isRequest i))
    (hpopped : PoppedFits { c with http := o }) : Ready { c with http := o } where
  lt i hi := hcnt ▸ h.lt i (hheld.subset hi)
  nodup := h.nodup.sublist hheld
  fresh i hi := h.fresh i (hcnt ▸ hi)
  queue := hqueue
  popped := hpopped

/-- What `send` leaves: the response is lost, put back or popped. -/
theorem send_cases {o o' : HttpOut} {i : ℕ} {queue : List ℕ} {t : Bytes} {r : SendResult} (hpc : o.pc = .idle)
    (hsend : o.send i queue t r = some o') :
    o'.reply = o.reply ∧ o'.cnt = o.cnt ∧
      (o'.pc = .idle ∧ (o'.queue = queue ∨ o'.queue = i :: queue) ∨ o'.pc = .finished i ∧ o'.queue = queue) := by
  revert hsend
  unfold HttpOut.send
  split
  · rintro ⟨⟩
    exact ⟨rfl, rfl, Or.inl ⟨hpc, Or.inl rfl⟩⟩
  · rintro ⟨⟩
    exact ⟨rfl, rfl, Or.inl ⟨hpc, Or.inl rfl⟩⟩
  · split_ifs
    · rintro ⟨⟩
    · rintro ⟨⟩
      exact ⟨rfl, rfl, Or.inr ⟨rfl, rfl⟩⟩
    · rintro ⟨⟩
      exact ⟨rfl, rfl, Or.inl ⟨hpc, Or.inr rfl⟩⟩

/-- A write of the head message. -/
theorem Ready.send (h : c.Ready) {i : ℕ} {queue : List ℕ} {t : Bytes} {r : SendResult} {o : HttpOut}
    (hpc : c.http.pc = .idle) (hq : c.http.queue = i :: queue) (hmessage : (c.http.reply i).res.message ≠ [])
    (hsend : c.http.send i queue t r = some o) : Ready { c with http := o } ∧ SameFlags c.http o := by
  have hheld : c.http.held = i :: queue := by rw [HttpOut.held, hpc, hq]
  have hqueue : ∀ j ∈ i :: queue, (c.http.reply j).res.Fits c.isSse (c.isRequest j) := hq ▸ h.queue
  obtain ⟨hreply, hcnt, hcases⟩ := send_cases hpc hsend
  have hsub : o.held.Sublist (i :: queue) := by
    unfold HttpOut.held
    rcases hcases with ⟨hpc', hq' | hq'⟩ | ⟨hpc', hq'⟩
    · rw [hpc', hq']
      exact List.sublist_cons_self _ _
    · rw [hpc', hq']
    · rw [hpc', hq']
  refine ⟨h.of_held (hheld ▸ hsub) hcnt (fun j hj => ?_) ?_, hheld ▸ hsub, fun j => by rw [hreply]; exact ⟨rfl, rfl⟩⟩
  · rw [hreply]
    exact hqueue j (hsub.subset ((queue_sublist_held o).subset hj))
  · have hhead := (hqueue i List.mem_cons_self).popped hmessage
    unfold PoppedFits
    dsimp only
    rcases hcases with ⟨hpc', -⟩ | ⟨hpc', -⟩
    · rw [hpc']
      trivial
    · rw [hpc', hreply]
      exact hhead

/-- The bind changes, to SSE only when no response is queued that closes or pings. -/
theorem Ready.afterWrite (h : c.Ready) (hflags : kind = .sse → c.bind ≠ .sse →
      ∀ i ∈ c.http.held, (c.http.reply i).res.close = false ∧ (c.http.reply i).res.ping = false) :
    (c.afterWrite kind).Ready := by
  unfold UpCon.afterWrite
  split
  · exact h
  · cases kind with
    | ws =>
      refine ⟨h.lt, h.nodup, h.fresh, fun i hi => ?_, h.popped⟩
      have hfits := h.queue i hi
      exact ⟨hfits.pong, hfits.owned, hfits.filled, fun hs => by cases hs⟩
    | sse =>
      refine ⟨h.lt, h.nodup, h.fresh, fun i hi => ?_, h.popped⟩
      have hfits := h.queue i hi
      refine ⟨hfits.pong, hfits.owned, hfits.filled, fun _ hnil => ?_⟩
      by_cases hb : c.bind = .sse
      · exact hfits.flags (decide_eq_true hb) hnil
      · exact hflags rfl hb i ((queue_sublist_held _).subset hi)
    | any => exact h
    | http => exact h
    | https => exact h

/-- The end of a write that was made under the condition. -/
theorem Ready.afterKind (h : c'.Ready) (hbind : c'.bind = c.bind) (hsame : SameFlags c.http c'.http)
    (hok : c.NoFlags) (hkind : kind = c.writeKind) : (c'.afterWrite kind).Ready := by
  refine h.afterWrite fun hk hb i hi => ?_
  obtain ⟨hclose, hping⟩ := hok (hkind ▸ hk) (hbind ▸ hb) i (hsame.held.subset hi)
  exact ⟨(hsame.flags i).1.trans hclose, (hsame.flags i).2.trans hping⟩

theorem Ready.afterSend (h : c'.Ready) (hbind : c'.bind = c.bind) (hsame : SameFlags c.http c'.http)
    (hok : c.NoFlags) (hpc : c.http.pc = .idle) : (c'.afterSend c.headKind).Ready := by
  unfold UpCon.afterSend
  split
  · exact h.afterKind hbind hsame hok (by rw [writeKind, hpc])
  · exact h

/-! ## Steps -/

/-- A write under HTTP. -/
theorem Ready.write (h : c.Ready) (hok : c.NoFlags) {r : SendResult} {o : HttpOut}
    (hstep : c.http.step (.write r) = some o) : (UpCon.afterSend { c with http := o } c.headKind).Ready := by
  obtain ⟨i, queue, t, hpc, hq, ht, hsend⟩ := HttpOut.write_cases hstep
  have hmessage : (c.http.reply i).res.message ≠ [] := by
    intro hnil
    rw [hnil] at ht
    cases ht
  obtain ⟨ho, hsame⟩ := h.send hpc hq hmessage hsend
  exact ho.afterSend rfl hsame hok hpc

theorem Ready.frame (h : c.Ready) (i : ℕ) :
    (c.frame i).Ready ∧ SameFlags c.http (c.frame i).http ∧
      ((c.http.reply i).res.message ≠ [] → ((c.frame i).http.reply i).res.message ≠ []) := by
  unfold UpCon.frame
  split
  · have hset := h.set (i := i) (r := (c.http.reply i).expand
      (if c.bind = .ws then wsExpand (c.isBin i) else sseExpand)) (Res.grown_modifyHead _)
    refine ⟨⟨hset.lt, hset.nodup, hset.fresh, hset.queue, hset.popped⟩, ⟨List.Sublist.refl _, flags_set rfl rfl⟩,
      fun hne => ?_⟩
    rw [HttpOut.set_self]
    exact List.modifyHead_eq_nil_iff.not.mpr hne
  · exact ⟨h, ⟨List.Sublist.refl _, fun _ => ⟨rfl, rfl⟩⟩, id⟩

/-- A write of a head response without a message takes it away. -/
theorem Ready.writeEmpty (h : c.Ready) {i : ℕ} {queue : List ℕ} (r : SendResult) (hpc : c.http.pc = .idle)
    (hq : c.http.queue = i :: queue) (hnil : (c.http.reply i).res.message = []) :
    (c.writeEmpty i queue r).Ready ∧ SameFlags c.http (c.writeEmpty i queue r).http ∧
      (c.writeEmpty i queue r).bind = c.bind := by
  have hheld : c.http.held = i :: queue := by rw [HttpOut.held, hpc, hq]
  have hqueue : ∀ j ∈ queue, (c.http.reply j).res.Fits c.isSse (c.isRequest j) := fun j hj =>
    h.queue j (hq ▸ List.mem_cons_of_mem _ hj)
  unfold UpCon.writeEmpty
  split
  · have hsub : HttpOut.held { c.http with queue := queue, dead := r = .error } = queue := by
      rw [HttpOut.held, hpc]
    have hsub' := List.sublist_cons_self i queue
    rw [← hheld, ← hsub] at hsub'
    refine ⟨h.of_held hsub' rfl hqueue ?_, ⟨hsub', fun _ => ⟨rfl, rfl⟩⟩, rfl⟩
    unfold PoppedFits
    rw [hpc]
    trivial
  · have hres : (c.http.reply i).destroy.res = (c.http.reply i).res := by
      show { (c.http.reply i).res with message := [] } = (c.http.reply i).res
      rw [← hnil]
    have hset := h.set (i := i) (r := (c.http.reply i).destroy) (by rw [hres]; exact ⟨id, fun _ => id⟩)
    have hsub : HttpOut.held { c.http.set i (c.http.reply i).destroy with queue := queue, dead := true } =
        queue := by
      rw [HttpOut.held, HttpOut.set, hpc]
    have hsub' := List.sublist_cons_self i queue
    rw [← hheld, ← hsub] at hsub'
    refine ⟨⟨fun j hj => h.lt j (hsub'.subset hj), h.nodup.sublist hsub', h.fresh, fun j hj => ?_, ?_⟩,
      ⟨hsub', flags_set rfl rfl⟩, rfl⟩
    · exact hset.queue j (by show j ∈ c.http.queue; rw [hq]; exact List.mem_cons_of_mem _ hj)
    · unfold PoppedFits
      rw [HttpOut.set, hpc]
      trivial

theorem Ready.bindWrite (h : c.Ready) (hok : c.NoFlags) {r : SendResult} (hstep : c.bindWrite r = some c') :
    (c'.afterSend c.headKind).Ready := by
  unfold UpCon.bindWrite at hstep
  cases hq : c.http.queue with
  | nil =>
    rw [hq] at hstep
    cases hstep
  | cons i queue =>
    rw [hq] at hstep
    simp only [resPop] at hstep
    split at hstep
    · next hpc =>
      unfold UpCon.writeFramed at hstep
      split at hstep
      · next hmessage =>
        obtain ⟨hframe, hsame, hne⟩ := h.frame i
        obtain ⟨hb, hpc', hq'⟩ := c.frame_same i
        obtain ⟨o, hsend, rfl⟩ := Option.map_eq_some_iff.mp hstep
        obtain ⟨ho, hsame'⟩ := hframe.send (hpc'.trans hpc.1) (hq'.trans hq)
          (hne (Res.messagePeek_isSome.mp hmessage)) hsend
        exact ho.afterSend hb (hsame.trans hsame') hok hpc.1
      · next hmessage =>
        have hnil := not_not.mp (Res.messagePeek_isSome.not.mp hmessage)
        split at hstep
        · obtain rfl := Option.some.inj hstep
          obtain ⟨hready, hsame, hb⟩ := h.writeEmpty r hpc.1 hq hnil
          exact hready.afterSend hb hsame hok hpc.1
        · cases hstep
    · cases hstep

/-- A popped response is destroyed. -/
theorem Ready.destroyed (h : c.Ready) {i : ℕ} {last : Bool} (hpc : c.http.pc = .testing i last) (dead : Bool) :
    Ready { c with http := { c.http.set i (c.http.reply i).destroy with pc := .idle, dead := dead } } := by
  have hheld : c.http.held = i :: c.http.queue := by rw [HttpOut.held, hpc]
  have hnot : i ∉ c.http.queue := (List.nodup_cons.mp (hheld ▸ h.nodup)).1
  refine ⟨fun j hj => h.lt j (hheld ▸ List.mem_cons_of_mem _ hj), (List.nodup_cons.mp (hheld ▸ h.nodup)).2,
    h.fresh, fun j hj => ?_, trivial⟩
  have hj : j ∈ c.http.queue := hj
  show ((c.http.set i (c.http.reply i).destroy).reply j).res.Fits c.isSse (c.isRequest j)
  rw [c.http.set_of_ne (ne_of_mem_of_not_mem hj hnot)]
  exact h.queue j hj

/-- A popped response is put back. -/
theorem Ready.back (h : c.Ready) {i : ℕ} {last : Bool} (hpc : c.http.pc = .testing i last)
    (hfits : (c.http.reply i).res.Fits c.isSse (c.isRequest i)) :
    Ready { c with http := { c.http with pc := .idle, queue := resPrepend c.http.queue i } } := by
  have hheld : c.http.held = i :: c.http.queue := by rw [HttpOut.held, hpc]
  have hnodup : (i :: c.http.queue).Nodup := hheld ▸ h.nodup
  refine ⟨fun j hj => h.lt j (hheld ▸ hj), hnodup, h.fresh, fun j hj => ?_, trivial⟩
  rcases List.mem_cons.mp hj with rfl | hj
  · exact hfits
  · exact h.queue j hj

/-- The test at the end of a write. -/
theorem Ready.finish (h : c.Ready) {i : ℕ} {last : Bool} (hpc : c.http.pc = .testing i last) :
    (c.finish i last).Ready ∧ SameFlags c.http (c.finish i last).http := by
  have hheld : c.http.held = i :: c.http.queue := by rw [HttpOut.held, hpc]
  have hpopped : (c.http.reply i).res.Popped (c.isRequest i) (!last) := by
    have hp := h.popped
    unfold PoppedFits at hp
    rwa [hpc] at hp
  have hdestroyed : ∀ dead, SameFlags c.http { c.http.set i (c.http.reply i).destroy with
      pc := .idle, dead := dead } := fun dead =>
    ⟨hheld ▸ List.sublist_cons_self _ _, flags_set rfl rfl⟩
  have hback : SameFlags c.http { c.http with pc := .idle, queue := resPrepend c.http.queue i } :=
    ⟨hheld ▸ List.Sublist.refl _, fun _ => ⟨rfl, rfl⟩⟩
  have hready : ∀ {o : HttpOut} {done : List ℕ}, Ready { c with http := o } →
      Ready { c with http := o, completed := done } := fun ho => ⟨ho.lt, ho.nodup, ho.fresh, ho.queue, ho.popped⟩
  unfold UpCon.finish
  by_cases hb : c.bind = .sse
  · rw [if_pos hb]
    unfold HttpOut.finishSse
    cases last with
    | true => exact ⟨hready (h.destroyed hpc _), hdestroyed _⟩
    | false => exact ⟨hready (h.back hpc (hpopped.fits (Or.inl rfl))), hback⟩
  · rw [if_neg hb]
    have hsse : c.isSse = false := decide_eq_false hb
    unfold HttpOut.finish
    by_cases hlast : last ∧ (c.http.reply i).res.final
    · rw [if_pos hlast]
      exact ⟨hready (h.destroyed hpc _), hdestroyed _⟩
    · rw [if_neg hlast]
      refine ⟨hready (h.back hpc (hpopped.fits ?_)), hback⟩
      cases last with
      | false => exact Or.inl rfl
      | true =>
        have hopen : (c.http.reply i).res.final = false := Bool.eq_false_iff.mpr fun hf => hlast ⟨rfl, hf⟩
        refine Or.inr ⟨hpopped.owned.resolve_right ?_, hopen, fun hs => ?_⟩
        · rw [hopen]
          decide
        · rw [hsse] at hs
          cases hs

theorem Ready.removeDead (h : c.Ready) (hpc : c.http.pc = .idle) :
    Ready { c with http := c.http.removeDead } := by
  have hheld : c.http.held = c.http.queue := by rw [HttpOut.held, hpc]
  have hsub : c.http.removeDead.held.Sublist c.http.held := by
    rw [hheld, HttpOut.held, HttpOut.removeDead, hpc]
    exact List.dropWhile_sublist _
  refine h.of_held hsub rfl (fun i hi => ?_) ?_
  · have hnot : i ∉ c.http.queue.takeWhile fun i => (c.http.reply i).res.Removed := by
      have hnodup : c.http.queue.Nodup := hheld ▸ h.nodup
      rw [← List.takeWhile_append_dropWhile (l := c.http.queue) (p := fun i => (c.http.reply i).res.Removed)]
        at hnodup
      intro hmem
      exact (List.nodup_append.mp hnodup).2.2 i hmem i hi rfl
    have hsame : c.http.removeDead.reply i = c.http.reply i := if_neg hnot
    rw [hsame]
    exact h.queue i ((List.dropWhile_sublist _).subset hi)
  · unfold PoppedFits HttpOut.removeDead
    rw [hpc]
    trivial

theorem Ready.next (h : c.Ready) {o : HttpOut} (hstep : c.http.step .next = some o) :
    Ready { c with http := o } := by
  rw [HttpOut.step] at hstep
  split at hstep
  · next i hpc =>
    obtain rfl := Option.some.inj hstep
    have hheld : c.http.held = i :: c.http.queue := by rw [HttpOut.held, hpc]
    have hnodup : (i :: c.http.queue).Nodup := hheld ▸ h.nodup
    have hnot : i ∉ c.http.queue := (List.nodup_cons.mp hnodup).1
    have hpopped : (c.http.reply i).res.Popped (c.isRequest i) true := by
      have hp := h.popped
      unfold PoppedFits at hp
      rwa [hpc] at hp
    refine ⟨fun j hj => h.lt j (hheld ▸ hj), hnodup, h.fresh, fun j hj => ?_, ?_⟩
    · have hj : j ∈ c.http.queue := hj
      show ((c.http.set i (c.http.reply i).messageNext).reply j).res.Fits c.isSse (c.isRequest j)
      rw [c.http.set_of_ne (ne_of_mem_of_not_mem hj hnot)]
      exact h.queue j hj
    · show ((c.http.set i (c.http.reply i).messageNext).reply i).res.Popped (c.isRequest i) _
      rw [HttpOut.set_self]
      refine ⟨hpopped.pong, hpopped.owned, fun hmore => Res.messagePeek_isSome.mp ?_⟩
      rw [Bool.not_eq_true', Option.isNone_eq_false_iff] at hmore
      exact hmore
  · cases hstep

theorem Ready.serverRes (h : c.Ready) {r : Res} {isBin : Bool} {t : Option Bytes}
    (hfits : ({ r with message := t.toList, final := t.isSome } : Res).Fits c.isSse false)
    (hstep : c.serverRes r isBin t = some c') : c'.Ready := by
  obtain ⟨o, ho, rfl⟩ := Option.map_eq_some_iff.mp hstep
  refine h.added ho (fun _ _ => rfl) ?_
  rw [h.fresh c.http.cnt (Nat.le_refl _)]
  exact hfits

theorem Ready.requestRes (h : c.Ready) (hb : ¬ c.bind.Upgraded) {r : Res} {t : Option Bytes}
    (hpong : r.pong = false) (hstep : c.requestRes r t = some c') : c'.Ready := by
  obtain ⟨o, ho, rfl⟩ := Option.map_eq_some_iff.mp hstep
  refine h.added ho (fun i hi => Function.update_of_ne hi _ _) ?_
  rw [Function.update_self]
  have hsse : c.isSse = false := decide_eq_false fun he => hb (Or.inr he)
  rw [hsse]
  refine ⟨hpong, fun _ => Or.inl rfl, fun hnil => Or.inl ⟨rfl, ?_⟩, fun hs => by cases hs⟩
  cases t with
  | none => rfl
  | some t => cases hnil

theorem Ready.step (h : c.Ready) {a : UpAct} (hok : c.Served a) (hstep : c.step a = some c') : c'.Ready := by
  cases a with
  | request m hlen =>
    obtain ⟨hb, hstep⟩ := Option.ite_none_left_eq_some.mp hstep
    exact h.requestRes hb (requestRes_flags 0 m hlen).2.2 hstep
  | respond close t =>
    obtain ⟨hb, hstep⟩ := Option.ite_none_left_eq_some.mp hstep
    exact h.requestRes hb rfl hstep
  | early i links =>
    obtain ⟨hreq, hstep⟩ := Option.ite_none_right_eq_some.mp hstep
    obtain ⟨o, ho, rfl⟩ := Option.map_eq_some_iff.mp hstep
    refine h.handle (f := (·.addEarly links)) (fun hopen => ?_) ho
    rw [hreq]
    exact Res.grown_addEarly hopen links
  | setClose i =>
    obtain ⟨hreq, hstep⟩ := Option.ite_none_right_eq_some.mp hstep
    obtain ⟨o, ho, rfl⟩ := Option.map_eq_some_iff.mp hstep
    have hsse : c.isSse = false := decide_eq_false hok
    refine h.handle (f := (·.setClose)) (fun _ => ?_) ho
    rw [hsse]
    exact Res.grown_setClose
  | answer i a =>
    obtain ⟨hreq, hstep⟩ := Option.ite_none_right_eq_some.mp hstep
    obtain ⟨o, ho, rfl⟩ := Option.map_eq_some_iff.mp hstep
    obtain ⟨t, ht⟩ := Option.isSome_iff_exists.mp hok
    rw [ht] at ho
    have hpush := h.handle (f := (·.messagePush (some t))) (fun hopen => Res.grown_messagePush hopen t) ho
    exact ⟨hpush.lt, hpush.nodup, hpush.fresh, hpush.queue, hpush.popped⟩
  | push isBin t =>
    have hne : (some t).toList ≠ [] := List.cons_ne_nil _ _
    exact h.serverRes ⟨rfl, fun _ => Or.inr rfl, fun he => absurd he hne, fun _ he => absurd he hne⟩ hstep
  | pushClose =>
    have hsse : c.isSse = false := decide_eq_false hok
    refine h.serverRes ⟨rfl, fun he => absurd rfl he, fun _ => Or.inr (Or.inl rfl), fun hs => ?_⟩ hstep
    rw [hsse] at hs
    cases hs
  | ping =>
    obtain ⟨hb, hstep⟩ := Option.ite_none_right_eq_some.mp hstep
    have hsse : c.isSse = false := decide_eq_false (by rw [hb]; decide)
    refine h.serverRes ⟨rfl, fun he => absurd rfl he, fun _ => Or.inr (Or.inr rfl), fun hs => ?_⟩ hstep
    rw [hsse] at hs
    cases hs
  | pong => exact hok.elim
  | write r =>
    rw [UpCon.step] at hstep
    split at hstep
    · obtain ⟨d, hd, rfl⟩ := Option.map_eq_some_iff.mp hstep
      exact h.bindWrite hok hd
    · obtain ⟨o, ho, rfl⟩ := Option.map_eq_some_iff.mp hstep
      exact h.write hok ho
  | next =>
    obtain ⟨o, ho, rfl⟩ := Option.map_eq_some_iff.mp hstep
    exact h.next ho
  | test =>
    rw [UpCon.step] at hstep
    split at hstep
    · next i last hpc =>
      obtain rfl := Option.some.inj hstep
      obtain ⟨hfinish, hsame⟩ := h.finish hpc
      have hok : c.NoFlags := hok
      exact hfinish.afterKind (c := c) rfl hsame hok (by rw [writeKind, hpc])
    · cases hstep
  | check =>
    obtain ⟨hpc, hstep⟩ := Option.ite_none_right_eq_some.mp hstep
    obtain rfl := Option.some.inj hstep
    exact h.removeDead hpc
  | die =>
    obtain ⟨hpc, hstep⟩ := Option.ite_none_right_eq_some.mp hstep
    obtain rfl := Option.some.inj hstep
    exact ⟨h.lt, h.nodup, h.fresh, h.queue, h.popped⟩

/-! ## A pong -/

variable {i : ℕ}

theorem PongFirst.not_noStall (h : c.PongFirst i) : ¬ c.NoStall := by
  intro hstall
  obtain ⟨queue, hq⟩ := List.head?_eq_some_iff.mp h.head
  have hkept : (c.http.reply i).res.Removed = false := by
    simp [Res.Removed, Res.messagePeek, h.pong.1, h.pong.2.2]
  have hi : c.http.removeDead.queue.head? = some i := by
    rw [HttpOut.removeDead, hq, List.dropWhile_cons_of_neg (by simp [hkept])]
    rfl
  have hunfilled := (hstall.removed h.idle i hi).1
  rw [h.server] at hunfilled
  cases hunfilled

/-- What does not concern the pong. -/
theorem PongFirst.other (h : c.PongFirst i) {o : HttpOut} (hpc : o.pc = .idle) (hcnt : c.http.cnt ≤ o.cnt)
    (hhead : o.queue.head? = some i) (hreply : o.reply i = c.http.reply i) : PongFirst { c with http := o } i where
  bind := h.bind
  idle := hpc
  head := hhead
  lt := h.lt.trans_le hcnt
  server := h.server
  pong := by
    dsimp only
    rw [hreply]
    exact h.pong

theorem PongFirst.handle (h : c.PongFirst i) {j : ℕ} {f : Reply → Reply} {o : HttpOut}
    (hreq : c.isRequest j = true) (hstep : c.http.handle j f = some o) : PongFirst { c with http := o } i := by
  have hne : i ≠ j := by
    rintro rfl
    rw [h.server] at hreq
    cases hreq
  obtain ⟨-, hstep⟩ := Option.ite_none_right_eq_some.mp hstep
  obtain rfl := Option.some.inj hstep
  exact h.other h.idle (Nat.le_refl _) h.head (c.http.set_of_ne hne _)

theorem PongFirst.serverRes (h : c.PongFirst i) {r : Res} {isBin : Bool} {t : Option Bytes}
    (hstep : c.serverRes r isBin t = some c') : c'.PongFirst i := by
  obtain ⟨o, ho, rfl⟩ := Option.map_eq_some_iff.mp hstep
  obtain ⟨rep, -, rfl⟩ := append_pushText ho
  obtain ⟨queue, hq⟩ := List.head?_eq_some_iff.mp h.head
  have hother := h.other (o := { c.http.set c.http.cnt rep with
    cnt := c.http.cnt + 1, queue := c.http.queue ++ [c.http.cnt] }) h.idle (Nat.le_succ _)
    (by rw [hq]; rfl) (c.http.set_of_ne h.lt.ne _)
  exact ⟨hother.bind, hother.idle, hother.head, hother.lt, hother.server, hother.pong⟩

/-- No step takes the pong away: it is not written, and `remove_dead_res` keeps it. -/
theorem PongFirst.step (h : c.PongFirst i) {a : UpAct} (hstep : c.step a = some c') : c'.PongFirst i := by
  cases a with
  | request m hlen => exact absurd h.bind (Option.ite_none_left_eq_some.mp hstep).1
  | respond close t => exact absurd h.bind (Option.ite_none_left_eq_some.mp hstep).1
  | early j links =>
    obtain ⟨hreq, hstep⟩ := Option.ite_none_right_eq_some.mp hstep
    obtain ⟨o, ho, rfl⟩ := Option.map_eq_some_iff.mp hstep
    exact h.handle (f := (·.addEarly links)) hreq ho
  | setClose j =>
    obtain ⟨hreq, hstep⟩ := Option.ite_none_right_eq_some.mp hstep
    obtain ⟨o, ho, rfl⟩ := Option.map_eq_some_iff.mp hstep
    exact h.handle hreq ho
  | answer j a =>
    obtain ⟨hreq, hstep⟩ := Option.ite_none_right_eq_some.mp hstep
    obtain ⟨o, ho, rfl⟩ := Option.map_eq_some_iff.mp hstep
    have hpush := h.handle (f := (·.messagePush a.text)) hreq ho
    exact ⟨hpush.bind, hpush.idle, hpush.head, hpush.lt, hpush.server, hpush.pong⟩
  | push isBin t => exact h.serverRes hstep
  | pushClose => exact h.serverRes hstep
  | ping => exact h.serverRes (Option.ite_none_right_eq_some.mp hstep).2
  | pong => exact h.serverRes (Option.ite_none_right_eq_some.mp hstep).2
  | write r =>
    obtain ⟨queue, hq⟩ := List.head?_eq_some_iff.mp h.head
    have hno : c.writeFramed i queue r = none := by
      simp [UpCon.writeFramed, Res.messagePeek, h.pong.1, h.pong.2.2]
    rw [UpCon.step, if_pos h.bind, UpCon.bindWrite, hq] at hstep
    simp [resPop, hno] at hstep
  | next =>
    simp [UpCon.step, HttpOut.step, h.idle] at hstep
  | test =>
    simp [UpCon.step, h.idle] at hstep
  | check =>
    obtain ⟨-, hstep⟩ := Option.ite_none_right_eq_some.mp hstep
    obtain rfl := Option.some.inj hstep
    obtain ⟨queue, hq⟩ := List.head?_eq_some_iff.mp h.head
    have hkept : (c.http.reply i).res.Removed = false := by
      simp [Res.Removed, Res.messagePeek, h.pong.1, h.pong.2.2]
    refine h.other h.idle (Nat.le_refl _) ?_ ?_
    · rw [HttpOut.removeDead, hq, List.dropWhile_cons_of_neg (by simp [hkept])]
      rfl
    · rw [HttpOut.removeDead, hq, List.takeWhile_cons_of_neg (by simp [hkept])]
      show (if i ∈ [] then (c.http.reply i).destroy else c.http.reply i) = _
      exact if_neg List.not_mem_nil
  | die =>
    obtain ⟨-, hstep⟩ := Option.ite_none_right_eq_some.mp hstep
    obtain rfl := Option.some.inj hstep
    exact h.other h.idle (Nat.le_refl _) h.head rfl

/-- A pong at the head stays there whatever follows. -/
theorem pong_stays (h : c.PongFirst i) (acts : List UpAct) :
    Always UpCon.step (fun d => d.PongFirst i ∧ ¬ d.NoStall) c acts :=
  (always_of_along (fun d => d.PongFirst i) (fun _ _ _ hd _ hstep => hd.step hstep) h
    (along_true c acts)).mono fun _ hd => ⟨hd, hd.not_noStall⟩

/-- **No response is stuck in a run without pongs in which every answer has a text and no response that
closes or pings waits on an SSE connection; a pong that comes to the head of the queue of a WebSocket or
SSE connection stays there, whatever is done.** -/
theorem queue_served (bind : ConKind) (acts : List UpAct) :
    (Along UpCon.step Served (init bind) acts → Always UpCon.step NoStall (init bind) acts) ∧
      ∀ c i, PongFirst c i → Always UpCon.step (fun d => d.PongFirst i ∧ ¬ d.NoStall) c acts :=
  ⟨fun hok => (always_of_along Ready (fun _ _ _ h ha hstep => h.step ha hstep) (ready_init bind) hok).mono
    fun _ h => h.noStall, fun _ _ h => pong_stays h acts⟩

/-- A message, a ping and a close on a WebSocket connection. -/
theorem queue_served_close :
    (runs UpCon.step (init .ws) [.push false (bytes "one"), .ping, .pushClose, .write (.sent 5), .next, .test,
      .write (.sent 2), .write .again]).any (fun c => c.http.queue == [] && c.http.dead) ∧
    Always UpCon.step NoStall (init .ws) [.push false (bytes "one"), .ping, .pushClose, .write (.sent 5), .next,
      .test, .write (.sent 2), .write .again] :=
  ⟨by decide, (queue_served .ws _).1 (by decide)⟩

/-- A client pings. -/
theorem pong_stalls : ¬ ∀ bind acts, Always UpCon.step NoStall (init bind) acts := by
  intro h
  have hrun := h .http
    [.request (bytes "Connection: Upgrade\r\nUpgrade: websocket") 38,
     .answer 0 (.rack 101 .ws true (some (bytes "up"))), .write (.sent 2), .next, .test, .pong]
  exact PongFirst.not_noStall (i := 1) ⟨Or.inl rfl, rfl, rfl, by decide, rfl, by decide⟩ hrun.2.2.2.2.2.2

end UpCon

end Agoo
