import Agoo.HttpHeader
import Agoo.HttpWriter
import Agoo.WebSocket

/-!
# Changing the protocol

One connection with its bind. The kind of a response is set from the request's header, before any
handler runs; `con_ready_write` takes it for the connection's bind after each write that returned
true. So the change is right when no write of such a response returns before its accepting answer was
sent to the end, and no other response waits behind it.

`bind_follows_upgrade`: then the bind follows an accepted upgrade, and HTTP stays unframed.
-/

namespace Agoo

/-! ## Answers -/

/-- `agooUpgrade`. -/
inductive UpKind
  | none | ws | sse
  deriving DecidableEq, Repr

/-- How a handler answers a request: a rack application with its status code, the upgrade that
`req->upgrade` tells and whether the environment has a push handler; a GraphQL subscription with a
subject; or anything else, refusals and exceptions too. -/
inductive Answer
  | rack (code : ℕ) (upgrade : UpKind) (push : Bool) (t : Option Bytes)
  | subscription (t : Option Bytes)
  | plain (t : Option Bytes)

/-- The final message. -/
def Answer.text : Answer → Option Bytes
  | rack _ _ _ t => t
  | subscription t => t
  | plain t => t

/-- The upgrade that the answer to a request of that kind accepts: the 101 or event-stream answer of
`handle_rack_inner` or of a subscription. Where the kinds differ the answer is an error. -/
def Answer.accepts (kind : ConKind) : Answer → Option ConKind
  | rack code upgrade push _ =>
    if code < 300 then
      match upgrade with
      | .ws => if kind ≠ .ws ∨ push = false then none else some .ws
      | .sse => if kind ≠ .sse ∨ push = false then none else some .sse
      | .none => none
    else none
  | subscription _ =>
    match kind with
    | .ws => some .ws
    | .sse => some .sse
    | _ => none
  | plain _ => none

/-! ## The connection -/

/-- The kinds that change the bind. -/
def ConKind.Upgraded (kind : ConKind) : Prop := kind = .ws ∨ kind = .sse

instance (kind : ConKind) : Decidable kind.Upgraded := inferInstanceAs (Decidable (_ ∨ _))

/-- A connection with its bind; and about its responses which answer HTTP requests, which upgrade the
answer accepted, which texts are binary, which were sent to the end, and which were framed. -/
structure UpCon where
  http : HttpOut
  bind : ConKind
  isRequest : ℕ → Bool
  accepts : ℕ → Option ConKind
  isBin : ℕ → Bool
  completed : List ℕ
  framed : List ℕ

inductive UpAct
  /-- A request, by the memory of its header. -/
  | request (m : Bytes) (hlen : ℕ)
  /-- A page, or the answer to a bad request. -/
  | respond (close : Bool) (t : Bytes)
  | early (i : ℕ) (links : List Bytes)
  | setClose (i : ℕ)
  | answer (i : ℕ) (a : Answer)
  /-- `AGOO_PUB_WRITE`, `publish_pub`, `agoo_server_gpublish`. -/
  | push (isBin : Bool) (t : Bytes)
  /-- `AGOO_PUB_CLOSE`. -/
  | pushClose
  | ping
  | pong
  | write (r : SendResult)
  | next
  | test
  /-- `remove_dead_res`. -/
  | check
  /-- The connection is found dead. -/
  | die

/-- `agoo_sse_expand`. -/
def sseExpand (t : Bytes) : Bytes := bytes "event: msg\ndata: " ++ t ++ bytes "\n\n"

/-- The test in `remove_dead_res`: a record that it does not keep. -/
def Res.Removed (r : Res) : Bool := r.messagePeek.isSome || r.close || r.ping

namespace HttpOut

/-- `remove_dead_res`: records are destroyed up to the first that it keeps. -/
def removeDead (c : HttpOut) : HttpOut :=
  { c with
    queue := c.queue.dropWhile fun i => (c.reply i).res.Removed
    reply := fun i =>
      if i ∈ c.queue.takeWhile (fun i => (c.reply i).res.Removed) then (c.reply i).destroy
      else c.reply i }

/-- The end of `con_sse_write`, which does not test `final`. -/
def finishSse (c : HttpOut) (i : ℕ) (last : Bool) : HttpOut :=
  if last then
    { c.set i (c.reply i).destroy with pc := .idle, dead := c.dead || (c.reply i).res.close }
  else { c with pc := .idle, queue := resPrepend c.queue i }

end HttpOut

/-- The head message becomes its frame. -/
def Reply.expand (r : Reply) (f : Bytes → Bytes) : Reply :=
  { r with res := { r.res with message := r.res.message.modifyHead f } }

namespace UpCon

def init (bind : ConKind) : UpCon :=
  ⟨.init, bind, fun _ => false, fun _ => none, fun _ => false, [], []⟩

/-- The end of `con_ready_write`, when the bind's write has returned; it returned false when the
connection is dead. -/
def afterWrite (c : UpCon) (kind : ConKind) : UpCon :=
  if c.http.dead then c
  else
    match kind with
    | .ws => { c with bind := .ws }
    | .sse => { c with bind := .sse }
    | _ => c

/-- A write has returned unless the message was sent to the end. -/
def afterSend (c : UpCon) (kind : ConKind) : UpCon :=
  if c.http.pc = .idle then c.afterWrite kind else c

/-- A message, if there is one, for record `i`. -/
def pushText (h : HttpOut) (i : ℕ) : Option Bytes → Option HttpOut
  | none => some h
  | some t => h.step (.push i (some t))

/-- A server's record in the queue, with its message if it has one. -/
def serverRes (c : UpCon) (r : Res) (isBin : Bool) (t : Option Bytes) : Option UpCon :=
  ((c.http.step (.append r)).bind fun h => pushText h c.http.cnt t).map fun h =>
    { c with http := h, isBin := Function.update c.isBin c.http.cnt isBin }

/-- A response to an HTTP request in the queue, with its message if there is one already. -/
def requestRes (c : UpCon) (r : Res) (t : Option Bytes) : Option UpCon :=
  ((c.http.step (.append r)).bind fun h => pushText h c.http.cnt t).map fun h =>
    { c with http := h, isRequest := Function.update c.isRequest c.http.cnt true }

/-- `con_ws_write` on a head record without a message. -/
def writeEmpty (c : UpCon) (i : ℕ) (queue : List ℕ) (r : SendResult) : UpCon :=
  if (c.http.reply i).res.ping ∨ (c.http.reply i).res.pong then
    { c with http := { c.http with queue := queue, dead := r = .error } }
  else
    { c with http := { c.http.set i (c.http.reply i).destroy with queue := queue, dead := true } }

/-- The head message is framed before the first of it is sent. -/
def frame (c : UpCon) (i : ℕ) : UpCon :=
  if c.http.wcnt = 0 then
    { c with
      http := c.http.set i ((c.http.reply i).expand
        (if c.bind = .ws then wsExpand (c.isBin i) else sseExpand))
      framed := i :: c.framed }
  else c

/-- The frame of the head message is sent, or the rest of it. -/
def writeMessage (c : UpCon) (i : ℕ) (queue : List ℕ) (r : SendResult) : Option UpCon :=
  (c.http.send i queue (c.http.reply i).current r).map fun h => { c with http := h }

/-- `con_ws_write` and `con_sse_write` through `send`, when `POLLOUT` was asked for. -/
def writeFramed (c : UpCon) (i : ℕ) (queue : List ℕ) (r : SendResult) : Option UpCon :=
  if (c.http.reply i).res.messagePeek.isSome then (c.frame i).writeMessage i queue r
  else if c.bind = .ws ∧ ((c.http.reply i).res.close ∨ (c.http.reply i).res.ping) then
    some (c.writeEmpty i queue r)
  else none

/-- The write of a WebSocket or SSE bind. -/
def bindWrite (c : UpCon) (r : SendResult) : Option UpCon :=
  match resPop c.http.queue with
  | none => none
  | some (i, queue) =>
    if c.http.pc = .idle ∧ c.http.dead = false then c.writeFramed i queue r else none

/-- The kind of the head response. -/
def headKind (c : UpCon) : ConKind :=
  match c.http.queue with
  | [] => .any
  | i :: _ => (c.http.reply i).res.conKind

/-- The test at the end of a write, by bind, and whether the response is complete. -/
def finish (c : UpCon) (i : ℕ) (last : Bool) : UpCon :=
  { c with
    http := if c.bind = .sse then c.http.finishSse i last else c.http.finish i last
    completed := if last ∧ (c.http.reply i).Done then i :: c.completed else c.completed }

def step (c : UpCon) : UpAct → Option UpCon
  | .request m hlen =>
    if c.bind.Upgraded then none else c.requestRes (Agoo.requestRes 0 m hlen) none
  | .respond close t =>
    if c.bind.Upgraded then none
    else c.requestRes { Res.create 0 with close := close } (some t)
  | .early i links =>
    if c.isRequest i then (c.http.step (.early i links)).map fun h => { c with http := h } else none
  | .setClose i =>
    if c.isRequest i then (c.http.step (.setClose i)).map fun h => { c with http := h } else none
  | .answer i a =>
    if c.isRequest i then
      (c.http.step (.push i a.text)).map fun h =>
        { c with http := h,
                 accepts := Function.update c.accepts i (a.accepts (c.http.reply i).res.conKind) }
    else none
  | .push isBin t => c.serverRes { Res.create 0 with conKind := .any } isBin (some t)
  | .pushClose => c.serverRes { Res.create 0 with conKind := c.bind, close := true } false none
  | .ping =>
    if c.bind = .ws then c.serverRes { Res.create 0 with conKind := .ws, ping := true } false none
    else none
  | .pong =>
    if c.bind = .ws then c.serverRes { Res.create 0 with conKind := .ws, pong := true } false none
    else none
  | .write r =>
    if c.bind.Upgraded then (c.bindWrite r).map (·.afterSend c.headKind)
    else (c.http.step (.write r)).map fun h => { c with http := h }.afterSend c.headKind
  | .next => (c.http.step .next).map fun h => { c with http := h }
  | .test =>
    match c.http.pc with
    | .testing i last => some ((c.finish i last).afterWrite (c.http.reply i).res.conKind)
    | _ => none
  | .check => if c.http.pc = .idle then some { c with http := c.http.removeDead } else none
  | .die => if c.http.pc = .idle then some { c with http := { c.http with dead := true } } else none

/-! ## The law -/

/-- The bind changes only to a kind for which an accepting answer was sent completely, and no response
to an HTTP request is framed. -/
structure Lawful (c : UpCon) : Prop where
  accepted : c.bind.Upgraded → ∃ i ∈ c.completed, c.accepts i = some c.bind
  framed : ∀ i ∈ c.framed, c.isRequest i = false

/-- A connection none of whose upgrades was accepted keeps its bind. -/
theorem Lawful.keeps {c : UpCon} (h : c.Lawful) (hno : ∀ i, c.accepts i = none) :
    ¬ c.bind.Upgraded := by
  intro hup
  obtain ⟨i, -, hi⟩ := h.accepted hup
  rw [hno i] at hi
  cases hi

/-- The write of a response to an upgrade request sends its head message to the end, or fails. -/
def WholeSend (c : UpCon) (r : SendResult) : Prop :=
  match c.http.queue with
  | [] => True
  | i :: _ =>
    (c.http.reply i).res.conKind.Upgraded →
      r = .error ∨ r = .sent ((c.http.reply i).current.length - c.http.wcnt)

/-- At the end of such a write the response closes the connection; or it is complete, its answer
accepted the upgrade, and no HTTP response waits behind it. -/
def CleanEnd (c : UpCon) : Prop :=
  match c.http.pc with
  | .testing i last =>
    (c.http.reply i).res.conKind.Upgraded →
      last ∧ (c.http.reply i).res.final ∧
        ((c.http.reply i).res.close ∨
          (c.http.reply i).Done ∧ c.accepts i = some (c.http.reply i).res.conKind ∧
            ∀ j ∈ c.http.queue, c.isRequest j = false)
  | _ => True

instance (c : UpCon) (r : SendResult) : Decidable (c.WholeSend r) := by
  unfold WholeSend
  split <;> infer_instance

instance (c : UpCon) : Decidable c.CleanEnd := by
  unfold CleanEnd
  split <;> infer_instance

/-- What a step under HTTP must meet for the bind to follow the upgrades. -/
def Clean (c : UpCon) : UpAct → Prop
  | .write r => c.bind.Upgraded ∨ c.WholeSend r
  | .test => c.bind.Upgraded ∨ c.CleanEnd
  | _ => True

instance (c : UpCon) : DecidablePred c.Clean := fun a => by
  cases a <;> unfold Clean <;> infer_instance

end UpCon

/-! ## What no step of a write changes -/

namespace HttpOut

/-- From `c` to `c'` no response changes its kind or loses its final message, and only new ones come
into the queue. -/
structure Grows (c c' : HttpOut) : Prop where
  cnt : c.cnt ≤ c'.cnt
  kind : ∀ i < c.cnt, (c'.reply i).res.conKind = (c.reply i).res.conKind
  final : ∀ i < c.cnt, (c.reply i).res.final → (c'.reply i).res.final
  held : ∀ i ∈ c'.held, i ∈ c.held ∨ c.cnt ≤ i ∧ i < c'.cnt

variable {c c' c'' : HttpOut}

theorem Grows.trans (h : c.Grows c') (h' : c'.Grows c'') : c.Grows c'' where
  cnt := h.cnt.trans h'.cnt
  kind i hi := (h'.kind i (hi.trans_le h.cnt)).trans (h.kind i hi)
  final i hi hf := h'.final i (hi.trans_le h.cnt) (h.final i hi hf)
  held i hi := by
    rcases h'.held i hi with hi | hi
    · rcases h.held i hi with hi | hi
      · exact Or.inl hi
      · exact Or.inr ⟨hi.1, hi.2.trans_le h'.cnt⟩
    · exact Or.inr ⟨h.cnt.trans hi.1, hi.2⟩

theorem grows_same (hr : c'.reply = c.reply) (hc : c'.cnt = c.cnt)
    (hh : ∀ i ∈ c'.held, i ∈ c.held) : c.Grows c' where
  cnt := hc.ge
  kind i _ := by rw [hr]
  final i _ hf := by rwa [hr]
  held i hi := Or.inl (hh i hi)

/-- One response changes. -/
theorem grows_set {i : ℕ} {r : Reply} (hk : r.res.conKind = (c.reply i).res.conKind)
    (hf : (c.reply i).res.final → r.res.final) : c.Grows (c.set i r) where
  cnt := Nat.le_refl _
  kind j _ := by
    by_cases hj : j = i
    · rw [hj, set_self, hk]
    · rw [c.set_of_ne hj]
  final j _ := by
    by_cases hj : j = i
    · rw [hj, set_self]
      exact hf
    · rw [c.set_of_ne hj]
      exact id
  held _ hi := Or.inl hi

theorem grows_append (r : Res) (h : c.step (.append r) = some c') :
    c.Grows c' ∧ c'.cnt = c.cnt + 1 ∧ (c'.reply c.cnt).res.conKind = r.conKind := by
  obtain rfl := Option.some.inj h
  have hother : ∀ i < c.cnt, Function.update c.reply c.cnt (.create r) i = c.reply i :=
    fun i hi => Function.update_of_ne hi.ne _ _
  refine ⟨{ cnt := Nat.le_succ _, kind := fun i hi => ?_, final := fun i hi => ?_,
            held := fun i hi => ?_ }, rfl, ?_⟩
  · show (Function.update c.reply c.cnt _ i).res.conKind = _
    rw [hother i hi]
  · show _ → (Function.update c.reply c.cnt _ i).res.final = true
    rw [hother i hi]
    exact id
  · have hmem : i ∈ c.held ∨ i = c.cnt := by
      revert hi
      unfold held
      cases hpc : c.pc <;> simp [hpc, HttpOut.set, resAppend, or_assoc]
    rcases hmem with hm | rfl
    · exact Or.inl hm
    · exact Or.inr ⟨Nat.le_refl _, Nat.lt_succ_self _⟩
  · show (Function.update c.reply c.cnt (.create r) c.cnt).res.conKind = _
    rw [Function.update_self]
    rfl

theorem grows_handle {i : ℕ} {f : Reply → Reply}
    (hk : ∀ r : Reply, (f r).res.conKind = r.res.conKind)
    (hf : ∀ r : Reply, r.res.final → (f r).res.final) (h : c.handle i f = some c') :
    c.Grows c' ∧ c'.cnt = c.cnt ∧ (c.reply i).res.final = false ∧ i < c.cnt := by
  unfold handle at h
  split at h
  · next hi =>
    obtain rfl := Option.some.inj h
    exact ⟨grows_set (hk _) (hf _), rfl, hi.2, hi.1⟩
  · cases h

theorem addEarly_conKind (r : Res) (links : List Bytes) :
    (r.addEarly links).conKind = r.conKind := by
  unfold Res.addEarly
  split <;> rfl

theorem messagePush_conKind (r : Res) (t : Option Bytes) :
    (r.messagePush t).conKind = r.conKind := by
  unfold Res.messagePush
  split <;> rfl

theorem grows_early {i : ℕ} {links : List Bytes} (h : c.step (.early i links) = some c') :
    c.Grows c' ∧ c'.cnt = c.cnt ∧ (c.reply i).res.final = false ∧ i < c.cnt :=
  grows_handle (f := (·.addEarly links)) (fun r => addEarly_conKind r.res links)
    (fun r hr => (Res.addEarly_final r.res links).trans hr) h

theorem grows_push {i : ℕ} {t : Option Bytes} (h : c.step (.push i t) = some c') :
    c.Grows c' ∧ c'.cnt = c.cnt ∧ (c.reply i).res.final = false ∧ i < c.cnt :=
  grows_handle (f := (·.messagePush t)) (fun r => messagePush_conKind r.res t)
    (fun r _ => Res.messagePush_final r.res t) h

theorem grows_setClose {i : ℕ} (h : c.step (.setClose i) = some c') :
    c.Grows c' ∧ c'.cnt = c.cnt ∧ (c.reply i).res.final = false ∧ i < c.cnt :=
  grows_handle (f := (·.setClose)) (fun _ => rfl) (fun _ => id) h

/-- After `send` the response is lost, put back, or held to be finished. -/
theorem grows_send {i : ℕ} {queue : List ℕ} {t : Bytes} {r : SendResult} (hpc : c.pc = .idle)
    (hq : c.queue = i :: queue) (h : c.send i queue t r = some c') :
    c.Grows c' ∧ c'.cnt = c.cnt ∧ (r = .error → c'.dead = true) ∧
      (r = .sent (t.length - c.wcnt) → c'.pc = .finished i) := by
  have hheld : c.held = i :: queue := by rw [held, hpc, hq]
  cases r with
  | again =>
    obtain rfl := Option.some.inj h
    refine ⟨grows_same rfl rfl fun j hj => ?_, rfl, by simp, by simp⟩
    rw [hheld]
    simp only [held, hpc] at hj
    exact List.mem_cons_of_mem _ hj
  | error =>
    obtain rfl := Option.some.inj h
    refine ⟨grows_same rfl rfl fun j hj => ?_, rfl, fun _ => rfl, by simp⟩
    rw [hheld]
    simp only [held, hpc] at hj
    exact List.mem_cons_of_mem _ hj
  | sent n =>
    rw [send] at h
    split at h
    · cases h
    · next hle =>
      split at h
      · obtain rfl := Option.some.inj h
        exact ⟨grows_same rfl rfl fun j hj => hheld ▸ hj, rfl, by simp, fun _ => rfl⟩
      · next hpart =>
        obtain rfl := Option.some.inj h
        refine ⟨grows_same rfl rfl fun j hj => ?_, rfl, by simp, fun hn => ?_⟩
        · rw [hheld]
          simp only [held, hpc] at hj
          exact hj
        · obtain rfl := SendResult.sent.inj hn
          omega

theorem grows_next (h : c.step .next = some c') : c.Grows c' ∧ c'.cnt = c.cnt := by
  rw [step] at h
  split at h
  · next i hpc =>
    obtain rfl := Option.some.inj h
    have hset : c.Grows (c.set i (c.reply i).messageNext) := grows_set rfl id
    refine ⟨{ hset with held := fun j hj => ?_ }, rfl⟩
    rw [held, hpc]
    exact Or.inl hj
  · cases h

theorem grows_destroyed {i : ℕ} {last : Bool} (hpc : c.pc = .testing i last) (hdead : Bool) :
    c.Grows { c.set i (c.reply i).destroy with pc := .idle, dead := hdead } := by
  have hset : c.Grows (c.set i (c.reply i).destroy) := grows_set rfl id
  refine { hset with held := fun j hj => ?_ }
  rw [held, hpc]
  exact Or.inl (List.mem_cons_of_mem _ hj)

theorem grows_back {i : ℕ} {last : Bool} (hpc : c.pc = .testing i last) :
    c.Grows { c with pc := .idle, queue := resPrepend c.queue i } := by
  refine grows_same rfl rfl fun j hj => ?_
  rw [held, hpc]
  exact hj

theorem grows_finish {i : ℕ} {last : Bool} (hpc : c.pc = .testing i last) :
    c.Grows (c.finish i last) ∧ (c.finish i last).cnt = c.cnt := by
  unfold finish
  split
  · exact ⟨grows_destroyed hpc _, rfl⟩
  · exact ⟨grows_back hpc, rfl⟩

theorem grows_finishSse {i : ℕ} {last : Bool} (hpc : c.pc = .testing i last) :
    c.Grows (c.finishSse i last) ∧ (c.finishSse i last).cnt = c.cnt := by
  unfold finishSse
  split
  · exact ⟨grows_destroyed hpc _, rfl⟩
  · exact ⟨grows_back hpc, rfl⟩

theorem grows_removeDead (hpc : c.pc = .idle) : c.Grows c.removeDead where
  cnt := Nat.le_refl _
  kind i _ := by
    unfold removeDead
    dsimp only
    split <;> rfl
  final i _ := by
    unfold removeDead
    dsimp only
    split <;> exact id
  held i hi := by
    simp only [held, removeDead, hpc] at hi ⊢
    exact Or.inl ((List.dropWhile_sublist _).subset hi)

end HttpOut

namespace UpCon

variable {c c' : UpCon} {kind : ConKind}

/-! ## The invariant -/

structure Inv (c : UpCon) : Prop where
  lt : ∀ i ∈ c.http.held, i < c.http.cnt
  done : ∀ i ∈ c.completed, i < c.http.cnt ∧ (c.http.reply i).res.final
  accepted : c.bind.Upgraded → ∃ i ∈ c.completed, c.accepts i = some c.bind
  framed : ∀ i ∈ c.framed, i < c.http.cnt ∧ c.isRequest i = false
  behind : c.bind.Upgraded → ∀ i ∈ c.http.held, c.isRequest i = false
  kinds : ∀ i < c.http.cnt, c.isRequest i = false →
    (c.http.reply i).res.conKind.Upgraded → (c.http.reply i).res.conKind = c.bind
  fresh : ∀ i, c.http.cnt ≤ i → c.isRequest i = false

theorem Inv.lawful (h : c.Inv) : c.Lawful :=
  ⟨h.accepted, fun i hi => (h.framed i hi).2⟩

theorem inv_init {bind : ConKind} (h : ¬ bind.Upgraded) : (init bind).Inv where
  lt _ hi := by cases hi
  done _ hi := by cases hi
  accepted hup := absurd hup h
  framed _ hi := by cases hi
  behind _ _ hi := by cases hi
  kinds i hi := absurd hi (Nat.not_lt_zero i)
  fresh _ _ := rfl

/-- A step on the responses there are. -/
theorem Inv.of_grows (h : c.Inv) {o : HttpOut} (hg : c.http.Grows o) (hcnt : o.cnt = c.http.cnt) :
    Inv { c with http := o } := by
  have hheld : ∀ i ∈ o.held, i ∈ c.http.held := fun i hi =>
    (hg.held i hi).resolve_right fun hn => by omega
  exact {
    lt := fun i hi => hcnt ▸ h.lt i (hheld i hi)
    done := fun i hi => ⟨hcnt ▸ (h.done i hi).1, hg.final i (h.done i hi).1 (h.done i hi).2⟩
    accepted := h.accepted
    framed := fun i hi => ⟨hcnt ▸ (h.framed i hi).1, (h.framed i hi).2⟩
    behind := fun hup i hi => h.behind hup i (hheld i hi)
    kinds := fun i hi hreq => by
      have hi' : i < c.http.cnt := hcnt ▸ hi
      show (o.reply i).res.conKind.Upgraded → (o.reply i).res.conKind = c.bind
      rw [hg.kind i hi']
      exact h.kinds i hi' hreq
    fresh := fun i hi => h.fresh i (hcnt ▸ hi) }

/-- A new record in the queue: a response to a request while the bind is HTTP, or a server's record
whose kind changes nothing. -/
theorem Inv.append (h : c.Inv) {o : HttpOut} {r : Res} {isRequest : ℕ → Bool} {isBin : ℕ → Bool}
    (hstep : c.http.step (.append r) = some o)
    (hother : ∀ i, i ≠ c.http.cnt → isRequest i = c.isRequest i)
    (hreq : isRequest c.http.cnt = true → ¬ c.bind.Upgraded)
    (hkind : isRequest c.http.cnt = false → r.conKind.Upgraded → r.conKind = c.bind) :
    Inv { c with http := o, isRequest := isRequest, isBin := isBin } := by
  obtain ⟨hg, hcnt, hnew⟩ := HttpOut.grows_append r hstep
  have hne : ∀ {i}, i < c.http.cnt → i ≠ c.http.cnt := fun hi => hi.ne
  exact {
    lt := fun i hi => by
      rcases hg.held i hi with hi | hi
      · exact (h.lt i hi).trans_le hg.cnt
      · exact hi.2
    done := fun i hi => ⟨(h.done i hi).1.trans_le hg.cnt,
      hg.final i (h.done i hi).1 (h.done i hi).2⟩
    accepted := h.accepted
    framed := fun i hi => ⟨(h.framed i hi).1.trans_le hg.cnt, by
      show isRequest i = false
      rw [hother i (hne (h.framed i hi).1)]
      exact (h.framed i hi).2⟩
    behind := fun hup i hi => by
      show isRequest i = false
      rcases hg.held i hi with hi | hi
      · rw [hother i (hne (h.lt i hi))]
        exact h.behind hup i hi
      · obtain rfl : i = c.http.cnt := by omega
        exact Bool.eq_false_iff.mpr fun ht => hreq ht hup
    kinds := fun i hi => by
      show isRequest i = false → (o.reply i).res.conKind.Upgraded → _ = c.bind
      by_cases hi' : i = c.http.cnt
      · rw [hi', hnew]
        exact hkind
      · have hlt : i < c.http.cnt := by
          have hi : i < o.cnt := hi
          omega
        rw [hother i hi', hg.kind i hlt]
        exact h.kinds i hlt
    fresh := fun i hi => by
      have hi : o.cnt ≤ i := hi
      show isRequest i = false
      rw [hother i (by omega)]
      exact h.fresh i (by omega) }

/-- After a write the bind may change, to a kind that was accepted and with nothing of HTTP behind. -/
theorem Inv.afterWrite (h : c.Inv) (hkind : kind.Upgraded → c.http.dead = false →
      (∃ i ∈ c.completed, c.accepts i = some kind) ∧ (∀ i ∈ c.http.held, c.isRequest i = false) ∧
        (c.bind.Upgraded → c.bind = kind)) : (c.afterWrite kind).Inv := by
  have hbind : kind.Upgraded → c.http.dead = false → Inv { c with bind := kind } := by
    intro hup hdead
    obtain ⟨hacc, hbehind, hsame⟩ := hkind hup hdead
    exact { h with
      accepted := fun _ => hacc
      behind := fun _ => hbehind
      kinds := fun i hi hreq hup' => by
        have he := h.kinds i hi hreq hup'
        exact he.trans (hsame (he ▸ hup')) }
  unfold UpCon.afterWrite
  split
  · exact h
  · next hdead =>
    have hdead' := Bool.eq_false_iff.mpr hdead
    cases kind with
    | ws => exact hbind (Or.inl rfl) hdead'
    | sse => exact hbind (Or.inr rfl) hdead'
    | any => exact h
    | http => exact h
    | https => exact h

/-! ## Steps -/

theorem Inv.push (h : c.Inv) {i : ℕ} {t : Option Bytes} {o : HttpOut}
    (hstep : c.http.step (.push i t) = some o) : Inv { c with http := o } := by
  obtain ⟨hg, hcnt, -⟩ := HttpOut.grows_push hstep
  exact h.of_grows hg hcnt

theorem Inv.pushText (h : c.Inv) {i : ℕ} {t : Option Bytes} {o : HttpOut}
    (hstep : pushText c.http i t = some o) : Inv { c with http := o } := by
  cases t with
  | none =>
    obtain rfl := Option.some.inj hstep
    exact h
  | some t => exact h.push hstep

theorem Inv.requestRes (h : c.Inv) (hb : ¬ c.bind.Upgraded) {r : Res} {t : Option Bytes}
    (hstep : c.requestRes r t = some c') : c'.Inv := by
  obtain ⟨o', hbind', rfl⟩ := Option.map_eq_some_iff.mp hstep
  obtain ⟨o, ho, hpush⟩ := Option.bind_eq_some_iff.mp hbind'
  have happ : Inv { c with http := o, isRequest := Function.update c.isRequest c.http.cnt true } := by
    refine h.append ho (fun i hi => Function.update_of_ne hi _ _) (fun _ => hb) fun hf => ?_
    rw [Function.update_self] at hf
    cases hf
  exact happ.pushText hpush

theorem Inv.serverRes (h : c.Inv) {r : Res} {isBin : Bool} {t : Option Bytes}
    (hkind : r.conKind.Upgraded → r.conKind = c.bind) (hstep : c.serverRes r isBin t = some c') :
    c'.Inv := by
  obtain ⟨o', hbind', rfl⟩ := Option.map_eq_some_iff.mp hstep
  obtain ⟨o, ho, hpush⟩ := Option.bind_eq_some_iff.mp hbind'
  have happ : Inv { c with http := o, isBin := Function.update c.isBin c.http.cnt isBin } := by
    refine h.append ho (fun _ _ => rfl) (fun ht => ?_) fun _ => hkind
    rw [h.fresh c.http.cnt (Nat.le_refl _)] at ht
    cases ht
  exact happ.pushText hpush

theorem Inv.answer (h : c.Inv) {i : ℕ} {t : Option Bytes} {a : Option ConKind} {o : HttpOut}
    (hstep : c.http.step (.push i t) = some o) :
    Inv { c with http := o, accepts := Function.update c.accepts i a } := by
  obtain ⟨-, -, hopen, -⟩ := HttpOut.grows_push hstep
  have hpush := h.push hstep
  refine { hpush with accepted := fun hup => ?_ }
  obtain ⟨j, hj, hacc⟩ := h.accepted hup
  refine ⟨j, hj, ?_⟩
  have hne : j ≠ i := by
    rintro rfl
    have := (h.done j hj).2
    rw [hopen] at this
    cases this
  show Function.update c.accepts i a j = some c.bind
  rw [Function.update_of_ne hne]
  exact hacc

/-- A write under HTTP. -/
theorem Inv.write (h : c.Inv) {r : SendResult} (hok : c.WholeSend r)
    {o : HttpOut} (hstep : c.http.step (.write r) = some o) :
    (afterSend { c with http := o } c.headKind).Inv := by
  obtain ⟨i, queue, t, hpc, hq, ht, hsend⟩ := HttpOut.write_cases hstep
  obtain ⟨hg, hcnt, herr, hfull⟩ := HttpOut.grows_send hpc hq hsend
  have ho : Inv { c with http := o } := h.of_grows hg hcnt
  unfold afterSend
  split
  · next hidle =>
    refine ho.afterWrite fun hup hdead => ?_
    -- a response to an upgrade request is not let go by this write
    rw [headKind, hq] at hup
    rw [WholeSend, hq] at hok
    rcases hok hup with he | hn
    · rw [show o.dead = true from herr he] at hdead
      cases hdead
    · have hcur : (c.http.reply i).current = t := by
        rw [Reply.current, List.headD_eq_head?_getD, ht]
        rfl
      rw [hcur] at hn
      have hidle : o.pc = .idle := hidle
      rw [hfull hn] at hidle
      cases hidle
  · exact ho

/-- A record that a WebSocket or SSE bind has written keeps the bind. -/
theorem Inv.afterFramed (h : c.Inv) (hbind : c.bind.Upgraded) {i : ℕ} (hi : i ∈ c.http.held)
    {o : HttpOut} (hg : c.http.Grows o) (hcnt : o.cnt = c.http.cnt) :
    (UpCon.afterWrite { c with http := o } (c.http.reply i).res.conKind).Inv := by
  have ho : Inv { c with http := o } := h.of_grows hg hcnt
  refine ho.afterWrite fun hup _ => ?_
  have hk := h.kinds i (h.lt i hi) (h.behind hbind i hi) hup
  exact ⟨by rw [hk]; exact h.accepted hbind, ho.behind hbind, fun _ => hk.symm⟩

theorem Inv.frame (h : c.Inv) (hbind : c.bind.Upgraded) {i : ℕ} (hi : i ∈ c.http.held) :
    (c.frame i).Inv ∧ (c.frame i).http.held = c.http.held ∧
      ((c.frame i).http.reply i).res.conKind = (c.http.reply i).res.conKind := by
  unfold UpCon.frame
  split
  · have hg : c.http.Grows (c.http.set i ((c.http.reply i).expand
        (if c.bind = .ws then wsExpand (c.isBin i) else sseExpand))) := HttpOut.grows_set rfl id
    have ho : Inv { c with http := _ } := h.of_grows hg rfl
    refine ⟨{ ho with framed := fun j hj => ?_ }, rfl, hg.kind i (h.lt i hi)⟩
    rcases List.mem_cons.mp hj with rfl | hj
    · exact ⟨h.lt j hi, h.behind hbind j hi⟩
    · exact h.framed j hj
  · exact ⟨h, rfl, rfl⟩

theorem frame_same (c : UpCon) (i : ℕ) :
    (c.frame i).bind = c.bind ∧ (c.frame i).http.pc = c.http.pc ∧
      (c.frame i).http.queue = c.http.queue := by
  unfold UpCon.frame
  split <;> exact ⟨rfl, rfl, rfl⟩

theorem grows_writeEmpty {i : ℕ} {queue : List ℕ} {r : SendResult} (hpc : c.http.pc = .idle)
    (hq : c.http.queue = i :: queue) :
    ∃ o, c.writeEmpty i queue r = { c with http := o } ∧ c.http.Grows o ∧ o.cnt = c.http.cnt := by
  have hheld : c.http.held = i :: queue := by rw [HttpOut.held, hpc, hq]
  unfold writeEmpty
  split
  · refine ⟨_, rfl, HttpOut.grows_same rfl rfl fun j hj => ?_, rfl⟩
    simp only [HttpOut.held, hpc] at hj
    rw [hheld]
    exact List.mem_cons_of_mem _ hj
  · have hset : c.http.Grows (c.http.set i (c.http.reply i).destroy) := HttpOut.grows_set rfl id
    refine ⟨_, rfl, { hset with held := fun j hj => ?_ }, rfl⟩
    simp only [HttpOut.held, HttpOut.set, hpc] at hj
    rw [hheld]
    exact Or.inl (List.mem_cons_of_mem _ hj)

/-- A write of a frame. -/
theorem Inv.bindWrite (h : c.Inv) (hbind : c.bind.Upgraded) {r : SendResult}
    (hstep : c.bindWrite r = some c') : (c'.afterSend c.headKind).Inv := by
  unfold UpCon.bindWrite at hstep
  cases hq : c.http.queue with
  | nil =>
    rw [hq] at hstep
    cases hstep
  | cons i queue =>
    rw [hq] at hstep
    simp only [resPop] at hstep
    split at hstep
    · next hpc =>
      have hi : i ∈ c.http.held := by
        rw [HttpOut.held, hpc.1, hq]
        exact List.mem_cons_self
      have hkind : c.headKind = (c.http.reply i).res.conKind := by rw [headKind, hq]
      rw [hkind]
      unfold UpCon.writeFramed at hstep
      split at hstep
      · obtain ⟨hframe, hheld, hsame⟩ := h.frame hbind hi
        obtain ⟨hb, hpc', hq'⟩ := c.frame_same i
        obtain ⟨o, hsend, rfl⟩ := Option.map_eq_some_iff.mp hstep
        obtain ⟨hg, hcnt, -⟩ := HttpOut.grows_send (hpc'.trans hpc.1) (hq'.trans hq) hsend
        unfold afterSend
        split
        · rw [← hsame]
          exact hframe.afterFramed (by rwa [hb]) (hheld ▸ hi) hg hcnt
        · exact hframe.of_grows hg hcnt
      · split at hstep
        · obtain rfl := Option.some.inj hstep
          obtain ⟨o, ho, hg, hcnt⟩ := grows_writeEmpty (r := r) hpc.1 hq
          rw [ho]
          unfold afterSend
          split
          · exact h.afterFramed hbind hi hg hcnt
          · exact h.of_grows hg hcnt
        · cases hstep
    · cases hstep

/-- The end of a write. -/
theorem Inv.finish (h : c.Inv) {i : ℕ} {last : Bool} (hpc : c.http.pc = .testing i last) :
    (c.finish i last).Inv ∧ c.http.Grows (c.finish i last).http ∧
      (c.finish i last).http.cnt = c.http.cnt := by
  have hi : i ∈ c.http.held := by
    rw [HttpOut.held, hpc]
    exact List.mem_cons_self
  have hg : c.http.Grows (c.finish i last).http ∧ (c.finish i last).http.cnt = c.http.cnt := by
    unfold UpCon.finish
    dsimp only
    split
    · exact HttpOut.grows_finishSse hpc
    · exact HttpOut.grows_finish hpc
  have ho : Inv { c with http := (c.finish i last).http } := h.of_grows hg.1 hg.2
  refine ⟨{ ho with done := fun j hj => ?_, accepted := fun hup => ?_ }, hg⟩
  · unfold UpCon.finish at hj
    dsimp only at hj
    split at hj
    · next hdone =>
      rcases List.mem_cons.mp hj with rfl | hj
      · exact ⟨hg.2 ▸ h.lt j hi, hg.1.final j (h.lt j hi) hdone.2.1⟩
      · exact ho.done j hj
    · exact ho.done j hj
  · obtain ⟨j, hj, hacc⟩ := h.accepted hup
    refine ⟨j, ?_, hacc⟩
    unfold UpCon.finish
    dsimp only
    split
    · exact List.mem_cons_of_mem _ hj
    · exact hj

theorem Inv.test (h : c.Inv) (hok : c.bind.Upgraded ∨ c.CleanEnd) {i : ℕ} {last : Bool}
    (hpc : c.http.pc = .testing i last) :
    ((c.finish i last).afterWrite (c.http.reply i).res.conKind).Inv := by
  have hi : i ∈ c.http.held := by
    rw [HttpOut.held, hpc]
    exact List.mem_cons_self
  obtain ⟨ho, hg, hcnt⟩ := h.finish hpc
  have hheld : ∀ j ∈ (c.finish i last).http.held, j ∈ c.http.held := fun j hj =>
    (hg.held j hj).resolve_right fun hn => by omega
  refine ho.afterWrite fun hup hdead => ?_
  by_cases hbind : c.bind.Upgraded
  · have hk := h.kinds i (h.lt i hi) (h.behind hbind i hi) hup
    exact ⟨by rw [hk]; exact ho.accepted hbind, ho.behind hbind, fun _ => hk.symm⟩
  · have hend := hok.resolve_left hbind
    rw [CleanEnd, hpc] at hend
    obtain ⟨hlast, hfinal, hend⟩ := hend hup
    have hne : c.bind ≠ .sse := fun he => hbind (Or.inr he)
    have hfin : (c.finish i last).http = c.http.finish i last := by
      unfold UpCon.finish
      dsimp only
      rw [if_neg hne]
    rw [hfin, HttpOut.finish, if_pos ⟨hlast, hfinal⟩] at hdead ⊢
    rcases hend with hclose | ⟨hdone, hacc, hrest⟩
    · simp [hclose] at hdead
    · refine ⟨⟨i, ?_, hacc⟩, fun j hj => hrest j hj, fun hb => absurd hb hbind⟩
      unfold UpCon.finish
      dsimp only
      rw [if_pos ⟨hlast, hdone⟩]
      exact List.mem_cons_self

/-- Every step that meets the condition keeps the invariant. -/
theorem Inv.step (h : c.Inv) {a : UpAct} (hok : c.Clean a) (hstep : c.step a = some c') :
    c'.Inv := by
  cases a with
  | request m hlen =>
    rw [UpCon.step] at hstep
    split at hstep
    · cases hstep
    · next hb => exact h.requestRes hb hstep
  | respond close t =>
    rw [UpCon.step] at hstep
    split at hstep
    · cases hstep
    · next hb => exact h.requestRes hb hstep
  | early i links =>
    rw [UpCon.step] at hstep
    split at hstep
    · obtain ⟨o, ho, rfl⟩ := Option.map_eq_some_iff.mp hstep
      obtain ⟨hg, hcnt, -⟩ := HttpOut.grows_early ho
      exact h.of_grows hg hcnt
    · cases hstep
  | setClose i =>
    rw [UpCon.step] at hstep
    split at hstep
    · obtain ⟨o, ho, rfl⟩ := Option.map_eq_some_iff.mp hstep
      obtain ⟨hg, hcnt, -⟩ := HttpOut.grows_setClose ho
      exact h.of_grows hg hcnt
    · cases hstep
  | answer i a =>
    rw [UpCon.step] at hstep
    split at hstep
    · obtain ⟨o, ho, rfl⟩ := Option.map_eq_some_iff.mp hstep
      exact h.answer ho
    · cases hstep
  | push isBin t => exact h.serverRes (fun hup => by rcases hup with hup | hup <;> cases hup) hstep
  | pushClose => exact h.serverRes (fun _ => rfl) hstep
  | ping =>
    rw [UpCon.step] at hstep
    split at hstep
    · next hb => exact h.serverRes (fun _ => hb.symm) hstep
    · cases hstep
  | pong =>
    rw [UpCon.step] at hstep
    split at hstep
    · next hb => exact h.serverRes (fun _ => hb.symm) hstep
    · cases hstep
  | write r =>
    rw [UpCon.step] at hstep
    split at hstep
    · next hb =>
      obtain ⟨d, hd, rfl⟩ := Option.map_eq_some_iff.mp hstep
      exact h.bindWrite hb hd
    · next hb =>
      obtain ⟨o, ho, rfl⟩ := Option.map_eq_some_iff.mp hstep
      exact h.write (hok.resolve_left hb) ho
  | next =>
    obtain ⟨o, ho, rfl⟩ := Option.map_eq_some_iff.mp hstep
    obtain ⟨hg, hcnt⟩ := HttpOut.grows_next ho
    exact h.of_grows hg hcnt
  | test =>
    rw [UpCon.step] at hstep
    split at hstep
    · next i last hpc =>
      obtain rfl := Option.some.inj hstep
      exact h.test hok hpc
    · cases hstep
  | check =>
    rw [UpCon.step] at hstep
    split at hstep
    · next hpc =>
      obtain rfl := Option.some.inj hstep
      exact h.of_grows (HttpOut.grows_removeDead hpc) rfl
    · cases hstep
  | die =>
    rw [UpCon.step] at hstep
    split at hstep
    · obtain rfl := Option.some.inj hstep
      exact h.of_grows (HttpOut.grows_same rfl rfl fun _ => id) rfl
    · cases hstep

/-- **The bind changes only to a kind whose accepting answer was sent completely, and no HTTP response
is framed, in the runs in which every write of a response to an upgrade request sends its message to
the end and leaves it complete, accepted, and with no HTTP response behind it.** -/
theorem bind_follows_upgrade {bind : ConKind} (hbind : ¬ bind.Upgraded) {acts : List UpAct}
    (hclean : Along step Clean (init bind) acts) : Always step Lawful (init bind) acts :=
  (always_of_along Inv (fun _ _ _ h hok hstep => h.step hok hstep) (inv_init hbind) hclean).mono
    fun _ h => h.lawful

/-- A request for an event stream that is accepted, and an event. -/
theorem bind_follows_accepted :
    (runs step (init .http)
      [.request (bytes "Accept: text/event-stream") 25,
       .answer 0 (.rack 200 .sse true (some (bytes "up"))), .write (.sent 2), .next, .test,
       .push false (bytes "one"), .write (.sent 22), .next, .test]).any (fun c => c.bind == .sse && c.framed == [1]) ∧
    Always step Lawful (init .http)
      [.request (bytes "Accept: text/event-stream") 25,
       .answer 0 (.rack 200 .sse true (some (bytes "up"))), .write (.sent 2), .next, .test,
       .push false (bytes "one"), .write (.sent 22), .next, .test] :=
  ⟨by decide, bind_follows_upgrade (by decide) (by decide)⟩

/-- The refusal of an event stream changes the bind. -/
theorem refused_upgrade_changes_bind :
    ¬ ∀ bind acts, ¬ ConKind.Upgraded bind → Always step Lawful (init bind) acts := by
  intro h
  have hacts := h .http
    [.request (bytes "Accept: text/event-stream") 25,
     .answer 0 (.rack 404 .none true (some (bytes "no"))), .write (.sent 2), .next, .test] (by decide)
  exact hacts.2.2.2.2.2.keeps (fun i => by cases i <;> rfl) (Or.inr rfl)

end UpCon

end Agoo
