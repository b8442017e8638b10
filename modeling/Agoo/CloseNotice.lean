import Agoo.Publish
import Agoo.Upgrade

/-!
# Close notices (`con_ws_write` and `agoo_con_destroy` of `con.c`)

One WebSocket connection from the change of its bind on. `pushed` are the requests for callbacks that it
put on `eval_queue`. The responses that are still queued from before may be of any kind.

`notices_iff`: `on_close` is asked for at most once, and once when the connection is destroyed, if no write
asks for it; in a run to the end it is asked for once only then. A write asks for it when `send` fails and
when it takes a close response, and the destructor always does.
-/

namespace Agoo

namespace WsClose

open Publish

/-! ## The connection -/

/-- A response, and the `bin` of its head message. -/
structure WsRes where
  res : Res
  bin : Bool

structure WsCon where
  bind : ConKind
  queue : List WsRes
  wcnt : ℕ
  closing : Bool
  dead : Bool
  /-- The handler of `up`. -/
  up : Option Handler
  destroyed : Bool
  pushed : List PushMethod

inductive WsAct
  /-- `con_ws_read` pushes a message. -/
  | request (bin : Bool)
  /-- It appends a pong. -/
  | gotPing
  /-- It returns true: the client has closed, or there is an error, which is reported or not. -/
  | readEnd (report : Bool)
  /-- A response is appended: a message, a close response. -/
  | append (w : WsRes)
  | write (r : SendResult)
  /-- `con_ready_error`. -/
  | error
  /-- `con_ready_check`, after the timeout or before. -/
  | check (late : Bool)
  /-- `agoo_ready_destroy`. -/
  | stop

namespace WsCon

variable (c : WsCon)

/-- A request for a callback that the handler has. -/
def push (has : Handler → Bool) (method : PushMethod) : WsCon :=
  if c.up.any fun h => !h.nilCtx && has h then { c with pushed := c.pushed ++ [method] } else c

/-- `agoo_ws_req_close`. -/
def reqClose : WsCon := c.push Handler.onClose .onClose

/-- `c->dead = true`. -/
def die : WsCon := { c with dead := true }

/-- `push_error`. -/
def pushError : WsCon := c.push Handler.onError .onError

/-! ## Writes -/

/-- The head message becomes its frame. -/
def frame (w : WsRes) : WsRes :=
  if c.wcnt = 0 then
    { w with
      res := { w.res with
        message := w.res.message.modifyHead (if c.bind = .sse then sseExpand else wsExpand w.bin) } }
  else w

/-- The message is sent to the end: `con_sse_write` does not test `final`. Returns false at the end of a
response that closes. -/
def finished (w : WsRes) (queue : List WsRes) : WsCon × Bool :=
  let res := w.res.messageNext
  if res.messagePeek = none ∧ (c.bind = .sse ∨ res.final = true) then
    ({ c with queue := queue, wcnt := 0 }, !res.close)
  else ({ c with queue := { w with res := res } :: queue, wcnt := 0 }, true)

/-- `n` more bytes were sent. -/
def afterSent (w : WsRes) (queue : List WsRes) (n : ℕ) : WsCon × Bool :=
  if c.wcnt + n = (w.res.messagePeek.getD []).length then c.finished w queue
  else ({ c with queue := w :: queue, wcnt := c.wcnt + n }, true)

/-- `con_ws_write` on the response that it took. -/
def conWsWrite (w : WsRes) (queue : List WsRes) (r : SendResult) : WsCon × Bool :=
  let c := { c with queue := queue }
  if w.res.messagePeek = none then
    if w.res.ping ∨ w.res.pong then
      if r = .error then (c.pushError.reqClose, false) else (c, true)
    else (c.reqClose, false)
  else
    match r with
    | .again => (c, true)
    | .error => (c.pushError.reqClose, false)
    | .sent n => c.afterSent (c.frame w) queue n

/-- `con_sse_write` on the response that it took. -/
def conSseWrite (w : WsRes) (queue : List WsRes) (r : SendResult) : WsCon × Bool :=
  let c := { c with queue := queue }
  if w.res.messagePeek = none then (c, false)
  else
    match r with
    | .again => (c, true)
    | .error => (c.pushError, false)
    | .sent n => c.afterSent (c.frame w) queue n

/-- The end of `con_ready_write`. -/
def afterWrite (kind : ConKind) (ok : Bool) : WsCon :=
  if ok then { c with bind := if kind = .sse then .sse else if kind = .ws then .ws else c.bind }
  else c.die

/-- `con_ready_write`. -/
def readyWrite (w : WsRes) (queue : List WsRes) (r : SendResult) : WsCon :=
  let out := if c.bind = .sse then c.conSseWrite w queue r else c.conWsWrite w queue r
  out.1.afterWrite w.res.conKind out.2

/-- `con_ws_events` and `con_sse_events` ask for `POLLOUT`. -/
def wantsOut (w : WsRes) : Bool :=
  w.res.messagePeek.isSome || (decide (c.bind ≠ .sse) && (w.res.close || w.res.ping))

/-! ## The end -/

/-- `remove_dead_res`. -/
def removeDeadRes : WsCon := { c with queue := c.queue.dropWhile fun w => w.res.Removed }

/-- `agoo_con_destroy`. -/
def destroy : WsCon :=
  let c := if c.bind = .ws ∨ c.bind = .sse then c.reqClose else c
  { c with queue := [], up := none, destroyed := true }

/-- The end of `con_ready_check`, and the removal that follows. -/
def removeIfDone : WsCon := if c.removeDeadRes.queue = [] then c.removeDeadRes.destroy else c.removeDeadRes

def append (w : WsRes) : WsCon := { c with queue := resAppend c.queue w }

/-- `con_ready_check`. -/
def readyCheck (late : Bool) : WsCon :=
  if c.dead then c.removeIfDone
  else if late = false then c
  else if c.closing then c.removeIfDone
  else if c.bind = .ws then c.append ⟨{ Res.create 0 with conKind := .ws, ping := true }, false⟩
  else c

/-- A step of the connection; a dead one is not read and not written. -/
def step : WsAct → Option WsCon
  | .request bin =>
    if c.destroyed ∨ c.dead then none else some (c.push (fun _ => true) (if bin then .onBin else .onMsg))
  | .gotPing =>
    if c.destroyed ∨ c.dead then none
    else some (c.append ⟨{ Res.create 0 with conKind := .ws, pong := true }, false⟩)
  | .readEnd report =>
    if c.destroyed ∨ c.dead then none
    else some (if report then c.pushError else c).die
  | .append w => if c.destroyed then none else some (c.append w)
  | .write r =>
    match c.queue with
    | [] => none
    | w :: queue =>
      if c.destroyed ∨ c.dead ∨ c.wantsOut w = false then none else some (c.readyWrite w queue r)
  | .error => if c.destroyed then none else some c.die
  | .check late => if c.destroyed then none else some (c.readyCheck late)
  | .stop => if c.destroyed then none else some c.destroy

/-- How often `on_close` was asked for. -/
def notices : ℕ := c.pushed.count .onClose

/-- At most one notice, and one when the connection is destroyed. -/
def Once : Prop := c.notices ≤ 1 ∧ (c.destroyed = true → c.notices = 1)

/-- The write of `con_ws_write` fails, or takes a close response. -/
def Notices (w : WsRes) (r : SendResult) : Prop :=
  c.bind ≠ .sse ∧ (r = .error ∨ w.res.messagePeek = none ∧ w.res.ping = false ∧ w.res.pong = false)

/-- The step is no write that gives notice. -/
def Quiet : WsAct → Prop
  | .write r => ∀ w ∈ c.queue.head?, ¬ c.Notices w r
  | _ => True

end WsCon

/-- A WebSocket connection whose handler has `on_close`, with the responses that are still queued. -/
def start (h : Handler) (queue : List WsRes) (wcnt : ℕ) (closing : Bool) : WsCon where
  bind := .ws
  queue := queue
  wcnt := wcnt
  closing := closing
  dead := false
  up := some { h with nilCtx := false, onClose := true }
  destroyed := false
  pushed := []

namespace WsCon

/-! ## What a step adds -/

variable {c c' : WsCon}

/-- The handler is there, and asks for notices. -/
structure Listens (c : WsCon) : Prop where
  up : ∃ h, c.up = some h ∧ h.nilCtx = false ∧ h.onClose = true
  bind : c.bind = .ws ∨ c.bind = .sse
  alive : c.destroyed = false

/-- `c'` is `c` with `n` more notices, still alive. -/
structure Adds (c c' : WsCon) (n : ℕ) : Prop where
  up : c'.up = c.up
  bind : c'.bind = c.bind
  alive : c'.destroyed = c.destroyed
  notices : c'.notices = c.notices + n

theorem Adds.trans {c'' : WsCon} {n m : ℕ} (h : Adds c c' n) (h' : Adds c' c'' m) : Adds c c'' (n + m) where
  up := h'.up.trans h.up
  bind := h'.bind.trans h.bind
  alive := h'.alive.trans h.alive
  notices := by rw [h'.notices, h.notices, Nat.add_assoc]

theorem adds_push (c : WsCon) (has : Handler → Bool) {method : PushMethod} (hm : method ≠ .onClose) :
    Adds c (c.push has method) 0 := by
  unfold push
  split_ifs
  · refine ⟨rfl, rfl, rfl, ?_⟩
    unfold notices
    rw [List.count_append, List.count_singleton]
    simp [hm]
  · exact ⟨rfl, rfl, rfl, rfl⟩

theorem adds_reqClose {c : WsCon} (h : ∃ h, c.up = some h ∧ h.nilCtx = false ∧ h.onClose = true) :
    Adds c c.reqClose 1 := by
  obtain ⟨handler, hup, hnil, hclose⟩ := h
  unfold reqClose push
  rw [if_pos (by simp [hup, hnil, hclose])]
  refine ⟨rfl, rfl, rfl, ?_⟩
  unfold notices
  rw [List.count_append, List.count_singleton]
  rfl

theorem Adds.listens {n : ℕ} (h : Adds c c' n) (hc : c.Listens) : c'.Listens where
  up := h.up ▸ hc.up
  bind := h.bind ▸ hc.bind
  alive := h.alive ▸ hc.alive

/-- What does not concern callbacks adds nothing. -/
theorem Adds.same (hup : c'.up = c.up) (hbind : c'.bind = c.bind) (halive : c'.destroyed = c.destroyed)
    (hpushed : c'.pushed = c.pushed) : Adds c c' 0 := by
  refine ⟨hup, hbind, halive, ?_⟩
  unfold WsCon.notices
  rw [hpushed]
  rfl

theorem adds_die (c : WsCon) : Adds c c.die 0 := .same rfl rfl rfl rfl

theorem adds_afterSent (c : WsCon) (w : WsRes) (queue : List WsRes) (n : ℕ) :
    Adds c (c.afterSent w queue n).1 0 := by
  unfold afterSent finished
  dsimp only
  split_ifs <;> exact .same rfl rfl rfl rfl

/-- `con_ws_write` gives notice when it fails to send or takes a close response, and returns false. -/
theorem conWsWrite_spec (hc : c.Listens) (hbind : c.bind ≠ .sse) (w : WsRes) (queue : List WsRes)
    (r : SendResult) :
    (¬ c.Notices w r ∧ Adds c (c.conWsWrite w queue r).1 0) ∨
      (c.Notices w r ∧ Adds c (c.conWsWrite w queue r).1 1 ∧ (c.conWsWrite w queue r).2 = false) := by
  have htake : Adds c { c with queue := queue } 0 := .same rfl rfl rfl rfl
  have hclose : Adds c { c with queue := queue }.reqClose 1 := htake.trans (adds_reqClose hc.up)
  have herror : Adds c { c with queue := queue }.pushError.reqClose 1 := by
    have hpush : Adds c { c with queue := queue }.pushError 0 := htake.trans (adds_push _ _ (by decide))
    exact hpush.trans (adds_reqClose (hpush.listens hc).up)
  unfold conWsWrite Notices
  dsimp only
  by_cases hnone : w.res.messagePeek = none
  · rw [if_pos hnone]
    by_cases hp : w.res.ping ∨ w.res.pong
    · rw [if_pos hp]
      by_cases hr : r = .error
      · rw [if_pos hr]
        exact Or.inr ⟨⟨hbind, Or.inl hr⟩, herror, rfl⟩
      · rw [if_neg hr]
        refine Or.inl ⟨?_, htake⟩
        rintro ⟨-, h | ⟨-, hping, hpong⟩⟩
        · exact hr h
        · rw [hping, hpong] at hp
          simp at hp
    · rw [if_neg hp]
      rw [not_or, Bool.not_eq_true, Bool.not_eq_true] at hp
      exact Or.inr ⟨⟨hbind, Or.inr ⟨hnone, hp⟩⟩, hclose, rfl⟩
  · rw [if_neg hnone]
    cases r with
    | error => exact Or.inr ⟨⟨hbind, Or.inl rfl⟩, herror, rfl⟩
    | again => exact Or.inl ⟨by simp [hnone], htake⟩
    | sent n => exact Or.inl ⟨by simp [hnone], htake.trans (adds_afterSent _ _ _ _)⟩

theorem conSseWrite_adds (c : WsCon) (w : WsRes) (queue : List WsRes) (r : SendResult) :
    Adds c (c.conSseWrite w queue r).1 0 := by
  have htake : Adds c { c with queue := queue } 0 := .same rfl rfl rfl rfl
  unfold conSseWrite
  dsimp only
  split_ifs
  · exact htake
  · cases r with
    | error => exact htake.trans (adds_push _ _ (by decide))
    | again => exact htake
    | sent n => exact htake.trans (adds_afterSent _ _ _ _)

/-- The end of a write concerns the bind only. -/
theorem afterWrite_listens (hc : c.Listens) (kind : ConKind) (ok : Bool) :
    (c.afterWrite kind ok).Listens ∧ (c.afterWrite kind ok).notices = c.notices := by
  unfold afterWrite
  split_ifs with h1 h2 h3
  · exact ⟨⟨hc.up, Or.inr rfl, hc.alive⟩, rfl⟩
  · exact ⟨⟨hc.up, Or.inl rfl, hc.alive⟩, rfl⟩
  · exact ⟨⟨hc.up, hc.bind, hc.alive⟩, rfl⟩
  · exact ⟨⟨hc.up, hc.bind, hc.alive⟩, rfl⟩

theorem readyWrite_spec (hc : c.Listens) (w : WsRes) (queue : List WsRes) (r : SendResult) :
    (c.readyWrite w queue r).Listens ∧
      ((¬ c.Notices w r ∧ (c.readyWrite w queue r).notices = c.notices) ∨
        (c.Notices w r ∧ (c.readyWrite w queue r).notices = c.notices + 1 ∧
          (c.readyWrite w queue r).dead = true)) := by
  unfold readyWrite
  by_cases hbind : c.bind = .sse
  · have hadds := conSseWrite_adds c w queue r
    obtain ⟨hlistens, hsame⟩ := afterWrite_listens (hadds.listens hc) w.res.conKind (c.conSseWrite w queue r).2
    rw [if_pos hbind]
    exact ⟨hlistens, Or.inl ⟨fun h => h.1 hbind, hsame.trans hadds.notices⟩⟩
  · rw [if_neg hbind]
    rcases conWsWrite_spec hc hbind w queue r with ⟨hquiet, hadds⟩ | ⟨hnotices, hadds, hfalse⟩
    · obtain ⟨hlistens, hsame⟩ := afterWrite_listens (hadds.listens hc) w.res.conKind (c.conWsWrite w queue r).2
      exact ⟨hlistens, Or.inl ⟨hquiet, hsame.trans hadds.notices⟩⟩
    · obtain ⟨hlistens, hsame⟩ := afterWrite_listens (hadds.listens hc) w.res.conKind (c.conWsWrite w queue r).2
      refine ⟨hlistens, Or.inr ⟨hnotices, hsame.trans hadds.notices, ?_⟩⟩
      dsimp only
      rw [hfalse]
      rfl

/-- The destructor gives notice. -/
theorem destroy_spec (hc : c.Listens) : c.destroy.destroyed = true ∧ c.destroy.notices = c.notices + 1 := by
  refine ⟨rfl, ?_⟩
  unfold destroy
  rw [if_pos hc.bind]
  exact (adds_reqClose hc.up).notices

/-- The connection is as before but for its queue, or it was destroyed. -/
theorem removeIfDone_spec (hc : c.Listens) :
    Adds c c.removeIfDone 0 ∧ c.removeIfDone.dead = c.dead ∨
      c.removeIfDone.destroyed = true ∧ c.removeIfDone.notices = c.notices + 1 := by
  have hsame : Adds c c.removeDeadRes 0 := .same rfl rfl rfl rfl
  unfold removeIfDone
  split_ifs
  · obtain ⟨hdestroyed, hnotices⟩ := destroy_spec (hsame.listens hc)
    exact Or.inr ⟨hdestroyed, hnotices.trans (congrArg (· + 1) hsame.notices)⟩
  · exact Or.inl ⟨hsame, rfl⟩

theorem readyCheck_spec (hc : c.Listens) (late : Bool) :
    Adds c (c.readyCheck late) 0 ∧ (c.readyCheck late).dead = c.dead ∨
      (c.readyCheck late).destroyed = true ∧ (c.readyCheck late).notices = c.notices + 1 := by
  unfold readyCheck
  split_ifs
  · exact removeIfDone_spec hc
  · exact Or.inl ⟨.same rfl rfl rfl rfl, rfl⟩
  · exact removeIfDone_spec hc
  · exact Or.inl ⟨.same rfl rfl rfl rfl, rfl⟩
  · exact Or.inl ⟨.same rfl rfl rfl rfl, rfl⟩

/-! ## Runs -/

/-- The connection is alive with `n` notices, or was destroyed with one more. -/
def Inv (n : ℕ) (c : WsCon) : Prop :=
  c.Listens ∧ c.notices = n ∨ c.destroyed = true ∧ c.notices = n + 1

theorem Adds.inv {n : ℕ} (h : Adds c c' 0) (hc : c.Listens) (hn : c.notices = n) : Inv n c' :=
  Or.inl ⟨h.listens hc, h.notices.trans hn⟩

/-- What a step does: a write that gives notice leaves the connection dead. -/
theorem step_spec {n : ℕ} {a : WsAct} (hc : c.Listens) (hn : c.notices = n) (hstep : c.step a = some c') :
    (c.Quiet a → Inv n c') ∧ (¬ c.Quiet a → c'.Listens ∧ c'.notices = n + 1 ∧ c'.dead = true) := by
  cases a with
  | request bin =>
    obtain ⟨-, h⟩ := Option.ite_none_left_eq_some.mp hstep
    obtain rfl := Option.some.inj h
    refine ⟨fun _ => (adds_push c _ ?_).inv hc hn, fun hq => absurd trivial hq⟩
    cases bin <;> decide
  | gotPing =>
    obtain ⟨-, h⟩ := Option.ite_none_left_eq_some.mp hstep
    obtain rfl := Option.some.inj h
    have hadds : Adds c (c.append ⟨{ Res.create 0 with conKind := .ws, pong := true }, false⟩) 0 :=
      .same rfl rfl rfl rfl
    exact ⟨fun _ => hadds.inv hc hn, fun hq => absurd trivial hq⟩
  | readEnd report =>
    obtain ⟨-, h⟩ := Option.ite_none_left_eq_some.mp hstep
    obtain rfl := Option.some.inj h
    have hreport : Adds c (if report then c.pushError else c) 0 := by
      split_ifs
      · exact adds_push c _ (by decide)
      · exact .same rfl rfl rfl rfl
    have hadds : Adds c (if report then c.pushError else c).die 0 :=
      hreport.trans (adds_die _)
    exact ⟨fun _ => hadds.inv hc hn, fun hq => absurd trivial hq⟩
  | append w =>
    obtain ⟨-, h⟩ := Option.ite_none_left_eq_some.mp hstep
    obtain rfl := Option.some.inj h
    have hadds : Adds c (c.append w) 0 := .same rfl rfl rfl rfl
    exact ⟨fun _ => hadds.inv hc hn, fun hq => absurd trivial hq⟩
  | write r =>
    cases hqueue : c.queue with
    | nil =>
      unfold step at hstep
      rw [hqueue] at hstep
      cases hstep
    | cons w queue =>
      unfold step at hstep
      rw [hqueue] at hstep
      obtain ⟨-, h⟩ := Option.ite_none_left_eq_some.mp hstep
      obtain rfl := Option.some.inj h
      have hquiet : c.Quiet (.write r) ↔ ¬ c.Notices w r := by simp [Quiet, hqueue]
      obtain ⟨hlistens, hwrite⟩ := readyWrite_spec hc w queue r
      rw [hquiet, not_not]
      rcases hwrite with ⟨hno, hsame⟩ | ⟨hyes, hmore, hdead⟩
      · exact ⟨fun _ => Or.inl ⟨hlistens, hsame.trans hn⟩, fun hyes => absurd hyes hno⟩
      · exact ⟨fun hno => absurd hyes hno, fun _ => ⟨hlistens, hn ▸ hmore, hdead⟩⟩
  | error =>
    obtain ⟨-, h⟩ := Option.ite_none_left_eq_some.mp hstep
    obtain rfl := Option.some.inj h
    exact ⟨fun _ => (adds_die c).inv hc hn, fun hq => absurd trivial hq⟩
  | check late =>
    obtain ⟨-, h⟩ := Option.ite_none_left_eq_some.mp hstep
    obtain rfl := Option.some.inj h
    refine ⟨fun _ => ?_, fun hq => absurd trivial hq⟩
    rcases readyCheck_spec hc late with ⟨hadds, -⟩ | ⟨hdestroyed, hmore⟩
    · exact hadds.inv hc hn
    · exact Or.inr ⟨hdestroyed, hn ▸ hmore⟩
  | stop =>
    obtain ⟨-, h⟩ := Option.ite_none_left_eq_some.mp hstep
    obtain rfl := Option.some.inj h
    obtain ⟨hdestroyed, hmore⟩ := destroy_spec hc
    exact ⟨fun _ => Or.inr ⟨hdestroyed, hn ▸ hmore⟩, fun hq => absurd trivial hq⟩

/-- A destroyed connection takes no step. -/
theorem step_destroyed (hc : c.destroyed = true) (a : WsAct) : c.step a = none := by
  cases a with
  | write r =>
    unfold step
    cases c.queue with
    | nil => rfl
    | cons w queue => exact if_pos (Or.inl hc)
  | _ => simp [step, hc]

/-- A dead connection stays dead until it is destroyed, and is not written. -/
theorem step_dead (hc : c.dead = true) {a : WsAct} (hlistens : c.Listens) (hstep : c.step a = some c') :
    c.Quiet a ∧ (c'.dead = true ∨ c'.destroyed = true) := by
  cases a with
  | write r =>
    unfold step at hstep
    cases hqueue : c.queue with
    | nil =>
      rw [hqueue] at hstep
      cases hstep
    | cons w queue =>
      rw [hqueue] at hstep
      obtain ⟨hno, -⟩ := Option.ite_none_left_eq_some.mp hstep
      exact absurd (Or.inr (Or.inl hc)) hno
  | check late =>
    obtain ⟨-, h⟩ := Option.ite_none_left_eq_some.mp hstep
    obtain rfl := Option.some.inj h
    refine ⟨trivial, ?_⟩
    rcases readyCheck_spec hlistens late with ⟨-, hdead⟩ | ⟨hdestroyed, -⟩
    · exact Or.inl (hdead.trans hc)
    · exact Or.inr hdestroyed
  | append w =>
    obtain ⟨-, h⟩ := Option.ite_none_left_eq_some.mp hstep
    obtain rfl := Option.some.inj h
    exact ⟨trivial, Or.inl hc⟩
  | error =>
    obtain ⟨-, h⟩ := Option.ite_none_left_eq_some.mp hstep
    obtain rfl := Option.some.inj h
    exact ⟨trivial, Or.inl rfl⟩
  | stop =>
    obtain ⟨-, h⟩ := Option.ite_none_left_eq_some.mp hstep
    obtain rfl := Option.some.inj h
    exact ⟨trivial, Or.inr rfl⟩
  | _ =>
    obtain ⟨hno, -⟩ := Option.ite_none_left_eq_some.mp hstep
    exact absurd (Or.inr hc) hno

theorem inv_step {n : ℕ} {a : WsAct} (hc : Inv n c) (hq : c.Quiet a) (hstep : c.step a = some c') :
    Inv n c' := by
  rcases hc with ⟨hlistens, hn⟩ | ⟨hdestroyed, -⟩
  · exact (step_spec hlistens hn hstep).1 hq
  · rw [step_destroyed hdestroyed] at hstep
    cases hstep

theorem quiet_runs {n : ℕ} {as : List WsAct} (hc : Inv n c) (hq : Along step Quiet c as) :
    Always step (Inv n) c as :=
  always_of_along (Inv n) (fun _ _ _ hc hq hstep => inv_step hc hq hstep) hc hq

/-- A run of a dead connection is quiet. -/
theorem along_quiet_of_dead {as : List WsAct} {n : ℕ} (hc : Inv n c)
    (hdead : c.dead = true ∨ c.destroyed = true) : Along step Quiet c as := by
  induction as generalizing c with
  | nil => trivial
  | cons a as ih =>
    cases hstep : step c a with
    | none => simp [Along, hstep]
    | some c' =>
      rw [along_cons hstep]
      rcases hc with ⟨hlistens, hn⟩ | ⟨hdestroyed, -⟩
      · have hdead := hdead.resolve_right (by rw [hlistens.alive]; decide)
        obtain ⟨hq, hdead'⟩ := step_dead hdead hlistens hstep
        exact ⟨hq, ih ((step_spec hlistens hn hstep).1 hq) hdead'⟩
      · rw [step_destroyed hdestroyed] at hstep
        cases hstep

/-- A run with a write that gives notice ends with one notice more. -/
theorem runs_not_quiet {as : List WsAct} {n : ℕ} (hc : Inv n c) (hruns : runs step c as = some c')
    (hq : ¬ Along step Quiet c as) : Inv (n + 1) c' := by
  induction as generalizing c with
  | nil => exact absurd trivial hq
  | cons a as ih =>
    obtain ⟨d, hstep, hruns⟩ := Option.bind_eq_some_iff.mp hruns
    rw [along_cons hstep, not_and_or] at hq
    by_cases ha : c.Quiet a
    · exact ih (inv_step hc ha hstep) hruns (hq.resolve_left (not_not.mpr ha))
    · rcases hc with ⟨hlistens, hn⟩ | ⟨hdestroyed, -⟩
      · obtain ⟨hlistens', hn', hdead⟩ := (step_spec hlistens hn hstep).2 ha
        have hinv : Inv (n + 1) d := Or.inl ⟨hlistens', hn'⟩
        exact (quiet_runs hinv (along_quiet_of_dead hinv (Or.inl hdead))).last hruns
      · rw [step_destroyed hdestroyed] at hstep
        cases hstep

theorem inv_start (h : Handler) (queue : List WsRes) (wcnt : ℕ) (closing : Bool) :
    Inv 0 (start h queue wcnt closing) :=
  Or.inl ⟨⟨⟨_, rfl, rfl, rfl⟩, Or.inl rfl, rfl⟩, rfl⟩

theorem Inv.once (h : Inv 0 c) : c.Once := by
  rcases h with ⟨hlistens, hn⟩ | ⟨-, hn⟩
  · refine ⟨by omega, fun hdestroyed => ?_⟩
    rw [hlistens.alive] at hdestroyed
    cases hdestroyed
  · exact ⟨by omega, fun _ => hn⟩

/-- **In a run whose writes give no notice there is at most one in every state, and one when the
connection is destroyed; and in a run in which it is destroyed there is one at the end only if no write
gave notice.** -/
theorem notices_iff (h : Handler) (queue : List WsRes) (wcnt : ℕ) (closing : Bool) (as : List WsAct) :
    (Along step Quiet (start h queue wcnt closing) as → Always step Once (start h queue wcnt closing) as) ∧
      ∀ c, runs step (start h queue wcnt closing) as = some c → c.destroyed = true →
        (c.notices = 1 ↔ Along step Quiet (start h queue wcnt closing) as) := by
  have hinv := inv_start h queue wcnt closing
  refine ⟨fun hq => (quiet_runs hinv hq).mono fun _ hc => hc.once, fun c hruns hdestroyed => ?_⟩
  constructor
  · intro hone
    by_contra hq
    rcases runs_not_quiet hinv hruns hq with ⟨hlistens, -⟩ | ⟨-, htwo⟩
    · rw [hlistens.alive] at hdestroyed
      cases hdestroyed
    · omega
  · intro hq
    exact ((quiet_runs hinv hq).last hruns).once.2 hdestroyed

/-- The server closes a connection: `on_close` is asked for twice. -/
theorem close_noticed_twice : ¬ ∀ as : List WsAct,
    Always step Once (start ⟨false, false, true, true, false⟩ [] 0 false) as := by
  intro h
  have hrun := h [.append ⟨{ Res.create 0 with conKind := .ws, close := true }, false⟩, .write .again,
    .check false]
  have honce := hrun.2.2.2.1
  revert honce
  decide

end WsCon

end WsClose

end Agoo
