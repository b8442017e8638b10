import Agoo.Upgrade

/-!
# The con loop and its records

All connections of one con loop over the memory of their response records. `agoo_res_create` takes a
record from the loop's list or allocates one, `agoo_res_destroy` gives it back, and a queued request
keeps a pointer to its record. The loop is one thread, so one write is in progress at a time; handlers
run between all of its steps. `remove_dead_res` is one step for each record.
-/

namespace Agoo

/-! ## Records -/

/-- A record in memory; and for each of its messages the request whose handler pushed it. -/
structure Rec where
  res : Res
  pushers : List (Option ℕ)
  aligned : pushers.length = res.message.length

namespace Rec

theorem aligned_push (r : Rec) (p : Option ℕ) (t : Option Bytes) :
    (if r.res.final then r.pushers else r.pushers ++ t.toList.map fun _ => p).length =
      (r.res.messagePush t).message.length := by
  unfold Res.messagePush
  split
  · exact r.aligned
  · simp [r.aligned]

theorem aligned_early (r : Rec) (p : Option ℕ) (links : List Bytes) :
    (if r.res.final then r.pushers else r.pushers ++ [p]).length =
      (r.res.addEarly links).message.length := by
  unfold Res.addEarly
  split
  · exact r.aligned
  · simp [r.aligned]

theorem aligned_next (r : Rec) : r.pushers.tail.length = r.res.messageNext.message.length := by
  simp [r.aligned]

theorem aligned_expand (r : Rec) (f : Bytes → Bytes) :
    r.pushers.length = (r.res.message.modifyHead f).length := by
  simp [r.aligned]

/-- A new record, with the flags that `r` has. -/
def create (r : Res) : Rec := ⟨{ r with message := [], final := false }, [], rfl⟩

def messagePush (r : Rec) (p : Option ℕ) (t : Option Bytes) : Rec where
  res := r.res.messagePush t
  pushers := if r.res.final then r.pushers else r.pushers ++ t.toList.map fun _ => p
  aligned := r.aligned_push p t

def addEarly (r : Rec) (p : Option ℕ) (links : List Bytes) : Rec where
  res := r.res.addEarly links
  pushers := if r.res.final then r.pushers else r.pushers ++ [p]
  aligned := r.aligned_early p links

def setClose (r : Rec) : Rec := ⟨{ r.res with close := true }, r.pushers, r.aligned⟩

def messageNext (r : Rec) : Rec := ⟨r.res.messageNext, r.pushers.tail, r.aligned_next⟩

/-- The head message becomes its frame. -/
def expand (r : Rec) (f : Bytes → Bytes) : Rec :=
  ⟨{ r.res with message := r.res.message.modifyHead f }, r.pushers, r.aligned_expand f⟩

def destroy (r : Rec) : Rec := ⟨r.res.destroy, [], rfl⟩

/-- What every change of a record in use keeps. -/
structure Same (r r' : Rec) : Prop where
  con : r'.res.con = r.res.con
  ping : r'.res.ping = r.res.ping
  pong : r'.res.pong = r.res.pong

variable (r : Rec) (p : Option ℕ)

theorem same_messagePush (t : Option Bytes) : r.Same (r.messagePush p t) := by
  have h : ∀ r : Res, (r.messagePush t).con = r.con ∧ (r.messagePush t).ping = r.ping ∧
      (r.messagePush t).pong = r.pong := fun r => by
    unfold Res.messagePush
    split <;> exact ⟨rfl, rfl, rfl⟩
  exact ⟨(h r.res).1, (h r.res).2.1, (h r.res).2.2⟩

theorem same_addEarly (links : List Bytes) : r.Same (r.addEarly p links) := by
  have h : ∀ r : Res, (r.addEarly links).con = r.con ∧ (r.addEarly links).ping = r.ping ∧
      (r.addEarly links).pong = r.pong := fun r => by
    unfold Res.addEarly
    split <;> exact ⟨rfl, rfl, rfl⟩
  exact ⟨(h r.res).1, (h r.res).2.1, (h r.res).2.2⟩

theorem mem_messagePush {q : Option ℕ} {t : Option Bytes}
    (h : q ∈ (r.messagePush p t).pushers) : q ∈ r.pushers ∨ q = p := by
  simp only [messagePush] at h
  split at h
  · exact Or.inl h
  · rcases List.mem_append.mp h with h | h
    · exact Or.inl h
    · obtain ⟨-, -, rfl⟩ := List.mem_map.mp h
      exact Or.inr rfl

theorem mem_addEarly {q : Option ℕ} {links : List Bytes}
    (h : q ∈ (r.addEarly p links).pushers) : q ∈ r.pushers ∨ q = p := by
  simp only [addEarly] at h
  split at h
  · exact Or.inl h
  · rcases List.mem_append.mp h with h | h
    · exact Or.inl h
    · exact Or.inr (List.mem_singleton.mp h)

end Rec

/-! ## The loop -/

/-- Where a write is, on connection `k` with the popped record `a`. -/
inductive LoopPc
  | idle
  | finished (k a : ℕ)
  | testing (k a : ℕ) (last : Bool)
  deriving DecidableEq

structure LoopCon where
  /-- Accepted and not destroyed. -/
  live : Bool
  bind : ConKind
  /-- The records from `res_head` to `res_tail`. -/
  queue : List ℕ
  wcnt : ℕ
  dead : Bool
  closing : Bool

/-- A request with its record. It is unanswered while it is queued or being handled and its final
message was not pushed. -/
structure LoopReq where
  con : ℕ
  res : ℕ
  unanswered : Bool

/-- `owner` tells the request for which a record was made, as long as the record is not destroyed or
freed; `written` tells of each `send` whose message it was and to which connection it went. -/
structure Loop where
  active : Bool
  mem : ℕ → Rec
  cnt : ℕ
  /-- `loop->res_head`. -/
  free : List ℕ
  con : ℕ → LoopCon
  conCnt : ℕ
  req : ℕ → LoopReq
  reqCnt : ℕ
  pc : LoopPc
  owner : ℕ → Option ℕ
  written : List (ℕ × ℕ)

inductive LoopAct
  | accept (bind : ConKind)
  | request (k : ℕ) (m : Bytes) (hlen : ℕ)
  /-- `page_response`. -/
  | page (k : ℕ) (close : Bool) (t : Bytes)
  | badRequest (k : ℕ) (t : Bytes)
  | early (q : ℕ) (links : List Bytes)
  | setClose (q : ℕ)
  | push (q : ℕ) (t : Option Bytes)
  /-- The handler is done without an answer: the connection was hijacked. -/
  | leave (q : ℕ)
  /-- `publish_pub`, `AGOO_PUB_WRITE`, `agoo_server_gpublish`. -/
  | publish (k : ℕ) (t : Bytes)
  | pushClose (k : ℕ)
  | ping (k : ℕ)
  | pong (k : ℕ)
  | write (k : ℕ) (r : SendResult)
  | next
  | test
  /-- The client is gone. -/
  | die (k : ℕ)
  /-- The connection timed out. -/
  | expire (k : ℕ)
  /-- One round of the loop in `remove_dead_res`. -/
  | drop (k : ℕ)
  /-- `con_ready_check` returned true. -/
  | close (k : ℕ)
  | stop
  /-- `agoo_ready_destroy`. -/
  | shut (k : ℕ)

/-- The end of `con_ready_write`. -/
def LoopCon.afterWrite (d : LoopCon) (kind : ConKind) : LoopCon :=
  if d.dead then d
  else
    match kind with
    | .ws => { d with bind := .ws }
    | .sse => { d with bind := .sse }
    | _ => d

namespace Loop

def init : Loop where
  active := true
  mem _ := .create (.create 0)
  cnt := 0
  free := []
  con _ := ⟨false, .any, [], 0, false, false⟩
  conCnt := 0
  req _ := ⟨0, 0, false⟩
  reqCnt := 0
  pc := .idle
  owner _ := none
  written := []

def setMem (c : Loop) (a : ℕ) (r : Rec) : Loop := { c with mem := Function.update c.mem a r }

def setCon (c : Loop) (k : ℕ) (d : LoopCon) : Loop := { c with con := Function.update c.con k d }

/-- The loop can turn to connection `k`. -/
def Ready (c : Loop) (k : ℕ) : Prop := c.active ∧ c.pc = .idle ∧ (c.con k).live

instance (c : Loop) (k : ℕ) : Decidable (c.Ready k) := inferInstanceAs (Decidable (_ ∧ _))

/-- The place of the record that `agoo_res_create` returns. -/
def place (c : Loop) : ℕ := c.free.headD c.cnt

/-- `agoo_res_create`. -/
def create (c : Loop) (r : Rec) : Loop :=
  { c.setMem c.place r with
    cnt := if c.free = [] then c.cnt + 1 else c.cnt
    free := c.free.tail }

/-- `agoo_res_destroy`. -/
def destroy (c : Loop) (a : ℕ) : Loop :=
  { c.setMem a (c.mem a).destroy with
    free := c.free ++ [a]
    owner := Function.update c.owner a none }

/-- A new record at the end of a connection's queue. -/
def addRes (c : Loop) (k : ℕ) (r : Rec) : Loop :=
  (c.create r).setCon k { c.con k with queue := resAppend (c.con k).queue c.place }

/-- A connection that closes when what it has is sent. -/
def setClosing (c : Loop) (k : ℕ) (close : Bool) : Loop :=
  c.setCon k { c.con k with closing := (c.con k).closing || close }

/-- A request with its record. -/
def request (c : Loop) (k : ℕ) (m : Bytes) (hlen : ℕ) : Loop :=
  { (c.setClosing k (shouldClose m hlen)).addRes k (.create (requestRes k m hlen)) with
    owner := Function.update c.owner c.place (some c.reqCnt)
    req := Function.update c.req c.reqCnt ⟨k, c.place, true⟩
    reqCnt := c.reqCnt + 1 }

/-- A record with its message. -/
def respond (c : Loop) (k : ℕ) (r : Res) (t : Bytes) : Loop :=
  c.addRes k ((Rec.create r).messagePush none (some t))

/-- A handler changes the record of its request, wherever that is now. -/
def handle (c : Loop) (q : ℕ) (f : Rec → Rec) : Option Loop :=
  if (c.req q).unanswered then some (c.setMem (c.req q).res (f (c.mem (c.req q).res))) else none

def answered (c : Loop) (q : ℕ) : Loop :=
  { c with req := Function.update c.req q { c.req q with unanswered := false } }

/-- The head message is framed before the first of it is sent. -/
def frame (c : Loop) (k a : ℕ) : Loop :=
  if (c.con k).bind.Upgraded ∧ (c.con k).wcnt = 0 then
    c.setMem a ((c.mem a).expand
      (if (c.con k).bind = .ws then wsExpand false else sseExpand))
  else c

/-- What `send` was given goes to connection `k`. -/
def logWrite (c : Loop) (k a : ℕ) : Loop :=
  match (c.mem a).pushers with
  | some q :: _ => { c with written := (q, k) :: c.written }
  | _ => c

/-- The rest of the head message is sent; `queue` is what is behind it. -/
def send (c : Loop) (k a : ℕ) (queue : List ℕ) : SendResult → Option Loop
  | .again =>
    some (c.setCon k ({ c.con k with queue := queue }.afterWrite (c.mem a).res.conKind))
  | .error => some (c.setCon k { c.con k with queue := queue, dead := true })
  | .sent n =>
    if ((c.mem a).res.message.headD []).length < (c.con k).wcnt + n then none
    else if (c.con k).wcnt + n = ((c.mem a).res.message.headD []).length then
      some { (c.logWrite k a).setCon k
               { c.con k with queue := queue, wcnt := (c.con k).wcnt + n } with
             pc := .finished k a }
    else
      some ((c.logWrite k a).setCon k
        ({ c.con k with queue := resPrepend queue a
                        wcnt := (c.con k).wcnt + n }.afterWrite (c.mem a).res.conKind))

/-- `con_ws_write` on a head record without a message. -/
def writeEmpty (c : Loop) (k a : ℕ) (queue : List ℕ) (r : SendResult) : Loop :=
  if ((c.mem a).res.ping ∨ (c.mem a).res.pong) ∧ r ≠ .error then
    c.setCon k ({ c.con k with queue := queue }.afterWrite (c.mem a).res.conKind)
  else (c.setCon k { c.con k with queue := queue, dead := true }).destroy a

/-- A write of connection `k`, when `POLLOUT` was asked for. -/
def write (c : Loop) (k : ℕ) (r : SendResult) : Option Loop :=
  match resPop (c.con k).queue with
  | none => none
  | some (a, queue) =>
    if (c.mem a).res.messagePeek.isSome then (c.frame k a).send k a queue r
    else if (c.con k).bind = .ws ∧ ((c.mem a).res.close ∨ (c.mem a).res.ping) then
      some (c.writeEmpty k a queue r)
    else none

/-- The test at the end of a write; an SSE bind does not test `final`. -/
def finish (c : Loop) (k a : ℕ) (last : Bool) : Loop :=
  if last ∧ ((c.con k).bind = .sse ∨ (c.mem a).res.final) then
    ({ c with pc := .idle }.setCon k ({ c.con k with
      dead := (c.con k).dead || (c.mem a).res.close }.afterWrite (c.mem a).res.conKind)).destroy a
  else
    { c with pc := .idle }.setCon k ({ c.con k with
      queue := resPrepend (c.con k).queue a }.afterWrite (c.mem a).res.conKind)

/-- One round of `remove_dead_res`. -/
def removeDead (c : Loop) (k : ℕ) : Option Loop :=
  match (c.con k).queue with
  | [] => none
  | a :: queue =>
    if (c.mem a).res.Removed then some ((c.setCon k { c.con k with queue := queue }).destroy a)
    else none

/-- `agoo_con_destroy`, which frees the records in the queue. -/
def conDestroy (c : Loop) (k : ℕ) : Loop :=
  { c.setCon k { c.con k with live := false, queue := [] } with
    owner := fun a => if a ∈ (c.con k).queue then none else c.owner a }

/-- A connection is checked when it is dead, or closing and timed out. -/
def Checked (c : Loop) (k : ℕ) : Prop := c.Ready k ∧ ((c.con k).dead ∨ (c.con k).closing)

instance (c : Loop) (k : ℕ) : Decidable (c.Checked k) := inferInstanceAs (Decidable (_ ∧ _))

/-- Requests are read and answered by the loop under an HTTP bind. -/
def Reads (c : Loop) (k : ℕ) : Prop :=
  c.Ready k ∧ (c.con k).dead = false ∧ ¬ (c.con k).bind.Upgraded

instance (c : Loop) (k : ℕ) : Decidable (c.Reads k) := inferInstanceAs (Decidable (_ ∧ _ ∧ _))

def step (c : Loop) : LoopAct → Option Loop
  | .accept bind =>
    if c.active ∧ c.pc = .idle ∧ ¬ bind.Upgraded then
      some { c.setCon c.conCnt ⟨true, bind, [], 0, false, false⟩ with conCnt := c.conCnt + 1 }
    else none
  | .request k m hlen => if c.Reads k then some (c.request k m hlen) else none
  | .page k close t =>
    if c.Reads k then
      some ((c.setClosing k close).respond k { Res.create k with close := close } t)
    else none
  | .badRequest k t =>
    if c.Reads k then some (c.respond k { Res.create k with close := true } t) else none
  | .early q links => c.handle q (·.addEarly (some q) links)
  | .setClose q => c.handle q (·.setClose)
  | .push q t => ((c.handle q (·.messagePush (some q) t)).map (·.answered q))
  | .leave q => if (c.req q).unanswered then some (c.answered q) else none
  | .publish k t =>
    if (c.con k).live then some (c.respond k { Res.create k with conKind := .any } t) else none
  | .pushClose k =>
    if c.Ready k then
      some (c.addRes k (.create { Res.create k with conKind := (c.con k).bind, close := true }))
    else none
  | .ping k =>
    if c.Ready k ∧ (c.con k).bind = .ws then
      some (c.addRes k (.create { Res.create k with conKind := .ws, ping := true }))
    else none
  | .pong k =>
    if c.Ready k ∧ (c.con k).bind = .ws then
      some (c.addRes k (.create { Res.create k with conKind := .ws, pong := true }))
    else none
  | .write k r => if c.Ready k ∧ (c.con k).dead = false then c.write k r else none
  | .next =>
    match c.pc with
    | .finished k a =>
      some { (c.setMem a (c.mem a).messageNext).setCon k { c.con k with wcnt := 0 } with
             pc := .testing k a (c.mem a).messageNext.res.messagePeek.isNone }
    | _ => none
  | .test =>
    match c.pc with
    | .testing k a last => some (c.finish k a last)
    | _ => none
  | .die k => if c.Ready k then some (c.setCon k { c.con k with dead := true }) else none
  | .expire k => if c.Ready k then some (c.setCon k { c.con k with closing := true }) else none
  | .drop k => if c.Checked k then c.removeDead k else none
  | .close k =>
    if c.Checked k ∧ (c.con k).queue = [] then some (c.conDestroy k) else none
  | .stop => if c.active ∧ c.pc = .idle then some { c with active := false } else none
  | .shut k =>
    if c.active = false ∧ (c.con k).live then some (c.conDestroy k) else none

/-! ## The law and its condition -/

/-- The record of an unanswered request was neither destroyed nor freed nor made for anything else
since, and a handler's messages went to the connection of its request. -/
structure Kept (c : Loop) : Prop where
  records : ∀ q, (c.req q).unanswered →
    c.owner (c.req q).res = some q ∧ (c.req q).res ∉ c.free
  written : ∀ q k, (q, k) ∈ c.written → (c.req q).con = k

/-- The record is that of an unanswered request. -/
def waits (c : Loop) (a : ℕ) : Bool := (c.owner a).any fun q => (c.req q).unanswered

/-- The head record, when a dead or timed out connection is checked: an unanswered request's record
has no early message and no close flag. -/
def Unflagged (c : Loop) (k : ℕ) : Prop :=
  match (c.con k).queue with
  | [] => True
  | a :: _ => c.waits a → (c.mem a).res.message = [] ∧ (c.mem a).res.close = false

/-- The head record, when a WebSocket bind writes: an unanswered request's record has a message or no
close flag. -/
def NoClose (c : Loop) (k : ℕ) : Prop :=
  match (c.con k).queue with
  | [] => True
  | a :: _ =>
    c.waits a → (c.con k).bind = .ws → (c.mem a).res.message = [] → (c.mem a).res.close = false

/-- At the end of a write under an SSE bind: an unanswered request's record has another message. -/
def NotLast (c : Loop) : Prop :=
  match c.pc with
  | .testing k a last => c.waits a → (c.con k).bind = .sse → last = false
  | _ => True

/-- When the loop ends, no unanswered request is in a queue. -/
def AllAnswered (c : Loop) (k : ℕ) : Prop := ∀ a ∈ (c.con k).queue, c.waits a = false

def Safe (c : Loop) : LoopAct → Prop
  | .drop k => c.Unflagged k
  | .write k _ => c.NoClose k
  | .test => c.NotLast
  | .shut k => c.AllAnswered k
  | _ => True

end Loop

end Agoo
