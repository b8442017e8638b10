import Agoo.Runs
import Agoo.Subject

/-!
# Publications (`pub.c`, `upgraded.c`, `process_pub_con` of `con.c`)

Callers put publications on the queue of every con loop; the loop that has the client's connection acts
on them. Callbacks are requests on `eval_queue`. Each publication, request and caller that names an
upgraded connection has a reference on it, and so has the connection.

A pointer is a number, and NULL is none. What takes a reference and what records it are one step; all
else that a thread does between two steps of others is a step of its own. Following a null pointer
ends the run.
-/

namespace Agoo

namespace Publish

open Subject

/-! ## Publications -/

inductive PubKind
  | sub | close | un | msg | write
  deriving DecidableEq, Repr

/-- A text with its `bin`. -/
structure Message where
  text : Bytes
  bin : Bool
  deriving DecidableEq, Repr

/-- `struct _agooPub`. -/
structure Pub where
  kind : PubKind
  up : Option ℕ
  subject : Option Bytes
  msg : Option Message
  deriving DecidableEq, Repr

/-- `agoo_subject_create`, of which all that is read ends before the first null byte. -/
def subjectCreate (pattern : Bytes) : Bytes := cstr pattern

/-- `agoo_pub_dup`, apart from the reference. -/
def pubDup (src : Pub) : Pub := { src with subject := src.subject.map subjectCreate }

def pubClose (up : ℕ) : Pub := ⟨.close, some up, none, none⟩

def pubSubscribe (up : ℕ) (subject : Bytes) : Pub := ⟨.sub, some up, some (subjectCreate subject), none⟩

def pubUnsubscribe (up : Option ℕ) (subject : Option Bytes) : Pub :=
  ⟨.un, up, subject.map subjectCreate, none⟩

def pubPublish (subject message : Bytes) : Pub :=
  ⟨.msg, none, some (subjectCreate subject), some ⟨message, false⟩⟩

def pubWrite (up : ℕ) (message : Bytes) (bin : Bool) : Pub := ⟨.write, some up, none, some ⟨message, bin⟩⟩

/-- What a caller can ask for: `Upgraded#close`, `write`, `subscribe` and `unsubscribe`, `Agoo.unsubscribe`
and `Agoo.publish`. -/
inductive Request
  | close (up : ℕ)
  | write (up : ℕ) (message : Bytes) (bin : Bool)
  | subscribe (up : ℕ) (subject : Bytes)
  | unsubscribe (up : ℕ) (subject : Option Bytes)
  | unsubscribeAll (subject : Bytes)
  | publish (subject message : Bytes)

def Request.pub : Request → Pub
  | close up => pubClose up
  | write up message bin => pubWrite up message bin
  | subscribe up subject => pubSubscribe up subject
  | unsubscribe up subject => pubUnsubscribe (some up) subject
  | unsubscribeAll subject => pubUnsubscribe none (some subject)
  | publish subject message => pubPublish subject message

/-! ## Upgraded connections -/

inductive PushMethod
  | onMsg | onBin | onClose | onError | onEmpty
  deriving DecidableEq, Repr

/-- `struct _agooUpgraded`. `wrapped` is whether the data pointer of its wrapper is set, `nilCtx` whether
`ctx` is nil, and `freed` how often `destroy` ran. -/
structure Upgraded where
  con : Option ℕ
  pending : ℤ
  refCnt : ℤ
  subjects : List Bytes
  nilCtx : Bool
  onEmpty : Bool
  onClose : Bool
  onMsg : Bool
  onError : Bool
  wrapped : Bool
  freed : ℕ

namespace Upgraded

/-- `agoo_upgraded_add_subject`. -/
def addSubject (up : Upgraded) (subject : Bytes) : Upgraded :=
  if subject ∈ up.subjects then up else { up with subjects := subject :: up.subjects }

/-- `agoo_upgraded_del_subject`. -/
def delSubject (up : Upgraded) : Option Bytes → Upgraded
  | none => { up with subjects := [] }
  | some subject => { up with subjects := up.subjects.erase subject }

/-- The handler has the callback for a request. -/
def hasCallback (up : Upgraded) : PushMethod → Bool
  | .onMsg => up.onMsg
  | .onBin => up.onMsg
  | .onClose => up.onClose
  | .onError => up.onError
  | .onEmpty => up.onEmpty

/-- `agoo_upgraded_match`. -/
def isMatch (up : Upgraded) (subject : Bytes) : Bool := up.subjects.any fun s => agooSubjectCheck s subject

def ref (up : Upgraded) : Upgraded := { up with refCnt := up.refCnt + 1 }

/-- A reference is given up, without a test for the last. -/
def unref (up : Upgraded) : Upgraded := { up with refCnt := up.refCnt - 1 }

/-- `destroy`, apart from the list of the server. -/
def destroy (up : Upgraded) : Upgraded := { up with wrapped := false, freed := up.freed + 1 }

/-- The reference that is given up is the last. -/
def isLast (up : Upgraded) : Bool := up.refCnt ≤ 1

end Upgraded

/-! ## The server -/

/-- A request on `eval_queue` for a callback, and whether it has a hook. -/
structure PushReq where
  up : ℕ
  method : PushMethod
  hook : Bool
  deriving DecidableEq, Repr

/-- A response that is appended to a connection. -/
inductive Sent
  | close
  | message (m : Option Message)
  deriving DecidableEq, Repr

/-- What a thread has at hand. -/
inductive Task
  /-- A reference of a caller, from `get_upgraded`. -/
  | caller (up : ℕ)
  /-- In `agoo_server_publish`, before the loop with that number. -/
  | publish (pub : Pub) (loop : ℕ)
  /-- At the end of `process_pub_con`. -/
  | processed (pub : Pub)
  /-- In `handle_push_inner`. -/
  | handle (req : PushReq)
  deriving DecidableEq, Repr

/-- The state of all threads. `loop` tells the loop of a connection, `conUp` its `up`; `sent` are the
responses for each upgraded connection. `taken` are the publications that the loop of its connection
took from the queue since the upgrade. -/
structure Server where
  up : ℕ → Upgraded
  upCnt : ℕ
  upList : List ℕ
  loop : ℕ → ℕ
  conUp : ℕ → Option ℕ
  closed : ℕ → Bool
  /-- The `pub_queue` of each. -/
  conLoops : List (List Pub)
  evalQueue : List PushReq
  maxPushPending : ℤ
  tasks : List Task
  sent : ℕ → List Sent
  taken : ℕ → List Pub

namespace Server

variable (s : Server)

def setUp (u : ℕ) (up : Upgraded) : Server := { s with up := Function.update s.up u up }

/-- `agoo_res_create` and `agoo_con_res_append`. -/
def append (u : ℕ) (r : Sent) : Server := { s with sent := Function.update s.sent u (s.sent u ++ [r]) }

/-- `NULL != up->con && up->con->loop == loop`. -/
def onLoop (u loop : ℕ) : Bool := (s.up u).con.any fun c => s.loop c = loop

/-- `up->con->loop == loop`. -/
def conOnLoop (u loop : ℕ) : Option Bool := (s.up u).con.map fun c => s.loop c = loop

/-- A request for a callback is queued, with a reference. -/
def pushReq (u : ℕ) (method : PushMethod) (hook : Bool) : Server :=
  { s.setUp u (s.up u).ref with evalQueue := s.evalQueue ++ [⟨u, method, hook⟩] }

/-- `agoo_upgraded_release`. -/
def release (u : ℕ) : Server :=
  if (s.up u).isLast then
    { s.setUp u (s.up u).unref.destroy with upList := s.upList.erase u }
  else s.setUp u (s.up u).unref

/-- `agoo_upgraded_release_con`. -/
def releaseCon (u : ℕ) : Server := (s.setUp u { s.up u with con := none }).release u

/-! ## Processing a publication -/

/-- The count of pending publications goes down, and a callback follows the last. -/
def donePending (u : ℕ) : Server :=
  let s' := s.setUp u { s.up u with pending := (s.up u).pending - 1 }
  if (s.up u).pending = 1 ∧ (s.up u).nilCtx = false ∧ (s.up u).onEmpty = true then
    s'.pushReq u .onEmpty true
  else s'

/-- One round of `publish_pub`. -/
def publishOne (subject : Bytes) (msg : Option Message) (loop : ℕ) (s : Server) (u : ℕ) : Server :=
  if s.onLoop u loop && (s.up u).isMatch subject then s.append u (.message msg) else s

/-- `publish_pub`. -/
def publishPub (subject : Bytes) (msg : Option Message) (loop : ℕ) : Server :=
  s.upList.foldl (publishOne subject msg loop) s

/-- `unsubscribe_pub`. -/
def unsubscribePub (pub : Pub) : Server :=
  match pub.up with
  | none => s.upList.foldl (fun s u => s.setUp u ((s.up u).delSubject pub.subject)) s
  | some u => s.setUp u ((s.up u).delSubject pub.subject)

/-- The switch of `process_pub_con`. -/
def processKind (pub : Pub) (loop : ℕ) : Option Server :=
  match pub.kind with
  | .close => do
    let u ← pub.up
    pure (if s.onLoop u loop then s.append u .close else s)
  | .write => do
    let u ← pub.up
    pure (if s.onLoop u loop then s.append u (.message pub.msg) else s)
  | .sub =>
    match pub.up with
    | none => some s
    | some u => do
      let here ← s.conOnLoop u loop
      if here then
        let subject ← pub.subject
        pure (s.setUp u ((s.up u).addSubject subject))
      else pure s
  | .un =>
    match pub.up with
    | none => some s
    | some u => do
      let here ← s.conOnLoop u loop
      pure (if here then s.unsubscribePub pub else s)
  | .msg => do
    let subject ← pub.subject
    pure (s.publishPub subject pub.msg loop)

/-- `process_pub_con` before the switch. -/
def beforeSwitch (pub : Pub) (loop : ℕ) : Server :=
  match pub.up with
  | none => s
  | some u => if s.onLoop u loop then s.donePending u else s

/-- `process_pub_con` before it destroys the publication; none when a null pointer is followed. -/
def processPubCon (pub : Pub) (loop : ℕ) : Option Server := (s.beforeSwitch pub loop).processKind pub loop

end Server

/-! ## The system -/

/-- What the handler of a connection answers to. -/
structure Handler where
  nilCtx : Bool
  onEmpty : Bool
  onClose : Bool
  onMsg : Bool
  onError : Bool

/-- `agoo_upgraded_create`. -/
def upgradedCreate (c : ℕ) (h : Handler) : Upgraded where
  con := some c
  pending := 0
  refCnt := 1
  subjects := []
  nilCtx := h.nilCtx
  onEmpty := h.onEmpty
  onClose := h.onClose
  onMsg := h.onMsg
  onError := h.onError
  wrapped := true
  freed := 0

inductive Action
  /-- `rupgraded_create`. -/
  | upgrade (c : ℕ) (h : Handler)
  /-- `con_ws_read` has a whole message. -/
  | message (c : ℕ) (bin : Bool)
  /-- `push_error`. -/
  | error (c : ℕ)
  /-- `agoo_ws_req_close`. -/
  | closeNotice (c : ℕ)
  /-- The end of `agoo_con_destroy`. -/
  | destroyCon (c : ℕ)
  /-- `get_upgraded`. -/
  | get (u : ℕ)
  | write (u : ℕ) (message : Bytes) (bin incRef : Bool)
  | subscribe (u : ℕ) (subject : Bytes) (incRef : Bool)
  | unsubscribe (u : ℕ) (subject : Option Bytes) (incRef : Bool)
  | close (u : ℕ) (incRef : Bool)
  /-- `rup_pending`, `rup_open`. -/
  | query (u : ℕ)
  /-- `ragoo_publish`, `ragoo_unsubscribe`. -/
  | publish (subject message : Bytes)
  | unsubscribeAll (subject : Bytes)
  /-- The next push of `agoo_server_publish`. -/
  | push (pub : Pub) (loop : ℕ)
  | process (loop : ℕ)
  /-- `agoo_pub_destroy`. -/
  | destroyPub (pub : Pub)
  /-- `handle_protected` takes a request. -/
  | handle
  /-- `handle_push_inner` ends, or its callback raised. -/
  | handled (req : PushReq) (raised : Bool)

namespace Server

variable (s : Server)

/-- A task is over, and others begin. -/
def setTask (t : Task) (ts : List Task) : Server := { s with tasks := ts ++ s.tasks.erase t }

/-- A caller passes on its reference, or a new one. -/
def callerGives (u : ℕ) (incRef : Bool) (ts : List Task) : Server :=
  if incRef then { s.setUp u (s.up u).ref with tasks := ts ++ s.tasks }
  else s.setTask (.caller u) ts

/-- `agoo_upgraded_subscribe`, `agoo_upgraded_unsubscribe` and `agoo_upgraded_close`, and the end of
`agoo_upgraded_write`. -/
def ask (u : ℕ) (incRef : Bool) (pub : Pub) : Server :=
  let s := s.callerGives u incRef [.publish pub 0]
  s.setUp u { s.up u with pending := (s.up u).pending + 1 }

/-- The test of `agoo_upgraded_write`. -/
def refuses (u : ℕ) : Bool := 0 < s.maxPushPending && s.maxPushPending ≤ (s.up u).pending

/-- `agoo_upgraded_write`. -/
def upgradedWrite (u : ℕ) (message : Bytes) (bin incRef : Bool) : Server :=
  if s.refuses u then
    let s := s.setUp u (s.up u).unref
    if incRef then s else s.setTask (.caller u) []
  else s.ask u incRef (pubWrite u message bin)

/-- A publication is put on the queue of a loop. -/
def queuePush (pub : Pub) (loop : ℕ) : Server :=
  { s with conLoops := s.conLoops.modify loop (· ++ [pub]) }

/-- The reference of a copy. -/
def refPub (pub : Pub) : Server :=
  match pub.up with
  | none => s
  | some u => s.setUp u (s.up u).ref

/-- One round of `agoo_server_publish`: the last loop gets the publication, the others get copies. -/
def publishTo (pub : Pub) (loop : ℕ) : Server :=
  if loop + 1 = s.conLoops.length then
    (s.queuePush pub loop).setTask (.publish pub loop) []
  else
    ((s.refPub pub).queuePush (pubDup pub) loop).setTask (.publish pub loop) [.publish pub (loop + 1)]

/-- The end of `agoo_pub_destroy`. -/
def releasePub (pub : Pub) : Server :=
  match pub.up with
  | none => s
  | some u => s.release u

/-- The beginning of `handle_push_inner`. -/
def beginHandle (req : PushReq) : Server :=
  if req.method = .onClose then
    { s.setUp req.up (s.up req.up).ref with tasks := .publish (pubClose req.up) 0 :: .handle req :: s.tasks }
  else { s with tasks := .handle req :: s.tasks }

/-- `rupgraded_create`, with `agoo_server_add_upgraded`. -/
def rupgradedCreate (c : ℕ) (h : Handler) : Server :=
  { s.setUp s.upCnt (upgradedCreate c h) with
    upCnt := s.upCnt + 1
    upList := s.upCnt :: s.upList
    conUp := Function.update s.conUp c (some s.upCnt)
    sent := Function.update s.sent s.upCnt []
    taken := Function.update s.taken s.upCnt [] }

/-- The end of `agoo_con_destroy`. -/
def conDestroy (c : ℕ) : Server :=
  let s' := { s with closed := Function.update s.closed c true, conUp := Function.update s.conUp c none }
  match s.conUp c with
  | none => s'
  | some u => s'.releaseCon u

/-- A loop takes a publication from its queue. -/
def take (pub : Pub) (rest : List Pub) (loop : ℕ) : Server :=
  { s with
    conLoops := s.conLoops.set loop rest
    tasks := .processed pub :: s.tasks
    taken := fun u => if s.onLoop u loop then s.taken u ++ [pub] else s.taken u }

/-- `process_pub_con` on the next publication of a loop. -/
def processNext (loop : ℕ) : Option Server :=
  match s.conLoops[loop]? with
  | some (pub :: rest) => (s.take pub rest loop).processPubCon pub loop
  | _ => none

/-- `handle_protected` on the next request: without a hook it is dropped. -/
def handleNext : Option Server :=
  match s.evalQueue with
  | req :: rest =>
    let s' := { s with evalQueue := rest }
    some (if req.hook then s'.beginHandle req else s')
  | [] => none

theorem processNext_eq_some {loop : ℕ} {s' : Server} (h : s.processNext loop = some s') :
    ∃ pub rest, s.conLoops[loop]? = some (pub :: rest) ∧
      (s.take pub rest loop).processPubCon pub loop = some s' := by
  unfold processNext at h
  split at h
  · exact ⟨_, _, ‹_›, h⟩
  · cases h

theorem handleNext_eq_some {s' : Server} (h : s.handleNext = some s') :
    ∃ req rest, s.evalQueue = req :: rest ∧
      s' = if req.hook then { s with evalQueue := rest }.beginHandle req else { s with evalQueue := rest } := by
  unfold handleNext at h
  split at h
  · exact ⟨_, _, ‹_›, (Option.some.inj h).symm⟩
  · cases h

def step : Action → Option Server
  | .upgrade c h => if s.closed c then none else some (s.rupgradedCreate c h)
  | .message c bin =>
    (s.conUp c).bind fun u =>
      if (s.up u).nilCtx then none
      else some (s.pushReq u (if bin then .onBin else .onMsg) (s.up u).onMsg)
  | .error c =>
    (s.conUp c).bind fun u =>
      if (s.up u).nilCtx = false ∧ (s.up u).onError = true then some (s.pushReq u .onError true) else none
  | .closeNotice c =>
    (s.conUp c).bind fun u =>
      if (s.up u).nilCtx = false ∧ (s.up u).onClose = true then some (s.pushReq u .onClose true) else none
  | .destroyCon c => if s.closed c then none else some (s.conDestroy c)
  | .get u =>
    if u < s.upCnt ∧ (s.up u).wrapped = true then
      some { s.setUp u (s.up u).ref with tasks := .caller u :: s.tasks }
    else none
  | .write u message bin incRef =>
    if .caller u ∈ s.tasks then some (s.upgradedWrite u message bin incRef) else none
  | .subscribe u subject incRef =>
    if .caller u ∈ s.tasks then some (s.ask u incRef (pubSubscribe u subject)) else none
  | .unsubscribe u subject incRef =>
    if .caller u ∈ s.tasks then some (s.ask u incRef (pubUnsubscribe (some u) subject)) else none
  | .close u incRef =>
    if .caller u ∈ s.tasks then some (s.ask u incRef (pubClose u)) else none
  | .query u =>
    if .caller u ∈ s.tasks then some ((s.setUp u (s.up u).unref).setTask (.caller u) []) else none
  | .publish subject message => some { s with tasks := .publish (pubPublish subject message) 0 :: s.tasks }
  | .unsubscribeAll subject =>
    some { s with tasks := .publish (pubUnsubscribe none (some subject)) 0 :: s.tasks }
  | .push pub loop => if .publish pub loop ∈ s.tasks then some (s.publishTo pub loop) else none
  | .process loop => s.processNext loop
  | .destroyPub pub =>
    if .processed pub ∈ s.tasks then some ((s.setTask (.processed pub) []).releasePub pub) else none
  | .handle => s.handleNext
  | .handled req raised =>
    if .handle req ∈ s.tasks ∧ (raised = true → (s.up req.up).hasCallback req.method = true) then
      let s := s.setTask (.handle req) []
      some (if raised then s else s.release req.up)
    else none

end Server

/-- A server with one con loop and `extra` others. -/
def start (extra : ℕ) (loop : ℕ → ℕ) (maxPushPending : ℤ) : Server where
  up _ := { upgradedCreate 0 ⟨true, false, false, false, false⟩ with con := none, refCnt := 0, wrapped := false }
  upCnt := 0
  upList := []
  loop := loop
  conUp _ := none
  closed _ := false
  conLoops := List.replicate (extra + 1) []
  evalQueue := []
  maxPushPending := maxPushPending
  tasks := []
  sent _ := []
  taken _ := []

namespace Server

variable (s : Server)

/-! ## Null pointers -/

@[simp] theorem setUp_self (u : ℕ) (up : Upgraded) : (s.setUp u up).up u = up := Function.update_self ..

theorem setUp_other {u v : ℕ} (h : v ≠ u) (up : Upgraded) : (s.setUp u up).up v = s.up v :=
  Function.update_of_ne h ..

@[simp] theorem setUp_loop (u : ℕ) (up : Upgraded) : (s.setUp u up).loop = s.loop := rfl

@[simp] theorem pushReq_self (u : ℕ) (method : PushMethod) (hook : Bool) :
    (s.pushReq u method hook).up u = (s.up u).ref := Function.update_self ..

theorem donePending_con (u : ℕ) : ((s.donePending u).up u).con = (s.up u).con := by
  unfold donePending
  dsimp only
  split_ifs
  · rw [pushReq_self, setUp_self]
    rfl
  · rw [setUp_self]

theorem beforeSwitch_con (pub : Pub) (loop : ℕ) {u : ℕ} (hu : pub.up = some u) :
    ((s.beforeSwitch pub loop).up u).con = (s.up u).con := by
  rw [beforeSwitch, hu]
  dsimp only
  split_ifs
  · exact s.donePending_con u
  · rfl

/-- The test of the branches for the sets of a client. -/
theorem conOnLoop_isSome (u loop : ℕ) : (s.conOnLoop u loop).isSome = true ↔ (s.up u).con ≠ none := by
  rw [conOnLoop, Option.isSome_map, Option.isSome_iff_ne_none]

theorem processKind_sub_isSome (u loop : ℕ) (subject : Bytes) :
    (s.processKind (pubSubscribe u subject) loop).isSome = true ↔ (s.up u).con ≠ none := by
  rw [← conOnLoop_isSome s u loop]
  cases h : s.conOnLoop u loop with
  | none => simp [processKind, pubSubscribe, h]
  | some here => cases here <;> simp [processKind, pubSubscribe, h]

theorem processKind_un_isSome (u loop : ℕ) (subject : Option Bytes) :
    (s.processKind (pubUnsubscribe (some u) subject) loop).isSome = true ↔ (s.up u).con ≠ none := by
  rw [← conOnLoop_isSome s u loop]
  cases h : s.conOnLoop u loop <;> simp [processKind, pubUnsubscribe, h]

/-- **A request is processed without following a null pointer if and only if it does not subscribe or
unsubscribe a client whose connection is gone.** -/
theorem processPubCon_isSome (r : Request) (loop : ℕ) :
    (s.processPubCon r.pub loop).isSome = true ↔
      ¬ ((r.pub.kind = .sub ∨ r.pub.kind = .un) ∧ ∃ u, r.pub.up = some u ∧ (s.up u).con = none) := by
  rw [processPubCon]
  cases r with
  | close up => simp [processKind, Request.pub, pubClose]
  | write up message bin => simp [processKind, Request.pub, pubWrite]
  | subscribe up subject =>
    rw [Request.pub, processKind_sub_isSome, beforeSwitch_con s _ _ rfl]
    simp [pubSubscribe]
  | unsubscribe up subject =>
    rw [Request.pub, processKind_un_isSome, beforeSwitch_con s _ _ rfl]
    simp [pubUnsubscribe]
  | unsubscribeAll subject => simp [processKind, Request.pub, pubUnsubscribe]
  | publish subject message => simp [processKind, Request.pub, pubPublish]

/-- A client subscribes, and its connection is destroyed before the request is taken from the queue. -/
theorem subscribe_closed : ¬ ∀ (as : List Action) (s : Server) (r : Request) (loop : ℕ),
    runs step (start 0 (fun _ => 0) 32) as = some s → (s.processPubCon r.pub loop).isSome = true := by
  intro h
  have hsome := h [.upgrade 0 ⟨false, false, true, true, false⟩, .get 0, .subscribe 0 (bytes "a") false,
    .destroyCon 0, .push (pubSubscribe 0 (bytes "a")) 0] _ (.subscribe 0 (bytes "a")) 0 rfl
  exact absurd hsome (by decide)

end Server

end Publish

end Agoo
