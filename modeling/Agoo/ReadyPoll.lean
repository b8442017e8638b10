import Agoo.Ready

/-!
# Waiting with `poll` (`ready.c`)

Before each wait the links that ask for something are given places in the array that `poll` takes, and `pp` of a
link points at its place. The array grows when a link is added, also by a callback while the answers of `poll` are
still being read: it is then another array, and what points at the old one points nowhere. A place is known here by
the array it is in and its index.
-/

namespace Agoo

namespace Ready

open LinkedList

/-- `struct pollfd`. -/
structure PollFd where
  fd : ℕ
  events : Events
  revents : Events

/-- What `pp` of a link is: it is not set when the link is made. -/
inductive Place
  | unset | null
  | at (gen i : ℕ)

/-- `pa` and `pend`: the array, and how often it was moved. `pp` is the variable of the first loop. -/
structure PollArray where
  gen : ℕ
  pa : List PollFd
  pp : ℕ

/-- What is outside, with `poll`: the number of places that have an answer and the answers, or none. -/
structure PollWorld (σ : Type) extends World σ where
  poll : List PollFd → σ → Option (ℕ × List Events) × σ

abbrev PollState (σ : Type) := State σ Place PollArray

abbrev PollPool (σ : Type) := Pool σ Place PollArray

/-! ## The code -/

namespace PollArray

variable (t : PollArray)

/-- `*pp` is changed. -/
def put (f : PollFd → PollFd) : Except Fault PollArray :=
  match t.pa[t.pp]? with
  | none => .error .slot
  | some d => .ok { t with pa := t.pa.set t.pp (f d) }

/-- `pp->revents` of a link. -/
def revents (gen i : ℕ) : Except Fault Events :=
  if gen = t.gen then
    match t.pa[i]? with
    | none => .error .slot
    | some d => .ok d.revents
  else .error .slot

def zeros (cnt : ℕ) : List PollFd := List.replicate cnt ⟨0, noEvents, noEvents⟩

/-- The end of `agoo_ready_add`, with so many links. -/
def grow (lcnt : ℕ) : PollArray :=
  if t.pa.length ≤ lcnt then { t with gen := t.gen + 1, pa := zeros (t.pa.length * 2) } else t

/-- What `poll` writes. -/
def answered (revents : List Events) : PollArray :=
  { t with pa := t.pa.mapIdx fun i d =>
      if i < t.pp then { d with revents := revents.getD i noEvents } else d }

end PollArray

/-- The switch on what `io` gives. -/
def ReadyIo.events : ReadyIo → Option Events
  | .none => Option.none
  | .input => some ⟨true, false, false⟩
  | .output => some ⟨false, true, false⟩
  | .both => some ⟨true, true, false⟩

/-- `ready_remove` leaves the array as it is. -/
def keepArray (_ : ℕ) (t : PollArray) : PollArray := t

variable {σ : Type}

/-- `agoo_ready_create`. -/
def agooReadyCreate (w : PollWorld σ) (x : σ) : PollState σ where
  heap _ := none
  links := none
  lcnt := 0
  rest := ⟨(w.dtime x).1 + 1 / 2, ⟨0, PollArray.zeros 1024, 0⟩, 0, (w.dtime x).2, [], []⟩

namespace PollState

variable (w : PollWorld σ)

def setArray (s : PollState σ) (t : PollArray) : PollState σ := { s with rest := { s.rest with own := t } }

/-- `agoo_ready_add`. -/
def agooReadyAdd (s : PollState σ) (n : New) : Except Fault (PollState σ) := do
  let s ← s.push n .unset
  pure (setArray s (s.rest.own.grow s.lcnt))

/-- The body of the first loop. -/
def arm (a : ℕ) (s : PollState σ) : Except Fault (PollState σ) := do
  let c ← access (s.heap a)
  let t ← s.rest.own.put fun d => { d with fd := c.val.fd, revents := noEvents }
  let r := w.io c.val.ctx s.rest.world
  match r.1.events with
  | none => (setArray (s.inWorld r.2) t).setOwn a .null
  | some ev => do
    let t' ← t.put fun d => { d with events := ev }
    (setArray (s.inWorld r.2) { t' with pp := t.pp + 1 }).setOwn a (.at t.gen t.pp)

def addAll (s : PollState σ) (news : List New) : Except Fault (PollState σ) := news.foldlM agooReadyAdd s

/-- A link can be read; tells whether the loop goes on to the next one. -/
def serveRead (a gen i : ℕ) (s : PollState σ) : Except Fault (Bool × PollState σ) := do
  let c ← access (s.heap a)
  let ev ← s.rest.own.revents gen i
  if ev.pollin && c.val.handler.read then do
    let r := w.read c.val.ctx s.rest.world
    let s ← addAll (s.inWorld r.2) r.1.2
    if r.1.1 then pure (false, s)
    else do
      let s ← s.checkRemove w.toWorld keepArray a
      pure (true, s)
  else pure (false, s)

/-- A link can be written. -/
def serveWrite (a gen i : ℕ) (s : PollState σ) : Except Fault (Bool × PollState σ) := do
  let c ← access (s.heap a)
  let ev ← s.rest.own.revents gen i
  if ev.pollout && c.val.handler.write then do
    let r := w.write c.val.ctx s.rest.world
    if r.1 then pure (false, s.inWorld r.2)
    else do
      let s ← (s.inWorld r.2).checkRemove w.toWorld keepArray a
      pure (true, s)
  else pure (false, s)

/-- A link has an error. -/
def serveError (a gen i : ℕ) (s : PollState σ) : Except Fault (PollState σ) := do
  let c ← access (s.heap a)
  let ev ← s.rest.own.revents gen i
  if ev.bad then
    let s := if c.val.handler.error then s.inWorld (w.error c.val.ctx s.rest.world) else s
    s.checkRemove w.toWorld keepArray a
  else pure s

/-- The body of the second loop. -/
def serve (a : ℕ) (s : PollState σ) : Except Fault (PollState σ) := do
  let c ← access (s.heap a)
  match c.val.own with
  | .unset => .error .slot
  | .null => pure s
  | .at gen i => do
    let r ← serveRead w a gen i s
    if r.1 then pure r.2
    else do
      let r ← serveWrite w a gen i r.2
      if r.1 then pure r.2 else serveError w a gen i r.2

/-- `if (0 < i)`. -/
def serveAll (i : ℕ) (s : PollState σ) : Except Fault (PollState σ) :=
  if 0 < i then s.forEach (serve w) else .ok s

/-- `agoo_ready_go` from the call of `poll` on. -/
def wait (s : PollState σ) : Except Fault (PollState σ) :=
  let r := w.poll (s.rest.own.pa.take s.rest.own.pp) s.rest.world
  match r.1 with
  | none => .ok (s.inWorld r.2)
  | some (i, revents) => do
    let s ← serveAll w i (setArray (s.inWorld r.2) (s.rest.own.answered revents))
    s.periodic w.toWorld keepArray

/-- `agoo_ready_go`, apart from the code that it returns. -/
def agooReadyGo (s : PollState σ) : Except Fault (PollState σ) := do
  let s ← (setArray s { s.rest.own with pp := 0 }).forEach (arm w)
  wait w s

end PollState

/-- What is done with a manager. -/
inductive Call
  | add (n : New)
  | go

def PollState.call (w : PollWorld σ) (s : PollState σ) : Call → Except Fault (PollState σ)
  | .add n => agooReadyAdd s n
  | .go => agooReadyGo w s

/-! ## With a list -/

namespace PollPool

variable (w : PollWorld σ)

def setArray (p : PollPool σ) (t : PollArray) : PollPool σ := { p with rest := { p.rest with own := t } }

def agooReadyAdd (p : PollPool σ) (n : New) : PollPool σ :=
  setArray (p.push n .unset) (p.rest.own.grow (p.links.length + 1))

def arm (e : ℕ × Link Place) (p : PollPool σ) : Except Fault (PollPool σ) := do
  let t ← p.rest.own.put fun d => { d with fd := e.2.fd, revents := noEvents }
  let r := w.io e.2.ctx p.rest.world
  match r.1.events with
  | none => pure ((setArray (p.inWorld r.2) t).setOwn e .null)
  | some ev => do
    let t' ← t.put fun d => { d with events := ev }
    pure ((setArray (p.inWorld r.2) { t' with pp := t.pp + 1 }).setOwn e (.at t.gen t.pp))

def addAll (p : PollPool σ) (news : List New) : PollPool σ := news.foldl agooReadyAdd p

def serveRead (e : ℕ × Link Place) (gen i : ℕ) (p : PollPool σ) : Except Fault (Bool × PollPool σ) := do
  let ev ← p.rest.own.revents gen i
  if ev.pollin && e.2.handler.read then
    let r := w.read e.2.ctx p.rest.world
    let p := addAll (p.inWorld r.2) r.1.2
    if r.1.1 then pure (false, p) else pure (true, p.checkRemove w.toWorld keepArray e)
  else pure (false, p)

def serveWrite (e : ℕ × Link Place) (gen i : ℕ) (p : PollPool σ) : Except Fault (Bool × PollPool σ) := do
  let ev ← p.rest.own.revents gen i
  if ev.pollout && e.2.handler.write then
    let r := w.write e.2.ctx p.rest.world
    if r.1 then pure (false, p.inWorld r.2)
    else pure (true, (p.inWorld r.2).checkRemove w.toWorld keepArray e)
  else pure (false, p)

def serveError (e : ℕ × Link Place) (gen i : ℕ) (p : PollPool σ) : Except Fault (PollPool σ) := do
  let ev ← p.rest.own.revents gen i
  if ev.bad then
    let p := if e.2.handler.error then p.inWorld (w.error e.2.ctx p.rest.world) else p
    pure (p.checkRemove w.toWorld keepArray e)
  else pure p

def serve (e : ℕ × Link Place) (p : PollPool σ) : Except Fault (PollPool σ) :=
  match e.2.own with
  | .unset => .error .slot
  | .null => .ok p
  | .at gen i => do
    let r ← serveRead w e gen i p
    if r.1 then pure r.2
    else do
      let r ← serveWrite w e gen i r.2
      if r.1 then pure r.2 else serveError w e gen i r.2

def armAll (p : PollPool σ) : Except Fault (PollPool σ) :=
  p.links.foldlM (fun p e => arm w e p) (setArray p { p.rest.own with pp := 0 })

def serveAll (i : ℕ) (p : PollPool σ) : Except Fault (PollPool σ) :=
  if 0 < i then p.links.foldlM (fun p e => serve w e p) p else .ok p

def wait (p : PollPool σ) : Except Fault (PollPool σ) :=
  let r := w.poll (p.rest.own.pa.take p.rest.own.pp) p.rest.world
  match r.1 with
  | none => .ok (p.inWorld r.2)
  | some (i, revents) => do
    let p ← serveAll w i (setArray (p.inWorld r.2) (p.rest.own.answered revents))
    pure (p.periodic w.toWorld keepArray)

def agooReadyGo (p : PollPool σ) : Except Fault (PollPool σ) := do
  let p ← armAll w p
  wait w p

def call (p : PollPool σ) : Call → Except Fault (PollPool σ)
  | .add n => .ok (agooReadyAdd p n)
  | .go => agooReadyGo w p

end PollPool

/-! ## The two agree -/

namespace Shows

variable {s : PollState σ} {p : PollPool σ} {w : PollWorld σ} {e : ℕ × Link Place} {l : List (ℕ × Link Place)}

theorem setArray (h : Shows s p) (t : PollArray) : Shows (PollState.setArray s t) (PollPool.setArray p t) :=
  ⟨h.stores, h.links, h.lcnt, by rw [PollState.setArray, PollPool.setArray, h.rest], h.below,
    h.accounts⟩

theorem agooReadyAdd (h : Shows s p) (n : New) :
    ∃ s', PollState.agooReadyAdd s n = .ok s' ∧ Shows s' (PollPool.agooReadyAdd p n) := by
  obtain ⟨s', hs', h'⟩ := h.push n .unset
  refine ⟨PollState.setArray s' (s'.rest.own.grow s'.lcnt), ?_, ?_⟩
  · rw [PollState.agooReadyAdd, hs']
    rfl
  · rw [h'.rest, h'.lcnt]
    exact h'.setArray _

theorem Ahead.setArray (h : Ahead l s p) (t : PollArray) : Ahead l (PollState.setArray s t) (PollPool.setArray p t) :=
  ⟨h.1.setArray t, h.2⟩

/-- Links that are added do not come ahead. -/
theorem Ahead.addAll (h : Ahead l s p) (news : List New) :
    ∃ s', PollState.addAll s news = .ok s' ∧ Ahead l s' (PollPool.addAll p news) := by
  induction news generalizing s p with
  | nil => exact ⟨s, rfl, h⟩
  | cons n news ih =>
    obtain ⟨s₁, hs₁, h₁⟩ := h.1.agooReadyAdd n
    obtain ⟨s', hs', h'⟩ := ih (⟨h₁, h.2.trans (List.suffix_cons _ _)⟩ : Ahead l s₁ (PollPool.agooReadyAdd p n))
    refine ⟨s', ?_, h'⟩
    rw [PollState.addAll, List.foldlM_cons, hs₁]
    exact hs'

theorem arm (h : Ahead (e :: l) s p) : Agree (Ahead l) (PollState.arm w e.1 s) (PollPool.arm w e p) := by
  obtain ⟨c, hc, hval⟩ := cell_of_ahead h
  show Agree _ (access (s.heap e.1) >>= _) _
  rw [hc]
  show Agree _ (s.rest.own.put _ >>= _) _
  rw [hval, h.1.rest]
  refine Agree.same _ fun t => ?_
  dsimp only
  cases hev : (w.io e.2.ctx p.rest.world).1.events with
  | none =>
    obtain ⟨s', hs', h'⟩ := ((h.inWorld (w.io e.2.ctx p.rest.world).2).setArray t).setOwn .null
    exact hs' ▸ .ok h'
  | some ev =>
    refine Agree.same _ fun t' => ?_
    obtain ⟨s', hs', h'⟩ := ((h.inWorld (w.io e.2.ctx p.rest.world).2).setArray { t' with pp := t.pp + 1 }).setOwn
      (.at t.gen t.pp)
    exact hs' ▸ .ok h'

/-- What the parts of a round yield: the round ends and has its link behind it, or it goes on. -/
def Turn (e : ℕ × Link Place) (l : List (ℕ × Link Place)) (r : Bool × PollState σ) (r' : Bool × PollPool σ) : Prop :=
  r.1 = r'.1 ∧ Ahead (if r'.1 then l else e :: l) r.2 r'.2

theorem serveRead (h : Ahead (e :: l) s p) (gen i : ℕ) :
    Agree (Turn e l) (PollState.serveRead w e.1 gen i s) (PollPool.serveRead w e gen i p) := by
  obtain ⟨c, hc, hval⟩ := cell_of_ahead h
  show Agree _ (access (s.heap e.1) >>= _) _
  rw [hc]
  show Agree _ (s.rest.own.revents gen i >>= _) _
  rw [hval, h.1.rest]
  refine Agree.same _ fun ev => ?_
  dsimp only
  split_ifs with hread hkeep
  · obtain ⟨s', hs', h'⟩ := (h.inWorld (w.read e.2.ctx p.rest.world).2).addAll (w.read e.2.ctx p.rest.world).1.2
    rw [hs']
    exact .ok ⟨rfl, h'⟩
  · obtain ⟨s', hs', h'⟩ := (h.inWorld (w.read e.2.ctx p.rest.world).2).addAll (w.read e.2.ctx p.rest.world).1.2
    rw [hs']
    exact (checkRemove h').bind fun _ _ h'' => .ok ⟨rfl, h''⟩
  · exact .ok ⟨rfl, h⟩

theorem serveWrite (h : Ahead (e :: l) s p) (gen i : ℕ) :
    Agree (Turn e l) (PollState.serveWrite w e.1 gen i s) (PollPool.serveWrite w e gen i p) := by
  obtain ⟨c, hc, hval⟩ := cell_of_ahead h
  show Agree _ (access (s.heap e.1) >>= _) _
  rw [hc]
  show Agree _ (s.rest.own.revents gen i >>= _) _
  rw [hval, h.1.rest]
  refine Agree.same _ fun ev => ?_
  dsimp only
  split_ifs with hwrite hkeep
  · exact .ok ⟨rfl, h.inWorld _⟩
  · exact (checkRemove (h.inWorld _)).bind fun _ _ h' => .ok ⟨rfl, h'⟩
  · exact .ok ⟨rfl, h⟩

theorem serveError (h : Ahead (e :: l) s p) (gen i : ℕ) :
    Agree (Ahead l) (PollState.serveError w e.1 gen i s) (PollPool.serveError w e gen i p) := by
  obtain ⟨c, hc, hval⟩ := cell_of_ahead h
  show Agree _ (access (s.heap e.1) >>= _) _
  rw [hc]
  show Agree _ (s.rest.own.revents gen i >>= _) _
  rw [hval, h.1.rest]
  refine Agree.same _ fun ev => ?_
  dsimp only
  split_ifs with hbad herror
  · exact checkRemove (h.inWorld _)
  · exact checkRemove h
  · exact .ok h.tail

theorem serve (h : Ahead (e :: l) s p) : Agree (Ahead l) (PollState.serve w e.1 s) (PollPool.serve w e p) := by
  obtain ⟨c, hc, hval⟩ := cell_of_ahead h
  show Agree _ (access (s.heap e.1) >>= _) _
  rw [hc]
  show Agree _ (match c.val.own with | .unset => _ | .null => _ | .at gen i => _) _
  rw [hval, PollPool.serve]
  cases e.2.own with
  | unset => exact .error _
  | null => exact .ok h.tail
  | «at» gen i =>
    refine (serveRead h gen i).bind fun r r' hr => ?_
    obtain ⟨b, s₁⟩ := r
    obtain ⟨b', p₁⟩ := r'
    obtain ⟨rfl, h₁⟩ : b = b' ∧ _ := hr
    cases b with
    | true => exact .ok h₁
    | false =>
      refine (serveWrite h₁ gen i).bind fun r r' hr => ?_
      obtain ⟨b, s₂⟩ := r
      obtain ⟨b', p₂⟩ := r'
      obtain ⟨rfl, h₂⟩ : b = b' ∧ _ := hr
      cases b with
      | true => exact .ok h₂
      | false => exact serveError h₂ gen i

theorem serveAll (h : Shows s p) (i : ℕ) : Agree Shows (PollState.serveAll w i s) (PollPool.serveAll w i p) := by
  unfold PollState.serveAll PollPool.serveAll
  split_ifs with hsome
  · exact h.forEach fun e l s p h => serve h
  · exact .ok h

theorem agooReadyGo (h : Shows s p) : Agree Shows (PollState.agooReadyGo w s) (PollPool.agooReadyGo w p) := by
  have harm : Agree Shows ((PollState.setArray s { s.rest.own with pp := 0 }).forEach (PollState.arm w))
      (PollPool.armAll w p) := by
    rw [h.rest]
    exact (h.setArray _).forEach fun e l s p h => arm h
  refine harm.bind fun s p h => ?_
  unfold PollState.wait PollPool.wait
  rw [h.rest]
  generalize w.poll (p.rest.own.pa.take p.rest.own.pp) p.rest.world = r
  obtain ⟨answer, x⟩ := r
  cases answer with
  | none => exact .ok (h.inWorld x)
  | some answer =>
    have hready := (h.inWorld x).setArray (p.rest.own.answered answer.2)
    refine (hready.serveAll answer.1).bind fun s p h => ?_
    have hlast : ∃ s', s.periodic w.toWorld keepArray = .ok s' ∧ Shows s' (p.periodic w.toWorld keepArray) :=
      h.periodic
    obtain ⟨s', hs', h'⟩ := hlast
    exact hs' ▸ .ok h'

theorem create (w : PollWorld σ) (x : σ) : Shows (agooReadyCreate w x) ⟨[], (agooReadyCreate w x).rest⟩ :=
  ⟨.nil _ fun _ => rfl, rfl, rfl, rfl, nofun, .refl _⟩

/-- **A run with pointers is a run with a list.** -/
theorem calls (h : Shows s p) (cs : List Call) :
    Agree Shows (cs.foldlM (PollState.call w) s) (cs.foldlM (PollPool.call w) p) := by
  induction cs generalizing s p with
  | nil => exact .ok h
  | cons c cs ih =>
    rw [List.foldlM_cons, List.foldlM_cons]
    have hcall : Agree Shows (PollState.call w s c) (PollPool.call w p c) := by
      cases c with
      | add n =>
        obtain ⟨s', hs', h'⟩ := h.agooReadyAdd n
        rw [PollState.call, hs']
        exact .ok h'
      | go => exact h.agooReadyGo
    exact hcall.bind fun s p h => ih h

end Shows

/-! ## What goes wrong -/

/-- Nothing else than an access to the array goes wrong. -/
def OnlySlot {α : Type} (r : Except Fault α) : Prop := ∀ f, r = .error f → f = .slot

namespace OnlySlot

variable {α γ : Type} {w : PollWorld σ}

theorem ok (a : α) : OnlySlot (.ok a) := nofun

theorem slot : OnlySlot (.error .slot : Except Fault α) := fun _ h => (Except.error.inj h).symm

theorem bind {r : Except Fault α} {f : α → Except Fault γ} (hr : OnlySlot r) (hf : ∀ a, OnlySlot (f a)) :
    OnlySlot (r >>= f) := by
  cases r with
  | ok a => exact hf a
  | error e => exact fun f h => hr f (congrArg Except.error (Except.error.inj h))

theorem ite {c : Prop} [Decidable c] {r r' : Except Fault α} (hr : OnlySlot r) (hr' : OnlySlot r') :
    OnlySlot (if c then r else r') := by
  split_ifs
  · exact hr
  · exact hr'

theorem fold {f : γ → α → Except Fault γ} (hf : ∀ c a, OnlySlot (f c a)) (l : List α) (c : γ) :
    OnlySlot (l.foldlM f c) := by
  induction l generalizing c with
  | nil => exact ok c
  | cons a l ih =>
    rw [List.foldlM_cons]
    exact (hf c a).bind ih

theorem put (t : PollArray) (f : PollFd → PollFd) : OnlySlot (t.put f) := by
  unfold PollArray.put
  cases t.pa[t.pp]? with
  | none => exact slot
  | some d => exact ok _

theorem revents (t : PollArray) (gen i : ℕ) : OnlySlot (t.revents gen i) := by
  unfold PollArray.revents
  cases t.pa[i]? with
  | none => exact ite slot slot
  | some d => exact ite (ok _) slot

theorem arm (e : ℕ × Link Place) (p : PollPool σ) : OnlySlot (PollPool.arm w e p) := by
  refine (put _ _).bind fun t => ?_
  dsimp only
  cases (w.io e.2.ctx p.rest.world).1.events with
  | none => exact ok _
  | some ev => exact (put _ _).bind fun t => ok _

theorem serve (e : ℕ × Link Place) (p : PollPool σ) : OnlySlot (PollPool.serve w e p) := by
  unfold PollPool.serve
  cases e.2.own with
  | unset => exact slot
  | null => exact ok p
  | «at» gen i =>
    refine ((revents _ _ _).bind fun ev => ite (ite (ok _) (ok _)) (ok _)).bind fun r => ite (ok _) ?_
    refine ((revents _ _ _).bind fun ev => ite (ite (ok _) (ok _)) (ok _)).bind fun r => ite (ok _) ?_
    exact (revents _ _ _).bind fun ev => ite (ok _) (ok _)

theorem call (p : PollPool σ) (c : Call) : OnlySlot (PollPool.call w p c) := by
  cases c with
  | add n => exact ok _
  | go =>
    refine (fold (fun p e => arm e p) _ _).bind fun p => ?_
    unfold PollPool.wait
    generalize w.poll (p.rest.own.pa.take p.rest.own.pp) p.rest.world = r
    obtain ⟨answer, x⟩ := r
    cases answer with
    | none => exact ok _
    | some answer => exact (ite (fold (fun p e => serve e p) _ _) (ok _)).bind fun p => ok _

end OnlySlot

/-- **Whatever is added and whatever the callbacks do, no pointer to a link goes wrong and each loop ends.** At the
end no link is left and each context is destroyed once; only the array for `poll` can go wrong. -/
theorem lifetime (w : PollWorld σ) (x : σ) (cs : List Call) :
    cs.foldlM (PollState.call w) (agooReadyCreate w x) = .error .slot ∨
      ∃ s s', cs.foldlM (PollState.call w) (agooReadyCreate w x) = .ok s ∧
        s.agooReadyDestroy w.toWorld = .ok s' ∧ (∀ a, s'.heap a = none) ∧
        s'.rest.destroyed.Perm s'.rest.added := by
  have hagree := (Shows.create w x).calls (w := w) cs
  have hslot := OnlySlot.fold (fun p c => OnlySlot.call (w := w) p c) cs ⟨[], (agooReadyCreate w x).rest⟩
  cases hrun : cs.foldlM (PollState.call w) (agooReadyCreate w x) with
  | error f => exact Or.inl (congrArg _ (hslot f ((hagree.error_iff f).mp hrun)))
  | ok s =>
    obtain ⟨p, -, h⟩ := hagree.of_ok hrun
    obtain ⟨s', hs', hempty, hcount⟩ := h.destroy (w := w.toWorld)
    exact Or.inr ⟨s, s', rfl, hs', hempty, hcount⟩

end Ready

end Agoo
