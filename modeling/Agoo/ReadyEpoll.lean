import Agoo.ReadyPoll
import Mathlib.Data.List.Pairwise

/-!
# Waiting with `epoll` (`ready.c`)

The kernel has a set of file descriptors, with a pointer to a link for each, and answers with these pointers. It
has what its documentation says: a descriptor is in the set once and is told once in an answer, and it can be
taken out of the set when it is in it. Anything else may fail: a link then is in the list but not in the set.

`epoll_lifetime`: **nothing goes wrong in any run**, and at the end each context was destroyed once.
-/

namespace Agoo

namespace Ready

open LinkedList

/-- A descriptor in the set of the kernel: `data.ptr` and `events`. -/
structure Interest where
  fd : ℕ
  ptr : ℕ
  events : Events

/-- What is outside, with the kernel: whether there is memory for a change of the set, and the answer to a wait: the
descriptors that are ready with their events, or none. -/
structure EpollWorld (σ : Type) extends World σ where
  room : σ → Bool × σ
  wait : List Interest → σ → Option (List (ℕ × Events)) × σ

abbrev EpollState (σ : Type) := State σ Events (List Interest)

abbrev EpollPool (σ : Type) := Pool σ Events (List Interest)

/-! ## The kernel -/

namespace Epoll

variable {σ : Type} (w : EpollWorld σ)

/-- `EPOLL_CTL_ADD`. -/
def ctlAdd (i : Interest) (r : Rest σ (List Interest)) : Rest σ (List Interest) :=
  let q := w.room r.world
  if (r.own.all fun j => j.fd ≠ i.fd) && q.1 then { r with own := i :: r.own, world := q.2 }
  else { r with world := q.2 }

/-- `EPOLL_CTL_MOD`. -/
def ctlMod (i : Interest) (r : Rest σ (List Interest)) : Rest σ (List Interest) :=
  let q := w.room r.world
  if q.1 then { r with own := r.own.map fun j => if j.fd = i.fd then i else j, world := q.2 }
  else { r with world := q.2 }

/-- `EPOLL_CTL_DEL`. -/
def ctlDel (fd : ℕ) (own : List Interest) : List Interest := own.filter fun j => j.fd ≠ fd

/-- The answer to a wait: pointers and events, for at most a hundred descriptors of the set, each once. -/
def told (own : List Interest) (answer : List (ℕ × Events)) : List (ℕ × Events) :=
  ((answer.pwFilter fun d d' => d.1 ≠ d'.1).filterMap fun d =>
    (own.find? fun j => j.fd = d.1).map fun j => (j.ptr, d.2)).take 100

end Epoll

/-- The switch on what `io` gives. -/
def ReadyIo.epoll : ReadyIo → Events
  | .none => noEvents
  | .input => ⟨true, false, false⟩
  | .output => ⟨false, true, false⟩
  | .both => ⟨true, true, false⟩

def epollIn : Events := ⟨true, false, false⟩

variable {σ : Type}

/-- `agoo_ready_create`. -/
def epollCreate (w : EpollWorld σ) (x : σ) : EpollState σ where
  heap _ := none
  links := none
  lcnt := 0
  rest := ⟨(w.dtime x).1 + 1 / 2, [], 0, (w.dtime x).2, [], []⟩

/-! ## The code -/

namespace EpollState

variable (w : EpollWorld σ)

/-- `agoo_ready_add`. -/
def agooReadyAdd (s : EpollState σ) (n : New) : Except Fault (EpollState σ) := do
  let a := s.rest.top
  let s ← s.push n epollIn
  pure { s with rest := Epoll.ctlAdd w ⟨n.fd, a, epollIn⟩ s.rest }

/-- The body of the first loop. -/
def arm (a : ℕ) (s : EpollState σ) : Except Fault (EpollState σ) := do
  let c ← access (s.heap a)
  let r := w.io c.val.ctx s.rest.world
  let s := s.inWorld r.2
  if r.1.epoll ≠ c.val.own then
    State.setOwn { s with rest := Epoll.ctlMod w ⟨c.val.fd, a, r.1.epoll⟩ s.rest } a r.1.epoll
  else pure s

def addAll (s : EpollState σ) (news : List New) : Except Fault (EpollState σ) := news.foldlM (agooReadyAdd w) s

def serveRead (a : ℕ) (ev : Events) (s : EpollState σ) : Except Fault (Bool × EpollState σ) := do
  let c ← access (s.heap a)
  if ev.pollin && c.val.handler.read then do
    let r := w.read c.val.ctx s.rest.world
    let s ← addAll w (s.inWorld r.2) r.1.2
    if r.1.1 then pure (false, s)
    else do
      let s ← s.checkRemove w.toWorld Epoll.ctlDel a
      pure (true, s)
  else pure (false, s)

def serveWrite (a : ℕ) (ev : Events) (s : EpollState σ) : Except Fault (Bool × EpollState σ) := do
  let c ← access (s.heap a)
  if ev.pollout && c.val.handler.write then do
    let r := w.write c.val.ctx s.rest.world
    if r.1 then pure (false, s.inWorld r.2)
    else do
      let s ← (s.inWorld r.2).checkRemove w.toWorld Epoll.ctlDel a
      pure (true, s)
  else pure (false, s)

def serveError (a : ℕ) (ev : Events) (s : EpollState σ) : Except Fault (EpollState σ) := do
  let c ← access (s.heap a)
  if ev.bad then
    let s := if c.val.handler.error then s.inWorld (w.error c.val.ctx s.rest.world) else s
    s.checkRemove w.toWorld Epoll.ctlDel a
  else pure s

/-- The body of the loop over `events`. -/
def serve (d : ℕ × Events) (s : EpollState σ) : Except Fault (EpollState σ) := do
  let r ← serveRead w d.1 d.2 s
  if r.1 then pure r.2
  else do
    let r ← serveWrite w d.1 d.2 r.2
    if r.1 then pure r.2 else serveError w d.1 d.2 r.2

def serveAll (l : List (ℕ × Events)) (s : EpollState σ) : Except Fault (EpollState σ) :=
  l.foldlM (fun s d => serve w d s) s

/-- `agoo_ready_go` from the call of `epoll_wait` on. -/
def wait (s : EpollState σ) : Except Fault (EpollState σ) :=
  let r := w.wait s.rest.own s.rest.world
  match r.1 with
  | none => .ok (s.inWorld r.2)
  | some answer => do
    let s ← serveAll w (Epoll.told s.rest.own answer) (s.inWorld r.2)
    s.periodic w.toWorld Epoll.ctlDel

/-- `agoo_ready_go`, apart from the code that it returns. -/
def agooReadyGo (s : EpollState σ) : Except Fault (EpollState σ) := do
  let s ← s.forEach (arm w)
  wait w s

def call (s : EpollState σ) : Call → Except Fault (EpollState σ)
  | .add n => agooReadyAdd w s n
  | .go => agooReadyGo w s

end EpollState

/-! ## The set and the list -/

/-- Each pointer in the set is one to a link with that descriptor. -/
def Registered (own : List Interest) (links : List (ℕ × Link Events)) : Prop :=
  ∀ i ∈ own, ∃ e ∈ links, e.1 = i.ptr ∧ e.2.fd = i.fd

variable {w : EpollWorld σ} {s : EpollState σ} {p : EpollPool σ} {e : ℕ × Link Events}

/-- A link is known by its address. -/
theorem Shows.eq_of_address (h : Shows s p) {d : ℕ × Link Events} (hd : d ∈ p.links) (he : e ∈ p.links)
    (hde : d.1 = e.1) : d = e := by
  have hheld := h.stores.holds d hd
  rw [hde, h.stores.holds e he] at hheld
  exact Prod.ext hde (Option.some.inj hheld).symm

theorem leave_own (w : World σ) (k : Link Events) (r : Rest σ (List Interest)) : (r.leave w k).own = r.own := by
  unfold Rest.leave
  split_ifs <;> rfl

/-- A descriptor goes with its link. -/
theorem registered_remove (h : Shows s p) (hreg : Registered p.rest.own p.links) (he : e ∈ p.links) :
    Registered (p.remove w.toWorld Epoll.ctlDel e).rest.own (p.remove w.toWorld Epoll.ctlDel e).links := by
  intro i hi
  have hi' : i ∈ Epoll.ctlDel e.2.fd p.rest.own := by
    rw [Pool.remove] at hi
    dsimp only at hi
    rwa [leave_own] at hi
  obtain ⟨hmem, hfd⟩ := List.mem_filter.mp hi'
  obtain ⟨d, hd, hptr, hdfd⟩ := hreg i hmem
  refine ⟨d, mem_remove.mpr ⟨hd, fun hde => ?_⟩, hptr, hdfd⟩
  rw [h.eq_of_address hd he hde] at hdfd
  exact of_decide_eq_true hfd hdfd.symm

/-- What a step on one link leaves: the others are still there. -/
structure Served (e : ℕ × Link Events) (p : EpollPool σ) (s' : EpollState σ) (p' : EpollPool σ) : Prop where
  shows : Shows s' p'
  registered : Registered p'.rest.own p'.links
  others : ∀ d ∈ p.links, d.1 ≠ e.1 → d ∈ p'.links

/-- What a step leaves if it does not remove its link. -/
structure Stays (p : EpollPool σ) (s' : EpollState σ) (p' : EpollPool σ) : Prop where
  shows : Shows s' p'
  registered : Registered p'.rest.own p'.links
  others : ∀ d ∈ p.links, d ∈ p'.links

theorem Stays.served {s' : EpollState σ} {p' : EpollPool σ} (h : Stays p s' p') : Served e p s' p' :=
  ⟨h.shows, h.registered, fun d hd _ => h.others d hd⟩

theorem Stays.trans {s' s'' : EpollState σ} {p' p'' : EpollPool σ} (h : Stays p s' p') (h' : Stays p' s'' p'') :
    Stays p s'' p'' :=
  ⟨h'.shows, h'.registered, fun d hd => h'.others d (h.others d hd)⟩

theorem Stays.then {s' s'' : EpollState σ} {p' p'' : EpollPool σ} (h : Stays p s' p') (h' : Served e p' s'' p'') :
    Served e p s'' p'' :=
  ⟨h'.shows, h'.registered, fun d hd hde => h'.others d (h.others d hd) hde⟩

theorem Shows.stays (h : Shows s p) (hreg : Registered p.rest.own p.links) (x : σ) :
    Stays p (s.inWorld x) (p.inWorld x) :=
  ⟨h.inWorld x, hreg, fun _ hd => hd⟩

theorem checkOne_served (h : Shows s p) (hreg : Registered p.rest.own p.links) (he : e ∈ p.links) (now : ℚ) :
    Registered (p.checkOne w.toWorld Epoll.ctlDel now e).rest.own (p.checkOne w.toWorld Epoll.ctlDel now e).links ∧
      ∀ d ∈ p.links, d.1 ≠ e.1 → d ∈ (p.checkOne w.toWorld Epoll.ctlDel now e).links := by
  unfold Pool.checkOne
  dsimp only
  split_ifs
  · exact ⟨registered_remove (h.inWorld _) hreg he, fun d hd hde => mem_remove.mpr ⟨hd, hde⟩⟩
  · exact ⟨hreg, fun d hd _ => hd⟩
  · exact ⟨hreg, fun d hd _ => hd⟩

theorem checkRemove_served (h : Shows s p) (hreg : Registered p.rest.own p.links) (he : e ∈ p.links) :
    ∃ s' p', s.checkRemove w.toWorld Epoll.ctlDel e.1 = .ok s' ∧ Served e p s' p' := by
  have hgone : ∃ s', s.checkRemove w.toWorld Epoll.ctlDel e.1 = .ok s' ∧
      Shows s' (p.checkRemove w.toWorld Epoll.ctlDel e) := h.checkRemove_mem he
  obtain ⟨s', hs', h'⟩ := hgone
  have hpool : Registered (p.checkRemove w.toWorld Epoll.ctlDel e).rest.own
      (p.checkRemove w.toWorld Epoll.ctlDel e).links ∧
        ∀ d ∈ p.links, d.1 ≠ e.1 → d ∈ (p.checkRemove w.toWorld Epoll.ctlDel e).links := by
    unfold Pool.checkRemove
    split_ifs
    · exact checkOne_served h hreg he 0
    · exact ⟨registered_remove h hreg he, fun d hd hde => mem_remove.mpr ⟨hd, hde⟩⟩
  exact ⟨s', _, hs', h', hpool.1, hpool.2⟩

/-! ### Links are added -/

theorem ctlAdd_own (i : Interest) (r : Rest σ (List Interest)) :
    (Epoll.ctlAdd w i r).own = i :: r.own ∨ (Epoll.ctlAdd w i r).own = r.own := by
  unfold Epoll.ctlAdd
  dsimp only
  split_ifs
  · exact Or.inl rfl
  · exact Or.inr rfl

/-- Only the set and the state outside are changed. -/
theorem Shows.withRest (h : Shows s p) {r : Rest σ (List Interest)} (htop : r.top = p.rest.top)
    (hdestroyed : r.destroyed = p.rest.destroyed) (hadded : r.added = p.rest.added) :
    Shows { s with rest := r } { p with rest := r } :=
  ⟨h.stores, h.links, h.lcnt, rfl, fun e he => htop ▸ h.below e he, by
    have hcount := h.accounts
    rw [← hdestroyed, ← hadded] at hcount
    exact hcount⟩

theorem ctlAdd_rest (i : Interest) (r : Rest σ (List Interest)) : (Epoll.ctlAdd w i r).top = r.top ∧
    (Epoll.ctlAdd w i r).destroyed = r.destroyed ∧ (Epoll.ctlAdd w i r).added = r.added := by
  unfold Epoll.ctlAdd
  dsimp only
  split_ifs <;> exact ⟨rfl, rfl, rfl⟩

theorem ctlMod_rest (i : Interest) (r : Rest σ (List Interest)) : (Epoll.ctlMod w i r).top = r.top ∧
    (Epoll.ctlMod w i r).destroyed = r.destroyed ∧ (Epoll.ctlMod w i r).added = r.added := by
  unfold Epoll.ctlMod
  dsimp only
  split_ifs <;> exact ⟨rfl, rfl, rfl⟩

theorem add_stays (h : Shows s p) (hreg : Registered p.rest.own p.links) (n : New) :
    ∃ s' p', EpollState.agooReadyAdd w s n = .ok s' ∧ Stays p s' p' := by
  obtain ⟨s₁, hs₁, h₁⟩ := h.push n epollIn
  obtain ⟨htop, hdestroyed, hadded⟩ := ctlAdd_rest (w := w) ⟨n.fd, p.rest.top, epollIn⟩ (p.push n epollIn).rest
  refine ⟨{ s₁ with rest := Epoll.ctlAdd w ⟨n.fd, p.rest.top, epollIn⟩ (p.push n epollIn).rest }, _, ?_,
    h₁.withRest htop hdestroyed hadded, ?_, fun d hd => List.mem_cons_of_mem _ hd⟩
  · rw [EpollState.agooReadyAdd, hs₁, ← h₁.rest, h.rest]
    rfl
  · have hold : Registered p.rest.own (p.push n epollIn).links := fun i hi => by
      obtain ⟨d, hd, hrest⟩ := hreg i hi
      exact ⟨d, List.mem_cons_of_mem _ hd, hrest⟩
    intro i hi
    dsimp only at hi ⊢
    rcases ctlAdd_own (w := w) ⟨n.fd, p.rest.top, epollIn⟩ (p.push n epollIn).rest with heq | heq
    · rw [heq] at hi
      rcases List.mem_cons.mp hi with rfl | hi
      · exact ⟨_, List.mem_cons_self, rfl, rfl⟩
      · exact hold i hi
    · rw [heq] at hi
      exact hold i hi

theorem addAll_stays (h : Shows s p) (hreg : Registered p.rest.own p.links) (news : List New) :
    ∃ s' p', EpollState.addAll w s news = .ok s' ∧ Stays p s' p' := by
  induction news generalizing s p with
  | nil => exact ⟨s, p, rfl, h, hreg, fun _ hd => hd⟩
  | cons n news ih =>
    obtain ⟨s₁, p₁, hs₁, h₁⟩ := add_stays (w := w) h hreg n
    obtain ⟨s', p', hs', h'⟩ := ih h₁.shows h₁.registered
    refine ⟨s', p', ?_, h₁.trans h'⟩
    rw [EpollState.addAll, List.foldlM_cons, hs₁]
    exact hs'

/-! ### The first loop -/

theorem registered_setOwn (h : Shows s p) {own : List Interest} (hreg : Registered own p.links) (he : e ∈ p.links)
    (v : Events) : Registered own (p.setOwn e v).links := by
  intro i hi
  obtain ⟨d, hd, hptr, hfd⟩ := hreg i hi
  refine ⟨_, List.mem_map_of_mem hd, ?_⟩
  split_ifs with hde
  · rw [h.eq_of_address hd he hde] at hptr hfd
    exact ⟨hptr, hfd⟩
  · exact ⟨hptr, hfd⟩

theorem registered_ctlMod {own : List Interest} {links : List (ℕ × Link Events)} (hreg : Registered own links)
    (he : e ∈ links) {ev : Events} {r : Rest σ (List Interest)} (hown : r.own = own) :
    Registered (Epoll.ctlMod w ⟨e.2.fd, e.1, ev⟩ r).own links := by
  intro i hi
  unfold Epoll.ctlMod at hi
  dsimp only at hi
  split_ifs at hi
  · obtain ⟨j, hj, rfl⟩ := List.mem_map.mp hi
    split_ifs
    · exact ⟨e, he, rfl, rfl⟩
    · exact hreg j (hown ▸ hj)
  · exact hreg i (hown ▸ hi)

theorem arm_stays {l : List (ℕ × Link Events)} (h : Shows.Ahead (e :: l) s p)
    (hreg : Registered p.rest.own p.links) :
    ∃ s' p', EpollState.arm w e.1 s = .ok s' ∧ Shows.Ahead l s' p' ∧ Registered p'.rest.own p'.links := by
  obtain ⟨c, hc, hval⟩ := Shows.cell_of_ahead h
  have he : e ∈ p.links := h.2.subset List.mem_cons_self
  unfold EpollState.arm
  rw [hc]
  show ∃ s' p', (if (w.io c.val.ctx s.rest.world).1.epoll ≠ c.val.own then _ else _) = _ ∧ _
  rw [hval, h.1.rest]
  split_ifs with hsame
  · generalize hr : w.io e.2.ctx p.rest.world = r
    have hkept := ctlMod_rest (w := w) ⟨e.2.fd, e.1, r.1.epoll⟩ (p.inWorld r.2).rest
    have hmod : Shows.Ahead (e :: l)
        { s with rest := Epoll.ctlMod w ⟨e.2.fd, e.1, r.1.epoll⟩ (p.inWorld r.2).rest }
        { p with rest := Epoll.ctlMod w ⟨e.2.fd, e.1, r.1.epoll⟩ (p.inWorld r.2).rest } :=
      ⟨h.1.withRest hkept.1 hkept.2.1 hkept.2.2, h.2⟩
    obtain ⟨s', hs', h'⟩ := hmod.setOwn r.1.epoll
    refine ⟨s', _, ?_, h', ?_⟩
    · rw [← hs', State.inWorld, h.1.rest]
      rfl
    · exact registered_setOwn hmod.1 (registered_ctlMod (r := (p.inWorld r.2).rest) hreg he rfl) he _
  · exact ⟨_, _, rfl, h.tail.inWorld _, hreg⟩

/-! ### The answer -/

theorem serveRead_stays (h : Shows s p) (hreg : Registered p.rest.own p.links) (he : e ∈ p.links) (ev : Events) :
    ∃ b s' p', EpollState.serveRead w e.1 ev s = .ok (b, s') ∧ Served e p s' p' ∧ (b = false → Stays p s' p') := by
  obtain ⟨c, hc, hval⟩ := h.stores.exists_cell he
  unfold EpollState.serveRead
  rw [hc]
  show ∃ b s' p', (if ev.pollin && c.val.handler.read then _ else _) = _ ∧ _
  rw [hval, h.rest]
  have hself : Stays p s p := ⟨h, hreg, fun _ hd => hd⟩
  split_ifs with hread hkeep
  · have hworld := h.stays hreg (w.read e.2.ctx p.rest.world).2
    obtain ⟨s₁, p₁, hs₁, h₁⟩ := addAll_stays (w := w) hworld.shows hworld.registered (w.read e.2.ctx p.rest.world).1.2
    rw [hs₁]
    have hstays := hworld.trans h₁
    exact ⟨false, s₁, p₁, rfl, hstays.served, fun _ => hstays⟩
  · have hworld := h.stays hreg (w.read e.2.ctx p.rest.world).2
    obtain ⟨s₁, p₁, hs₁, h₁⟩ := addAll_stays (w := w) hworld.shows hworld.registered (w.read e.2.ctx p.rest.world).1.2
    rw [hs₁]
    have hstays := hworld.trans h₁
    obtain ⟨s₂, p₂, hs₂, h₂⟩ := checkRemove_served (w := w) hstays.shows hstays.registered (hstays.others e he)
    refine ⟨true, s₂, p₂, ?_, hstays.then h₂, nofun⟩
    show (State.checkRemove w.toWorld Epoll.ctlDel s₁ e.1 >>= _) = _
    rw [hs₂]
    rfl
  · exact ⟨false, s, p, rfl, hself.served, fun _ => hself⟩

theorem serveWrite_stays (h : Shows s p) (hreg : Registered p.rest.own p.links) (he : e ∈ p.links) (ev : Events) :
    ∃ b s' p', EpollState.serveWrite w e.1 ev s = .ok (b, s') ∧ Served e p s' p' ∧ (b = false → Stays p s' p') := by
  obtain ⟨c, hc, hval⟩ := h.stores.exists_cell he
  unfold EpollState.serveWrite
  rw [hc]
  show ∃ b s' p', (if ev.pollout && c.val.handler.write then _ else _) = _ ∧ _
  rw [hval, h.rest]
  have hself : Stays p s p := ⟨h, hreg, fun _ hd => hd⟩
  have hworld := h.stays hreg (w.write e.2.ctx p.rest.world).2
  split_ifs with hwrite hkeep
  · exact ⟨false, _, _, rfl, hworld.served, fun _ => hworld⟩
  · obtain ⟨s₂, p₂, hs₂, h₂⟩ := checkRemove_served (w := w) hworld.shows hworld.registered he
    refine ⟨true, s₂, p₂, ?_, hworld.then h₂, nofun⟩
    rw [hs₂]
    rfl
  · exact ⟨false, s, p, rfl, hself.served, fun _ => hself⟩

theorem serveError_served (h : Shows s p) (hreg : Registered p.rest.own p.links) (he : e ∈ p.links) (ev : Events) :
    ∃ s' p', EpollState.serveError w e.1 ev s = .ok s' ∧ Served e p s' p' := by
  obtain ⟨c, hc, hval⟩ := h.stores.exists_cell he
  unfold EpollState.serveError
  rw [hc]
  show ∃ s' p', (if ev.bad then _ else _) = _ ∧ _
  rw [hval, h.rest]
  split_ifs with hbad herror
  · have hworld := h.stays hreg (w.error e.2.ctx p.rest.world)
    obtain ⟨s', p', hs', h'⟩ := checkRemove_served (w := w) hworld.shows hworld.registered he
    exact ⟨s', p', hs', hworld.then h'⟩
  · exact checkRemove_served h hreg he
  · exact ⟨s, p, rfl, h, hreg, fun d hd _ => hd⟩

/-- **A link that the kernel tells is served.** -/
theorem serve_served (h : Shows s p) (hreg : Registered p.rest.own p.links) (he : e ∈ p.links) (ev : Events) :
    ∃ s' p', EpollState.serve w (e.1, ev) s = .ok s' ∧ Served e p s' p' := by
  unfold EpollState.serve
  obtain ⟨b, s₁, p₁, hs₁, h₁, hgo⟩ := serveRead_stays (w := w) h hreg he ev
  rw [hs₁]
  cases b with
  | true => exact ⟨s₁, p₁, rfl, h₁⟩
  | false =>
    have hstays := hgo rfl
    obtain ⟨b, s₂, p₂, hs₂, h₂, hgo⟩ := serveWrite_stays (w := w) hstays.shows hstays.registered (hstays.others e he) ev
    show ∃ s' p', (EpollState.serveWrite w e.1 ev s₁ >>= _) = _ ∧ _
    rw [hs₂]
    cases b with
    | true => exact ⟨s₂, p₂, rfl, hstays.then h₂⟩
    | false =>
      have hstays₂ := hgo rfl
      obtain ⟨s', p', hs', h'⟩ := serveError_served (w := w) hstays₂.shows hstays₂.registered
        (hstays₂.others e (hstays.others e he)) ev
      exact ⟨s', p', hs', (hstays.trans hstays₂).then h'⟩

/-- The answer names links, each once. -/
theorem told_links (h : Shows s p) {own : List Interest} (hreg : Registered own p.links)
    (answer : List (ℕ × Events)) :
    (Epoll.told own answer).Pairwise (fun d d' => d.1 ≠ d'.1) ∧
      ∀ d ∈ Epoll.told own answer, ∃ e ∈ p.links, e.1 = d.1 := by
  have hfound : ∀ {d : ℕ × Events} {b : ℕ × Events},
      (own.find? fun j => j.fd = d.1).map (fun j => (j.ptr, d.2)) = some b →
        ∃ e ∈ p.links, e.1 = b.1 ∧ e.2.fd = d.1 := by
    intro d b hb
    obtain ⟨j, hj, rfl⟩ := Option.map_eq_some_iff.mp hb
    obtain ⟨e, he, hptr, hfd⟩ := hreg j (List.mem_of_find?_eq_some hj)
    have htold := List.find?_some (p := fun j : Interest => decide (j.fd = d.1)) hj
    exact ⟨e, he, hptr, hfd.trans (of_decide_eq_true htold)⟩
  unfold Epoll.told
  refine ⟨List.Pairwise.sublist (List.take_sublist _ _) (List.pairwise_filterMap.mpr ?_), fun b hb => ?_⟩
  · refine (List.pairwise_pwFilter answer).imp fun {d d'} hne b hb b' hb' hbb => hne ?_
    obtain ⟨e, he, hptr, hfd⟩ := hfound hb
    obtain ⟨e', he', hptr', hfd'⟩ := hfound hb'
    rw [← hfd, ← hfd', h.eq_of_address he he' (hptr.trans (hbb.trans hptr'.symm))]
  · obtain ⟨d, -, hd⟩ := List.mem_filterMap.mp (List.mem_of_mem_take hb)
    obtain ⟨e, he, hptr, -⟩ := hfound hd
    exact ⟨e, he, hptr⟩

/-- **The loop over the answer does not meet a link that it removed.** -/
theorem serveAll_ok {l : List (ℕ × Events)} (h : Shows s p) (hreg : Registered p.rest.own p.links)
    (hdistinct : l.Pairwise fun d d' => d.1 ≠ d'.1) (hlinks : ∀ d ∈ l, ∃ e ∈ p.links, e.1 = d.1) :
    ∃ s' p', EpollState.serveAll w l s = .ok s' ∧ Shows s' p' ∧ Registered p'.rest.own p'.links := by
  induction l generalizing s p with
  | nil => exact ⟨s, p, rfl, h, hreg⟩
  | cons d l ih =>
    obtain ⟨hne, hdistinct⟩ := List.pairwise_cons.mp hdistinct
    obtain ⟨⟨e, he, hed⟩, hlinks⟩ := List.forall_mem_cons.mp hlinks
    obtain ⟨s₁, p₁, hs₁, h₁⟩ := serve_served (w := w) h hreg he d.2
    obtain ⟨s', p', hs', h'⟩ := ih h₁.shows h₁.registered hdistinct fun d' hd' => by
      obtain ⟨e', he', hed'⟩ := hlinks d' hd'
      refine ⟨e', h₁.others e' he' ?_, hed'⟩
      rw [hed', hed]
      exact (hne d' hd').symm
    refine ⟨s', p', ?_, h'⟩
    rw [EpollState.serveAll, List.foldlM_cons, ← show (e.1, d.2) = d from Prod.ext hed rfl, hs₁]
    exact hs'

/-! ### Runs -/

theorem periodic_ok (h : Shows s p) (hreg : Registered p.rest.own p.links) :
    ∃ s' p', s.periodic w.toWorld Epoll.ctlDel = .ok s' ∧ Shows s' p' ∧ Registered p'.rest.own p'.links := by
  unfold State.periodic
  rw [h.rest]
  generalize w.dtime p.rest.world = r
  have hnow := h.inWorld r.2
  dsimp only
  split_ifs with hdue
  · have hround : ∀ e l (s : EpollState σ) (p : EpollPool σ), Shows.Ahead (e :: l) s p →
        Registered p.rest.own p.links → ∃ s' p', s.checkOne w.toWorld Epoll.ctlDel r.1 e.1 = .ok s' ∧
          Shows.Ahead l s' p' ∧ Registered p'.rest.own p'.links := by
      intro e l s p h hreg
      have hone : Agree (Shows.Ahead l) (s.checkOne w.toWorld Epoll.ctlDel r.1 e.1)
        (.ok (p.checkOne w.toWorld Epoll.ctlDel r.1 e)) := Shows.checkOne r.1 h
      obtain ⟨s', hs', h'⟩ := hone.to_ok rfl
      exact ⟨s', _, hs', h', (checkOne_served h.1 hreg (h.2.subset List.mem_cons_self) r.1).1⟩
    obtain ⟨s', p', hs', h', hreg'⟩ := hnow.forEach_ok hreg hround
    refine ⟨s'.setCheck (w.dtime s'.rest.world), _, ?_, h'.setCheck _, hreg'⟩
    rw [hs']
    rfl
  · exact ⟨_, _, rfl, hnow, hreg⟩

theorem go_ok (h : Shows s p) (hreg : Registered p.rest.own p.links) :
    ∃ s' p', EpollState.agooReadyGo w s = .ok s' ∧ Shows s' p' ∧ Registered p'.rest.own p'.links := by
  have hround : ∀ e l (s : EpollState σ) (p : EpollPool σ), Shows.Ahead (e :: l) s p →
      Registered p.rest.own p.links → ∃ s' p', EpollState.arm w e.1 s = .ok s' ∧
        Shows.Ahead l s' p' ∧ Registered p'.rest.own p'.links :=
    fun e l s p h hreg => arm_stays h hreg
  obtain ⟨s₁, p₁, hs₁, h₁, hreg₁⟩ := h.forEach_ok hreg hround
  have hgo : EpollState.agooReadyGo w s = EpollState.wait w s₁ := by
    rw [EpollState.agooReadyGo, hs₁]
    rfl
  rw [hgo]
  unfold EpollState.wait
  rw [h₁.rest]
  generalize w.wait p₁.rest.own p₁.rest.world = r
  obtain ⟨answer, x⟩ := r
  cases answer with
  | none => exact ⟨_, _, rfl, h₁.inWorld x, hreg₁⟩
  | some answer =>
    have htold := told_links h₁ hreg₁ answer
    obtain ⟨s₂, p₂, hs₂, h₂, hreg₂⟩ := serveAll_ok (w := w) (h₁.inWorld x) hreg₁ htold.1 htold.2
    obtain ⟨s', p', hs', h', hreg'⟩ := periodic_ok (w := w) h₂ hreg₂
    refine ⟨s', p', ?_, h', hreg'⟩
    dsimp only
    rw [hs₂]
    exact hs'

theorem calls_ok (h : Shows s p) (hreg : Registered p.rest.own p.links) (cs : List Call) :
    ∃ s' p', cs.foldlM (EpollState.call w) s = .ok s' ∧ Shows s' p' := by
  induction cs generalizing s p with
  | nil => exact ⟨s, p, rfl, h⟩
  | cons c cs ih =>
    have hcall : ∃ s₁ p₁, EpollState.call w s c = .ok s₁ ∧ Shows s₁ p₁ ∧ Registered p₁.rest.own p₁.links := by
      cases c with
      | add n =>
        obtain ⟨s₁, p₁, hs₁, h₁⟩ := add_stays (w := w) h hreg n
        exact ⟨s₁, p₁, hs₁, h₁.shows, h₁.registered⟩
      | go => exact go_ok h hreg
    obtain ⟨s₁, p₁, hs₁, h₁, hreg₁⟩ := hcall
    obtain ⟨s', p', hs', h'⟩ := ih h₁ hreg₁
    refine ⟨s', p', ?_, h'⟩
    rw [List.foldlM_cons, hs₁]
    exact hs'

/-- **Nothing goes wrong, whatever is added and whatever the callbacks do.** At the end no link is left and each
context was destroyed once. -/
theorem epoll_lifetime (w : EpollWorld σ) (x : σ) (cs : List Call) :
    ∃ s s', cs.foldlM (EpollState.call w) (epollCreate w x) = .ok s ∧ s.agooReadyDestroy w.toWorld = .ok s' ∧
      (∀ a, s'.heap a = none) ∧ s'.rest.destroyed.Perm s'.rest.added := by
  have hcreate : Shows (epollCreate w x) ⟨[], (epollCreate w x).rest⟩ :=
    ⟨.nil _ fun _ => rfl, rfl, rfl, rfl, nofun, .refl _⟩
  obtain ⟨s, p, hs, h⟩ := calls_ok (w := w) hcreate nofun cs
  obtain ⟨s', hs', hempty, hcount⟩ := h.destroy (w := w.toWorld)
  exact ⟨s, s', hs, hs', hempty, hcount⟩

end Ready

end Agoo
