import Agoo.LinkedList
import Agoo.ListLoops
import Mathlib.Data.Rat.Defs

/-!
# The connection manager (`ready.c`)

A con loop has its connections in a list that is linked in both directions, and calls them back: when their
sockets are ready, twice a second, and when they are removed. What is outside, the callbacks, the kernel and the
clock, is any function on any state; a callback that reads may add connections. A pointer to a link that was freed
is never used with success, since memory is not given out twice here.

`Pool` is the manager with a list of links instead of pointers, and `Shows` relates the two: here for what both
ways of waiting (`epoll` and `poll`) share.
-/

namespace Agoo

namespace Ready

open LinkedList

/-- `agooReadyIO`. -/
inductive ReadyIo
  | none | input | output | both

/-- What is asked for or answered: for reading, for writing, and anything that is wrong. -/
structure Events where
  pollin : Bool
  pollout : Bool
  bad : Bool
  deriving DecidableEq

def noEvents : Events := ⟨false, false, false⟩

/-- `agooHandler`, or which callbacks of it are not NULL; `io` never is. -/
structure Handler where
  check : Bool
  read : Bool
  write : Bool
  error : Bool
  destroy : Bool
  deriving DecidableEq

/-- `struct _link`. `own` is `events` or `pp`. -/
structure Link (β : Type) where
  fd : ℕ
  ctx : ℕ
  handler : Handler
  own : β

/-- What `agoo_ready_add` is called with. -/
structure New where
  fd : ℕ
  handler : Handler
  ctx : ℕ

/-- What is outside, with a state of its own: the callbacks of the contexts and the clock. `read` also tells what
it adds. -/
structure World (σ : Type) where
  io : ℕ → σ → ReadyIo × σ
  check : ℕ → ℚ → σ → Bool × σ
  read : ℕ → σ → (Bool × List New) × σ
  write : ℕ → σ → Bool × σ
  error : ℕ → σ → σ
  destroy : ℕ → σ → σ
  dtime : σ → ℚ × σ

/-- What can go wrong. -/
inductive Fault
  /-- A pointer to a link that is NULL, or to one that was freed. -/
  | link
  /-- An access outside of the array for `poll`, or to one that was moved. -/
  | slot
  /-- A loop does not end. -/
  | loop
  deriving DecidableEq

/-- What is not the list. `own` is what each way of waiting has, `top` the next memory that is given out. The last
two are not in the code: the contexts that were added with a `destroy`, and those whose `destroy` was called. -/
structure Rest (σ κ : Type) where
  nextCheck : ℚ
  own : κ
  top : ℕ
  world : σ
  added : List ℕ
  destroyed : List ℕ

/-- `struct _agooReady`, and the memory of the links. -/
structure State (σ β κ : Type) where
  heap : Heap ℕ (Link β)
  links : Option ℕ
  lcnt : ℕ
  rest : Rest σ κ

/-- A pointer is used. -/
def access {α : Type} (p : Option α) : Except Fault α :=
  match p with
  | none => .error .link
  | some a => .ok a

variable {σ β κ : Type}

/-- A context with a `destroy` is added. -/
def Rest.enter (r : Rest σ κ) (n : New) : Rest σ κ :=
  { r with top := r.top + 1, added := if n.handler.destroy then r.added ++ [n.ctx] else r.added }

/-- `if (NULL != link->handler->destroy) link->handler->destroy(link->ctx)`. -/
def Rest.leave (w : World σ) (k : Link β) (r : Rest σ κ) : Rest σ κ :=
  if k.handler.destroy then
    { r with world := w.destroy k.ctx r.world, destroyed := r.destroyed ++ [k.ctx] }
  else r

/-! ## The code -/

namespace State

variable (w : World σ) (drop : ℕ → κ → κ) (s : State σ β κ)

/-- `link_create` and the list in `agoo_ready_add`. -/
def push (n : New) (own : β) : Except Fault (State σ β κ) := do
  let a := s.rest.top
  let heap ← access (setPrevOf (Function.update s.heap a (some ⟨s.links, none, ⟨n.fd, n.ctx, n.handler, own⟩⟩))
    s.links (some a))
  pure { heap := heap, links := some a, lcnt := s.lcnt + 1, rest := s.rest.enter n }

/-- `ready_remove`; `drop` is the call of `epoll_ctl`. -/
def remove (a : ℕ) : Except Fault (State σ β κ) := do
  let c ← access (s.heap a)
  let (heap, links) ← access (unlink s.heap s.links c)
  pure {
    heap := Function.update heap a none
    links := links
    lcnt := s.lcnt - 1
    rest := { s.rest with own := drop c.val.fd s.rest.own }.leave w c.val }

def inWorld (x : σ) : State σ β κ := { s with rest := { s.rest with world := x } }

/-- `link->pp = v` or `link->events = v`. -/
def setOwn (a : ℕ) (v : β) : Except Fault (State σ β κ) := do
  let heap ← access (modify s.heap a fun c => { c with val := { c.val with own := v } })
  pure { s with heap := heap }

/-- `if (NULL == link->handler->check || link->handler->check(link->ctx, 0.0)) ready_remove(ready, link)`. -/
def checkRemove (a : ℕ) : Except Fault (State σ β κ) := do
  let c ← access (s.heap a)
  if c.val.handler.check then
    let r := w.check c.val.ctx 0 s.rest.world
    if r.1 then (s.inWorld r.2).remove w drop a else pure (s.inWorld r.2)
  else s.remove w drop a

/-- `link->next`. -/
def next (a : ℕ) : Except Fault (Option ℕ) := do
  let c ← access (s.heap a)
  pure c.next

/-- A loop over the links. It meets no more of them than there are. -/
def forEach (body : ℕ → State σ β κ → Except Fault (State σ β κ)) : Except Fault (State σ β κ) :=
  each (fun a s => s.next a) .loop body s.lcnt s.links s

/-- The body of the loop that checks. -/
def checkOne (now : ℚ) (a : ℕ) (s : State σ β κ) : Except Fault (State σ β κ) := do
  let c ← access (s.heap a)
  if c.val.handler.check then
    let r := w.check c.val.ctx now s.rest.world
    if r.1 then (s.inWorld r.2).remove w drop a else pure (s.inWorld r.2)
  else pure s

/-- `ready->next_check = dtime() + CHECK_FREQ`. -/
def setCheck (r : ℚ × σ) : State σ β κ :=
  { s with rest := { s.rest with world := r.2, nextCheck := r.1 + 1 / 2 } }

/-- The end of `agoo_ready_go`. -/
def periodic : Except Fault (State σ β κ) := do
  let r := w.dtime s.rest.world
  let s := s.inWorld r.2
  if s.rest.nextCheck ≤ r.1 then do
    let s ← s.forEach (checkOne w drop r.1)
    pure (s.setCheck (w.dtime s.rest.world))
  else pure s

/-- The loop of `agoo_ready_destroy`. -/
def destroyLoop : ℕ → State σ β κ → Except Fault (State σ β κ)
  | fuel, s =>
    match s.links with
    | none => .ok s
    | some a =>
      match fuel with
      | 0 => .error .loop
      | fuel + 1 => do
        let c ← access (s.heap a)
        destroyLoop fuel {
          s with heap := Function.update s.heap a none, links := c.next, rest := s.rest.leave w c.val }

/-- `agoo_ready_destroy`; no more rounds than there are links. -/
def agooReadyDestroy : Except Fault (State σ β κ) := s.destroyLoop w s.lcnt

end State

/-! ## The manager with a list -/

structure Pool (σ β κ : Type) where
  links : List (ℕ × Link β)
  rest : Rest σ κ

namespace Pool

variable (w : World σ) (drop : ℕ → κ → κ) (p : Pool σ β κ)

def push (n : New) (own : β) : Pool σ β κ :=
  ⟨(p.rest.top, ⟨n.fd, n.ctx, n.handler, own⟩) :: p.links, p.rest.enter n⟩

def remove (e : ℕ × Link β) : Pool σ β κ :=
  ⟨p.links.filter fun d => d.1 ≠ e.1, { p.rest with own := drop e.2.fd p.rest.own }.leave w e.2⟩

def inWorld (x : σ) : Pool σ β κ := { p with rest := { p.rest with world := x } }

def setOwn (e : ℕ × Link β) (v : β) : Pool σ β κ :=
  { p with links := p.links.map fun d => if d.1 = e.1 then (e.1, { e.2 with own := v }) else d }

/-- The answer of a link, and whether it goes. -/
def checkOne (now : ℚ) (e : ℕ × Link β) : Pool σ β κ :=
  if e.2.handler.check then
    let r := w.check e.2.ctx now p.rest.world
    if r.1 then (p.inWorld r.2).remove w drop e else p.inWorld r.2
  else p

def checkRemove (e : ℕ × Link β) : Pool σ β κ :=
  if e.2.handler.check then p.checkOne w drop 0 e else p.remove w drop e

def setCheck (r : ℚ × σ) : Pool σ β κ :=
  { p with rest := { p.rest with world := r.2, nextCheck := r.1 + 1 / 2 } }

def periodic : Pool σ β κ :=
  let r := w.dtime p.rest.world
  let p := p.inWorld r.2
  if p.rest.nextCheck ≤ r.1 then
    let p := p.links.foldl (fun p e => p.checkOne w drop r.1 e) p
    p.setCheck (w.dtime p.rest.world)
  else p

/-- The contexts whose `destroy` is still to be called. -/
def waiting : List ℕ := (p.links.filter fun e => e.2.handler.destroy).map fun e => e.2.ctx

end Pool

/-! ## The two agree -/

/-- The pointers lead over the list of links, and nothing else is in memory. Of the contexts that were added with a
`destroy` each one is destroyed or in the list. -/
structure Shows (s : State σ β κ) (p : Pool σ β κ) : Prop where
  stores : Stores s.heap p.links
  links : s.links = (p.links.map Prod.fst).head?
  lcnt : s.lcnt = p.links.length
  rest : s.rest = p.rest
  below : ∀ e ∈ p.links, e.1 < p.rest.top
  accounts : (p.rest.destroyed ++ p.waiting).Perm p.rest.added

variable {s : State σ β κ} {p : Pool σ β κ} {w : World σ} {drop : ℕ → κ → κ} {e : ℕ × Link β}
  {l : List (ℕ × Link β)}

theorem waiting_append (l₁ l₂ : List (ℕ × Link β)) (r : Rest σ κ) :
    (⟨l₁ ++ l₂, r⟩ : Pool σ β κ).waiting = (⟨l₁, r⟩ : Pool σ β κ).waiting ++ (⟨l₂, r⟩ : Pool σ β κ).waiting := by
  rw [Pool.waiting, List.filter_append, List.map_append]
  rfl

theorem waiting_cons (e : ℕ × Link β) (l : List (ℕ × Link β)) (r : Rest σ κ) :
    (⟨e :: l, r⟩ : Pool σ β κ).waiting =
      (if e.2.handler.destroy then [e.2.ctx] else []) ++ (⟨l, r⟩ : Pool σ β κ).waiting := by
  rw [Pool.waiting, List.filter_cons]
  split_ifs <;> rfl

theorem leave_destroyed (w : World σ) (k : Link β) (r : Rest σ κ) :
    (r.leave w k).destroyed = r.destroyed ++ if k.handler.destroy then [k.ctx] else [] := by
  unfold Rest.leave
  split_ifs
  · rfl
  · rw [List.append_nil]

theorem leave_added (w : World σ) (k : Link β) (r : Rest σ κ) : (r.leave w k).added = r.added := by
  unfold Rest.leave
  split_ifs <;> rfl

theorem leave_top (w : World σ) (k : Link β) (r : Rest σ κ) : (r.leave w k).top = r.top := by
  unfold Rest.leave
  split_ifs <;> rfl

/-- The links with another address are those before and behind. -/
theorem filter_address {l₁ l₂ : List (ℕ × Link β)} (h : e.1 ∉ (l₁ ++ l₂).map Prod.fst) :
    (l₁ ++ e :: l₂).filter (fun d => d.1 ≠ e.1) = l₁ ++ l₂ := by
  rw [List.filter_append, List.filter_cons_of_neg (by simp), ← List.filter_append]
  refine List.filter_eq_self.mpr fun d hd => decide_eq_true fun hde => h ?_
  rw [← hde]
  exact List.mem_map_of_mem hd

theorem mem_remove {d : ℕ × Link β} : d ∈ (p.remove w drop e).links ↔ d ∈ p.links ∧ d.1 ≠ e.1 := by
  rw [Pool.remove, List.mem_filter, decide_eq_true_eq]

theorem setOwn_links {l₁ l₂ : List (ℕ × Link β)} (hsplit : p.links = l₁ ++ e :: l₂)
    (hapart : e.1 ∉ (l₁ ++ l₂).map Prod.fst) (v : β) :
    (p.setOwn e v).links = l₁ ++ (e.1, { e.2 with own := v }) :: l₂ := by
  have hother : ∀ d ∈ l₁ ++ l₂, (if d.1 = e.1 then (e.1, { e.2 with own := v }) else d) = d := fun d hd =>
    if_neg fun hde : d.1 = e.1 => hapart (hde ▸ List.mem_map_of_mem hd)
  show p.links.map _ = _
  rw [hsplit, List.map_append, List.map_cons, if_pos rfl,
    List.map_congr_left fun d hd => hother d (List.mem_append_left _ hd),
    List.map_congr_left fun d hd => hother d (List.mem_append_right _ hd), List.map_id', List.map_id']

namespace Shows

theorem unique {p' : Pool σ β κ} (h : Shows s p) (h' : Shows s p') : p = p' := by
  have hlinks := h.stores.unique h'.stores (h.links.symm.trans h'.links)
  have hrest := h.rest.symm.trans h'.rest
  cases p
  cases p'
  cases hlinks
  cases hrest
  rfl

theorem fresh (h : Shows s p) : p.rest.top ∉ p.links.map Prod.fst := fun hmem => by
  obtain ⟨e, he, heq⟩ := List.mem_map.mp hmem
  exact Nat.lt_irrefl _ (heq ▸ h.below e he)

theorem inWorld (h : Shows s p) (x : σ) : Shows (s.inWorld x) (p.inWorld x) :=
  ⟨h.stores, h.links, h.lcnt, by rw [State.inWorld, Pool.inWorld, h.rest], h.below, h.accounts⟩

/-- **A link is added.** -/
theorem push (h : Shows s p) (n : New) (own : β) :
    ∃ s', s.push n own = .ok s' ∧ Shows s' (p.push n own) := by
  obtain ⟨k, hk, hstores⟩ := h.stores.push h.fresh (⟨n.fd, n.ctx, n.handler, own⟩ : Link β)
  refine ⟨⟨k, some s.rest.top, s.lcnt + 1, s.rest.enter n⟩, ?_, ?_⟩
  · rw [State.push, h.links, h.rest, hk]
    rfl
  · refine ⟨hstores, ?_, ?_, ?_, fun e he => ?_, ?_⟩
    · rw [h.rest]
      rfl
    · show s.lcnt + 1 = (_ :: p.links).length
      rw [List.length_cons, h.lcnt]
    · rw [Pool.push, h.rest]
    · show e.1 < p.rest.top + 1
      rcases List.mem_cons.mp he with rfl | he
      · exact Nat.lt_succ_self _
      · exact Nat.lt_succ_of_lt (h.below e he)
    · have hcount := h.accounts
      rw [Pool.push, waiting_cons]
      show (p.rest.destroyed ++ ((if n.handler.destroy then [n.ctx] else []) ++ p.waiting)).Perm
        (if n.handler.destroy then p.rest.added ++ [n.ctx] else p.rest.added)
      split_ifs
      · exact (List.perm_middle (a := n.ctx)).trans ((hcount.cons n.ctx).trans (List.perm_append_singleton _ _).symm)
      · exact hcount

theorem remove_links (h : Shows s p) {l₁ l₂ : List (ℕ × Link β)} (hsplit : p.links = l₁ ++ e :: l₂) :
    (p.remove w drop e).links = l₁ ++ l₂ := by
  have hapart := (hsplit ▸ h.stores).apart
  rw [Pool.remove, hsplit]
  exact filter_address hapart

/-- **A link is removed.** -/
theorem remove (h : Shows s p) (he : e ∈ p.links) :
    ∃ s', s.remove w drop e.1 = .ok s' ∧ Shows s' (p.remove w drop e) := by
  obtain ⟨c, hc, hval⟩ := h.stores.exists_cell he
  obtain ⟨l₁, l₂, hsplit⟩ := List.append_of_mem he
  have hlinks : (p.remove w drop e).links = l₁ ++ l₂ := h.remove_links hsplit
  have hlen : s.lcnt - 1 = (l₁ ++ l₂).length := by
    rw [h.lcnt, hsplit, List.length_append, List.length_append, List.length_cons]
    omega
  have hstores := h.stores
  rw [hsplit] at hstores
  obtain ⟨k, hk, hstores'⟩ := hstores.free hc
  refine ⟨⟨Function.update k e.1 none, ((l₁ ++ l₂).map Prod.fst).head?, s.lcnt - 1,
    { s.rest with own := drop c.val.fd s.rest.own }.leave w c.val⟩, ?_, ?_⟩
  · show (access (s.heap e.1) >>= _) = _
    rw [hc]
    show (access (unlink s.heap s.links c) >>= _) = _
    rw [h.links, hsplit, hk]
    rfl
  · refine ⟨hlinks ▸ hstores', by rw [hlinks], by rw [hlinks, ← hlen], ?_, fun d hd => ?_, ?_⟩
    · rw [hval, h.rest]
      rfl
    · rw [hlinks] at hd
      show d.1 < ({ p.rest with own := drop e.2.fd p.rest.own }.leave w e.2).top
      rw [leave_top]
      refine h.below d ?_
      rw [hsplit]
      exact ((List.sublist_cons_self _ _).append_left _).subset hd
    · have hcount := h.accounts
      rw [show p = ⟨l₁ ++ e :: l₂, p.rest⟩ by rw [← hsplit], waiting_append, waiting_cons] at hcount
      rw [show p.remove w drop e = ⟨l₁ ++ l₂, { p.rest with own := drop e.2.fd p.rest.own }.leave w e.2⟩ by
        rw [← hlinks]; rfl, waiting_append, leave_destroyed, leave_added]
      refine List.Perm.trans ?_ hcount
      rw [List.append_assoc]
      exact List.perm_append_left_iff _ |>.mpr (List.perm_append_comm_assoc _ _ _)

/-- What a round of a loop knows: the links that are ahead are still the last ones. -/
def Ahead (l : List (ℕ × Link β)) (s : State σ β κ) (p : Pool σ β κ) : Prop := Shows s p ∧ l <:+ p.links

theorem ahead_remove (h : Ahead (e :: l) s p) : Agree (Ahead l) (s.remove w drop e.1) (.ok (p.remove w drop e)) := by
  obtain ⟨l₁, hl₁⟩ := h.2
  have hgone : ∃ s', s.remove w drop e.1 = .ok s' ∧ Shows s' (p.remove w drop e) :=
    h.1.remove (h.2.subset List.mem_cons_self)
  obtain ⟨s', hs', h'⟩ := hgone
  rw [hs']
  refine .ok ⟨h', l₁, ?_⟩
  rw [h.1.remove_links hl₁.symm]

theorem ahead_next (h : Ahead (e :: l) s p) : s.next e.1 = .ok ((l.map Prod.fst).head?) := by
  obtain ⟨c, hc, -, hnext⟩ := h.1.stores.cell_suffix h.2
  show (access (s.heap e.1) >>= _) = _
  rw [hc, ← hnext]
  rfl

theorem Ahead.tail (h : Ahead (e :: l) s p) : Ahead l s p := ⟨h.1, (List.suffix_cons e l).trans h.2⟩

theorem Ahead.inWorld (h : Ahead l s p) (x : σ) : Ahead l (s.inWorld x) (p.inWorld x) := ⟨h.1.inWorld x, h.2⟩

/-- **A loop over the links is a fold over the list.** -/
theorem forEach (h : Shows s p) {body : ℕ → State σ β κ → Except Fault (State σ β κ)}
    {body' : ℕ × Link β → Pool σ β κ → Except Fault (Pool σ β κ)}
    (hbody : ∀ e l s p, Ahead (e :: l) s p → Agree (Ahead l) (body e.1 s) (body' e p)) :
    Agree Shows (s.forEach body) (p.links.foldlM (fun p e => body' e p) p) := by
  have hnext : ∀ e l (s : State σ β κ) p, Ahead (e :: l) s p → s.next e.1 = .ok (l.head?.map Prod.fst) :=
    fun e l s p h => (ahead_next h).trans (by rw [List.head?_map])
  have hloop := Agree.each (fun a s => State.next s a) Fault.loop Prod.fst Ahead hnext hbody
    (show Ahead p.links s p from ⟨h, List.suffix_refl _⟩) (le_of_eq h.lcnt.symm)
  rw [← List.head?_map, ← h.links] at hloop
  exact hloop.mono fun _ _ h => h.1

/-- A loop whose body does not go wrong keeps what its body keeps. -/
theorem forEach_ok {K : Pool σ β κ → Prop} (h : Shows s p) (hK : K p)
    {body : ℕ → State σ β κ → Except Fault (State σ β κ)}
    (hbody : ∀ e l s p, Ahead (e :: l) s p → K p → ∃ s' p', body e.1 s = .ok s' ∧ Ahead l s' p' ∧ K p') :
    ∃ s' p', s.forEach body = .ok s' ∧ Shows s' p' ∧ K p' := by
  let Inv : List (ℕ × Link β) → State σ β κ → Unit → Prop := fun l s _ => ∃ p, Ahead l s p ∧ K p
  have hnext : ∀ e l s u, Inv (e :: l) s u → s.next e.1 = .ok (l.head?.map Prod.fst) := by
    rintro e l s - ⟨p, hp, -⟩
    exact (ahead_next hp).trans (by rw [List.head?_map])
  have hround : ∀ e l s u, Inv (e :: l) s u → Agree (Inv l) (body e.1 s) (.ok ()) := by
    rintro e l s - ⟨p, hp, hK⟩
    obtain ⟨s', p', hs', h', hK'⟩ := hbody e l s p hp hK
    rw [hs']
    exact .ok ⟨p', h', hK'⟩
  have hstart : Inv p.links s () := ⟨p, ⟨h, List.suffix_refl _⟩, hK⟩
  have hloop := Agree.each (fun a s => State.next s a) Fault.loop Prod.fst Inv hnext hround
    (p := ()) hstart (le_of_eq h.lcnt.symm)
  rw [← List.head?_map, ← h.links] at hloop
  have hfold : ∀ l : List (ℕ × Link β), l.foldlM (fun _ _ => (.ok () : Except Fault Unit)) () = .ok () := by
    intro l
    induction l with
    | nil => rfl
    | cons e l ih => exact ih
  obtain ⟨s', hs', p', h', hK'⟩ := hloop.to_ok (hfold _)
  exact ⟨s', p', hs', h'.1, hK'⟩

theorem cell_of_ahead (h : Ahead (e :: l) s p) : ∃ c, s.heap e.1 = some c ∧ c.val = e.2 :=
  h.1.stores.exists_cell (h.2.subset List.mem_cons_self)

theorem Ahead.setOwn (h : Ahead (e :: l) s p) (v : β) :
    ∃ s', s.setOwn e.1 v = .ok s' ∧ Ahead l s' (p.setOwn e v) := by
  obtain ⟨c, hc, hval⟩ := cell_of_ahead h
  obtain ⟨l₁, hsplit⟩ := h.2
  have hstores := h.1.stores
  rw [← hsplit] at hstores
  have hlinks := setOwn_links hsplit.symm hstores.apart v
  have hmap : (p.setOwn e v).links.map Prod.fst = p.links.map Prod.fst := by
    rw [hlinks, ← hsplit, List.map_append, List.map_append, List.map_cons, List.map_cons]
  have hstores' := hstores.setVal hc { e.2 with own := v }
  refine ⟨{ s with heap := Function.update s.heap e.1 (some { c with val := { e.2 with own := v } }) }, ?_,
    ⟨hlinks ▸ hstores', ?_, ?_, h.1.rest, fun d hd => ?_, ?_⟩, l₁ ++ [(e.1, { e.2 with own := v })], ?_⟩
  · rw [State.setOwn, modify_of_cell hc, hval]
    rfl
  · rw [hmap]
    exact h.1.links
  · rw [hlinks]
    show s.lcnt = _
    rw [h.1.lcnt, ← hsplit, List.length_append, List.length_append, List.length_cons, List.length_cons]
  · have hd' : d.1 ∈ p.links.map Prod.fst := hmap ▸ List.mem_map_of_mem hd
    obtain ⟨d', hd', hsame⟩ := List.mem_map.mp hd'
    rw [← hsame]
    exact h.1.below d' hd'
  · have hcount := h.1.accounts
    rw [show p = ⟨l₁ ++ e :: l, p.rest⟩ by rw [hsplit], waiting_append, waiting_cons] at hcount
    rw [show p.setOwn e v = ⟨l₁ ++ (e.1, { e.2 with own := v }) :: l, p.rest⟩ by rw [← hlinks]; rfl,
      waiting_append, waiting_cons]
    exact hcount
  · rw [hlinks, List.append_assoc, List.singleton_append]

theorem checkOne (now : ℚ) (h : Ahead (e :: l) s p) :
    Agree (Ahead l) (s.checkOne w drop now e.1) (.ok (p.checkOne w drop now e)) := by
  obtain ⟨c, hc, hval⟩ := cell_of_ahead h
  show Agree _ (access (s.heap e.1) >>= _) _
  rw [hc]
  show Agree _ (if c.val.handler.check then _ else _) _
  rw [hval, h.1.rest, Pool.checkOne]
  dsimp only
  split_ifs with hcheck hgone
  · exact ahead_remove (h.inWorld _)
  · exact .ok (h.tail.inWorld _)
  · exact .ok h.tail

theorem checkRemove (h : Ahead (e :: l) s p) :
    Agree (Ahead l) (s.checkRemove w drop e.1) (.ok (p.checkRemove w drop e)) := by
  obtain ⟨c, hc, hval⟩ := cell_of_ahead h
  show Agree _ (access (s.heap e.1) >>= _) _
  rw [hc]
  show Agree _ (if c.val.handler.check then _ else _) _
  rw [hval, h.1.rest, Pool.checkRemove, Pool.checkOne]
  dsimp only
  split_ifs with hcheck hgone
  · exact ahead_remove (h.inWorld _)
  · exact .ok (h.tail.inWorld _)
  · exact ahead_remove h

/-- A link anywhere in the list. -/
theorem checkRemove_mem (h : Shows s p) (he : e ∈ p.links) :
    ∃ s', s.checkRemove w drop e.1 = .ok s' ∧ Shows s' (p.checkRemove w drop e) := by
  obtain ⟨l₁, l₂, hsplit⟩ := List.append_of_mem he
  have hgone : Agree (Ahead l₂) (s.checkRemove w drop e.1) (.ok (p.checkRemove w drop e)) :=
    checkRemove ⟨h, l₁, hsplit.symm⟩
  obtain ⟨s', hs', h'⟩ := hgone.to_ok rfl
  exact ⟨s', hs', h'.1⟩

/-- A fold whose rounds do not fail. -/
theorem foldlM_ok (f : Pool σ β κ → ℕ × Link β → Pool σ β κ) (l : List (ℕ × Link β)) (p : Pool σ β κ) :
    l.foldlM (fun p e => (.ok (f p e) : Except Fault (Pool σ β κ))) p = .ok (l.foldl f p) := by
  induction l generalizing p with
  | nil => rfl
  | cons e l ih => exact ih (f p e)

theorem setCheck (h : Shows s p) (r : ℚ × σ) : Shows (s.setCheck r) (p.setCheck r) :=
  ⟨h.stores, h.links, h.lcnt, by rw [State.setCheck, Pool.setCheck, h.rest], h.below,
    h.accounts⟩

theorem periodic (h : Shows s p) : ∃ s', s.periodic w drop = .ok s' ∧ Shows s' (p.periodic w drop) := by
  unfold State.periodic Pool.periodic
  rw [h.rest]
  generalize w.dtime p.rest.world = r
  have hnow := h.inWorld r.2
  dsimp only
  rw [hnow.rest]
  split_ifs with hdue
  · have hround : ∀ e l (s : State σ β κ) p, Ahead (e :: l) s p →
        Agree (Ahead l) (s.checkOne w drop r.1 e.1) (.ok (p.checkOne w drop r.1 e)) :=
      fun e l s p h => checkOne _ h
    have hloop := hnow.forEach hround
    rw [foldlM_ok] at hloop
    obtain ⟨s', hs', h'⟩ := hloop.to_ok rfl
    refine ⟨s'.setCheck (w.dtime s'.rest.world), ?_, ?_⟩
    · rw [hs']
      rfl
    · rw [h'.rest]
      exact h'.setCheck _
  · exact ⟨_, rfl, hnow⟩

/-- The loop of `agoo_ready_destroy` frees the first link of those that `next` leads over. -/
theorem destroyLoop_eq {s : State σ β κ} {l : List (ℕ × Link β)} (hfollows : Follows s.heap s.links (l.map Prod.fst))
    (hnodup : (l.map Prod.fst).Nodup) (hholds : ∀ e ∈ l, val s.heap e.1 = some e.2)
    (hempty : ∀ a ∉ l.map Prod.fst, s.heap a = none) {fuel : ℕ} (hfuel : l.length ≤ fuel) :
    ∃ s', s.destroyLoop w fuel = .ok s' ∧ (∀ a, s'.heap a = none) ∧ s'.links = none ∧
      s'.rest = l.foldl (fun r e => r.leave w e.2) s.rest := by
  induction l generalizing s fuel with
  | nil =>
    have hnull : s.links = none := hfollows
    refine ⟨s, ?_, fun a => hempty a List.not_mem_nil, hnull, rfl⟩
    rw [State.destroyLoop, hnull]
  | cons e l ih =>
    obtain ⟨fuel, rfl⟩ : ∃ k, fuel = k + 1 := ⟨fuel - 1, by rw [List.length_cons] at hfuel; omega⟩
    obtain ⟨hfirst, c, hc, hrest⟩ := hfollows
    obtain ⟨hnot, hnodup⟩ := List.nodup_cons.mp hnodup
    have hval : c.val = e.2 := by
      have hheld := hholds e List.mem_cons_self
      rw [val, hc] at hheld
      exact Option.some.inj hheld
    have hsame : ∀ a ∈ l.map Prod.fst, Function.update s.heap e.1 none a = s.heap a := fun a ha =>
      Function.update_of_ne (fun hae : a = e.1 => hnot (hae ▸ ha)) ..
    obtain ⟨s', hs', hheap, hnull, hr⟩ := ih
      (s := { s with heap := Function.update s.heap e.1 none, links := c.next, rest := s.rest.leave w c.val })
      (hrest.congr hsame) hnodup
      (fun d hd => by
        show val (Function.update s.heap e.1 none) d.1 = some d.2
        rw [val, hsame d.1 (List.mem_map_of_mem hd)]
        exact hholds d (List.mem_cons_of_mem _ hd))
      (fun a ha => by
        show Function.update s.heap e.1 none a = none
        by_cases hae : a = e.1
        · rw [hae, Function.update_self]
        · rw [Function.update_of_ne hae]
          exact hempty a (List.not_mem_cons_of_ne_of_not_mem hae ha))
      (Nat.le_of_succ_le_succ hfuel)
    refine ⟨s', ?_, hheap, hnull, ?_⟩
    · rw [State.destroyLoop, hfirst]
      show (access (s.heap e.1) >>= _) = _
      rw [hc]
      exact hs'
    · rw [hr, List.foldl_cons, hval]

theorem destroyAll_destroyed (w : World σ) (l : List (ℕ × Link β)) (r : Rest σ κ) :
    (l.foldl (fun r e => r.leave w e.2) r).destroyed = r.destroyed ++ (⟨l, r⟩ : Pool σ β κ).waiting := by
  induction l generalizing r with
  | nil => exact (List.append_nil _).symm
  | cons e l ih =>
    rw [List.foldl_cons, ih, leave_destroyed, waiting_cons, List.append_assoc]
    rfl

theorem destroyAll_added (w : World σ) (l : List (ℕ × Link β)) (r : Rest σ κ) :
    (l.foldl (fun r e => r.leave w e.2) r).added = r.added := by
  induction l generalizing r with
  | nil => rfl
  | cons e l ih => rw [List.foldl_cons, ih, leave_added]

/-- **When the manager is destroyed no link is left in memory, and each context is destroyed.** -/
theorem destroy (h : Shows s p) :
    ∃ s', s.agooReadyDestroy w = .ok s' ∧ (∀ a, s'.heap a = none) ∧ s'.rest.destroyed.Perm s'.rest.added := by
  have hfollows := h.stores.linked.follows
  rw [← h.links] at hfollows
  obtain ⟨s', hs', hheap, -, hr⟩ := destroyLoop_eq (w := w) hfollows h.stores.nodup h.stores.holds h.stores.empty
    (le_of_eq h.lcnt.symm)
  refine ⟨s', hs', hheap, ?_⟩
  rw [hr, h.rest]
  exact (destroyAll_destroyed w p.links p.rest).symm ▸ (destroyAll_added w p.links p.rest).symm ▸ h.accounts

end Shows

end Ready

end Agoo
