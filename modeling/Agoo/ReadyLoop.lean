import Agoo.ReadyPoll

/-!
# A con loop (`agoo_con_loop`)

The manager of a con loop has the con queue, the queue of publications and the connections in its list, the newest
first, so that the con queue is the last. Only reading the con queue adds links while `poll` is answered.

`Conns.conLoop_fault_iff`: **a run goes wrong exactly when the con queue is read and gives so many connections that
the array grows**; then the array that was freed is read.
-/

namespace Agoo

namespace Ready

variable {σ : Type}

/-! ## The code -/

/-- What is outside of a con loop, with a state of its own: the callbacks of `con_handler`, the clock, `poll`, the
connections that are taken from the con queue until it is empty, with their sockets, and what is done with the
publications. -/
structure Conns (σ : Type) where
  io : ℕ → σ → ReadyIo × σ
  check : ℕ → ℚ → σ → Bool × σ
  read : ℕ → σ → Bool × σ
  write : ℕ → σ → Bool × σ
  error : ℕ → σ → σ
  destroy : ℕ → σ → σ
  dtime : σ → ℚ × σ
  poll : List PollFd → σ → Option (ℕ × List Events) × σ
  pop : σ → List (ℕ × ℕ) × σ
  publish : σ → σ

/-- `con_queue_handler` and `pub_queue_handler`, apart from what their `read` does. -/
def queueHandler : Handler := ⟨false, true, false, false, false⟩

/-- `con_handler`. -/
def conHandler : Handler := ⟨true, true, true, true, true⟩

namespace Conns

variable (c : Conns σ)

/-- Connections are added with `con_handler`. A context is told here with its handler: 0 and 1 are the queues, and
connection `k` is `k + 2`. -/
def accept (popped : List (ℕ × ℕ)) : List New := popped.map fun d => ⟨d.1, conHandler, d.2 + 2⟩

/-- The callbacks. -/
def world : PollWorld σ where
  io ctx x :=
    match ctx with
    | 0 | 1 => (.input, x)
    | k + 2 => c.io k x
  check ctx now x :=
    match ctx with
    | 0 | 1 => (false, x)
    | k + 2 => c.check k now x
  read ctx x :=
    match ctx with
    | 0 => ((true, accept (c.pop x).1), (c.pop x).2)
    | 1 => ((true, []), c.publish x)
    | k + 2 => (((c.read k x).1, []), (c.read k x).2)
  write ctx x :=
    match ctx with
    | 0 | 1 => (true, x)
    | k + 2 => c.write k x
  error ctx x :=
    match ctx with
    | 0 | 1 => x
    | k + 2 => c.error k x
  destroy ctx x :=
    match ctx with
    | 0 | 1 => x
    | k + 2 => c.destroy k x
  dtime := c.dtime
  poll := c.poll

/-- The manager with the two queues. -/
def start (conFd pubFd : ℕ) (x : σ) : Except Fault (PollState σ) := do
  let s ← PollState.agooReadyAdd (agooReadyCreate c.world x) ⟨conFd, queueHandler, 0⟩
  PollState.agooReadyAdd s ⟨pubFd, queueHandler, 1⟩

/-- A round of `while (agoo_server.active)`. -/
def round (s : PollState σ) : Except Fault (PollState σ) := do
  let r := c.pop s.rest.world
  let s ← PollState.addAll (s.inWorld r.2) (accept r.1)
  PollState.agooReadyGo c.world (s.inWorld (c.publish s.rest.world))

def rounds : ℕ → PollState σ → Except Fault (PollState σ)
  | 0, s => .ok s
  | n + 1, s => do
    let s ← c.round s
    rounds n s

/-- `agoo_con_loop`, that many rounds of it. -/
def agooConLoop (conFd pubFd n : ℕ) (x : σ) : Except Fault (PollState σ) := do
  let s ← c.start conFd pubFd x
  c.rounds n s

/-! ### With a list -/

/-- A round before it waits. -/
def entered (p : PollPool σ) : PollPool σ :=
  let r := c.pop p.rest.world
  let p := PollPool.addAll (p.inWorld r.2) (accept r.1)
  p.inWorld (c.publish p.rest.world)

/-- When `poll` has answered; none when nothing is to be read. -/
def answer (p : PollPool σ) : Option (PollPool σ) :=
  let r := c.poll (p.rest.own.pa.take p.rest.own.pp) p.rest.world
  match r.1 with
  | none => none
  | some (i, revents) =>
    if 0 < i then some (PollPool.setArray (p.inWorld r.2) (p.rest.own.answered revents)) else none

def ready (p : PollPool σ) : Option (PollPool σ) :=
  match PollPool.armAll c.world p with
  | .error _ => none
  | .ok p => c.answer p

/-- The turn of the con queue comes: it can be read, and gives more connections than there is room for. -/
structure Bursts (e : ℕ × Link Place) (p : PollPool σ) (i : ℕ) (d : PollFd) : Prop where
  queue : e.2.ctx = 0
  place : e.2.own = .at p.rest.own.gen i
  answer : p.rest.own.pa[i]? = some d
  pollin : d.revents.pollin = true
  full : p.rest.own.pa.length ≤ p.links.length + (c.pop p.rest.world).1.length

/-- The last link bursts when the others are served. -/
def Overfull (p : PollPool σ) : Prop :=
  ∃ p₁ l e p₂ i d, c.ready p = some p₁ ∧ p₁.links = l ++ [e] ∧
    l.foldlM (fun p e => PollPool.serve c.world e p) p₁ = .ok p₂ ∧ c.Bursts e p₂ i d

end Conns

/-! ## What does not add links -/

/-- What is told of a link. -/
def role (e : ℕ × Link Place) : ℕ × Handler := (e.2.ctx, e.2.handler)

/-- No link comes, and the array is as long as before. -/
structure Shrinks (p p' : PollPool σ) : Prop where
  roles : (p'.links.map role).Sublist (p.links.map role)
  size : p'.rest.own.pa.length = p.rest.own.pa.length

namespace Shrinks

variable {p p' p'' : PollPool σ} {w : PollWorld σ}

theorem refl (p : PollPool σ) : Shrinks p p := ⟨List.Sublist.refl _, rfl⟩

theorem trans (h : Shrinks p p') (h' : Shrinks p' p'') : Shrinks p p'' :=
  ⟨h'.roles.trans h.roles, h'.size.trans h.size⟩

theorem leave_own (w : World σ) (k : Link Place) (r : Rest σ PollArray) : (r.leave w k).own = r.own := by
  unfold Rest.leave
  split_ifs <;> rfl

theorem remove (p : PollPool σ) (e : ℕ × Link Place) : Shrinks p (p.remove w.toWorld keepArray e) where
  roles := (List.filter_sublist).map role
  size := by
    rw [Pool.remove]
    dsimp only
    rw [leave_own]
    rfl

theorem inWorld (p : PollPool σ) (x : σ) : Shrinks p (p.inWorld x) := ⟨List.Sublist.refl _, rfl⟩

theorem checkOne (p : PollPool σ) (now : ℚ) (e : ℕ × Link Place) :
    Shrinks p (p.checkOne w.toWorld keepArray now e) := by
  unfold Pool.checkOne
  dsimp only
  split_ifs
  · exact (inWorld p _).trans (remove _ e)
  · exact inWorld p _
  · exact refl p

theorem checkRemove (p : PollPool σ) (e : ℕ × Link Place) :
    Shrinks p (p.checkRemove w.toWorld keepArray e) := by
  unfold Pool.checkRemove
  split_ifs
  · exact checkOne p 0 e
  · exact remove p e

theorem periodic (p : PollPool σ) : Shrinks p (p.periodic w.toWorld keepArray) := by
  unfold Pool.periodic
  dsimp only
  split_ifs
  · have hfold : ∀ (now : ℚ) (l : List (ℕ × Link Place)) (q : PollPool σ),
        Shrinks q (l.foldl (fun p e => p.checkOne w.toWorld keepArray now e) q) := by
      intro now l
      induction l with
      | nil => exact refl
      | cons e l ih => exact fun q => (checkOne q now e).trans (ih _)
    exact (inWorld p _).trans ((hfold _ _ _).trans ⟨List.Sublist.refl _, rfl⟩)
  · exact inWorld p _

end Shrinks

/-! ## The first loop -/

/-- The place of a link is one of the array. -/
def Armed (t : PollArray) (e : ℕ × Link Place) : Prop :=
  e.2.own = .null ∨ ∃ i < t.pa.length, e.2.own = .at t.gen i

theorem put_ok {t : PollArray} (h : t.pp < t.pa.length) (f : PollFd → PollFd) :
    ∃ pa, t.put f = .ok { t with pa := pa } ∧ pa.length = t.pa.length := by
  refine ⟨t.pa.set t.pp (f t.pa[t.pp]), ?_, List.length_set⟩
  rw [PollArray.put, List.getElem?_eq_getElem h]

section Arm

variable {w : PollWorld σ}

/-- A link is armed. -/
theorem arm_ok {p : PollPool σ} {e : ℕ × Link Place} {l₁ l₂ : List (ℕ × Link Place)}
    (hsplit : p.links = l₁ ++ e :: l₂) (hapart : e.1 ∉ (l₁ ++ l₂).map Prod.fst)
    (hpp : p.rest.own.pp < p.rest.own.pa.length) :
    ∃ p' v, PollPool.arm w e p = .ok p' ∧ p'.links = l₁ ++ (e.1, { e.2 with own := v }) :: l₂ ∧
      p'.rest.own.gen = p.rest.own.gen ∧ p'.rest.own.pa.length = p.rest.own.pa.length ∧
      p'.rest.own.pp ≤ p.rest.own.pp + 1 ∧ Armed p'.rest.own (e.1, { e.2 with own := v }) := by
  obtain ⟨pa, hput, hlen⟩ := put_ok hpp fun d => { d with fd := e.2.fd, revents := noEvents }
  cases hev : (w.io e.2.ctx p.rest.world).1.events with
  | none =>
    refine ⟨(PollPool.setArray (p.inWorld (w.io e.2.ctx p.rest.world).2) { p.rest.own with pa := pa }).setOwn e .null,
      .null, ?_, setOwn_links hsplit hapart _, rfl, hlen, Nat.le_succ _, Or.inl rfl⟩
    simp only [PollPool.arm, hput, hev, bind, Except.bind, pure, Except.pure]
  | some ev =>
    obtain ⟨pa', hput', hlen'⟩ := put_ok (t := { p.rest.own with pa := pa }) (lt_of_lt_of_eq hpp hlen.symm)
      fun d => { d with events := ev }
    refine ⟨(PollPool.setArray (p.inWorld (w.io e.2.ctx p.rest.world).2)
      { p.rest.own with pa := pa', pp := p.rest.own.pp + 1 }).setOwn e (.at p.rest.own.gen p.rest.own.pp),
      .at p.rest.own.gen p.rest.own.pp, ?_, setOwn_links hsplit hapart _, rfl, hlen'.trans hlen,
      Nat.le_refl _, Or.inr ⟨p.rest.own.pp, lt_of_lt_of_eq hpp (hlen'.trans hlen).symm, rfl⟩⟩
    simp only [PollPool.arm, hput, hev, hput', bind, Except.bind, pure, Except.pure]

theorem armLoop_ok {p : PollPool σ} (l₁ : List (ℕ × Link Place)) {l₂ : List (ℕ × Link Place)} (hsplit : p.links = l₁ ++ l₂)
    (hnodup : (p.links.map Prod.fst).Nodup) (hpp : p.rest.own.pp ≤ l₁.length)
    (hfits : p.links.length ≤ p.rest.own.pa.length) (harmed : ∀ e ∈ l₁, Armed p.rest.own e) :
    ∃ p', l₂.foldlM (fun p e => PollPool.arm w e p) p = .ok p' ∧ p'.links.map role = p.links.map role ∧
      p'.links.map Prod.fst = p.links.map Prod.fst ∧ p'.rest.own.pa.length = p.rest.own.pa.length ∧
      ∀ e ∈ p'.links, Armed p'.rest.own e := by
  induction l₂ generalizing p l₁ with
  | nil =>
    rw [List.append_nil] at hsplit
    exact ⟨p, rfl, rfl, rfl, rfl, hsplit ▸ harmed⟩
  | cons e l₂ ih =>
    have hlen : p.links.length = l₁.length + (l₂.length + 1) := by
      rw [hsplit, List.length_append, List.length_cons]
    have hapart : e.1 ∉ (l₁ ++ l₂).map Prod.fst := by
      rw [hsplit, List.map_append, List.map_cons] at hnodup
      rw [List.map_append]
      exact (List.nodup_cons.mp (List.nodup_middle.mp hnodup)).1
    obtain ⟨p₁, v, harm, hlinks, hgen, hsize, hpp₁, harmed₁⟩ := arm_ok (w := w) hsplit hapart (by omega)
    have hroles : p₁.links.map role = p.links.map role := by
      rw [hlinks, hsplit, List.map_append, List.map_append, List.map_cons, List.map_cons]
      rfl
    have hmap : p₁.links.map Prod.fst = p.links.map Prod.fst := by
      rw [hlinks, hsplit, List.map_append, List.map_append, List.map_cons, List.map_cons]
    obtain ⟨p', hfold, hroles', hmap', hsize', harmed'⟩ := ih (p := p₁) (l₁ ++ [(e.1, { e.2 with own := v })])
      (by rw [hlinks, List.append_assoc, List.singleton_append]) (hmap ▸ hnodup)
      (by rw [List.length_append, List.length_singleton]; omega)
      (by rw [← List.length_map (f := Prod.fst), hmap, List.length_map, hsize]; exact hfits)
      (fun d hd => by
        rcases List.mem_append.mp hd with hd | hd
        · have hold := harmed d hd
          unfold Armed at hold ⊢
          rw [hgen, hsize]
          exact hold
        · rw [List.mem_singleton.mp hd]
          exact harmed₁)
    refine ⟨p', ?_, hroles'.trans hroles, hmap'.trans hmap, hsize'.trans hsize, harmed'⟩
    rw [List.foldlM_cons, harm]
    exact hfold

/-- **The first loop does not leave the array.** -/
theorem armAll_ok {p : PollPool σ} (hnodup : (p.links.map Prod.fst).Nodup)
    (hfits : p.links.length ≤ p.rest.own.pa.length) :
    ∃ p', PollPool.armAll w p = .ok p' ∧ p'.links.map role = p.links.map role ∧
      p'.links.map Prod.fst = p.links.map Prod.fst ∧ p'.rest.own.pa.length = p.rest.own.pa.length ∧
      ∀ e ∈ p'.links, Armed p'.rest.own e :=
  armLoop_ok (p := PollPool.setArray p { p.rest.own with pp := 0 }) [] rfl hnodup (Nat.le_refl 0) hfits nofun

end Arm

/-! ## Links are added -/

section Add

variable {p : PollPool σ}

theorem addAll_cons (p : PollPool σ) (n : New) (news : List New) :
    PollPool.addAll p (n :: news) = PollPool.addAll (PollPool.agooReadyAdd p n) news := rfl

theorem add_own (p : PollPool σ) (n : New) :
    (PollPool.agooReadyAdd p n).rest.own = p.rest.own.grow (p.links.length + 1) := rfl

theorem add_length (p : PollPool σ) (n : New) : (PollPool.agooReadyAdd p n).links.length = p.links.length + 1 := rfl

theorem le_gen_grow (t : PollArray) (lcnt : ℕ) : t.gen ≤ (t.grow lcnt).gen := by
  unfold PollArray.grow
  split_ifs
  · exact Nat.le_succ _
  · exact Nat.le_refl _

theorem le_gen_addAll (p : PollPool σ) (news : List New) :
    p.rest.own.gen ≤ (PollPool.addAll p news).rest.own.gen := by
  induction news generalizing p with
  | nil => exact Nat.le_refl _
  | cons n news ih => exact (le_gen_grow _ _).trans (ih (PollPool.agooReadyAdd p n))

/-- With room for all the array is not moved. -/
theorem addAll_room {news : List New} (hroom : p.links.length + news.length < p.rest.own.pa.length) :
    (PollPool.addAll p news).rest.own = p.rest.own := by
  induction news generalizing p with
  | nil => rfl
  | cons n news ih =>
    rw [List.length_cons] at hroom
    have hsame : (PollPool.agooReadyAdd p n).rest.own = p.rest.own := by
      rw [add_own, PollArray.grow, if_neg (by omega)]
    rw [addAll_cons, ih (by rw [hsame, add_length]; omega), hsame]

/-- Without room for all it is. -/
theorem addAll_moved {news : List New} (hfits : p.links.length < p.rest.own.pa.length)
    (hfull : p.rest.own.pa.length ≤ p.links.length + news.length) :
    p.rest.own.gen < (PollPool.addAll p news).rest.own.gen := by
  induction news generalizing p with
  | nil =>
    rw [List.length_nil] at hfull
    omega
  | cons n news ih =>
    rw [List.length_cons] at hfull
    rw [addAll_cons]
    by_cases hgrow : p.rest.own.pa.length ≤ p.links.length + 1
    · refine Nat.lt_of_lt_of_le ?_ (le_gen_addAll (PollPool.agooReadyAdd p n) news)
      rw [add_own, PollArray.grow, if_pos hgrow]
      exact Nat.lt_succ_self _
    · have hsame : (PollPool.agooReadyAdd p n).rest.own = p.rest.own := by
        rw [add_own, PollArray.grow, if_neg hgrow]
      have hmoved := ih (p := PollPool.agooReadyAdd p n) (by rw [hsame, add_length]; omega)
        (by rw [hsame, add_length]; omega)
      rwa [hsame] at hmoved

end Add

/-! ## The second loop -/

/-- The array is as before, no link comes, and those ahead stay the last ones. -/
structure Keeps (l : List (ℕ × Link Place)) (p p' : PollPool σ) : Prop where
  own : p'.rest.own = p.rest.own
  links : p'.links.Sublist p.links
  ahead : l <:+ p'.links

section Serve

variable {w : PollWorld σ} {p p' p'' : PollPool σ} {e : ℕ × Link Place} {l l' : List (ℕ × Link Place)}

theorem Keeps.trans (h : Keeps l p p') (h' : Keeps l' p' p'') : Keeps l' p p'' :=
  ⟨h'.own.trans h.own, h'.links.trans h.links, h'.ahead⟩

theorem Keeps.inWorld (h : Keeps l p p') (x : σ) : Keeps l p (p'.inWorld x) := ⟨h.own, h.links, h.ahead⟩

theorem Keeps.tail (h : Keeps (e :: l) p p') : Keeps l p p' := ⟨h.own, h.links, (List.suffix_cons e l).trans h.ahead⟩

theorem Keeps.nodup (h : Keeps l p p') (hnodup : (p.links.map Prod.fst).Nodup) : (p'.links.map Prod.fst).Nodup :=
  hnodup.sublist (h.links.map _)

theorem keeps_self (h : l <:+ p.links) : Keeps l p p := ⟨rfl, List.Sublist.refl _, h⟩

/-- Addresses are not in the list twice. -/
theorem apart_of_nodup {l₁ l₂ : List (ℕ × Link Place)} (h : ((l₁ ++ e :: l₂).map Prod.fst).Nodup) :
    e.1 ∉ (l₁ ++ l₂).map Prod.fst := by
  rw [List.map_append, List.map_cons] at h
  rw [List.map_append]
  exact (List.nodup_cons.mp (List.nodup_middle.mp h)).1

theorem remove_keeps (h : Keeps (e :: l) p p') (hnodup : (p.links.map Prod.fst).Nodup) :
    Keeps l p (p'.remove w.toWorld keepArray e) := by
  obtain ⟨l₁, hl₁⟩ := h.ahead
  refine ⟨?_, List.filter_sublist.trans h.links, l₁, ?_⟩
  · rw [← h.own, Pool.remove]
    exact Shrinks.leave_own _ _ _
  · rw [Pool.remove, ← hl₁]
    exact (filter_address (apart_of_nodup (hl₁ ▸ h.nodup hnodup))).symm

theorem checkRemove_keeps (h : Keeps (e :: l) p p') (hnodup : (p.links.map Prod.fst).Nodup) :
    Keeps l p (p'.checkRemove w.toWorld keepArray e) := by
  unfold Pool.checkRemove Pool.checkOne
  dsimp only
  split_ifs
  · exact remove_keeps (h.inWorld _) hnodup
  · exact h.tail.inWorld _
  · exact remove_keeps h hnodup

theorem revents_at {t : PollArray} {i : ℕ} {d : PollFd} (h : t.pa[i]? = some d) :
    t.revents t.gen i = .ok d.revents := by
  rw [PollArray.revents, if_pos rfl, h]

theorem revents_moved {t : PollArray} {gen i : ℕ} (h : gen ≠ t.gen) : t.revents gen i = .error .slot := by
  rw [PollArray.revents, if_neg h]

variable {i : ℕ} {d : PollFd}

theorem serveWrite_ok (h : Keeps (e :: l) p p') (hnodup : (p.links.map Prod.fst).Nodup)
    (hd : p.rest.own.pa[i]? = some d) : ∃ b p'', PollPool.serveWrite w e p.rest.own.gen i p' = .ok (b, p'') ∧
      Keeps (if b then l else e :: l) p p'' := by
  unfold PollPool.serveWrite
  rw [h.own, revents_at hd]
  show ∃ b p'', (if d.revents.pollout && e.2.handler.write then _ else _) = _ ∧ _
  split_ifs with hwrite hkeep
  · exact ⟨false, _, rfl, h.inWorld _⟩
  · exact ⟨true, _, rfl, checkRemove_keeps (h.inWorld _) hnodup⟩
  · exact ⟨false, _, rfl, h⟩

theorem serveError_ok (h : Keeps (e :: l) p p') (hnodup : (p.links.map Prod.fst).Nodup)
    (hd : p.rest.own.pa[i]? = some d) :
    ∃ p'', PollPool.serveError w e p.rest.own.gen i p' = .ok p'' ∧ Keeps l p p'' := by
  unfold PollPool.serveError
  rw [h.own, revents_at hd]
  show ∃ p'', (if d.revents.bad then _ else _) = _ ∧ _
  split_ifs with hbad herror
  · exact ⟨_, rfl, checkRemove_keeps (h.inWorld _) hnodup⟩
  · exact ⟨_, rfl, checkRemove_keeps h hnodup⟩
  · exact ⟨_, rfl, h.tail⟩

/-- The parts behind the one that reads. -/
theorem serveRest_ok (h : Keeps (e :: l) p p') (hnodup : (p.links.map Prod.fst).Nodup)
    (hd : p.rest.own.pa[i]? = some d) :
    ∃ p'', (PollPool.serveWrite w e p.rest.own.gen i p' >>= fun r =>
        if r.1 then pure r.2 else PollPool.serveError w e p.rest.own.gen i r.2) = .ok p'' ∧ Keeps l p p'' := by
  obtain ⟨b, p₁, hrun, h₁⟩ := serveWrite_ok (w := w) h hnodup hd
  rw [hrun]
  cases b with
  | true => exact ⟨p₁, rfl, h₁⟩
  | false => exact serveError_ok h₁ hnodup hd

/-- **A link that adds nothing is served.** -/
theorem serve_ok (hquiet : ∀ x, (w.read e.2.ctx x).1.2 = []) (hahead : e :: l <:+ p.links)
    (hnodup : (p.links.map Prod.fst).Nodup) (harmed : Armed p.rest.own e) :
    ∃ p', PollPool.serve w e p = .ok p' ∧ Keeps l p p' := by
  have hself := keeps_self hahead
  unfold PollPool.serve
  rcases harmed with hnull | ⟨i, hi, hat⟩
  · rw [hnull]
    exact ⟨p, rfl, hself.tail⟩
  · rw [hat]
    have hd : p.rest.own.pa[i]? = some p.rest.own.pa[i] := List.getElem?_eq_getElem hi
    have hread : ∃ b p', PollPool.serveRead w e p.rest.own.gen i p = .ok (b, p') ∧
        Keeps (if b then l else e :: l) p p' := by
      unfold PollPool.serveRead
      rw [revents_at hd]
      show ∃ b p', (if p.rest.own.pa[i].revents.pollin && e.2.handler.read then _ else _) = _ ∧ _
      rw [hquiet]
      split_ifs with hread hkeep
      · exact ⟨false, _, rfl, hself.inWorld _⟩
      · exact ⟨true, _, rfl, checkRemove_keeps (hself.inWorld _) hnodup⟩
      · exact ⟨false, _, rfl, hself⟩
    obtain ⟨b, p₁, hrun, h₁⟩ := hread
    dsimp only
    rw [hrun]
    cases b with
    | true => exact ⟨p₁, rfl, h₁⟩
    | false => exact serveRest_ok h₁ hnodup hd

theorem serveLoop_ok {l₁ : List (ℕ × Link Place)} (hquiet : ∀ e ∈ l₁, ∀ x, (w.read e.2.ctx x).1.2 = [])
    (hahead : l₁ ++ l <:+ p.links) (hnodup : (p.links.map Prod.fst).Nodup)
    (harmed : ∀ e ∈ l₁, Armed p.rest.own e) :
    ∃ p', l₁.foldlM (fun p e => PollPool.serve w e p) p = .ok p' ∧ Keeps l p p' := by
  induction l₁ generalizing p with
  | nil => exact ⟨p, rfl, keeps_self hahead⟩
  | cons e l₁ ih =>
    obtain ⟨hquiet₀, hquiet⟩ := List.forall_mem_cons.mp hquiet
    obtain ⟨harmed₀, harmed⟩ := List.forall_mem_cons.mp harmed
    obtain ⟨p₁, hrun, h₁⟩ := serve_ok hquiet₀ (l := l₁ ++ l) hahead hnodup harmed₀
    obtain ⟨p', hfold, h'⟩ := ih hquiet h₁.ahead (h₁.nodup hnodup) (h₁.own ▸ harmed)
    refine ⟨p', ?_, h₁.trans h'⟩
    rw [List.foldlM_cons, hrun]
    exact hfold

/-- The parts behind the one that reads do not go wrong while the array is not moved. -/
theorem serveRest_total (hown : p'.rest.own = p.rest.own) (hd : p.rest.own.pa[i]? = some d) :
    ∃ p'', (PollPool.serveWrite w e p.rest.own.gen i p' >>= fun r =>
        if r.1 then pure r.2 else PollPool.serveError w e p.rest.own.gen i r.2) = .ok p'' := by
  have hwrite : ∃ b p'', PollPool.serveWrite w e p.rest.own.gen i p' = .ok (b, p'') ∧
      (b = false → p''.rest.own = p.rest.own) := by
    unfold PollPool.serveWrite
    rw [hown, revents_at hd]
    show ∃ b p'', (if d.revents.pollout && e.2.handler.write then _ else _) = _ ∧ _
    split_ifs
    · exact ⟨false, _, rfl, fun _ => hown⟩
    · exact ⟨true, _, rfl, nofun⟩
    · exact ⟨false, _, rfl, fun _ => hown⟩
  obtain ⟨b, p₁, hrun, hsame⟩ := hwrite
  rw [hrun]
  cases b with
  | true => exact ⟨p₁, rfl⟩
  | false =>
    show ∃ p'', PollPool.serveError w e p.rest.own.gen i p₁ = .ok p''
    unfold PollPool.serveError
    rw [hsame rfl, revents_at hd]
    show ∃ p'', (if d.revents.bad then _ else _) = _
    split_ifs <;> exact ⟨_, rfl⟩

/-- The array was moved before. -/
theorem serveRest_moved {gen : ℕ} (hgen : gen ≠ p.rest.own.gen) :
    (PollPool.serveWrite w e gen i p >>= fun r =>
      if r.1 then pure r.2 else PollPool.serveError w e gen i r.2) = .error .slot := by
  rw [PollPool.serveWrite, revents_moved hgen]
  rfl

end Serve

/-! ## The con queue -/

namespace Conns

variable (c : Conns σ) {p : PollPool σ} {e : ℕ × Link Place}

/-- Only the con queue adds. -/
theorem world_quiet {ctx : ℕ} (h : ctx ≠ 0) (x : σ) : (c.world.read ctx x).1.2 = [] := by
  match ctx with
  | 0 => exact absurd rfl h
  | 1 => rfl
  | k + 2 => rfl

/-- **The turn of the con queue goes wrong exactly when it bursts.** -/
theorem serve_queue (hctx : e.2.ctx = 0) (hhandler : e.2.handler = queueHandler)
    (hfits : p.links.length < p.rest.own.pa.length) {i : ℕ} {d : PollFd}
    (hat : e.2.own = .at p.rest.own.gen i) (hd : p.rest.own.pa[i]? = some d) (f : Fault) :
    PollPool.serve c.world e p = .error f ↔ f = .slot ∧ c.Bursts e p i d := by
  have hserve : PollPool.serve c.world e p = (PollPool.serveRead c.world e p.rest.own.gen i p >>= fun r =>
      if r.1 then pure r.2 else PollPool.serveWrite c.world e p.rest.own.gen i r.2 >>= fun r =>
        if r.1 then pure r.2 else PollPool.serveError c.world e p.rest.own.gen i r.2) := by
    rw [PollPool.serve, hat]
  have hread : PollPool.serveRead c.world e p.rest.own.gen i p = .ok (false,
      if d.revents.pollin then
        PollPool.addAll (p.inWorld (c.pop p.rest.world).2) (accept (c.pop p.rest.world).1) else p) := by
    unfold PollPool.serveRead
    rw [revents_at hd, hctx, hhandler]
    show (if d.revents.pollin && true then _ else _) = _
    rw [Bool.and_true]
    cases d.revents.pollin <;> rfl
  rw [hserve, hread]
  cases hin : d.revents.pollin with
  | false =>
    have hown : p.rest.own = p.rest.own := rfl
    obtain ⟨p', hp'⟩ := serveRest_total (w := c.world) (e := e) hown hd
    refine ⟨fun h => ?_, fun h => ?_⟩
    · cases hp'.symm.trans h
    · cases hin.symm.trans h.2.pollin
  | true =>
    have hlen : (accept (c.pop p.rest.world).1).length = (c.pop p.rest.world).1.length := List.length_map _
    by_cases hfull : p.rest.own.pa.length ≤ p.links.length + (c.pop p.rest.world).1.length
    · have hmoved := addAll_moved (p := p.inWorld (c.pop p.rest.world).2) hfits (hlen.symm ▸ hfull)
      refine ⟨fun h => ⟨?_, hctx, hat, hd, hin, hfull⟩, fun h => ?_⟩
      · have hslot := OnlySlot.serve (w := c.world) e p f
        rw [hserve, hread, hin] at hslot
        exact hslot h
      · rw [h.1]
        exact serveRest_moved (Nat.ne_of_lt hmoved)
    · have hroom : p.links.length + (accept (c.pop p.rest.world).1).length < p.rest.own.pa.length := by
        rw [hlen]
        exact Nat.lt_of_not_le hfull
      have hsame := addAll_room (p := p.inWorld (c.pop p.rest.world).2) hroom
      obtain ⟨p', hp'⟩ := serveRest_total (w := c.world) (e := e) (p := p) hsame hd
      refine ⟨fun h => ?_, fun h => ?_⟩
      · cases hp'.symm.trans h
      · exact absurd h.2.full hfull

end Conns

/-! ## Runs -/

/-- What holds between two rounds. The con queue is the last link, if it is in the list. -/
structure Loop (p : PollPool σ) : Prop where
  fits : p.links.length < p.rest.own.pa.length
  size : 1024 ≤ p.rest.own.pa.length
  last : (p.links.map role).Pairwise fun r _ => r.1 ≠ 0
  queue : ∀ r ∈ p.links.map role, r.1 = 0 → r.2 = queueHandler

namespace Loop

variable {p p' : PollPool σ} {w : PollWorld σ} {c : Conns σ}

theorem shrinks (h : Loop p) (hs : Shrinks p p') : Loop p' where
  fits := by
    have hlen := hs.roles.length_le
    rw [List.length_map, List.length_map] at hlen
    rw [hs.size]
    exact Nat.lt_of_le_of_lt hlen h.fits
  size := hs.size ▸ h.size
  last := h.last.sublist hs.roles
  queue r hr := h.queue r (hs.roles.subset hr)

theorem add (h : Loop p) {n : New} (hn : n.ctx ≠ 0) : Loop (PollPool.agooReadyAdd p n) := by
  have hfits := h.fits
  have hsize := h.size
  have hgrow : p.links.length + 1 < (p.rest.own.grow (p.links.length + 1)).pa.length ∧
      1024 ≤ (p.rest.own.grow (p.links.length + 1)).pa.length := by
    unfold PollArray.grow
    split_ifs
    · rw [PollArray.zeros, List.length_replicate]
      omega
    · omega
  exact ⟨hgrow.1, hgrow.2, List.pairwise_cons.mpr ⟨fun _ _ => hn, h.last⟩,
    List.forall_mem_cons.mpr ⟨fun h0 => absurd h0 hn, h.queue⟩⟩

theorem addAll (h : Loop p) {news : List New} (hnews : ∀ n ∈ news, n.ctx ≠ 0) : Loop (PollPool.addAll p news) := by
  induction news generalizing p with
  | nil => exact h
  | cons n news ih =>
    obtain ⟨hn, hnews⟩ := List.forall_mem_cons.mp hnews
    exact ih (h.add hn) hnews

theorem accept_ctx (popped : List (ℕ × ℕ)) : ∀ n ∈ Conns.accept popped, n.ctx ≠ 0 := by
  intro n hn
  obtain ⟨d, -, rfl⟩ := List.mem_map.mp hn
  exact Nat.succ_ne_zero _

theorem read_ctx (ctx : ℕ) (x : σ) : ∀ n ∈ (c.world.read ctx x).1.2, n.ctx ≠ 0 := by
  match ctx with
  | 0 => exact accept_ctx _
  | 1 => exact nofun
  | k + 2 => exact nofun

theorem entered (h : Loop p) : Loop (c.entered p) :=
  ((h.shrinks (Shrinks.inWorld p _)).addAll (accept_ctx _)).shrinks (Shrinks.inWorld _ _)

theorem of_same (h : Loop p) (hroles : p'.links.map role = p.links.map role)
    (hsize : p'.rest.own.pa.length = p.rest.own.pa.length) : Loop p' :=
  h.shrinks ⟨hroles ▸ List.Sublist.refl _, hsize⟩

theorem length_answered (t : PollArray) (revents : List Events) : (t.answered revents).pa.length = t.pa.length :=
  List.length_mapIdx

theorem answered (h : Loop p) (x : σ) (revents : List Events) :
    Loop (PollPool.setArray (p.inWorld x) (p.rest.own.answered revents)) :=
  h.of_same rfl (length_answered _ _)

variable {e : ℕ × Link Place}

theorem serveRead (h : Loop p) {gen i : ℕ} {r : Bool × PollPool σ}
    (hr : PollPool.serveRead c.world e gen i p = .ok r) : Loop r.2 := by
  obtain ⟨ev, -, hr⟩ := bind_ok hr
  dsimp only at hr
  split_ifs at hr
  · cases hr
    exact (h.shrinks (Shrinks.inWorld p _)).addAll (read_ctx _ _)
  · cases hr
    exact ((h.shrinks (Shrinks.inWorld p _)).addAll (read_ctx _ _)).shrinks (Shrinks.checkRemove _ e)
  · cases hr
    exact h

theorem serveWrite (h : Loop p) {gen i : ℕ} {r : Bool × PollPool σ}
    (hr : PollPool.serveWrite c.world e gen i p = .ok r) : Loop r.2 := by
  obtain ⟨ev, -, hr⟩ := bind_ok hr
  dsimp only at hr
  split_ifs at hr
  · cases hr
    exact h.shrinks (Shrinks.inWorld p _)
  · cases hr
    exact h.shrinks ((Shrinks.inWorld p _).trans (Shrinks.checkRemove _ e))
  · cases hr
    exact h

theorem serveError (h : Loop p) {gen i : ℕ} (hr : PollPool.serveError c.world e gen i p = .ok p') : Loop p' := by
  obtain ⟨ev, -, hr⟩ := bind_ok hr
  dsimp only at hr
  split_ifs at hr
  · cases hr
    exact h.shrinks ((Shrinks.inWorld p _).trans (Shrinks.checkRemove _ e))
  · cases hr
    exact h.shrinks (Shrinks.checkRemove p e)
  · cases hr
    exact h

theorem serve (h : Loop p) (hr : PollPool.serve c.world e p = .ok p') : Loop p' := by
  unfold PollPool.serve at hr
  cases hown : e.2.own with
  | unset =>
    rw [hown] at hr
    exact nomatch hr
  | null =>
    rw [hown] at hr
    cases hr
    exact h
  | «at» gen i =>
    rw [hown] at hr
    obtain ⟨r, hread, hr⟩ := bind_ok hr
    have h₁ := h.serveRead hread
    split_ifs at hr
    · cases hr
      exact h₁
    · obtain ⟨r', hwrite, hr⟩ := bind_ok hr
      have h₂ := h₁.serveWrite hwrite
      split_ifs at hr
      · cases hr
        exact h₂
      · exact h₂.serveError hr

theorem serveLoop (h : Loop p) {l : List (ℕ × Link Place)}
    (hr : l.foldlM (fun p e => PollPool.serve c.world e p) p = .ok p') : Loop p' := by
  induction l generalizing p with
  | nil =>
    cases hr
    exact h
  | cons e l ih =>
    rw [List.foldlM_cons] at hr
    obtain ⟨p₁, hserve, hr⟩ := bind_ok hr
    exact ih (h.serve hserve) hr

end Loop

namespace Conns

variable {c : Conns σ} {p p₁ : PollPool σ}

/-- The second loop goes wrong at the last link or not at all. -/
theorem serveLoop_error_iff (h : Loop p₁) (hnodup : (p₁.links.map Prod.fst).Nodup)
    (harmed : ∀ e ∈ p₁.links, Armed p₁.rest.own e) (f : Fault) :
    p₁.links.foldlM (fun p e => PollPool.serve c.world e p) p₁ = .error f ↔ f = .slot ∧
      ∃ l e p₂ i d, p₁.links = l ++ [e] ∧ l.foldlM (fun p e => PollPool.serve c.world e p) p₁ = .ok p₂ ∧
        c.Bursts e p₂ i d := by
  rcases List.eq_nil_or_concat p₁.links with hnil | ⟨l, e, hlast⟩
  · rw [hnil]
    refine ⟨fun h => (by cases h), fun h => ?_⟩
    obtain ⟨-, l, e, p₂, i, d, hlinks, -⟩ := h
    exact absurd hlinks (by simp)
  rw [List.concat_eq_append] at hlast
  have hquiet : ∀ d ∈ l, ∀ x, (c.world.read d.2.ctx x).1.2 = [] := by
    intro d hd
    have hpair := h.last
    rw [hlast, List.map_append] at hpair
    exact world_quiet c ((List.pairwise_append.mp hpair).2.2 _ (List.mem_map_of_mem hd) _
      (List.mem_map_of_mem List.mem_cons_self))
  obtain ⟨p₂, hothers, hkeeps⟩ := serveLoop_ok hquiet (l := [e]) (hlast ▸ List.suffix_refl _) hnodup
    fun d hd => harmed d (hlast ▸ List.mem_append_left _ hd)
  have hfold : p₁.links.foldlM (fun p e => PollPool.serve c.world e p) p₁ = PollPool.serve c.world e p₂ := by
    rw [hlast, List.foldlM_append, hothers]
    show (PollPool.serve c.world e p₂ >>= pure) = _
    cases PollPool.serve c.world e p₂ <;> rfl
  have hmem : e ∈ p₁.links := hlast ▸ List.mem_append_right _ List.mem_cons_self
  have harmed₂ : Armed p₂.rest.own e := hkeeps.own ▸ harmed e hmem
  have hturn : PollPool.serve c.world e p₂ = .error f ↔ f = .slot ∧ ∃ i d, c.Bursts e p₂ i d := by
    by_cases hctx : e.2.ctx = 0
    · have hhandler : e.2.handler = queueHandler := h.queue (role e) (List.mem_map_of_mem hmem) hctx
      rcases harmed₂ with hnull | ⟨i, hi, hat⟩
      · rw [PollPool.serve, hnull]
        refine ⟨fun h => (by cases h), fun h => ?_⟩
        obtain ⟨-, i, d, hbursts⟩ := h
        cases hnull.symm.trans hbursts.place
      · have hfits : p₂.links.length < p₂.rest.own.pa.length := by
          rw [hkeeps.own]
          exact Nat.lt_of_le_of_lt hkeeps.links.length_le h.fits
        rw [serve_queue c hctx hhandler hfits hat (List.getElem?_eq_getElem hi) f]
        refine and_congr_right fun _ => ⟨fun hbursts => ⟨i, _, hbursts⟩, fun h => ?_⟩
        obtain ⟨i', d, hbursts⟩ := h
        obtain rfl : i = i' := (Place.at.inj (hat.symm.trans hbursts.place)).2
        obtain rfl := Option.some.inj ((List.getElem?_eq_getElem hi).symm.trans hbursts.answer)
        exact hbursts
    · obtain ⟨p', hserve, -⟩ := serve_ok (w := c.world) (l := []) (world_quiet c hctx) hkeeps.ahead
        (hkeeps.nodup hnodup) harmed₂
      rw [hserve]
      refine ⟨fun h => (by cases h), fun h => ?_⟩
      obtain ⟨-, i, d, hbursts⟩ := h
      exact absurd hbursts.queue hctx
  rw [hfold, hturn]
  refine and_congr_right fun _ => ⟨fun h => ?_, fun h => ?_⟩
  · obtain ⟨i, d, hbursts⟩ := h
    exact ⟨l, e, p₂, i, d, hlast, hothers, hbursts⟩
  · obtain ⟨l', e', p₂', i, d, hlast', hothers', hbursts⟩ := h
    obtain ⟨rfl, hsingle⟩ := List.append_inj' (hlast.symm.trans hlast') rfl
    obtain rfl := List.singleton_inj.mp hsingle
    obtain rfl := Except.ok.inj (hothers.symm.trans hothers')
    exact ⟨i, d, hbursts⟩

/-- A pass: nothing is to be read, or the second loop is run. -/
theorem go_cases (h : Loop p) (hnodup : (p.links.map Prod.fst).Nodup) :
    (c.ready p = none ∧ ∃ p', PollPool.agooReadyGo c.world p = .ok p' ∧ Loop p') ∨
      ∃ p₁, c.ready p = some p₁ ∧ PollPool.agooReadyGo c.world p =
          (p₁.links.foldlM (fun p e => PollPool.serve c.world e p) p₁ >>= fun p =>
            pure (p.periodic c.world.toWorld keepArray)) ∧
        Loop p₁ ∧ (p₁.links.map Prod.fst).Nodup ∧ ∀ e ∈ p₁.links, Armed p₁.rest.own e := by
  obtain ⟨p₁, harm, hroles, hmap, hsize, harmed⟩ := armAll_ok (w := c.world) hnodup (le_of_lt h.fits)
  have h₁ : Loop p₁ := h.of_same hroles hsize
  have hready : c.ready p = c.answer p₁ := by
    rw [ready, harm]
  have hgo : PollPool.agooReadyGo c.world p = PollPool.wait c.world p₁ := by
    rw [PollPool.agooReadyGo, harm]
    rfl
  rw [hready, hgo]
  unfold answer PollPool.wait
  rw [show c.world.poll = c.poll from rfl]
  generalize c.poll (p₁.rest.own.pa.take p₁.rest.own.pp) p₁.rest.world = r
  obtain ⟨answer, x⟩ := r
  cases answer with
  | none => exact Or.inl ⟨rfl, _, rfl, h₁.shrinks (Shrinks.inWorld p₁ x)⟩
  | some answer =>
    obtain ⟨i, revents⟩ := answer
    have h₂ := h₁.answered x revents
    by_cases hsome : 0 < i
    · refine Or.inr ⟨_, if_pos hsome, ?_, h₂, hmap ▸ hnodup, fun e he => ?_⟩
      · dsimp only
        rw [PollPool.serveAll, if_pos hsome]
      · have hold := harmed e he
        unfold Armed at hold ⊢
        rwa [← Loop.length_answered p₁.rest.own revents] at hold
    · refine Or.inl ⟨if_neg hsome, _, ?_, h₂.shrinks (Shrinks.periodic (w := c.world) _)⟩
      dsimp only
      rw [PollPool.serveAll, if_neg hsome]
      rfl

/-- **A pass goes wrong exactly when the con queue bursts.** -/
theorem go_fault_iff (h : Loop p) (hnodup : (p.links.map Prod.fst).Nodup) (f : Fault) :
    PollPool.agooReadyGo c.world p = .error f ↔ f = .slot ∧ c.Overfull p := by
  rcases go_cases (c := c) h hnodup with ⟨hready, p', hgo, -⟩ | ⟨p₁, hready, hgo, h₁, hnodup₁, harmed⟩
  · rw [hgo]
    refine ⟨fun h => (by cases h), fun h => ?_⟩
    obtain ⟨-, p₁, l, e, p₂, i, d, hsome, -⟩ := h
    cases hready.symm.trans hsome
  · have hfold := serveLoop_error_iff (c := c) h₁ hnodup₁ harmed f
    have hbind : PollPool.agooReadyGo c.world p = .error f ↔
        p₁.links.foldlM (fun p e => PollPool.serve c.world e p) p₁ = .error f := by
      rw [hgo]
      cases p₁.links.foldlM (fun p e => PollPool.serve c.world e p) p₁ with
      | ok p₂ => exact ⟨nofun, nofun⟩
      | error g => exact ⟨fun h => congrArg _ (Except.error.inj h), fun h => congrArg _ (Except.error.inj h)⟩
    rw [hbind, hfold]
    refine and_congr_right fun _ => ⟨fun h => ?_, fun h => ?_⟩
    · obtain ⟨l, e, p₂, i, d, hrest⟩ := h
      exact ⟨p₁, l, e, p₂, i, d, hready, hrest⟩
    · obtain ⟨p₁', l, e, p₂, i, d, hready', hrest⟩ := h
      obtain rfl := Option.some.inj (hready.symm.trans hready')
      exact ⟨l, e, p₂, i, d, hrest⟩

theorem go_loop {p' : PollPool σ} (h : Loop p) (hnodup : (p.links.map Prod.fst).Nodup)
    (hgo : PollPool.agooReadyGo c.world p = .ok p') : Loop p' := by
  rcases go_cases (c := c) h hnodup with ⟨-, p'', hgo', h''⟩ | ⟨p₁, -, hgo', h₁, -, -⟩
  · exact Except.ok.inj (hgo'.symm.trans hgo) ▸ h''
  · obtain ⟨p₂, hfold, hlast⟩ := bind_ok (hgo'.symm.trans hgo)
    exact Except.ok.inj hlast ▸ (h₁.serveLoop hfold).shrinks (Shrinks.periodic p₂)

variable {s s' : PollState σ}

/-- A round up to the wait. -/
theorem round_eq (h : Shows s p) :
    ∃ s₁, c.round s = PollState.agooReadyGo c.world s₁ ∧ Shows s₁ (c.entered p) := by
  have hahead : Shows.Ahead [] (s.inWorld (c.pop p.rest.world).2) (p.inWorld (c.pop p.rest.world).2) :=
    ⟨h.inWorld _, List.nil_suffix⟩
  obtain ⟨s₁, hs₁, h₁⟩ := hahead.addAll (accept (c.pop p.rest.world).1)
  refine ⟨s₁.inWorld (c.publish s₁.rest.world), ?_, ?_⟩
  · rw [round, h.rest, hs₁]
    rfl
  · rw [h₁.1.rest]
    exact h₁.1.inWorld _

/-- **What holds between rounds is kept.** -/
theorem round_keeps (h : Shows s p) (hl : Loop p) (hround : c.round s = .ok s') : ∃ p', Shows s' p' ∧ Loop p' := by
  obtain ⟨s₁, heq, h₁⟩ := round_eq (c := c) h
  obtain ⟨p', hgo, h'⟩ := (h₁.agooReadyGo (w := c.world)).of_ok (heq.symm.trans hround)
  exact ⟨p', h', go_loop (hl.entered) h₁.stores.nodup hgo⟩

theorem rounds_keep {n : ℕ} (h : Shows s p) (hl : Loop p) (hrounds : c.rounds n s = .ok s') :
    ∃ p', Shows s' p' ∧ Loop p' := by
  induction n generalizing s p with
  | zero =>
    cases hrounds
    exact ⟨p, h, hl⟩
  | succ n ih =>
    obtain ⟨s₁, hround, hrounds⟩ := bind_ok hrounds
    obtain ⟨p₁, h₁, hl₁⟩ := round_keeps h hl hround
    exact ih h₁ hl₁ hrounds

theorem start_ok (c : Conns σ) (conFd pubFd : ℕ) (x : σ) :
    ∃ s p, c.start conFd pubFd x = .ok s ∧ Shows s p ∧ Loop p := by
  obtain ⟨s₁, hs₁, h₁⟩ := (Shows.create c.world x).agooReadyAdd ⟨conFd, queueHandler, 0⟩
  obtain ⟨s₂, hs₂, h₂⟩ := h₁.agooReadyAdd ⟨pubFd, queueHandler, 1⟩
  refine ⟨s₂, _, ?_, h₂, ?_⟩
  · rw [start, hs₁]
    exact hs₂
  · have hlen : (PollArray.zeros 1024).length = 1024 := List.length_replicate
    have hown : (PollPool.agooReadyAdd ⟨[], (agooReadyCreate c.world x).rest⟩ ⟨conFd, queueHandler, 0⟩).rest.own =
        ⟨0, PollArray.zeros 1024, 0⟩ := by
      have hcreate : (agooReadyCreate c.world x).rest.own = ⟨0, PollArray.zeros 1024, 0⟩ := rfl
      rw [add_own]
      dsimp only
      rw [hcreate, PollArray.grow, hlen, if_neg (by decide)]
    refine Loop.add ⟨?_, ?_, List.pairwise_singleton _ _, ?_⟩ Nat.one_ne_zero
    · rw [hown, add_length]
      exact Nat.lt_of_lt_of_eq (by decide : 0 + 1 < 1024) hlen.symm
    · rw [hown]
      exact le_of_eq hlen.symm
    · intro r hr _
      rw [List.mem_singleton.mp hr]
      rfl

theorem round_fault_iff (h : Shows s p) (hl : Loop p) (f : Fault) :
    c.round s = .error f ↔ f = .slot ∧ c.Overfull (c.entered p) := by
  obtain ⟨s₁, heq, h₁⟩ := round_eq (c := c) h
  rw [heq, (h₁.agooReadyGo (w := c.world)).error_iff, go_fault_iff hl.entered h₁.stores.nodup]

theorem rounds_succ (c : Conns σ) (n : ℕ) (s : PollState σ) : c.rounds (n + 1) s = c.rounds n s >>= c.round := by
  induction n generalizing s with
  | zero =>
    show (c.round s >>= Except.ok) = c.round s
    cases c.round s <;> rfl
  | succ n ih =>
    show (c.round s >>= c.rounds (n + 1)) = (c.round s >>= c.rounds n) >>= c.round
    cases c.round s with
    | ok s' => exact ih s'
    | error f => rfl

theorem conLoop_succ (c : Conns σ) (conFd pubFd n : ℕ) (x : σ) :
    c.agooConLoop conFd pubFd (n + 1) x = c.agooConLoop conFd pubFd n x >>= c.round := by
  unfold agooConLoop
  cases c.start conFd pubFd x with
  | ok s => exact rounds_succ c n s
  | error f => rfl

/-- **A con loop goes wrong exactly when the con queue bursts in some round.** -/
theorem conLoop_fault_iff (c : Conns σ) (conFd pubFd n : ℕ) (x : σ) (f : Fault) :
    c.agooConLoop conFd pubFd n x = .error f ↔
      f = .slot ∧ ∃ m < n, ∃ s p, c.agooConLoop conFd pubFd m x = .ok s ∧ Shows s p ∧ c.Overfull (c.entered p) := by
  induction n generalizing f with
  | zero =>
    obtain ⟨s, p, hs, -, -⟩ := start_ok c conFd pubFd x
    have hrun : c.agooConLoop conFd pubFd 0 x = .ok s := by
      rw [agooConLoop, hs]
      rfl
    rw [hrun]
    refine ⟨fun h => (by cases h), fun h => ?_⟩
    obtain ⟨-, m, hm, -⟩ := h
    exact absurd hm (Nat.not_lt_zero m)
  | succ n ih =>
    rw [conLoop_succ]
    cases hrun : c.agooConLoop conFd pubFd n x with
    | error g =>
      rw [hrun] at ih
      refine (ih f).trans (and_congr_right fun _ => ⟨fun h => ?_, fun h => ?_⟩)
      · obtain ⟨m, hm, hrest⟩ := h
        exact ⟨m, Nat.lt_succ_of_lt hm, hrest⟩
      · obtain ⟨m, hm, s, p, hs, hrest⟩ := h
        rcases Nat.lt_succ_iff_lt_or_eq.mp hm with hm | rfl
        · exact ⟨m, hm, s, p, hs, hrest⟩
        · cases hrun.symm.trans hs
    | ok s =>
      obtain ⟨s₀, p₀, hs₀, h₀, hl₀⟩ := start_ok c conFd pubFd x
      have hrounds : c.rounds n s₀ = .ok s := by
        rw [agooConLoop, hs₀] at hrun
        exact hrun
      obtain ⟨p, h, hl⟩ := rounds_keep h₀ hl₀ hrounds
      refine (round_fault_iff h hl f).trans (and_congr_right fun _ => ⟨fun hover => ?_, fun hex => ?_⟩)
      · exact ⟨n, Nat.lt_succ_self n, s, p, hrun, h, hover⟩
      · obtain ⟨m, hm, s', p', hs', h', hover⟩ := hex
        rcases Nat.lt_succ_iff_lt_or_eq.mp hm with hm | rfl
        · -- an earlier round would have gone wrong
          have hwrong := (ih .slot).mpr ⟨rfl, m, hm, s', p', hs', h', hover⟩
          cases hrun.symm.trans hwrong
        · obtain rfl := Except.ok.inj (hrun.symm.trans hs')
          rwa [h.unique h']

end Conns

end Ready

end Agoo
