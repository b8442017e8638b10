import Agoo.Bytes
import Agoo.Chains
import Mathlib.Data.List.Find
import Mathlib.Data.List.Nodup

/-!
# The list of binds (`server.c`, `bind.c`)

`agoo_server_bind` replaces the bind with the same port. `inv_after`: the list holds the last bind made for each
port, and the others were destroyed once. `after_right_iff`: when that is also the last bind made for each address.
-/

namespace Agoo

namespace Binds

/-! ## The code -/

/-- The functions of `con.c` that serve a bind. -/
inductive Handler
  | conHttpRead
  | conHttpWrite
  | conHttpEvents
  deriving DecidableEq, Repr

/-- `struct _agooBind`, as far as `agoo_server_bind` and this file use it; binds are numbered as they are made. -/
structure Bind where
  num : ℕ
  port : ℤ
  name : Option Bytes
  read : Option Handler
  write : Option Handler
  events : Option Handler
  deriving DecidableEq, Repr

/-- What a bind is to listen on. -/
inductive Address
  | tcp (port : ℤ)
  | unix (name : Bytes)
  deriving DecidableEq, Repr

/-- `agoo_bind_port`, `url_tcp`, `url_tcp6` and `url_ssl`. -/
def tcpBind (num : ℕ) (port : ℤ) : Bind := ⟨num, port, none, none, none, none⟩

/-- `url_named`. The port is left as `calloc` made it. -/
def urlNamed (num : ℕ) (url : Bytes) : Bind := ⟨num, 0, some url, none, none, none⟩

def Address.bind (num : ℕ) : Address → Bind
  | .tcp port => tcpBind num port
  | .unix name => urlNamed num name

/-- The handlers of HTTP where a bind has none. -/
def withHandlers (b : Bind) : Bind :=
  { b with
    read := some (b.read.getD .conHttpRead)
    write := some (b.write.getD .conHttpWrite)
    events := some (b.events.getD .conHttpEvents) }

/-- `agoo_server_bind`: the list after the call, and the bind that was destroyed. -/
def serverBind (binds : List Bind) (b : Bind) : List Bind × Option Bind :=
  let b := withHandlers b
  let same : Bind → Bool := fun bx => bx.port == b.port
  (Chain.put same (fun _ => b) b binds, binds.find? same)

/-! ## Runs -/

/-- The list, the numbers of the binds given to `agoo_bind_destroy`, and all binds made, the last one first. -/
structure State where
  binds : List Bind
  destroyed : List ℕ
  made : List Bind
  deriving DecidableEq, Repr

/-- A bind is made and given to `agoo_server_bind`. -/
def step (s : State) (a : Address) : State :=
  let b := a.bind s.made.length
  let r := serverBind s.binds b
  ⟨r.1, r.2.elim s.destroyed (·.num :: s.destroyed), withHandlers b :: s.made⟩

/-- The state after some calls, from an empty list. -/
def after (calls : List Address) : State := calls.foldl step ⟨[], [], []⟩

def Bind.address (b : Bind) : Address := b.name.elim (.tcp b.port) .unix

def Address.port : Address → ℤ
  | .tcp port => port
  | .unix _ => 0

/-- The last bind that was made for the address. -/
def State.lastFor (s : State) (a : Address) : Option Bind := s.made.find? fun b => b.address == a

/-- The list holds the last bind of each address and nothing else; what it does not hold was destroyed once. -/
structure Right (s : State) : Prop where
  last : ∀ b, b ∈ s.binds ↔ s.lastFor b.address = some b
  nodup : s.binds.Nodup
  destroyed : ∀ b ∈ s.made, s.destroyed.count b.num = if b ∈ s.binds then 0 else 1

/-! ## What a bind is made of -/

@[simp] theorem withHandlers_num (b : Bind) : (withHandlers b).num = b.num := rfl

@[simp] theorem withHandlers_port (b : Bind) : (withHandlers b).port = b.port := rfl

@[simp] theorem withHandlers_address (b : Bind) : (withHandlers b).address = b.address := rfl

@[simp] theorem bind_num (n : ℕ) (a : Address) : (a.bind n).num = n := by
  cases a <;> rfl

@[simp] theorem bind_address (n : ℕ) (a : Address) : (a.bind n).address = a := by
  cases a <;> rfl

@[simp] theorem bind_port (n : ℕ) (a : Address) : (a.bind n).port = a.port := by
  cases a <;> rfl

/-! ## The list by ports -/

/-- The list holds the last bind of each port; the numbers tell the binds apart. -/
structure Inv (s : State) : Prop where
  ports : (s.binds.map (·.port)).Nodup
  last : ∀ b, b ∈ s.binds ↔ s.made.find? (fun m => m.port == b.port) = some b
  destroyed : ∀ b ∈ s.made, s.destroyed.count b.num = if b ∈ s.binds then 0 else 1
  lt : (∀ b ∈ s.made, b.num < s.made.length) ∧ ∀ d ∈ s.destroyed, d < s.made.length
  nums : (s.made.map (·.num)).Nodup
  address : ∀ b ∈ s.made, b.port = b.address.port

variable {s : State}

theorem Inv.made (h : Inv s) {b : Bind} (hb : b ∈ s.binds) : b ∈ s.made :=
  List.mem_of_find?_eq_some ((h.last b).mp hb)

theorem step_binds (s : State) (a : Address) : (step s a).binds =
    Chain.put (fun bx => bx.port == a.port) (fun _ => withHandlers (a.bind s.made.length))
      (withHandlers (a.bind s.made.length)) s.binds := by
  unfold step serverBind
  dsimp only
  rw [withHandlers_port, bind_port]

/-- What is in the list after a call. -/
theorem Inv.mem_step (h : Inv s) (a : Address) (b : Bind) : b ∈ (step s a).binds ↔
    b = withHandlers (a.bind s.made.length) ∨ b ∈ s.binds ∧ b.port ≠ a.port := by
  have hport : (withHandlers (a.bind s.made.length)).port = a.port := bind_port _ a
  rw [step_binds, ← hport]
  exact Chain.mem_put_key (f := fun bx : Bind => bx.port) (fun e => beq_iff_eq) h.ports b

/-- The bind that a call replaces, if there is one. -/
theorem Inv.replaced (h : Inv s) (a : Address) {b : Bind} :
    (serverBind s.binds (a.bind s.made.length)).2 = some b ↔ b ∈ s.binds ∧ b.port = a.port := by
  unfold serverBind
  dsimp only
  rw [withHandlers_port, bind_port]
  exact Chain.find_key h.ports

/-- A call destroys the bind that it replaces. -/
theorem Inv.count_step (h : Inv s) (a : Address) {b : Bind} (hb : b ∈ s.made) :
    (step s a).destroyed.count b.num =
      s.destroyed.count b.num + if b ∈ s.binds ∧ b.port = a.port then 1 else 0 := by
  have hreplaced := fun b => h.replaced a (b := b)
  unfold step
  dsimp only
  generalize (serverBind s.binds (a.bind s.made.length)).2 = old at hreplaced
  cases old with
  | none => rw [if_neg fun hmem => Option.some_ne_none b ((hreplaced b).mpr hmem).symm]; rfl
  | some o =>
    have ho := (hreplaced o).mp rfl
    have hsame : o.num = b.num ↔ b ∈ s.binds ∧ b.port = a.port := by
      constructor
      · intro hnum
        rwa [← List.inj_on_of_nodup_map h.nums (h.made ho.1) hb hnum]
      · intro hmem
        rw [Option.some.inj ((hreplaced b).mpr hmem)]
    rw [Option.elim_some, List.count_cons]
    simp only [beq_iff_eq, hsame]

theorem Inv.destroyed_lt (h : Inv s) (a : Address) {d : ℕ} (hd : d ∈ (step s a).destroyed) :
    d < s.made.length := by
  have hreplaced := fun b => h.replaced a (b := b)
  unfold step at hd
  dsimp only at hd
  generalize (serverBind s.binds (a.bind s.made.length)).2 = old at hreplaced hd
  cases old with
  | none => exact h.lt.2 d hd
  | some o =>
    rcases List.mem_cons.mp hd with rfl | hd
    · exact h.lt.1 o (h.made ((hreplaced o).mp rfl).1)
    · exact h.lt.2 d hd

/-- **Each call keeps the last bind of each port.** -/
theorem Inv.keeps (h : Inv s) (a : Address) : Inv (step s a) := by
  have hmade : (step s a).made = withHandlers (a.bind s.made.length) :: s.made := rfl
  have hlength : (step s a).made.length = s.made.length + 1 := rfl
  constructor
  case ports =>
    have hupd : ∀ e : Bind, e.port == a.port → (withHandlers (a.bind s.made.length)).port = e.port :=
      fun e he => (bind_port _ a).trans (beq_iff_eq.mp he).symm
    rw [step_binds, Chain.map_put (f := fun b : Bind => b.port) hupd]
    split_ifs with hfound
    · exact h.ports
    · refine List.nodup_cons.mpr ⟨fun hmem => hfound ?_, h.ports⟩
      obtain ⟨b, hb, hport⟩ := List.mem_map.mp hmem
      exact List.find?_isSome.mpr ⟨b, hb, beq_iff_eq.mpr (hport.trans (bind_port _ a))⟩
  case last =>
    intro b
    rw [h.mem_step, hmade, List.find?_cons, withHandlers_port, bind_port]
    by_cases hport : a.port = b.port
    · rw [beq_iff_eq.mpr hport, Option.some.injEq]
      exact ⟨fun hb => hb.elim Eq.symm fun hb => absurd hport.symm hb.2, fun hb => .inl hb.symm⟩
    · rw [beq_eq_false_iff_ne.mpr hport, ← h.last b]
      refine ⟨fun hb => hb.elim (fun hnew => absurd ?_ hport) And.left, fun hb => .inr ⟨hb, Ne.symm hport⟩⟩
      rw [hnew, withHandlers_port, bind_port]
  case destroyed =>
    rw [hmade]
    refine List.forall_mem_cons.mpr ⟨?_, fun b hb => ?_⟩
    · rw [if_pos ((h.mem_step a _).mpr (.inl rfl)), withHandlers_num, bind_num, List.count_eq_zero]
      exact fun hmem => (h.destroyed_lt a hmem).false
    · rw [h.count_step a hb, h.destroyed b hb]
      have hne : b ≠ withHandlers (a.bind s.made.length) := by
        intro hsame
        have hlt := h.lt.1 b hb
        rw [hsame, withHandlers_num, bind_num] at hlt
        exact Nat.lt_irrefl _ hlt
      simp only [h.mem_step, hne, false_or]
      by_cases hmem : b ∈ s.binds <;> by_cases hport : b.port = a.port <;> simp [hmem, hport]
  case lt =>
    rw [hlength, hmade]
    refine ⟨List.forall_mem_cons.mpr ⟨?_, fun b hb => Nat.lt_succ_of_lt (h.lt.1 b hb)⟩, fun d hd => ?_⟩
    · rw [withHandlers_num, bind_num]
      exact Nat.lt_succ_self _
    · exact Nat.lt_succ_of_lt (h.destroyed_lt a hd)
  case nums =>
    rw [hmade, List.map_cons, List.nodup_cons, withHandlers_num, bind_num]
    refine ⟨fun hmem => ?_, h.nums⟩
    obtain ⟨b, hb, hnum⟩ := List.mem_map.mp hmem
    exact (h.lt.1 b hb).ne hnum
  case address =>
    rw [hmade]
    refine List.forall_mem_cons.mpr ⟨?_, h.address⟩
    rw [withHandlers_port, bind_port, withHandlers_address, bind_address]

theorem made_step (s : State) (a : Address) :
    (step s a).made.map Bind.address = a :: s.made.map Bind.address := by
  change Bind.address _ :: _ = _
  rw [withHandlers_address, bind_address]

theorem inv_foldl (calls : List Address) (h : Inv s) : Inv (calls.foldl step s) ∧
    (calls.foldl step s).made.map Bind.address = calls.reverse ++ s.made.map Bind.address := by
  induction calls generalizing s with
  | nil => exact ⟨h, rfl⟩
  | cons a calls ih =>
    obtain ⟨hinv, hmade⟩ := ih (h.keeps a)
    refine ⟨hinv, hmade.trans ?_⟩
    rw [made_step, List.reverse_cons, List.append_assoc]
    rfl

/-- **After any calls the list holds the last bind of each port, and the others were destroyed once.** -/
theorem inv_after (calls : List Address) : Inv (after calls) := by
  refine (inv_foldl calls ?_).1
  refine ⟨List.nodup_nil, fun b => ?_, ?_, ⟨?_, ?_⟩, List.nodup_nil, ?_⟩ <;> simp

theorem made_after (calls : List Address) (a : Address) :
    a ∈ calls ↔ ∃ b ∈ (after calls).made, b.address = a := by
  have hstart : Inv ⟨[], [], []⟩ := inv_after []
  rw [← List.mem_map, after, (inv_foldl calls hstart).2, List.map_nil, List.append_nil, List.mem_reverse]

/-! ## The list by addresses -/

/-- When a port belongs to one address, the last bind of a port is the last one of its address. -/
theorem Inv.lastFor_eq (h : Inv s)
    (hone : ∀ b ∈ s.made, ∀ c ∈ s.made, b.port = c.port → b.address = c.address) {b : Bind} (hb : b ∈ s.made) :
    s.lastFor b.address = s.made.find? fun m => m.port == b.port := by
  refine List.find?_congr fun m hm => Bool.eq_iff_iff.mpr ?_
  rw [beq_iff_eq, beq_iff_eq]
  refine ⟨fun haddress => ?_, hone m hm b hb⟩
  rw [h.address m hm, h.address b hb, haddress]

theorem Inv.right_iff (h : Inv s) :
    Right s ↔ ∀ b ∈ s.made, ∀ c ∈ s.made, b.port = c.port → b.address = c.address := by
  constructor
  · intro hright b hb c hc hport
    -- the last binds of the two addresses are both listed
    have hlisted : ∀ d ∈ s.made, ∃ e ∈ s.binds, e.address = d.address ∧ e.port = d.port := by
      intro d hd
      obtain ⟨e, he⟩ := Option.isSome_iff_exists.mp
        (List.find?_isSome (p := fun m : Bind => m.address == d.address).mpr ⟨d, hd, beq_self_eq_true _⟩)
      have hfound := List.find?_some he
      have haddress : e.address = d.address := beq_iff_eq.mp hfound
      have hmade := List.mem_of_find?_eq_some he
      refine ⟨e, (hright.last e).mpr ?_, haddress, ?_⟩
      · rw [haddress]
        exact he
      · rw [h.address e hmade, h.address d hd, haddress]
    obtain ⟨e, he, hea, hep⟩ := hlisted b hb
    obtain ⟨f, hf, hfa, hfp⟩ := hlisted c hc
    have hsame : e = f := List.inj_on_of_nodup_map h.ports he hf (by rw [hep, hfp, hport])
    rw [← hea, ← hfa, hsame]
  · intro hone
    refine ⟨fun b => ?_, h.ports.of_map _, h.destroyed⟩
    rw [h.last b]
    constructor
    · intro hlast
      rwa [h.lastFor_eq hone (List.mem_of_find?_eq_some hlast)]
    · intro hlast
      rwa [← h.lastFor_eq hone (List.mem_of_find?_eq_some hlast)]

/-- **The list is right when no two addresses share a port; all Unix sockets have port 0.** -/
theorem after_right_iff (calls : List Address) :
    Right (after calls) ↔ ∀ a ∈ calls, ∀ c ∈ calls, a.port = c.port → a = c := by
  have h := inv_after calls
  rw [h.right_iff]
  constructor
  · intro hone a ha c hc hport
    obtain ⟨b, hb, rfl⟩ := (made_after calls a).mp ha
    obtain ⟨d, hd, rfl⟩ := (made_after calls c).mp hc
    exact hone b hb d hd (by rw [h.address b hb, h.address d hd, hport])
  · intro hone b hb c hc hport
    refine hone _ ((made_after calls _).mpr ⟨b, hb, rfl⟩) _ ((made_after calls _).mpr ⟨c, hc, rfl⟩) ?_
    rw [← h.address b hb, ← h.address c hc, hport]

/-- A second Unix socket takes the place of the first one. -/
theorem second_socket_replaces : ¬ ∀ calls, Right (after calls) := by
  intro h
  have hright := h [.unix (bytes "/a"), .unix (bytes "/b")]
  have hlast := (hright.last (withHandlers (urlNamed 0 (bytes "/a")))).mpr rfl
  revert hlast
  decide

end Binds

end Agoo
