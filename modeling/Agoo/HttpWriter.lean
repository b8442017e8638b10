import Agoo.Response
import Agoo.Runs
import Mathlib.Logic.Function.Basic

/-!
# Writing responses (`agoo_con_http_write`)

The machine of one connection: the con loop appends responses and writes, handlers push messages at
any time. A write is cut where a handler can come between: after `send`, before the message is taken
off, and before `final` is tested. Steps that touch nothing another thread changes are not cut apart.

`http_writes_in_order_iff`: the bytes sent are in request order and no response is lost exactly in
the runs in which `send` always takes something and no final message comes between the two tests.
-/

namespace Agoo

/-- A request's response record, with all messages pushed on it and those sent. -/
structure Reply where
  res : Res
  pushed : List Bytes
  sent : List Bytes

namespace Reply

/-- The final message was pushed and nothing is left to send. -/
def Done (r : Reply) : Prop := r.res.final ∧ r.sent = r.pushed

instance (r : Reply) : Decidable r.Done := inferInstanceAs (Decidable (_ ∧ _))

/-- A new record, with the flags that `r` has. -/
def create (r : Res) : Reply := ⟨{ r with message := [], final := false }, [], []⟩

def addEarly (r : Reply) (links : List Bytes) : Reply :=
  { r with res := r.res.addEarly links, pushed := r.pushed ++ [earlyText links] }

def messagePush (r : Reply) (t : Option Bytes) : Reply :=
  { r with res := r.res.messagePush t, pushed := r.pushed ++ t.toList }

/-- `res->close = true`, as `rescue_error` does. -/
def setClose (r : Reply) : Reply := { r with res := { r.res with close := true } }

def messageNext (r : Reply) : Reply :=
  { r with res := r.res.messageNext, sent := r.sent ++ r.res.message.take 1 }

def destroy (r : Reply) : Reply := { r with res := r.res.destroy }

/-- The message being sent. -/
def current (r : Reply) : Bytes := r.res.message.headD []

end Reply

/-- Where a write is. -/
inductive HttpPc
  | idle
  /-- The head message was sent; the response was popped. -/
  | finished (i : ℕ)
  /-- The message was taken off, and whether it was the last. -/
  | testing (i : ℕ) (last : Bool)
  deriving DecidableEq

/-- Responses are numbered in the order of the requests; `out` is what the socket was given. -/
structure HttpOut where
  reply : ℕ → Reply
  cnt : ℕ
  /-- From `res_head` to `res_tail`. -/
  queue : List ℕ
  wcnt : ℕ
  pc : HttpPc
  dead : Bool
  out : Bytes

inductive HttpAct
  /-- A response with these flags is put in the queue. -/
  | append (r : Res)
  | early (i : ℕ) (links : List Bytes)
  | push (i : ℕ) (t : Option Bytes)
  | setClose (i : ℕ)
  | write (r : SendResult)
  | next
  | test

namespace HttpOut

def init : HttpOut := ⟨fun _ => .create (.create 0), 0, [], 0, .idle, false, []⟩

def set (c : HttpOut) (i : ℕ) (r : Reply) : HttpOut :=
  { c with reply := Function.update c.reply i r }

/-- A handler changes the response of its request; its final message is its last. -/
def handle (c : HttpOut) (i : ℕ) (f : Reply → Reply) : Option HttpOut :=
  if i < c.cnt ∧ (c.reply i).res.final = false then some (c.set i (f (c.reply i))) else none

/-- `agoo_con_http_write` through `send`, for the head response `i` with message `t`; `queue` is the
rest. What goes beyond the message is not asked for. -/
def send (c : HttpOut) (i : ℕ) (queue : List ℕ) (t : Bytes) : SendResult → Option HttpOut
  | .again => some { c with queue := queue }
  | .error => some { c with queue := queue, dead := true }
  | .sent n =>
    if t.length < c.wcnt + n then none
    else if c.wcnt + n = t.length then
      some { c with queue := queue, pc := .finished i, wcnt := c.wcnt + n,
                    out := c.out ++ (t.drop c.wcnt).take n }
    else
      some { c with queue := resPrepend queue i, wcnt := c.wcnt + n,
                    out := c.out ++ (t.drop c.wcnt).take n }

/-- The end of `agoo_con_http_write`, after `agoo_res_message_next`. -/
def finish (c : HttpOut) (i : ℕ) (last : Bool) : HttpOut :=
  if last ∧ (c.reply i).res.final then
    { c.set i (c.reply i).destroy with pc := .idle, dead := c.dead || (c.reply i).res.close }
  else { c with pc := .idle, queue := resPrepend c.queue i }

/-- A write is made when `POLLOUT` was asked for, so the head response has a message. -/
def step (c : HttpOut) : HttpAct → Option HttpOut
  | .append r =>
    some { c.set c.cnt (.create r) with cnt := c.cnt + 1, queue := resAppend c.queue c.cnt }
  | .early i links => c.handle i (·.addEarly links)
  | .push i t => c.handle i (·.messagePush t)
  | .setClose i => c.handle i (·.setClose)
  | .write r =>
    if c.pc = .idle ∧ c.dead = false then
      match resPop c.queue with
      | none => none
      | some (i, queue) =>
        match (c.reply i).res.messagePeek with
        | none => none
        | some t => c.send i queue t r
    else none
  | .next =>
    match c.pc with
    | .finished i =>
      some { c.set i (c.reply i).messageNext with
        wcnt := 0, pc := .testing i (c.reply i).res.messageNext.messagePeek.isNone }
    | _ => none
  | .test =>
    match c.pc with
    | .testing i last => some (c.finish i last)
    | _ => none

/-! ## Order -/

/-- The responses from number `i` on, as far as they are known: all that was pushed on each, up to
the first whose final message is still to come. -/
def stream (reply : ℕ → Reply) : ℕ → ℕ → Bytes
  | _, 0 => []
  | i, m + 1 => (reply i).pushed.flatten ++ if (reply i).res.final then stream reply (i + 1) m else []

/-- The responses in the queue, with the one that a write has popped. -/
def held (c : HttpOut) : List ℕ :=
  match c.pc with
  | .idle => c.queue
  | .finished i => i :: c.queue
  | .testing i _ => i :: c.queue

/-- The bytes sent are a prefix of the responses in request order, and a response that is not done is
not lost. -/
structure InOrder (c : HttpOut) : Prop where
  sent : c.out <+: stream c.reply 0 c.cnt
  kept : ∀ i < c.cnt, ¬ (c.reply i).Done → i ∈ c.held

/-- No socket error, and no response that closes the connection. -/
def Quiet (_ : HttpOut) : HttpAct → Prop
  | .append r => r.close = false
  | .setClose _ => False
  | .write r => r ≠ .error
  | _ => True

instance (c : HttpOut) : DecidablePred c.Quiet := fun a => by
  cases a <;> unfold Quiet <;> infer_instance

/-- When the last message was taken off and the response is found final, its list is still empty. -/
def NoneBetween (c : HttpOut) : Prop :=
  match c.pc with
  | .testing i true => (c.reply i).res.final → (c.reply i).res.message = []
  | _ => True

instance (c : HttpOut) : Decidable c.NoneBetween := by
  unfold NoneBetween
  split <;> infer_instance

/-- `send` takes something, and no message comes between the two tests. -/
def Undisturbed (c : HttpOut) : HttpAct → Prop
  | .write r => r ≠ .again
  | .test => c.NoneBetween
  | _ => True

instance (c : HttpOut) : DecidablePred c.Undisturbed := fun a => by
  cases a <;> unfold Undisturbed <;> infer_instance

/-! ## The invariant -/

/-- The first `k` responses. -/
def before (reply : ℕ → Reply) (a k : ℕ) : Bytes :=
  (List.range' a k).flatMap fun i => (reply i).pushed.flatten

/-- Response `k` is the first that is not done. -/
structure Inv (c : HttpOut) (k : ℕ) : Prop where
  le : k ≤ c.cnt
  held : c.held = List.range' k (c.cnt - k)
  done : ∀ i < k, (c.reply i).Done
  left : ∀ i, (c.reply i).pushed = (c.reply i).sent ++ (c.reply i).res.message
  fresh : ∀ i, k < i → (c.reply i).sent = []
  blank : ∀ i, c.cnt ≤ i → (c.reply i).pushed = []
  wcnt : c.wcnt ≤ (c.reply k).current.length
  out : c.out = before c.reply 0 k ++ (c.reply k).sent.flatten ++ (c.reply k).current.take c.wcnt
  finished : ∀ i, c.pc = .finished i → c.wcnt = (c.reply i).current.length ∧ (c.reply i).res.message ≠ []
  testing : ∀ i last, c.pc = .testing i last → c.wcnt = 0

variable {c c' : HttpOut} {k : ℕ}

theorem inv_init : Inv init 0 where
  le := Nat.le_refl 0
  held := rfl
  done _ h := absurd h (Nat.not_lt_zero _)
  left _ := rfl
  fresh _ _ := rfl
  blank _ _ := rfl
  wcnt := Nat.zero_le _
  out := rfl
  finished _ h := by cases h
  testing _ _ h := by cases h

theorem before_succ (reply : ℕ → Reply) (a k : ℕ) :
    before reply a (k + 1) = (reply a).pushed.flatten ++ before reply (a + 1) k := by
  rw [before, List.range'_succ, List.flatMap_cons]
  rfl

theorem before_concat (reply : ℕ → Reply) (k : ℕ) :
    before reply 0 (k + 1) = before reply 0 k ++ (reply k).pushed.flatten := by
  rw [before, List.range'_concat, List.flatMap_append]
  simp [before]

theorem before_congr {reply reply' : ℕ → Reply} {a k : ℕ}
    (h : ∀ i < a + k, (reply i).pushed = (reply' i).pushed) :
    before reply a k = before reply' a k := by
  refine List.flatMap_congr fun i hi => ?_
  rw [h i (List.mem_range'_1.mp hi).2]

theorem stream_done {reply : ℕ → Reply} {a k : ℕ} (h : ∀ i, a ≤ i → i < a + k → (reply i).res.final)
    (m : ℕ) : stream reply a (k + m) = before reply a k ++ stream reply (a + k) m := by
  induction k generalizing a with
  | zero => simp [before]
  | succ k ih =>
    rw [show k + 1 + m = k + m + 1 by omega, stream, if_pos (h a (Nat.le_refl a) (by omega)),
      ih fun i hi hlt => h i (by omega) (by omega), before_succ, List.append_assoc,
      show a + 1 + k = a + (k + 1) by omega]

theorem take_current_isPre (r : Reply) (n : ℕ) : r.current.take n <+: r.res.message.flatten := by
  unfold Reply.current
  cases r.res.message with
  | nil => simp
  | cons t ts => exact (List.take_prefix n t).trans (List.prefix_append t ts.flatten)

theorem Inv.inOrder (h : c.Inv k) : c.InOrder := by
  constructor
  · have hstream := stream_done (a := 0) (k := k)
      (fun i _ hi => (h.done i (by omega)).1) (c.cnt - k)
    rw [show k + (c.cnt - k) = c.cnt by have := h.le; omega, Nat.zero_add] at hstream
    rw [h.out, hstream, List.append_assoc]
    refine List.prefix_append_right_inj _ |>.mpr ?_
    by_cases hk : k = c.cnt
    · have hleft := h.left k
      rw [h.blank k (by omega)] at hleft
      obtain ⟨hs, hm⟩ := List.append_eq_nil_iff.mp hleft.symm
      simp [hs, hm, Reply.current]
    · obtain ⟨m, hm⟩ : ∃ m, c.cnt - k = m + 1 := ⟨c.cnt - k - 1, by have := h.le; omega⟩
      rw [hm, stream, h.left k, List.flatten_append, List.append_assoc]
      refine List.prefix_append_right_inj _ |>.mpr ?_
      exact (take_current_isPre _ _).trans (List.prefix_append _ _)
  · intro i hi hnot
    have hki : k ≤ i := by
      by_contra hlt
      exact hnot (h.done i (by omega))
    rw [h.held, List.mem_range'_1]
    omega

/-! ## Steps -/

@[simp] theorem set_self (c : HttpOut) (i : ℕ) (r : Reply) : (c.set i r).reply i = r :=
  Function.update_self ..

theorem set_of_ne (c : HttpOut) {i j : ℕ} (h : j ≠ i) (r : Reply) :
    (c.set i r).reply j = c.reply j := Function.update_of_ne h ..

/-- A change of a response by its handler: messages are added behind those there are. -/
def Adds (f : Reply → Reply) : Prop :=
  ∀ r : Reply, r.res.final = false → (f r).sent = r.sent ∧
    ∃ new, (f r).pushed = r.pushed ++ new ∧ (f r).res.message = r.res.message ++ new

theorem adds_addEarly (links : List Bytes) : Adds (·.addEarly links) := fun r h =>
  ⟨rfl, [earlyText links], rfl, by simp [Reply.addEarly, Res.addEarly_of_not_final h]⟩

theorem adds_messagePush (t : Option Bytes) : Adds (·.messagePush t) := fun r h =>
  ⟨rfl, t.toList, rfl, by simp [Reply.messagePush, Res.messagePush_of_not_final h]⟩

theorem adds_setClose : Adds (·.setClose) := fun r _ => ⟨rfl, [], by simp [Reply.setClose]⟩

/-- Messages behind the one being sent do not matter for the bytes sent. -/
theorem current_of_message {r r' : Reply} {new : List Bytes} {n : ℕ} (h : n ≤ r.current.length)
    (hm : r'.res.message = r.res.message ++ new) :
    n ≤ r'.current.length ∧ r'.current.take n = r.current.take n ∧
      (r.res.message ≠ [] → r'.current = r.current) := by
  unfold Reply.current at *
  rw [hm]
  cases hr : r.res.message with
  | nil =>
    rw [hr] at h
    obtain rfl : n = 0 := by simpa using h
    simp
  | cons t ts =>
    rw [hr] at h
    exact ⟨h, rfl, fun _ => rfl⟩

/-- A response that is not done gets more messages, or the place of the next one gets a record. -/
theorem Inv.set (h : c.Inv k) {i : ℕ} (hki : k ≤ i) {r : Reply} (new : List Bytes)
    (hnew : c.cnt ≤ i → new = []) (hs : r.sent = (c.reply i).sent)
    (hp : r.pushed = (c.reply i).pushed ++ new)
    (hm : r.res.message = (c.reply i).res.message ++ new) : (c.set i r).Inv k := by
  have hother : ∀ j, j ≠ i → (c.set i r).reply j = c.reply j := fun j hj => c.set_of_ne hj r
  have hself : (c.set i r).reply i = r := c.set_self i r
  have hsent : ∀ j, ((c.set i r).reply j).sent = (c.reply j).sent := by
    intro j
    by_cases hj : j = i
    · rw [hj, hself, hs]
    · rw [hother j hj]
  have hcur : c.wcnt ≤ ((c.set i r).reply k).current.length ∧
      ((c.set i r).reply k).current.take c.wcnt = (c.reply k).current.take c.wcnt := by
    by_cases hj : k = i
    · rw [hj, hself]
      have := current_of_message (hj ▸ h.wcnt) hm
      exact ⟨this.1, this.2.1⟩
    · rw [hother k hj]
      exact ⟨h.wcnt, rfl⟩
  refine { le := h.le, held := h.held, done := fun j hj => ?_, left := fun j => ?_,
           fresh := fun j hj => ?_, blank := fun j hj => ?_, wcnt := hcur.1, out := ?_,
           finished := fun j hj => ?_, testing := h.testing }
  · rw [hother j (by omega)]
    exact h.done j hj
  · by_cases hj : j = i
    · rw [hj, hself, hs, hp, hm, h.left i, List.append_assoc]
    · rw [hother j hj]
      exact h.left j
  · rw [hsent]
    exact h.fresh j hj
  · by_cases hj' : j = i
    · rw [hj', hself, hp, hnew (hj' ▸ hj), h.blank i (hj' ▸ hj)]
      rfl
    · rw [hother j hj']
      exact h.blank j hj
  · show c.out = _ ++ _ ++ List.take c.wcnt _
    rw [hsent, hcur.2, before_congr fun j hj => by rw [hother j (by omega)]]
    exact h.out
  · obtain ⟨hw, hne⟩ := h.finished j hj
    by_cases hj' : j = i
    · rw [hj', hself, hm]
      rw [hj'] at hw hne
      refine ⟨?_, by simp [hne]⟩
      rw [(current_of_message (Nat.zero_le _) hm).2.2 hne]
      exact hw
    · rw [hother j hj']
      exact ⟨hw, hne⟩

theorem Inv.handle (h : c.Inv k) {i : ℕ} {f : Reply → Reply} (hf : Adds f)
    (hstep : c.handle i f = some c') : c'.Inv k := by
  unfold HttpOut.handle at hstep
  split at hstep
  · next hi =>
    obtain rfl := Option.some.inj hstep
    obtain ⟨hs, new, hp, hm⟩ := hf (c.reply i) hi.2
    have hki : k ≤ i := by
      by_contra hlt
      have := (h.done i (by omega)).1
      rw [hi.2] at this
      cases this
    exact h.set hki new (fun hle => absurd hi.1 (by omega)) hs hp hm
  · cases hstep

theorem Inv.append (h : c.Inv k) (r : Res) (hstep : c.step (.append r) = some c') :
    c'.Inv k := by
  obtain rfl := Option.some.inj hstep
  have hleft := h.left c.cnt
  rw [h.blank c.cnt (Nat.le_refl _)] at hleft
  obtain ⟨hs, hm⟩ := List.append_eq_nil_iff.mp hleft.symm
  have hset : (c.set c.cnt (.create r)).Inv k :=
    h.set h.le [] (fun _ => rfl) (by rw [hs]; rfl)
      (by rw [h.blank c.cnt (Nat.le_refl _)]; rfl) (by rw [hm]; rfl)
  have hlast : List.range' k (c.cnt + 1 - k) = List.range' k (c.cnt - k) ++ [c.cnt] := by
    have := h.le
    rw [show c.cnt + 1 - k = c.cnt - k + 1 by omega, List.range'_concat,
      show k + 1 * (c.cnt - k) = c.cnt by omega]
  refine { hset with le := Nat.le_succ_of_le h.le, held := ?_, blank := fun j hj => ?_ }
  · show HttpOut.held _ = List.range' k (c.cnt + 1 - k)
    rw [hlast, ← h.held]
    unfold HttpOut.held
    cases hpc : c.pc <;> simp [HttpOut.set, hpc, resAppend]
  · exact hset.blank j (Nat.le_of_succ_le hj)

/-- The response that a write pops is the first not done. -/
theorem Inv.head (h : c.Inv k) {i : ℕ} {queue : List ℕ} (hq : c.held = i :: queue) :
    i = k ∧ k < c.cnt ∧ queue = List.range' (k + 1) (c.cnt - (k + 1)) := by
  rw [h.held] at hq
  obtain ⟨m, hm⟩ : ∃ m, c.cnt - k = m + 1 := by
    cases hn : c.cnt - k with
    | zero =>
      rw [hn] at hq
      cases hq
    | succ m => exact ⟨m, rfl⟩
  rw [hm, List.range'_succ] at hq
  obtain ⟨rfl, rfl⟩ := List.cons.inj hq
  exact ⟨rfl, by omega, by rw [show c.cnt - (k + 1) = m by omega]⟩

/-- What a write does: the head response and its message, and then `send`. -/
theorem write_cases {r : SendResult} (hstep : c.step (.write r) = some c') :
    ∃ i queue t, c.pc = .idle ∧ c.queue = i :: queue ∧ (c.reply i).res.message.head? = some t ∧
      c.send i queue t r = some c' := by
  rw [step] at hstep
  split at hstep
  · next hpc =>
    cases hq : c.queue with
    | nil =>
      rw [hq] at hstep
      cases hstep
    | cons i queue =>
      rw [hq] at hstep
      simp only [resPop, Res.messagePeek] at hstep
      cases ht : (c.reply i).res.message.head? with
      | none =>
        rw [ht] at hstep
        cases hstep
      | some t =>
        rw [ht] at hstep
        exact ⟨i, queue, t, hpc.1, rfl, ht, hstep⟩
  · cases hstep

theorem Inv.write (h : c.Inv k) {n : ℕ} (hstep : c.step (.write (.sent n)) = some c') : c'.Inv k := by
  obtain ⟨i, queue, t, hpc, hq, ht, hstep⟩ := write_cases hstep
  have hheld : c.held = i :: queue := by rw [HttpOut.held, hpc, hq]
  obtain ⟨rfl, -, -⟩ := h.head hheld
  have hcur : (c.reply i).current = t := by
    rw [Reply.current, List.headD_eq_head?_getD, ht]
    rfl
  have hne : (c.reply i).res.message ≠ [] := by
    intro hnil
    rw [hnil] at ht
    cases ht
  have htake : t.take (c.wcnt + n) = t.take c.wcnt ++ (t.drop c.wcnt).take n := List.take_add
  have hout : c.out ++ (t.drop c.wcnt).take n =
      before c.reply 0 i ++ (c.reply i).sent.flatten ++ (c.reply i).current.take (c.wcnt + n) := by
    rw [h.out, hcur, htake, ← List.append_assoc]
  rw [HttpOut.send] at hstep
  split at hstep
  · cases hstep
  · next hle =>
    have hle' : c.wcnt + n ≤ (c.reply i).current.length := by rw [hcur]; omega
    split at hstep
    · next hfull =>
      obtain rfl := Option.some.inj hstep
      refine { h with held := hheld.symm.trans h.held, wcnt := hle', out := hout,
                      finished := fun j hj => ?_, testing := fun j last hj => by cases hj }
      obtain rfl := HttpPc.finished.inj hj
      exact ⟨by rw [hcur]; exact hfull, hne⟩
    · obtain rfl := Option.some.inj hstep
      refine { h with held := ?_, wcnt := hle', out := hout,
                      finished := fun j hj => ?_, testing := fun j last hj => ?_ }
      · rw [← h.held, hheld, HttpOut.held, hpc]
        rfl
      · rw [hpc] at hj
        cases hj
      · rw [hpc] at hj
        cases hj

theorem Inv.next (h : c.Inv k) (hstep : c.step .next = some c') : c'.Inv k := by
  rw [step] at hstep
  split at hstep
  · next i hpc =>
    obtain rfl := Option.some.inj hstep
    have hheld : c.held = i :: c.queue := by rw [HttpOut.held, hpc]
    obtain ⟨rfl, hlt, hq⟩ := h.head hheld
    obtain ⟨hw, hne⟩ := h.finished i hpc
    have hother : ∀ j, j ≠ i → (c.set i (c.reply i).messageNext).reply j = c.reply j :=
      fun j hj => c.set_of_ne hj _
    have hself := c.set_self i (c.reply i).messageNext
    obtain ⟨t, ts, hts⟩ := List.exists_cons_of_ne_nil hne
    have hpushed : ∀ j, ((c.set i (c.reply i).messageNext).reply j).pushed = (c.reply j).pushed := by
      intro j
      by_cases hj : j = i
      · rw [hj, hself]
        rfl
      · rw [hother j hj]
    refine { le := h.le, held := hheld.symm.trans h.held, done := fun j hj => ?_, left := fun j => ?_,
             fresh := fun j hj => ?_, blank := fun j hj => (hpushed j).trans (h.blank j hj),
             wcnt := Nat.zero_le _, out := ?_, finished := (fun j hj => by cases hj),
             testing := fun _ _ _ => rfl }
    · show ((c.set i _).reply j).Done
      rw [hother j (by omega)]
      exact h.done j hj
    · show ((c.set i (c.reply i).messageNext).reply j).pushed = ((c.set i _).reply j).sent ++ _
      by_cases hj : j = i
      · rw [hj, hself]
        simp only [Reply.messageNext, Res.messageNext_message]
        rw [h.left i, hts]
        simp
      · rw [hother j hj]
        exact h.left j
    · show ((c.set i _).reply j).sent = []
      rw [hother j (by omega)]
      exact h.fresh j hj
    · show c.out = before (c.set i (c.reply i).messageNext).reply 0 i ++
        ((c.set i (c.reply i).messageNext).reply i).sent.flatten ++ List.take 0 _
      rw [before_congr fun j _ => hpushed j, hself, h.out, hw, List.take_length, List.take_zero,
        List.append_nil, List.append_assoc]
      simp [Reply.messageNext, Reply.current, hts]
  · cases hstep

theorem Inv.test (h : c.Inv k) (hok : c.NoneBetween) (hstep : c.step .test = some c') :
    ∃ k', c'.Inv k' := by
  rw [step] at hstep
  split at hstep
  · next i last hpc =>
    obtain rfl := Option.some.inj hstep
    have hheld : c.held = i :: c.queue := by rw [HttpOut.held, hpc]
    obtain ⟨rfl, hlt, hq⟩ := h.head hheld
    have hw := h.testing i last hpc
    unfold finish
    split
    · next hlast =>
      obtain ⟨rfl, hfinal⟩ := hlast
      -- the last message was the final one
      have hnil : (c.reply i).res.message = [] := by
        rw [NoneBetween, hpc] at hok
        exact hok hfinal
      have hdone : (c.reply i).Done := ⟨hfinal, by rw [h.left i, hnil, List.append_nil]⟩
      have hset : (c.set i (c.reply i).destroy).Inv i :=
        h.set (Nat.le_refl i) [] (fun _ => rfl) rfl (List.append_nil _).symm
          (by rw [hnil]; rfl)
      have hself := c.set_self i (c.reply i).destroy
      refine ⟨i + 1, { hset with
        le := hlt, held := hq, done := fun j hj => ?_, fresh := fun j hj => hset.fresh j (by omega),
        wcnt := ?_, out := ?_, finished := (fun j hj => by cases hj),
        testing := fun _ _ _ => hw }⟩
      · show ((c.set i _).reply j).Done
        by_cases hj' : j = i
        · rw [hj', hself]
          exact hdone
        · exact hset.done j (by omega)
      · show c.wcnt ≤ _
        rw [hw]
        exact Nat.zero_le _
      · show c.out = before (c.set i (c.reply i).destroy).reply 0 (i + 1) ++
          ((c.set i _).reply (i + 1)).sent.flatten ++ List.take c.wcnt _
        have hout : c.out = before (c.set i (c.reply i).destroy).reply 0 i ++
            ((c.set i (c.reply i).destroy).reply i).sent.flatten ++ List.take c.wcnt _ := hset.out
        rw [hout, before_concat, hset.fresh (i + 1) (Nat.lt_succ_self i), hw, hself]
        simp [Reply.destroy, hdone.2]
    · refine ⟨i, { h with held := hheld.symm.trans h.held, finished := (fun j hj => by cases hj),
                          testing := fun j l hj => by cases hj }⟩
  · cases hstep

/-- Every step that meets the condition keeps the invariant. -/
theorem Inv.step (h : c.Inv k) {a : HttpAct} (hquiet : c.Quiet a) (hok : c.Undisturbed a)
    (hstep : c.step a = some c') : ∃ k', c'.Inv k' := by
  cases a with
  | append r => exact ⟨k, h.append r hstep⟩
  | early i links => exact ⟨k, h.handle (adds_addEarly links) hstep⟩
  | push i t => exact ⟨k, h.handle (adds_messagePush t) hstep⟩
  | setClose i => exact ⟨k, h.handle adds_setClose hstep⟩
  | write r =>
    cases r with
    | sent n => exact ⟨k, h.write hstep⟩
    | again => exact absurd rfl hok
    | error => exact absurd rfl hquiet
  | next => exact ⟨k, h.next hstep⟩
  | test => exact h.test hok hstep

/-- A step that does not meet the condition loses the first response not done. -/
theorem Inv.not_kept (h : c.Inv k) {a : HttpAct} (hok : ¬ c.Undisturbed a)
    (hstep : c.step a = some c') : ¬ c'.InOrder := by
  intro hin
  cases a with
  | write r =>
    obtain rfl : r = .again := not_not.mp hok
    obtain ⟨i, queue, t, hpc, hq, ht, hstep⟩ := write_cases hstep
    obtain rfl := Option.some.inj hstep
    have hheld : c.held = i :: queue := by rw [HttpOut.held, hpc, hq]
    obtain ⟨rfl, hlt, hrest⟩ := h.head hheld
    have hnot : ¬ (c.reply i).Done := by
      rintro ⟨-, hs⟩
      have hnil : (c.reply i).res.message = [] := by
        have := h.left i
        rw [← hs] at this
        simpa using this
      rw [hnil] at ht
      cases ht
    have hmem := hin.kept i hlt hnot
    simp only [HttpOut.held, hpc] at hmem
    rw [hrest, List.mem_range'_1] at hmem
    omega
  | test =>
    have hbad : ¬ c.NoneBetween := hok
    rw [HttpOut.step] at hstep
    split at hstep
    · next i last hpc =>
      obtain rfl := Option.some.inj hstep
      rw [NoneBetween, hpc] at hbad
      cases last with
      | false => exact hbad trivial
      | true =>
        have hheld : c.held = i :: c.queue := by rw [HttpOut.held, hpc]
        obtain ⟨rfl, hlt, hrest⟩ := h.head hheld
        obtain ⟨hfinal, hne⟩ := Classical.not_imp.mp hbad
        have hnot : ¬ ((c.finish i true).reply i).Done := by
          rw [finish, if_pos ⟨rfl, hfinal⟩]
          show ¬ ((c.set i _).reply i).Done
          rw [set_self]
          rintro ⟨-, hs⟩
          have := h.left i
          rw [show (c.reply i).sent = (c.reply i).pushed from hs] at this
          exact hne (by simpa using this)
        have hmem := hin.kept i (by rw [finish]; split <;> exact hlt) hnot
        rw [finish, if_pos ⟨rfl, hfinal⟩] at hmem
        have hq : i ∈ c.queue := hmem
        rw [hrest, List.mem_range'_1] at hq
        omega
    · cases hstep
  | append r => exact hok trivial
  | early i links => exact hok trivial
  | push i t => exact hok trivial
  | setClose i => exact hok trivial
  | next => exact hok trivial

/-- **While there is no socket error and no closing response, the bytes given to the socket are always
a prefix of the responses in request order, and no response to be sent is lost, exactly when `send`
takes something in every write and no message comes between taking off the last one and testing
whether the response is final.** -/
theorem http_writes_in_order_iff {acts : List HttpAct} (hquiet : Along step Quiet init acts) :
    Always step InOrder init acts ↔ Along step Undisturbed init acts :=
  always_iff_along (fun c => ∃ k, c.Inv k)
    (fun _ _ _ ⟨_, h⟩ hq hok hstep => h.step hq hok hstep) (fun _ ⟨_, h⟩ => h.inOrder)
    (fun _ _ _ ⟨_, h⟩ _ hok hstep => h.not_kept hok hstep) ⟨0, inv_init⟩ hquiet

/-- Two requests: an early message, and a response sent in two parts behind another. -/
theorem http_writes_pipelined :
    (runs step init
      [.append (.create 0), .append (.create 0), .push 1 (some (bytes "two")), .early 0 [],
       .write (.sent 28), .next, .test, .push 0 (some (bytes "one")), .write (.sent 3), .next, .test,
       .write (.sent 1), .write (.sent 2), .next, .test]).isSome ∧
    Always step InOrder init
      [.append (.create 0), .append (.create 0), .push 1 (some (bytes "two")), .early 0 [],
       .write (.sent 28), .next, .test, .push 0 (some (bytes "one")), .write (.sent 3), .next, .test,
       .write (.sent 1), .write (.sent 2), .next, .test] :=
  ⟨by decide, (http_writes_in_order_iff (by decide)).mpr (by decide)⟩

/-- One `EAGAIN` drops the response. -/
theorem again_drops_response :
    ¬ ∀ acts, Along step Quiet init acts → Always step InOrder init acts := by
  intro h
  have hacts := h [.append (.create 0), .push 0 (some (bytes "one")), .write .again] (by decide)
  have hmem : 0 ∈ ([] : List ℕ) := hacts.2.2.2.kept 0 (by decide) (by decide)
  cases hmem

end HttpOut

end Agoo
