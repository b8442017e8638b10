import Agoo.EventSource
import Agoo.PushFrames
import Mathlib.Data.List.GetD

/-!
# What the clients read (`con_ws_write`, `con_sse_write`)

A WebSocket client takes a frame when it is whole, an SSE client an event when it ends. In a run in which no text that
is framed is moved and `send` always takes something, each client has at any time what was sent to the end.

`messages_read`: **a WebSocket client reads the messages as they were appended.** `events_read`: **an SSE client does
so exactly when each is one line**, since `agoo_sse_expand` puts the whole text behind one `data:`.
-/

namespace Agoo

namespace PushFrames

open EventStream

/-! ## A WebSocket client -/

/-- The bytes before the payload of a frame from a server, which is not masked. -/
def frameHead (m : Bytes) : ℕ :=
  if at0 m 1 &&& 0x7F = 126 then 4 else if at0 m 1 &&& 0x7F = 127 then 10 else 2

def payloadLen (m : Bytes) : ℕ :=
  if at0 m 1 &&& 0x7F = 126 then ofBigEndian ((m.drop 2).take 2)
  else if at0 m 1 &&& 0x7F = 127 then ofBigEndian ((m.drop 2).take 8)
  else (at0 m 1 &&& 0x7F).toNat

/-- A frame is there to its end. -/
def Whole (m : Bytes) : Prop := 2 ≤ m.length ∧ frameHead m ≤ m.length ∧ m.length = frameHead m + payloadLen m

instance (m : Bytes) : Decidable (Whole m) := inferInstanceAs (Decidable (_ ∧ _ ∧ _))

/-- What is read of a frame: its opcode and its payload. -/
def frameMessage (m : Bytes) : Byte × Bytes := (at0 m 0 &&& 0x0F, m.drop (frameHead m))

def wsClient : Reader Bytes Byte (Byte × Bytes) := .keeping (fun m => decide (Whole m)) frameMessage

/-- The head of a frame is known when it is there. -/
theorem head_prefix {p m : Bytes} (h : p <+: m) (htwo : 2 ≤ p.length) (hhead : frameHead p ≤ p.length) :
    frameHead p = frameHead m ∧ payloadLen p = payloadLen m := by
  obtain ⟨rest, rfl⟩ := h
  have hbyte : at0 (p ++ rest) 1 = at0 p 1 := List.getD_append p rest 0 1 htwo
  have htake : ∀ n, 2 + n ≤ p.length → ((p ++ rest).drop 2).take n = (p.drop 2).take n := by
    intro n hn
    rw [List.drop_append_of_le_length htwo, List.take_append_of_le_length]
    rw [List.length_drop]
    omega
  unfold frameHead at hhead
  unfold frameHead payloadLen
  rw [hbyte]
  refine ⟨rfl, ?_⟩
  split_ifs at hhead ⊢ with h126 h127
  · rw [htake 2 hhead]
  · rw [htake 8 hhead]
  · rfl

theorem not_whole {m : Bytes} (hm : m.length = frameHead m + payloadLen m) {p : Bytes} (h : p <+: m)
    (hne : p ≠ m) : ¬ Whole p := by
  rintro ⟨htwo, hhead, hlen⟩
  obtain ⟨hsame, hpayload⟩ := head_prefix h htwo hhead
  rw [hsame, hpayload, ← hm] at hlen
  exact hne (h.eq_of_length hlen)

theorem ofNat_and_mask : ∀ n < 126, UInt8.ofNat n &&& 0x7F = UInt8.ofNat n := by decide

/-- The three forms of a length. -/
theorem head_expand (isBin : Bool) {t : Bytes} (h : t.length < 256 ^ 8) :
    payloadLen (wsExpand isBin t) = t.length ∧ (wsExpand isBin t).drop (frameHead (wsExpand isBin t)) = t ∧
      frameHead (wsExpand isBin t) = 1 + (wsExpand.lengthField t).length := by
  have hfield : ∀ n, t.length < 256 ^ n → ∀ b0 b1 : Byte,
      ofBigEndian (((b0 :: b1 :: bigEndian n t.length ++ t).drop 2).take n) = t.length := by
    intro n hn b0 b1
    show ofBigEndian ((bigEndian n t.length ++ t).take n) = t.length
    rw [List.take_left' (bigEndian_length n t.length), ofBigEndian_bigEndian, Nat.mod_eq_of_lt hn]
  unfold wsExpand wsExpand.lengthField
  generalize 0x80 ||| (if isBin then WsOp.bin else WsOp.text).code = b0
  split_ifs with hsmall hmiddle
  · have hmask := ofNat_and_mask t.length (by omega)
    have hnat : (UInt8.ofNat t.length).toNat = t.length := by
      rw [UInt8.toNat_ofNat', Nat.mod_eq_of_lt (by omega)]
    have hne : ∀ k : Byte, 126 ≤ k.toNat → UInt8.ofNat t.length ≠ k := fun k hk heq => by
      rw [← heq, hnat] at hk
      omega
    have hbyte : at0 (b0 :: [UInt8.ofNat t.length] ++ t) 1 = UInt8.ofNat t.length := rfl
    unfold payloadLen frameHead
    rw [hbyte, hmask, if_neg (hne 126 (by decide)), if_neg (hne 127 (by decide)), if_neg (hne 126 (by decide)),
      if_neg (hne 127 (by decide))]
    exact ⟨hnat, rfl, rfl⟩
  · have hbyte : at0 (b0 :: 0x7E :: bigEndian 2 t.length ++ t) 1 &&& 0x7F = 126 := by
      show (0x7E : Byte) &&& 0x7F = 126
      decide
    unfold payloadLen frameHead
    rw [if_pos hbyte, if_pos hbyte]
    refine ⟨hfield 2 (by omega) b0 0x7E, ?_, by rw [List.length_cons, bigEndian_length]⟩
    exact List.drop_left' (by rw [List.length_cons, List.length_cons, bigEndian_length])
  · have hbyte : at0 (b0 :: 0x7F :: bigEndian 8 t.length ++ t) 1 &&& 0x7F = 127 := by
      show (0x7F : Byte) &&& 0x7F = 127
      decide
    unfold payloadLen frameHead
    rw [if_neg (by rw [hbyte]; decide), if_pos hbyte, if_neg (by rw [hbyte]; decide), if_pos hbyte]
    refine ⟨hfield 8 h b0 0x7F, ?_, by rw [List.length_cons, bigEndian_length]⟩
    exact List.drop_left' (by rw [List.length_cons, List.length_cons, bigEndian_length])

/-- A frame is read as the message it was made of. -/
theorem frames_wsExpand (isBin : Bool) {t : Bytes} (h : t.length < 256 ^ 8) :
    wsClient.Frames (wsExpand isBin t) ((if isBin then WsOp.bin else WsOp.text).code, t) := by
  obtain ⟨hpayload, hdrop, hhead⟩ := head_expand isBin h
  have hlen : (wsExpand isBin t).length = frameHead (wsExpand isBin t) + payloadLen (wsExpand isBin t) := by
    rw [hpayload, hhead]
    unfold wsExpand
    rw [List.length_append, List.length_cons, Nat.add_comm 1]
  have hwhole : Whole (wsExpand isBin t) := by
    have htwo : 2 ≤ frameHead (wsExpand isBin t) := by
      unfold frameHead
      split_ifs <;> decide
    exact ⟨by omega, by omega, hlen⟩
  have hvalue : frameMessage (wsExpand isBin t) = ((if isBin then WsOp.bin else WsOp.text).code, t) := by
    have hop : at0 (wsExpand isBin t) 0 &&& 0x0F = (if isBin then WsOp.bin else WsOp.text).code := by
      show (0x80 ||| (if isBin then WsOp.bin else WsOp.text).code) &&& 0x0F = _
      cases isBin with
      | true => decide
      | false => decide
    unfold frameMessage
    rw [hdrop, hop]
  rw [← hvalue]
  exact Reader.frames_keeping (List.cons_ne_nil _ _) (decide_eq_true hwhole)
    fun p hp hne => decide_eq_false (not_whole hlen hp hne)

/-! ## An SSE client -/

theorem sseExpand_eq_block (t : Bytes) : sseExpand t = block ⟨bytes "msg", t⟩ := by
  have hpre : bytes "event: msg\ndata: " = bytes "event: " ++ bytes "msg" ++ [lf] ++ bytes "data: " := rfl
  rw [block_eq, ← hpre]
  unfold sseExpand
  rw [List.append_assoc]
  rfl

theorem unbroken_msg : Unbroken (bytes "msg") := by decide

theorem msg_ne_nil : bytes "msg" ≠ [] := by decide

namespace PushCon

variable {c c' : PushCon}

/-! ## In every state -/

/-- Message `i` as the client should have it. -/
def message (c : PushCon) (i : ℕ) : Byte × Bytes :=
  ((if (c.msgs i).bin then WsOp.bin else WsOp.text).code, (c.msgs i).text)

def event (c : PushCon) (i : ℕ) : Event := ⟨bytes "msg", (c.msgs i).text⟩

/-- The client has the messages that were sent to the end, unless a length does not fit into a frame. -/
def MessagesRead (c : PushCon) : Prop :=
  (∀ i < c.cnt, (c.msgs i).text.length < 2 ^ 63) →
    wsClient.given wsClient.start c.out = c.done.map c.message

/-- The client has the messages that were sent to the end, when all are one line; and when nothing is left to be sent,
it has all messages only then. -/
structure EventsRead (c : PushCon) : Prop where
  lines : (∀ i < c.cnt, Unbroken (c.msgs i).text) →
    eventSource.given eventSource.start c.out = c.done.map c.event
  all : c.queue = [] → (eventSource.given eventSource.start c.out = (List.range c.cnt).map c.event ↔
    ∀ i < c.cnt, Unbroken (c.msgs i).text)

/-- What was sent is frames, and a part of another. -/
theorem Inv.parts (h : c.Inv) :
    c.out = c.done.flatMap c.frame ++ c.current ∧
      (c.current = [] ∨ ∃ i < c.cnt, c.current <+: c.frame i ∧ c.current ≠ c.frame i) := by
  refine ⟨by rw [List.flatMap_def]; exact h.out, ?_⟩
  have hstored := h.stored
  unfold current
  cases hqueue : c.queue with
  | nil => exact Or.inl rfl
  | cons r rest =>
    rw [hqueue] at hstored
    refine Or.inr ⟨r.num, h.num_lt (Or.inr ⟨r, hqueue ▸ List.mem_cons_self, rfl⟩), List.take_prefix _ _, fun heq => ?_⟩
    have hlen := congrArg List.length heq
    rw [List.length_take] at hlen
    have hlt := hstored.2.1
    omega

theorem Inv.done_lt (h : c.Inv) {i : ℕ} (hi : i ∈ c.done) : i < c.cnt := h.num_lt (Or.inl hi)

/-- A client of whose messages each frame is one reads what was sent to the end. -/
theorem Inv.read {σ β : Type} (h : c.Inv) {client : Reader σ Byte β} {value : ℕ → β}
    (hframes : ∀ i < c.cnt, client.Frames (c.frame i) (value i)) :
    client.given client.start c.out = c.done.map value := by
  obtain ⟨hout, hpart⟩ := h.parts
  rw [hout]
  refine Reader.given_frames (fun i hi => hframes i (h.done_lt hi)) ?_
  rcases hpart with hnil | ⟨i, hi, hprefix, hne⟩
  · rw [hnil]
    rfl
  · exact (hframes i hi).before _ hprefix hne

theorem Inv.messagesRead (h : c.Inv) (hsse : c.sse = false) : c.MessagesRead := by
  intro hlen
  refine h.read fun i hi => ?_
  have hframe : c.frame i = wsExpand (c.msgs i).bin (c.msgs i).text := by
    unfold frame
    rw [hsse, if_neg Bool.false_ne_true]
  rw [hframe]
  exact frames_wsExpand _ (lt_of_lt_of_le (hlen i hi) (by decide))

theorem frame_eq_block (hsse : c.sse = true) (i : ℕ) : c.frame i = block (c.event i) := by
  unfold frame
  rw [hsse, if_pos rfl]
  exact sseExpand_eq_block _

theorem Inv.eventsRead (h : c.Inv) (hsse : c.sse = true) : c.EventsRead where
  lines hone := h.read fun i hi => by
    rw [frame_eq_block hsse]
    exact frames_block unbroken_msg msg_ne_nil (hone i hi)
  all hqueue := by
    have hdone : c.done = List.range c.cnt := by
      have hkept := h.kept
      rwa [hqueue, List.map_nil, List.append_nil] at hkept
    have hout : c.out = (List.range c.cnt).flatMap fun i => block (c.event i) := by
      have hcurrent : c.current = [] := by
        unfold current
        rw [hqueue]
      rw [h.parts.1, hcurrent, List.append_nil, hdone]
      exact List.flatMap_congr fun i _ => frame_eq_block hsse i
    rw [hout, Reader.given_flatMap _ _ fun i _ => after_block unbroken_msg,
      Reader.flatMap_eq_map_iff fun i _ => given_block_ne_nil unbroken_msg msg_ne_nil]
    simp only [List.mem_range, block_read_iff (e := c.event _) unbroken_msg msg_ne_nil]
    rfl

/-! ## In every run -/

theorem finish_sse (r : PushRes) (a : ℕ) (queue : List PushRes) : (c.finish r a queue).sse = c.sse := by
  unfold finish
  split_ifs <;> rfl

theorem send_sse {r : PushRes} {a b : ℕ} {queue : List PushRes} {res : Sent} (h : c.send r a b queue res = some c') :
    c'.sse = c.sse := by
  unfold send at h
  cases res with
  | again => exact Option.some.inj h ▸ rfl
  | bytes n =>
    obtain ⟨t, -, h⟩ := Option.bind_eq_some_iff.mp h
    split_ifs at h
    · exact Option.some.inj h ▸ finish_sse r a queue
    · exact Option.some.inj h ▸ rfl

theorem step_sse {a : PushAct} (h : c.step a = some c') : c'.sse = c.sse := by
  unfold step at h
  cases a with
  | append a t =>
    obtain ⟨-, h⟩ := Option.ite_none_right_eq_some.mp h
    exact Option.some.inj h ▸ rfl
  | write res new new' =>
    obtain ⟨p, -, h⟩ := Option.bind_eq_some_iff.mp h
    obtain ⟨a, -, h⟩ := Option.bind_eq_some_iff.mp h
    obtain ⟨q, -, h⟩ := Option.bind_eq_some_iff.mp h
    exact send_sse (c := { c with texts := q.1 }) h

/-- The invariant in every state of a run in which nothing is lost. -/
theorem inv_always {sse : Bool} {acts : List PushAct} (h : Along PushCon.step Undisturbed (init sse) acts) :
    Always PushCon.step (fun c => c.Inv ∧ c.sse = sse) (init sse) acts :=
  always_of_along _ (fun _ _ _ hc hok hstep => ⟨hc.1.step hok hstep, (step_sse hstep).trans hc.2⟩)
    ⟨inv_init sse, rfl⟩ h

instance (c : PushCon) : DecidablePred c.Undisturbed
  | .append _ _ => .isTrue trivial
  | .write .again _ _ => .isFalse id
  | .write (.bytes _) new new' =>
    inferInstanceAs (Decidable (∀ r ∈ c.queue.head?, ∀ a ∈ r.message.head?, ∀ q ∈ c.expand a new new', q.2 = a))

/-- Two messages, the first of which is sent in two parts. -/
def twoMessages (parts : List ℕ) : List PushAct :=
  [.append 0 ⟨bytes "one", 35, false⟩, .append 1 ⟨bytes "two", 35, true⟩] ++
    parts.map fun n => .write (.bytes n) none none

/-- **In every state a WebSocket client has read exactly the messages that were sent to the end, in order.** -/
theorem messages_read {acts : List PushAct} (h : Along PushCon.step Undisturbed (init false) acts) :
    Always PushCon.step MessagesRead (init false) acts :=
  (inv_always h).mono fun _ hc => hc.1.messagesRead hc.2

theorem two_messages_read : Always PushCon.step MessagesRead (init false) (twoMessages [2, 3, 5]) :=
  messages_read (by decide)

/-- **An SSE client reads the messages as they were appended exactly when each is one line.** -/
theorem events_read {acts : List PushAct} (h : Along PushCon.step Undisturbed (init true) acts) :
    Always PushCon.step EventsRead (init true) acts :=
  (inv_always h).mono fun _ hc => hc.1.eventsRead hc.2

theorem two_events_read : Always PushCon.step EventsRead (init true) (twoMessages [7, 15, 22]) :=
  events_read (by decide)

end PushCon

end PushFrames

end Agoo
