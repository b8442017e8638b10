import Agoo.Runs
import Agoo.WsFrames

/-!
# Frames from a stream (`con.c`)

`con_ws_read` on what successive calls of `recv` give. `delivered_iff`: in which splits of the bytes of some frames
every message is delivered when it is there, every ping is answered, and nothing is left over.
-/

namespace Agoo

namespace WsStream

/-! ## The code -/

/-- What of a connection matters here: `buf` and `bcnt`, the bytes that `recv` gave, the requests pushed (whether
they are binary, and the message), the pongs queued, and whether it is closed. -/
structure WsCon where
  buf : Bytes
  bcnt : ℕ
  got : ℕ
  pushed : List (Bool × Option Bytes)
  pongs : ℕ
  closed : Bool

/-- The message of a request, as `agoo_ws_create_req` fills it and `agoo_ws_decode` leaves it. -/
def wsMessage (m : Bytes) (cnt mlen : ℕ) : Option Bytes :=
  (wsDecodeIn (wsReqMsg m cnt mlen)).map fun (msg, plen) => msg.take plen

/-- The opcode of the frame in the buffer. -/
def opOf (m : Bytes) : Byte := at0 m 0 &&& 0x0F

/-- A request is pushed, and what is behind its frame is moved to the start. -/
def push (c : WsCon) (mlen : ℕ) : WsCon × Bool :=
  let request := (opOf c.buf == WsOp.bin.code, wsMessage c.buf c.bcnt mlen)
  if mlen < c.bcnt then
    ({ c with
      buf := (c.buf.drop mlen).take (c.bcnt - mlen) ++ c.buf.drop (c.bcnt - mlen)
      bcnt := c.bcnt - mlen
      pushed := c.pushed ++ [request] }, true)
  else ({ c with buf := c.buf.set 0 0, bcnt := 0, pushed := c.pushed ++ [request] }, false)

/-- A turn of the loop in `con_ws_read`, and whether there is another. The connection has a handler and no
subscription. -/
def turn (c : WsCon) : WsCon × Bool :=
  match wsRead c.buf c.bcnt with
  | .again => (c, false)
  | .close => ({ c with closed := true }, false)
  | .frame mlen =>
    if opOf c.buf = WsOp.text.code ∨ opOf c.buf = WsOp.bin.code then push c mlen
    else if opOf c.buf = WsOp.ping.code then
      (if mlen = c.bcnt then { c with bcnt := 0, pongs := c.pongs + 1 } else c, false)
    else if opOf c.buf = WsOp.pong.code then (if mlen = c.bcnt then { c with bcnt := 0 } else c, false)
    else ({ c with closed := true }, false)  -- an opcode that is not supported is reported as well

theorem frame_pos {m : Bytes} {cnt mlen : ℕ} (h : wsRead m cnt = .frame mlen) : 0 < mlen := by
  unfold wsRead at h
  split_ifs at h
  split at h
  · cases h
  · cases h
    exact Nat.succ_pos _
  · cases h

theorem turn_lt (c : WsCon) (h : (turn c).2 = true) : (turn c).1.bcnt < c.bcnt := by
  unfold turn at h ⊢
  cases hread : wsRead c.buf c.bcnt with
  | again => simp [hread] at h
  | close => simp [hread] at h
  | frame mlen =>
    have hpos := frame_pos hread
    simp only [hread, push] at h ⊢
    split_ifs at h ⊢ with hop hmore
    · dsimp only
      omega

/-- The loop in `con_ws_read`. -/
def loop (c : WsCon) : WsCon :=
  if _h : (turn c).2 = true then loop (turn c).1 else (turn c).1
termination_by c.bcnt
decreasing_by exact turn_lt c _h

/-- What `recv` gave is behind what was there. -/
def recv (c : WsCon) (chunk : Bytes) : WsCon :=
  { c with
    buf := c.buf.take c.bcnt ++ chunk ++ c.buf.drop (c.bcnt + chunk.length)
    bcnt := c.bcnt + chunk.length
    got := c.got + chunk.length }

/-- `con_ws_read`, where `recv` gives some bytes: at least one, and no more than there is room for. A connection
that is closed is not read. -/
def conWsRead (c : WsCon) (chunk : Bytes) : Option WsCon :=
  if c.closed ∨ chunk = [] ∨ 8192 - c.bcnt - 1 < chunk.length then none else some (loop (recv c chunk))

/-- A connection that has read nothing, with what is in its buffer. -/
def init (old : Bytes) : WsCon := ⟨old, 0, 0, [], 0, false⟩

/-! ## Frames of clients -/

inductive FrameOp
  | text | bin | ping | pong
  deriving DecidableEq, Repr

def FrameOp.code : FrameOp → Fin 16
  | text => 1
  | bin => 2
  | ping => 9
  | pong => 10

def FrameOp.isMessage : FrameOp → Bool
  | text => true
  | bin => true
  | ping => false
  | pong => false

/-- A complete frame of a client. -/
structure Frame where
  op : FrameOp
  key : Vector Byte 4
  payload : Bytes
  fits : (rfcFrame op.code (some key) payload).length ≤ 8191

def Frame.bytes (f : Frame) : Bytes := rfcFrame f.op.code (some f.key) f.payload

/-- The bytes before the mask. -/
def Frame.header (f : Frame) : ℕ := 2 + (lengthForm f.payload.length).2.length

def stream : List Frame → Bytes
  | [] => []
  | f :: fs => f.bytes ++ stream fs

/-- The requests for frames. -/
def messages : List Frame → List (Bool × Option Bytes)
  | [] => []
  | f :: fs => (if f.op.isMessage then [(f.op == .bin, some f.payload)] else []) ++ messages fs

/-- The pongs for frames. -/
def pings : List Frame → ℕ
  | [] => 0
  | f :: fs => (if f.op = .ping then 1 else 0) + pings fs

theorem stream_append (fs gs : List Frame) : stream (fs ++ gs) = stream fs ++ stream gs := by
  induction fs with
  | nil => rfl
  | cons f fs ih => simp [stream, ih]

theorem messages_append (fs gs : List Frame) : messages (fs ++ gs) = messages fs ++ messages gs := by
  induction fs with
  | nil => rfl
  | cons f fs ih => simp [messages, ih]

theorem pings_append (fs gs : List Frame) : pings (fs ++ gs) = pings fs + pings gs := by
  induction fs with
  | nil => simp [pings]
  | cons f fs ih => simp [pings, ih, Nat.add_assoc]

theorem Frame.length_bytes (f : Frame) : f.bytes.length = f.header + 4 + f.payload.length := by
  unfold bytes header
  rw [rfcFrame_length]
  rfl

theorem Frame.exists_length (f : Frame) : ∃ k, f.bytes.length = k + 1 :=
  ⟨f.header + 3 + f.payload.length, by rw [f.length_bytes]; omega⟩

theorem Frame.small (f : Frame) : f.payload.length < 0x8000000000000000 := by
  have hfits : f.bytes.length ≤ 8191 := f.fits
  rw [f.length_bytes] at hfits
  omega

theorem Frame.two_le_header (f : Frame) : 2 ≤ f.header := Nat.le_add_right _ _

/-- The length that is found for the first bytes of a frame: the header has to be there, and one byte more. -/
theorem Frame.calcLen_part (f : Frame) {live a : Bytes} (h : f.bytes = live ++ a) (stale : Bytes)
    (htwo : 2 ≤ live.length) : wsCalcLen (live ++ stale) live.length =
      if live.length ≤ f.header then 0 else (f.bytes.length : ℤ) := by
  have hfits : f.bytes.length ≤ 8191 := f.fits
  have htake : f.bytes.take live.length = live := by rw [h, List.take_left]
  have hle : live.length ≤ f.bytes.length := by
    rw [h, List.length_append]
    omega
  have hcalc := wsCalcLen_part f.op.code (some f.key) (by show f.bytes.length < _; omega) stale hle htwo
  have hheader := f.two_le_header
  have hopen : (live.length < 3 ∨ live.length ≤ f.header) ↔ live.length ≤ f.header := by omega
  rw [show rfcFrame f.op.code (some f.key) f.payload = f.bytes from rfl, htake] at hcalc
  exact hcalc.trans (if_congr hopen rfl rfl)

theorem Frame.read_open (f : Frame) {live a : Bytes} (h : f.bytes = live ++ a) (stale : Bytes)
    (hopen : live.length ≤ f.header) : wsRead (live ++ stale) live.length = .again := by
  unfold wsRead
  by_cases htwo : live.length < 2
  · rw [if_pos htwo]
  · rw [if_neg htwo, f.calcLen_part h stale (by omega), if_pos hopen]

theorem Frame.read_known (f : Frame) {live a : Bytes} (h : f.bytes = live ++ a) (stale : Bytes)
    (hopen : ¬ live.length ≤ f.header) : wsRead (live ++ stale) live.length = .frame f.bytes.length := by
  have hheader := f.two_le_header
  have htwo : ¬ live.length < 2 := by omega
  obtain ⟨k, hk⟩ := f.exists_length
  unfold wsRead
  rw [if_neg htwo, f.calcLen_part h stale (by omega), if_neg hopen, hk]

theorem Frame.read_whole (f : Frame) (t : Bytes) {n : ℕ} (h : f.bytes.length ≤ n) :
    wsRead (f.bytes ++ t) n = .frame f.bytes.length := by
  have hfin : at0 (f.bytes ++ t) 0 &&& 0x80 ≠ 0 := (rfcFrame_header f.op.code (some f.key) f.small t).1
  have hheader : wsHeaderLen (f.bytes ++ t) = f.header :=
    congrArg Prod.snd (rfcFrame_header f.op.code (some f.key) f.small t).2.2
  have htotal : wsTotal (f.bytes ++ t) = f.bytes.length := rfcFrame_total f.op.code (some f.key) f.small t
  have hfits : f.bytes.length ≤ 8191 := f.fits
  have hlong := f.length_bytes
  have htwo := f.two_le_header
  obtain ⟨k, hk⟩ := f.exists_length
  unfold wsRead
  rw [if_neg (by omega), wsCalcLen_ready hfin (by omega) (by rw [hheader]; omega), htotal,
    Int.bmod_eq_of_le (by omega) (by omega), hk]

theorem Frame.op_eq (f : Frame) (t : Bytes) : opOf (f.bytes ++ t) = UInt8.ofNat f.op.code := by
  have hop : ∀ op : FrameOp, (0x80 ||| UInt8.ofNat op.code) &&& 0x0F = UInt8.ofNat op.code := by
    intro op
    cases op <;> decide
  exact hop f.op

theorem Frame.message_eq (f : Frame) (t : Bytes) {n : ℕ} (h : f.bytes.length ≤ n) :
    wsMessage (f.bytes ++ t) n f.bytes.length = some f.payload := by
  have hmsg : wsReqMsg (f.bytes ++ t) n f.bytes.length = f.bytes ++ [0] := by
    unfold wsReqMsg
    congr 1
    refine List.ext_getElem (by simp) fun i hi _ => ?_
    have hlt : i < f.bytes.length := by simpa using hi
    simp only [List.getElem_map, List.getElem_range, if_pos (show i < n by omega)]
    unfold at0
    rw [List.getD_append _ _ _ _ hlt, List.getD_eq_getElem _ _ hlt]
  have hlen := (rfcFrame_header f.op.code (some f.key) f.small [0]).2.2
  have htotal : wsTotal (f.bytes ++ [0]) = f.bytes.length := rfcFrame_total f.op.code (some f.key) f.small [0]
  obtain ⟨rest, hdecode⟩ := wsDecodeIn_eq (m := f.bytes ++ [0]) (by rw [htotal, List.length_append]; omega)
  have hpayload : wsDecode (f.bytes ++ [0]) = f.payload :=
    wsDecode_rfcFrame_append f.op.code (some f.key) f.small [0]
  have hplen : (wsPayloadLen (f.bytes ++ [0])).1 = f.payload.length := congrArg Prod.fst hlen
  unfold wsMessage
  rw [hmsg, hdecode, hpayload, hplen, Option.map_some]
  exact congrArg some List.take_left

/-! ## A turn of the loop -/

/-- The bytes that are read and not yet used. -/
def Live (c : WsCon) (live : Bytes) : Prop := (∃ stale, c.buf = live ++ stale) ∧ c.bcnt = live.length

variable {c : WsCon} {f : Frame} {live : Bytes}

theorem opOf_message (h : f.op.isMessage = true) (t : Bytes) :
    opOf (f.bytes ++ t) = WsOp.text.code ∨ opOf (f.bytes ++ t) = WsOp.bin.code := by
  rw [f.op_eq]
  cases hop : f.op with
  | text => exact Or.inl rfl
  | bin => exact Or.inr rfl
  | ping => rw [hop] at h; cases h
  | pong => rw [hop] at h; cases h

theorem opOf_control (h : f.op.isMessage = false) (t : Bytes) :
    ¬ (opOf (f.bytes ++ t) = WsOp.text.code ∨ opOf (f.bytes ++ t) = WsOp.bin.code) := by
  rw [f.op_eq]
  cases hop : f.op with
  | text => rw [hop] at h; cases h
  | bin => rw [hop] at h; cases h
  | ping => decide
  | pong => decide

/-- The first byte is the same for the first bytes of a frame. -/
theorem opOf_part {a : Bytes} (h : f.bytes = live ++ a) (hlive : live ≠ []) (stale : Bytes) :
    opOf (live ++ stale) = opOf (f.bytes ++ []) := by
  obtain ⟨b, bs, rfl⟩ := List.exists_cons_of_ne_nil hlive
  rw [h]
  rfl

/-- Part of a frame is shorter, and it is not empty when the length is known. -/
theorem part_lt {a : Bytes} (h : f.bytes = live ++ a) (ha : a ≠ []) : live.length < f.bytes.length := by
  have hpos := List.length_pos_iff.mpr ha
  rw [h, List.length_append]
  omega

theorem part_ne_nil (hopen : ¬ live.length ≤ f.header) : live ≠ [] := by
  rintro rfl
  exact hopen (Nat.zero_le _)

theorem turn_push {n : ℕ} (hread : wsRead c.buf c.bcnt = .frame n)
    (hcode : opOf c.buf = WsOp.text.code ∨ opOf c.buf = WsOp.bin.code) : turn c = push c n := by
  unfold turn
  rw [hread]
  exact if_pos hcode

theorem turn_open {a : Bytes} (hlive : Live c live) (h : f.bytes = live ++ a) (hopen : live.length ≤ f.header) :
    turn c = (c, false) := by
  obtain ⟨⟨stale, hbuf⟩, hcnt⟩ := hlive
  unfold turn
  rw [hbuf, hcnt, f.read_open h stale hopen]

theorem turn_nil (hlive : Live c []) : turn c = (c, false) := by
  unfold turn
  rw [hlive.2]
  rfl

/-- A request is pushed, and its frame is not in the buffer any more. -/
theorem turn_message {more : Bytes} (hlive : Live c (f.bytes ++ more)) (hop : f.op.isMessage = true) :
    Live (turn c).1 more ∧ (turn c).2 = !more.isEmpty ∧
      (turn c).1.pushed = c.pushed ++ [(f.op == .bin, some f.payload)] ∧ (turn c).1.pongs = c.pongs ∧
      (turn c).1.closed = c.closed ∧ (turn c).1.got = c.got := by
  obtain ⟨⟨stale, hbuf⟩, hcnt⟩ := hlive
  rw [List.append_assoc] at hbuf
  rw [List.length_append] at hcnt
  have hle : f.bytes.length ≤ c.bcnt := by omega
  have hbin : (opOf c.buf == WsOp.bin.code) = (f.op == .bin) := by
    rw [hbuf, f.op_eq]
    cases hkind : f.op <;> rfl
  have hturn : turn c = push c f.bytes.length := by
    have hcode := opOf_message hop (more ++ stale)
    rw [← hbuf] at hcode
    exact turn_push (by rw [hbuf, f.read_whole _ hle]) hcode
  have hmessage : wsMessage c.buf c.bcnt f.bytes.length = some f.payload := by
    rw [hbuf]
    exact f.message_eq _ hle
  rw [hturn]
  unfold push
  rw [hbin, hmessage]
  cases more with
  | nil =>
    rw [if_neg (by simp only [List.length_nil] at hcnt; omega)]
    exact ⟨⟨⟨_, rfl⟩, rfl⟩, rfl, rfl, rfl, rfl, rfl⟩
  | cons b bs =>
    have hlen : c.bcnt - f.bytes.length = (b :: bs).length := by omega
    rw [if_pos (by simp only [List.length_cons] at hcnt; omega), hlen]
    refine ⟨⟨⟨c.buf.drop (b :: bs).length, ?_⟩, rfl⟩, rfl, rfl, rfl, rfl, rfl⟩
    dsimp only
    rw [hbuf, List.drop_left, List.take_left]

/-- A control frame that is alone in the buffer is used. -/
theorem turn_control (hlive : Live c f.bytes) (hop : f.op.isMessage = false) :
    Live (turn c).1 [] ∧ (turn c).2 = false ∧ (turn c).1.pushed = c.pushed ∧
      (turn c).1.pongs = c.pongs + (if f.op = .ping then 1 else 0) ∧
      (turn c).1.closed = c.closed ∧ (turn c).1.got = c.got := by
  obtain ⟨⟨stale, hbuf⟩, hcnt⟩ := hlive
  have hread : wsRead c.buf c.bcnt = .frame f.bytes.length := by rw [hbuf, f.read_whole _ hcnt.ge]
  have hcode := opOf_control hop stale
  have hop' := f.op_eq stale
  rw [← hbuf] at hcode hop'
  unfold turn
  rw [hread]
  dsimp only
  rw [if_neg hcode, hop', if_pos hcnt.symm, if_pos hcnt.symm]
  cases hkind : f.op with
  | text => rw [hkind] at hop; cases hop
  | bin => rw [hkind] at hop; cases hop
  | ping => exact ⟨⟨⟨_, rfl⟩, rfl⟩, rfl, rfl, rfl, rfl, rfl⟩
  | pong => exact ⟨⟨⟨_, rfl⟩, rfl⟩, rfl, rfl, rfl, rfl, rfl⟩

/-- A control frame that is not all that is in the buffer stays there, and so does what follows. -/
theorem turn_control_stays (hread : wsRead c.buf c.bcnt = .frame f.bytes.length)
    (hcode : opOf c.buf = UInt8.ofNat f.op.code) (hop : f.op.isMessage = false) (hne : f.bytes.length ≠ c.bcnt) :
    turn c = (c, false) := by
  unfold turn
  rw [hread]
  dsimp only
  rw [hcode, if_neg hne, if_neg hne]
  cases hkind : f.op with
  | text => rw [hkind] at hop; cases hop
  | bin => rw [hkind] at hop; cases hop
  | ping => rfl
  | pong => rfl

theorem turn_stuck {more : Bytes} (hlive : Live c (f.bytes ++ more)) (hmore : more ≠ [])
    (hop : f.op.isMessage = false) : turn c = (c, false) := by
  obtain ⟨⟨stale, hbuf⟩, hcnt⟩ := hlive
  rw [List.append_assoc] at hbuf
  rw [List.length_append] at hcnt
  have hpos := List.length_pos_iff.mpr hmore
  refine turn_control_stays (f := f) ?_ ?_ hop (by omega)
  · rw [hbuf, f.read_whole _ (by omega)]
  · rw [hbuf, f.op_eq]

theorem turn_part {a : Bytes} (hlive : Live c live) (h : f.bytes = live ++ a) (ha : a ≠ [])
    (hop : f.op.isMessage = false) : turn c = (c, false) := by
  by_cases hopen : live.length ≤ f.header
  · exact turn_open hlive h hopen
  · obtain ⟨⟨stale, hbuf⟩, hcnt⟩ := hlive
    have hlt := part_lt h ha
    refine turn_control_stays (f := f) ?_ ?_ hop (by omega)
    · rw [hbuf, hcnt, f.read_known h stale hopen]
    · rw [hbuf, opOf_part h (part_ne_nil hopen), f.op_eq]

/-- A request is pushed before its frame is there. -/
theorem turn_early {a : Bytes} (hlive : Live c live) (h : f.bytes = live ++ a) (ha : a ≠ [])
    (hopen : ¬ live.length ≤ f.header) (hop : f.op.isMessage = true) :
    (turn c).2 = false ∧ (∃ request, (turn c).1.pushed = c.pushed ++ [request]) ∧ (turn c).1.got = c.got := by
  obtain ⟨⟨stale, hbuf⟩, hcnt⟩ := hlive
  have hlt := part_lt h ha
  have hturn : turn c = push c f.bytes.length := by
    have hcode := opOf_message hop []
    rw [← opOf_part h (part_ne_nil hopen) stale, ← hbuf] at hcode
    exact turn_push (by rw [hbuf, hcnt, f.read_known h stale hopen]) hcode
  rw [hturn]
  unfold push
  rw [if_neg (by omega)]
  exact ⟨rfl, ⟨_, rfl⟩, rfl⟩

/-! ## Runs -/

/-- The frames that the first `n` bytes hold whole. -/
def arrived : List Frame → ℕ → List Frame
  | [], _ => []
  | f :: fs, n => if f.bytes.length ≤ n then f :: arrived fs (n - f.bytes.length) else []

/-- The next `k` bytes are read. -/
def step (fs : List Frame) (c : WsCon) (k : ℕ) : Option WsCon :=
  if (stream fs).length < c.got + k then none else conWsRead c (((stream fs).drop c.got).take k)

/-- Each frame that is there was used, and none that is not. -/
structure Delivered (fs : List Frame) (c : WsCon) : Prop where
  pushed : c.pushed = messages (arrived fs c.got)
  pongs : c.pongs = pings (arrived fs c.got)
  /-- What is left in the buffer is of the frame that is not there yet. -/
  left : (stream (arrived fs c.got)).length + c.bcnt = c.got
  alive : c.closed = false

/-- What a read of the bytes from `a` to `b` has to be: a control frame that it completes is the last thing in it,
and a message is not cut behind the place where its length is known. -/
def CutWell : List Frame → ℕ → ℕ → Prop
  | [], _, _ => True
  | f :: fs, a, b =>
    (f.op.isMessage = false → a < f.bytes.length → f.bytes.length ≤ b → b = f.bytes.length) ∧
      (f.op.isMessage = true → b < f.bytes.length → b ≤ f.header) ∧
        CutWell fs (a - f.bytes.length) (b - f.bytes.length)

instance CutWell.decide : ∀ (fs : List Frame) (a b : ℕ), Decidable (CutWell fs a b)
  | [], _, _ => .isTrue trivial
  | f :: fs, a, b =>
    have := CutWell.decide fs (a - f.bytes.length) (b - f.bytes.length)
    inferInstanceAs (Decidable (_ ∧ _ ∧ _))

/-- Frames are used up to some place, and `live` is read of what follows. -/
structure Mid (used rest : List Frame) (live : Bytes) (c : WsCon) : Prop where
  buffer : Live c live
  part : ∃ tail, stream rest = live ++ tail
  got : c.got = (stream used).length + live.length
  pushed : c.pushed = messages used
  pongs : c.pongs = pings used
  closed : c.closed = false

/-- The next frame is not there. -/
def Waits (rest : List Frame) (n : ℕ) : Prop := ∀ f ∈ rest.head?, n < f.bytes.length

def Inv (fs : List Frame) (c : WsCon) : Prop :=
  ∃ used rest live, fs = used ++ rest ∧ Mid used rest live c ∧ Waits rest live.length

theorem Frame.length_pos (f : Frame) : 0 < f.bytes.length := by
  rw [f.length_bytes]
  omega

theorem arrived_append (used rest : List Frame) (n : ℕ) :
    arrived (used ++ rest) ((stream used).length + n) = used ++ arrived rest n := by
  induction used with
  | nil => simp [stream]
  | cons f used ih =>
    rw [stream, List.length_append, List.cons_append, arrived, if_pos (by omega),
      show f.bytes.length + (stream used).length + n - f.bytes.length = (stream used).length + n by omega, ih,
      List.cons_append]

theorem arrived_waits {rest : List Frame} {n : ℕ} (h : Waits rest n) : arrived rest n = [] := by
  cases rest with
  | nil => rfl
  | cons f rest => exact if_neg (by have := h f rfl; omega)

theorem cutWell_zero (fs : List Frame) (a : ℕ) : CutWell fs a 0 := by
  induction fs generalizing a with
  | nil => trivial
  | cons f fs ih =>
    have hpos := f.length_pos
    refine ⟨fun _ _ h => absurd h (by omega), fun _ _ => Nat.zero_le _, ?_⟩
    rw [Nat.zero_sub]
    exact ih _

/-- The frames that were used before do not matter. -/
theorem cutWell_append (used rest : List Frame) (a b : ℕ) :
    CutWell (used ++ rest) ((stream used).length + a) ((stream used).length + b) ↔ CutWell rest a b := by
  induction used with
  | nil => simp [stream]
  | cons f used ih =>
    have hcut : ∀ n, (stream (f :: used)).length + n - f.bytes.length = (stream used).length + n := by
      intro n
      rw [stream, List.length_append]
      omega
    rw [List.cons_append, CutWell, hcut, hcut, ih, stream, List.length_append]
    exact ⟨fun h => h.2.2, fun h => ⟨fun _ hlt => absurd hlt (by omega), fun _ hlt => absurd hlt (by omega), h⟩⟩

theorem Inv.delivered {fs : List Frame} {c : WsCon} (h : Inv fs c) : Delivered fs c := by
  obtain ⟨used, rest, live, rfl, hmid, hwaits⟩ := h
  have harrived : arrived (used ++ rest) c.got = used := by
    rw [hmid.got, arrived_append, arrived_waits hwaits, List.append_nil]
  refine ⟨?_, ?_, ?_, hmid.closed⟩
  · rw [harrived, hmid.pushed]
  · rw [harrived, hmid.pongs]
  · rw [harrived, hmid.buffer.2, hmid.got]

/-! ### The loop -/

theorem loop_stop (h : (turn c).2 = false) : loop c = (turn c).1 := by
  rw [loop, dif_neg (by rw [h]; decide)]

theorem loop_more (h : (turn c).2 = true) : loop c = loop (turn c).1 := by
  rw [loop, dif_pos h]

theorem loop_same (h : turn c = (c, false)) : loop c = c := by
  rw [loop_stop (congrArg Prod.snd h), h]

theorem cutWell_part {rest : List Frame} {a n : ℕ} (h : n < f.bytes.length) :
    CutWell (f :: rest) a n ↔ (f.op.isMessage = true → n ≤ f.header) := by
  rw [CutWell, show n - f.bytes.length = 0 by omega]
  exact ⟨fun hcut hop => hcut.2.1 hop h,
    fun hopen => ⟨fun _ _ hle => absurd hle (by omega), fun hop _ => hopen hop, cutWell_zero rest _⟩⟩

theorem cutWell_whole {rest : List Frame} {a n : ℕ} (h : a < f.bytes.length) :
    CutWell (f :: rest) a (f.bytes.length + n) ↔ (f.op.isMessage = false → n = 0) ∧ CutWell rest 0 n := by
  rw [CutWell, show a - f.bytes.length = 0 by omega, Nat.add_sub_cancel_left]
  constructor
  · exact fun hcut => ⟨fun hop => by have := hcut.1 hop h (by omega); omega, hcut.2.2⟩
  · exact fun hcut => ⟨fun hop _ _ => by rw [hcut.1 hop, Nat.add_zero], fun _ hlt => absurd hlt (by omega), hcut.2⟩

/-- Either the next frame is there, or a part of it is. -/
theorem next_cases {rest : List Frame} {tail : Bytes} (h : stream (f :: rest) = live ++ tail) :
    (∃ more, live = f.bytes ++ more ∧ stream rest = more ++ tail) ∨ ∃ a, a ≠ [] ∧ f.bytes = live ++ a := by
  rcases List.append_eq_append_iff.mp h with ⟨more, hlive, hrest⟩ | ⟨a, hf, hrest⟩
  · exact Or.inl ⟨more, hlive, hrest⟩
  · rcases eq_or_ne a [] with rfl | ha
    · exact Or.inl ⟨[], by rw [hf, List.append_nil, List.append_nil], hrest.symm⟩
    · exact Or.inr ⟨a, ha, hf⟩

variable {used rest : List Frame} {more : Bytes}

theorem stream_snoc (used : List Frame) (f : Frame) :
    (stream (used ++ [f])).length = (stream used).length + f.bytes.length := by
  simp [stream_append, stream]

/-- A message is pushed, and the next frame is looked at. -/
theorem Mid.message (h : Mid used (f :: rest) (f.bytes ++ more) c) (hrest : ∃ tail, stream rest = more ++ tail)
    (hop : f.op.isMessage = true) : Mid (used ++ [f]) rest more (turn c).1 := by
  obtain ⟨hlive, -, hpushed, hpongs, hclosed, hgot⟩ := turn_message h.buffer hop
  have hping : f.op ≠ .ping := by
    intro hping
    rw [hping] at hop
    cases hop
  refine ⟨hlive, hrest, ?_, ?_, ?_, hclosed.trans h.closed⟩
  · rw [hgot, h.got, stream_snoc, List.length_append, Nat.add_assoc]
  · simp [hpushed, h.pushed, messages_append, messages, hop]
  · simp [hpongs, h.pongs, pings_append, pings, hping]

theorem Mid.control (h : Mid used (f :: rest) f.bytes c) (hop : f.op.isMessage = false) :
    Mid (used ++ [f]) rest [] (turn c).1 := by
  obtain ⟨hlive, -, hpushed, hpongs, hclosed, hgot⟩ := turn_control h.buffer hop
  refine ⟨hlive, ⟨_, rfl⟩, ?_, ?_, ?_, hclosed.trans h.closed⟩
  · rw [hgot, h.got, stream_snoc, List.length_nil, Nat.add_zero]
  · simp [hpushed, h.pushed, messages_append, messages, hop]
  · simp [hpongs, h.pongs, pings_append, pings]

/-- A frame that is there and stays in the buffer. -/
theorem Mid.stuck (h : Mid used (f :: rest) (f.bytes ++ more) c) : ¬ Delivered (used ++ f :: rest) c := by
  intro hdel
  have hpos := f.length_pos
  have hleft := hdel.left
  have hgot := h.got
  have hcnt := h.buffer.2
  rw [List.length_append] at hgot hcnt
  rw [hgot, arrived_append, stream_append, List.length_append, arrived, if_pos (by omega), stream,
    List.length_append, hcnt] at hleft
  omega

/-- A message that is pushed before its frame is there. -/
theorem Mid.early {c' : WsCon} {request : Bool × Option Bytes} (h : Mid used rest live c)
    (hwaits : Waits rest live.length) (hpushed : c'.pushed = c.pushed ++ [request]) (hgot : c'.got = c.got) :
    ¬ Delivered (used ++ rest) c' := by
  intro hdel
  have hall := hdel.pushed
  rw [hgot, h.got, arrived_append, arrived_waits hwaits, List.append_nil, hpushed, h.pushed] at hall
  have hlen := congrArg List.length hall
  rw [List.length_append, List.length_singleton] at hlen
  omega

theorem waits_zero (rest : List Frame) : Waits rest 0 := fun f _ => f.length_pos

/-- The loop uses all frames that are there, if the bytes that were read are so cut. -/
theorem loop_cases (rest : List Frame) {used : List Frame} {c : WsCon} {live : Bytes} {a : ℕ}
    (h : Mid used rest live c) (ha : Waits rest a) :
    (CutWell rest a live.length ∧ Inv (used ++ rest) (loop c)) ∨
      (¬ CutWell rest a live.length ∧ ¬ Delivered (used ++ rest) (loop c)) := by
  induction rest generalizing used c live a with
  | nil =>
    obtain ⟨tail, htail⟩ := h.part
    obtain ⟨rfl, -⟩ := List.append_eq_nil_iff.mp htail.symm
    rw [loop_same (turn_nil h.buffer)]
    exact Or.inl ⟨trivial, used, [], [], rfl, h, waits_zero []⟩
  | cons f rest ih =>
    obtain ⟨tail, htail⟩ := h.part
    rcases next_cases htail with ⟨more, rfl, hrest⟩ | ⟨b, hb, hf⟩
    · rw [List.length_append, cutWell_whole (ha f rfl)]
      cases hop : f.op.isMessage with
      | true =>
        have hmid := h.message ⟨tail, hrest⟩ hop
        have hloop : loop c = loop (turn c).1 := by
          cases hmore : more with
          | nil =>
            subst hmore
            have hstop : (turn c).2 = false := (turn_message h.buffer hop).2.1
            rw [loop_stop hstop, loop_same (turn_nil hmid.buffer)]
          | cons x xs =>
            subst hmore
            exact loop_more (turn_message h.buffer hop).2.1
        rw [hloop, List.append_cons]
        rcases ih hmid (waits_zero rest) with ⟨hcut, hinv⟩ | ⟨hcut, hdel⟩
        · exact Or.inl ⟨⟨fun hc => absurd hc (by decide), hcut⟩, hinv⟩
        · exact Or.inr ⟨fun hc => hcut hc.2, hdel⟩
      | false =>
        rcases eq_or_ne more [] with rfl | hmore
        · rw [List.append_nil] at h
          have hmid := h.control hop
          rw [loop_stop (turn_control h.buffer hop).2.1, List.append_cons]
          exact Or.inl ⟨⟨fun _ => rfl, cutWell_zero rest 0⟩, _, rest, [], rfl, hmid, waits_zero rest⟩
        · rw [loop_same (turn_stuck h.buffer hmore hop)]
          exact Or.inr ⟨fun hc => hmore (List.eq_nil_of_length_eq_zero (hc.1 rfl)), h.stuck⟩
    · have hlt := part_lt hf hb
      have hwaits : Waits (f :: rest) live.length := by
        rintro _ ⟨⟩
        exact hlt
      rw [cutWell_part hlt]
      by_cases hopen : f.op.isMessage = true → live.length ≤ f.header
      · have hturn : turn c = (c, false) := by
          cases hop : f.op.isMessage with
          | true => exact turn_open h.buffer hf (hopen hop)
          | false => exact turn_part h.buffer hf hb hop
        rw [loop_same hturn]
        exact Or.inl ⟨hopen, used, f :: rest, live, rfl, h, hwaits⟩
      · obtain ⟨hop, hknown⟩ := Classical.not_imp.mp hopen
        obtain ⟨hstop, ⟨request, hpushed⟩, hgot⟩ := turn_early h.buffer hf hb hknown hop
        rw [loop_stop hstop]
        exact Or.inr ⟨hopen, h.early hwaits hpushed hgot⟩

/-! ### A read -/

theorem Mid.recv {chunk : Bytes} (h : Mid used rest live c) (hrest : ∃ tail, stream rest = live ++ chunk ++ tail) :
    Mid used rest (live ++ chunk) (recv c chunk) := by
  obtain ⟨stale, hbuf⟩ := h.buffer.1
  have hcnt := h.buffer.2
  refine ⟨⟨⟨stale.drop chunk.length, ?_⟩, ?_⟩, hrest, ?_, h.pushed, h.pongs, h.closed⟩
  · unfold WsStream.recv
    dsimp only
    rw [hbuf, hcnt, List.take_left, ← List.drop_drop, List.drop_left]
  · rw [List.length_append, ← hcnt]
    rfl
  · rw [List.length_append, ← Nat.add_assoc, ← h.got]
    rfl

/-- What a read of the stream does. -/
theorem step_cases {fs : List Frame} {c c' : WsCon} {k : ℕ} (hinv : Inv fs c) (h : step fs c k = some c') :
    (CutWell fs c.got (c.got + k) ∧ Inv fs c') ∨ (¬ CutWell fs c.got (c.got + k) ∧ ¬ Delivered fs c') := by
  obtain ⟨used, rest, live, rfl, hmid, hwaits⟩ := hinv
  obtain ⟨tail, htail⟩ := hmid.part
  unfold step conWsRead at h
  split_ifs at h with hlong hread
  obtain rfl := Option.some.inj h
  have hdrop : (stream (used ++ rest)).drop c.got = tail := by
    rw [stream_append, htail, hmid.got, ← List.append_assoc, ← List.length_append, List.drop_left]
  have hlen : ((stream (used ++ rest)).drop c.got |>.take k).length = k := by
    rw [List.length_take, List.length_drop]
    omega
  rw [hdrop] at hlen ⊢
  have hmid' : Mid used rest (live ++ tail.take k) (recv c (tail.take k)) :=
    hmid.recv ⟨tail.drop k, by rw [htail, List.append_assoc, List.take_append_drop]⟩
  have hcases := loop_cases rest hmid' hwaits
  rwa [List.length_append, hlen, ← cutWell_append used, ← Nat.add_assoc, ← hmid.got] at hcases

theorem inv_init (fs : List Frame) (old : Bytes) : Inv fs (init old) :=
  ⟨[], fs, [], rfl, ⟨⟨⟨old, rfl⟩, rfl⟩, ⟨_, rfl⟩, rfl, rfl, rfl, rfl⟩, waits_zero fs⟩

/-- The first read is not cut well. -/
theorem not_always {fs : List Frame} {old : Bytes} {c : WsCon} {k : ℕ} {ks : List ℕ} (hcut : ¬ CutWell fs 0 (0 + k))
    (h : step fs (init old) k = some c) : ¬ Always (step fs) (Delivered fs) (init old) (k :: ks) := by
  intro hall
  have hdel : Delivered fs c := by
    have hnext := ((always_cons h).mp hall).2
    cases ks with
    | nil => exact hnext
    | cons => exact hnext.1
  rcases step_cases (inv_init fs old) h with ⟨hok, -⟩ | ⟨-, hnot⟩
  · exact hcut hok
  · exact hnot hdel

/-- **All frames are delivered when they are there, and no sooner, exactly if each read is cut well.** -/
theorem delivered_iff (fs : List Frame) (old : Bytes) (ks : List ℕ) :
    Always (step fs) (Delivered fs) (init old) ks ↔
      Along (step fs) (fun c k => CutWell fs c.got (c.got + k)) (init old) ks := by
  refine always_iff_along (Inv fs) ?_ (fun c hinv => hinv.delivered) ?_ (inv_init fs old)
    (along_true _ _)
  · intro c k c' hinv _ hok h
    rcases step_cases hinv h with ⟨-, hinv'⟩ | ⟨hcut, -⟩
    · exact hinv'
    · exact absurd hok hcut
  · intro c k c' hinv _ hok h
    rcases step_cases hinv h with ⟨hcut, -⟩ | ⟨-, hdel⟩
    · exact absurd hcut hok
    · exact hdel

/-- A masked text of eight bytes. -/
def hiText : Frame := ⟨.text, #v[1, 2, 3, 4], bytes "hi", by decide⟩

def emptyPing : Frame := ⟨.ping, #v[1, 2, 3, 4], [], by decide⟩

/-- When four bytes of the text are there, two others are pushed for it. -/
theorem cut_text_not_delivered :
    (step [hiText] (init []) 4).map WsCon.pushed = some [(false, some [1, 2])] ∧
      ¬ Always (step [hiText]) (Delivered [hiText]) (init []) [4, 4] := by
  refine ⟨?_, not_always (by decide) rfl⟩
  change some (loop _).pushed = _
  rw [loop_stop rfl]
  rfl

/-- A ping that is read with the text behind it stays in the buffer, and neither is looked at again. -/
theorem ping_and_text_not_delivered :
    ¬ Always (step [emptyPing, hiText]) (Delivered [emptyPing, hiText]) (init []) [14] :=
  not_always (by decide) rfl

/-! ### Frames that come one by one -/

theorem arrived_all (fs : List Frame) : arrived fs (stream fs).length = fs := by
  have h := arrived_append fs [] 0
  rwa [List.append_nil, Nat.add_zero, show arrived [] 0 = [] from rfl, List.append_nil] at h

theorem Delivered.all {fs : List Frame} {c : WsCon} (h : Delivered fs c) (hgot : c.got = (stream fs).length) :
    c.pushed = messages fs ∧ c.pongs = pings fs ∧ c.bcnt = 0 := by
  obtain ⟨hpushed, hpongs, hleft, -⟩ := h
  rw [hgot, arrived_all] at hpushed hpongs hleft
  exact ⟨hpushed, hpongs, by omega⟩

theorem turn_got (c : WsCon) : (turn c).1.got = c.got := by
  unfold turn push
  split
  · rfl
  · rfl
  · dsimp only
    split_ifs <;> rfl

theorem loop_got (c : WsCon) : (loop c).got = c.got := by
  induction c using loop.induct with
  | case1 c h ih => rw [loop_more h, ih, turn_got]
  | case2 c h => rw [loop_stop (Bool.eq_false_iff.mpr h), turn_got]

/-- A read is possible where the stream has so many bytes and the buffer has room for them. -/
theorem step_some {fs : List Frame} {c : WsCon} {k : ℕ} (hinv : Inv fs c) (hpos : 0 < k) (hroom : c.bcnt + k ≤ 8191)
    (hlong : c.got + k ≤ (stream fs).length) :
    ∃ c', step fs c k = some c' ∧ c'.got = c.got + k := by
  have hlen : (((stream fs).drop c.got).take k).length = k := by
    rw [List.length_take, List.length_drop]
    omega
  have hread : ¬ (c.closed ∨ ((stream fs).drop c.got).take k = [] ∨
      8192 - c.bcnt - 1 < (((stream fs).drop c.got).take k).length) := by
    rw [hinv.delivered.alive, hlen, ← List.length_eq_zero_iff, hlen]
    rintro (hclosed | hzero | hmore)
    · cases hclosed
    · omega
    · omega
  refine ⟨_, (if_neg (by omega)).trans (if_neg hread), ?_⟩
  rw [loop_got]
  exact congrArg (c.got + ·) hlen

/-- There is always room for what is left of the next frame. -/
theorem Inv.reads {fs : List Frame} {c : WsCon} (h : Inv fs c) (hmore : c.got < (stream fs).length) :
    ∃ c', step fs c 1 = some c' ∧ c'.got = c.got + 1 := by
  obtain ⟨used, rest, live, rfl, hmid, hwaits⟩ := h
  refine step_some ⟨used, rest, live, rfl, hmid, hwaits⟩ Nat.one_pos ?_ hmore
  rw [hmid.buffer.2]
  cases rest with
  | nil =>
    rw [hmid.got, List.append_nil] at hmore
    omega
  | cons f rest =>
    have hlt : live.length < f.bytes.length := hwaits f rfl
    have hfits : f.bytes.length ≤ 8191 := f.fits
    omega

theorem runs_frames (used rest : List Frame) {c : WsCon} (h : Inv (used ++ rest) c)
    (hgot : c.got = (stream used).length) :
    ∃ c', runs (step (used ++ rest)) c (rest.map fun f => f.bytes.length) = some c' ∧ Inv (used ++ rest) c' ∧
      c'.got = (stream (used ++ rest)).length := by
  induction rest generalizing used c with
  | nil => exact ⟨c, rfl, h, by rw [hgot, List.append_nil]⟩
  | cons f rest ih =>
    have hcnt : c.bcnt = 0 := by
      have hleft := h.delivered.left
      rw [hgot, ← Nat.add_zero (stream used).length, arrived_append, arrived_waits (waits_zero _),
        List.append_nil] at hleft
      omega
    have hfits : f.bytes.length ≤ 8191 := f.fits
    have hlong : c.got + f.bytes.length ≤ (stream (used ++ f :: rest)).length := by
      rw [stream_append, stream, List.length_append, List.length_append]
      omega
    obtain ⟨c', hstep, hgot'⟩ := step_some h f.length_pos (by omega) hlong
    have hcut : CutWell (used ++ f :: rest) c.got (c.got + f.bytes.length) := by
      rw [hgot, ← Nat.add_zero (stream used).length, Nat.add_assoc, cutWell_append, Nat.zero_add,
        ← Nat.add_zero f.bytes.length, cutWell_whole f.length_pos]
      exact ⟨fun _ => rfl, cutWell_zero rest 0⟩
    have hinv : Inv (used ++ f :: rest) c' := by
      rcases step_cases h hstep with ⟨-, hinv⟩ | ⟨hbad, -⟩
      · exact hinv
      · exact absurd hcut hbad
    rw [hgot, ← stream_snoc] at hgot'
    rw [List.append_cons] at hinv hstep ⊢
    obtain ⟨c'', hruns, hend⟩ := ih (used ++ [f]) hinv hgot'
    exact ⟨c'', by rw [List.map_cons, runs, hstep]; exact hruns, hend⟩

/-- Frames that are read one by one are all delivered. -/
theorem frame_by_frame (fs : List Frame) (old : Bytes) :
    ∃ c, runs (step fs) (init old) (fs.map fun f => f.bytes.length) = some c ∧
      c.pushed = messages fs ∧ c.pongs = pings fs ∧ c.bcnt = 0 := by
  obtain ⟨c, hruns, hinv, hgot⟩ := runs_frames [] fs (inv_init fs old) rfl
  exact ⟨c, hruns, hinv.delivered.all hgot⟩

end WsStream

end Agoo
