import Agoo.Bytes
import Mathlib.Algebra.Order.Ring.Nat

/-!
# WebSocket frames (`websocket.c`)

The length of a frame, the payload of a client's frame, and the frame of a server's message.
-/

namespace Agoo

/-! ## Numbers in network order -/

/-- The number that the bytes spell, the first one highest. -/
def ofBigEndian (bs : Bytes) : ℕ := bs.foldl (fun n b => n * 256 + b.toNat) 0

/-- The last `k` bytes of a number, the highest first. -/
def bigEndian : ℕ → ℕ → Bytes
  | 0, _ => []
  | k + 1, n => bigEndian k (n / 256) ++ [UInt8.ofNat n]

@[simp] theorem bigEndian_length (k n : ℕ) : (bigEndian k n).length = k := by
  induction k generalizing n with
  | zero => rfl
  | succ k ih => simp [bigEndian, ih]

theorem ofBigEndian_bigEndian (k n : ℕ) : ofBigEndian (bigEndian k n) = n % 256 ^ k := by
  induction k generalizing n with
  | zero => simp [bigEndian, ofBigEndian, Nat.mod_one]
  | succ k ih =>
    have hfold := ih (n / 256)
    have hbyte : (UInt8.ofNat n).toNat = n % 256 := UInt8.toNat_ofNat'
    have hmod : n % 256 ^ (k + 1) = n % 256 + 256 * (n / 256 % 256 ^ k) := by
      rw [Nat.pow_succ, Nat.mul_comm (256 ^ k) 256, Nat.mod_mul]
    unfold ofBigEndian at hfold ⊢
    rw [bigEndian, List.foldl_append, hfold, List.foldl_cons, List.foldl_nil, hbyte, hmod]
    omega

/-! ## Frames -/

/-- `AGOO_WS_OP_*`. -/
inductive WsOp
  | cont | text | bin | close | ping | pong
  deriving DecidableEq, Repr

def WsOp.code : WsOp → Byte
  | cont => 0x00
  | text => 0x01
  | bin => 0x02
  | close => 0x08
  | ping => 0x09
  | pong => 0x0A

/-- `is_masked`. -/
def wsMasked (m : Bytes) : Bool := at0 m 1 &&& 0x80 != 0

/-- The payload length, and how many bytes there are through it. -/
def wsPayloadLen (m : Bytes) : ℕ × ℕ :=
  let plen := (at0 m 1 &&& 0x7F).toNat
  if plen = 126 then (ofBigEndian ((List.range 2).map fun i => at0 m (2 + i)), 4)
  else if plen = 127 then (ofBigEndian ((List.range 8).map fun i => at0 m (2 + i)), 10)
  else (plen, 2)

/-- `agoo_ws_calc_len` on the `cnt` bytes read: negative for an error, 0 when too few are read to tell,
else the length of the whole frame. -/
def wsCalcLen (m : Bytes) (cnt : ℕ) : ℤ :=
  let plen := at0 m 1 &&& 0x7F
  if at0 m 0 &&& 0x80 = 0 then -1
  else if cnt < 3 then 0
  else if plen = 126 ∧ cnt < 5 then 0
  else if plen = 127 ∧ cnt < 11 then 0
  else
    let p := wsPayloadLen m
    Int.bmod (p.2 + (if wsMasked m then 4 else 0) + p.1) (2 ^ 64)

/-- Bytes with the mask laid over them, from place `i` of it on. -/
def unmask (mask : Bytes) : ℕ → Bytes → Bytes
  | _, [] => []
  | i, b :: rest => (b ^^^ at0 mask (i % 4)) :: unmask mask (i + 1) rest

/-- `agoo_ws_decode`: the payload, which is moved to the start of the buffer. -/
def wsDecode (m : Bytes) : Bytes :=
  let p := wsPayloadLen m
  if wsMasked m then unmask ((m.drop p.2).take 4) 0 ((m.drop (p.2 + 4)).take p.1)
  else (m.drop p.2).take p.1

/-- `agoo_ws_expand`: the text with a frame header before it, not masked. -/
def wsExpand (isBin : Bool) (t : Bytes) : Bytes :=
  (0x80 ||| (if isBin then WsOp.bin else WsOp.text).code) :: lengthField ++ t
where
  lengthField : Bytes :=
    if t.length ≤ 125 then [UInt8.ofNat t.length]
    else if t.length ≤ 0xFFFF then 0x7E :: bigEndian 2 t.length
    else 0x7F :: bigEndian 8 t.length

end Agoo
