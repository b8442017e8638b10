import Agoo.WebSocket
import Mathlib.Data.List.GetD

/-!
# Lengths of WebSocket frames

`wsDecodeIn` is `agoo_ws_decode` on a buffer of so many bytes, where each read and write is looked at. A
frame of RFC 6455 is measured and decoded exactly when it is not the empty frame without a mask
(`codec_sound_iff`), and a length is exact unless the sum of its parts passes 2^64 (`length_exact_iff`).
-/

namespace Agoo

/-! ## The code -/

/-- `n` bytes read from offset `i` on. -/
def readBytes (m : Bytes) (i n : ℕ) : Option Bytes :=
  if i + n ≤ m.length then some ((m.drop i).take n) else none

/-- The loop that lays the mask over `n` bytes in place, from the byte at `start + i` on. -/
def unmaskIn (mask : Bytes) (start : ℕ) : ℕ → ℕ → Bytes → Option Bytes
  | 0, _, m => some m
  | n + 1, i, m =>
    m[start + i]?.bind fun c => unmaskIn mask start n (i + 1) (m.set (start + i) (c ^^^ at0 mask (i % 4)))

/-- `memmove(buf, payload, plen)` and the NUL behind it. -/
def movePayload (m : Bytes) (start plen : ℕ) : Option Bytes :=
  (readBytes m start plen).bind fun payload =>
    if plen < m.length then some (payload ++ 0 :: m.drop (plen + 1)) else none

/-- The payload length, and how many bytes there are through it. -/
def wsPayloadLenIn (m : Bytes) (b1 : Byte) : Option (ℕ × ℕ) :=
  let plen := (b1 &&& 0x7F).toNat
  if plen = 126 then (readBytes m 2 2).map fun bs => (ofBigEndian bs, 4)
  else if plen = 127 then (readBytes m 2 8).map fun bs => (ofBigEndian bs, 10)
  else some (plen, 2)

/-- `agoo_ws_decode` on a buffer: what is in it then, and the length returned; none where a byte outside is
read or written. -/
def wsDecodeIn (m : Bytes) : Option (Bytes × ℕ) := do
  let b1 ← m[1]?
  let p ← wsPayloadLenIn m b1
  if b1 &&& 0x80 != 0 then
    let mask ← readBytes m p.2 4
    let m ← unmaskIn mask (p.2 + 4) p.1 0 m
    return (← movePayload m (p.2 + 4) p.1, p.1)
  else
    return (← movePayload m p.2 p.1, p.1)

/-- What `con_ws_read` does with the `cnt` bytes it has. -/
inductive WsRead
  | again
  | close
  | frame (mlen : ℕ)

def wsRead (m : Bytes) (cnt : ℕ) : WsRead :=
  if cnt < 2 then .again
  else
    match wsCalcLen m cnt with
    | .ofNat 0 => .again
    | .ofNat (mlen + 1) => .frame (mlen + 1)
    | .negSucc _ => .close

/-- `req->msg`, as `agoo_ws_create_req` fills it. -/
def wsReqMsg (m : Bytes) (cnt mlen : ℕ) : Bytes :=
  (List.range mlen).map (fun i => if i < cnt then at0 m i else 0) ++ [0]

/-! ## Parts of a frame -/

/-- The header without the mask. -/
def wsHeaderLen (m : Bytes) : ℕ := (wsPayloadLen m).2

def wsMaskLen (m : Bytes) : ℕ := if wsMasked m then 4 else 0

/-- Header, mask and payload. -/
def wsTotal (m : Bytes) : ℕ := wsHeaderLen m + wsMaskLen m + (wsPayloadLen m).1

theorem ofBigEndian_lt (bs : Bytes) : ofBigEndian bs < 256 ^ bs.length := by
  have hfold : ∀ n, bs.foldl (fun n b => n * 256 + b.toNat) n < (n + 1) * 256 ^ bs.length := by
    induction bs with
    | nil => intro n; simp
    | cons b bs ih =>
      intro n
      have hbyte := b.toNat_lt
      calc (b :: bs).foldl (fun n b => n * 256 + b.toNat) n
          < (n * 256 + b.toNat + 1) * 256 ^ bs.length := ih _
        _ ≤ ((n + 1) * 256) * 256 ^ bs.length := Nat.mul_le_mul_right _ (by omega)
        _ = (n + 1) * 256 ^ (b :: bs).length := by
          rw [List.length_cons, Nat.pow_succ, Nat.mul_assoc, Nat.mul_comm 256]
  have h := hfold 0
  rwa [Nat.zero_add, Nat.one_mul] at h

/-- The three forms of a length. -/
theorem wsPayloadLen_cases (m : Bytes) :
    ((at0 m 1 &&& 0x7F) ≠ 126 ∧ (at0 m 1 &&& 0x7F) ≠ 127 ∧
        wsPayloadLen m = ((at0 m 1 &&& 0x7F).toNat, 2) ∧ (wsPayloadLen m).1 < 256) ∨
      ((at0 m 1 &&& 0x7F) = 126 ∧
        wsPayloadLen m = (ofBigEndian ((List.range 2).map fun i => at0 m (2 + i)), 4) ∧
        (wsPayloadLen m).1 < 65536) ∨
      ((at0 m 1 &&& 0x7F) = 127 ∧
        wsPayloadLen m = (ofBigEndian ((List.range 8).map fun i => at0 m (2 + i)), 10) ∧
        (wsPayloadLen m).1 < 0x10000000000000000) := by
  have hnat : ∀ n < 256, (at0 m 1 &&& 0x7F).toNat = n ↔ (at0 m 1 &&& 0x7F) = UInt8.ofNat n := by
    intro n hn
    rw [← UInt8.toNat_inj, UInt8.toNat_ofNat', Nat.mod_eq_of_lt hn]
  have hlt : ∀ k, ofBigEndian ((List.range k).map fun i => at0 m (2 + i)) < 256 ^ k := by
    intro k
    have h := ofBigEndian_lt ((List.range k).map fun i => at0 m (2 + i))
    rwa [List.length_map, List.length_range] at h
  by_cases h126 : (at0 m 1 &&& 0x7F) = 126
  · have hlen : wsPayloadLen m = (ofBigEndian ((List.range 2).map fun i => at0 m (2 + i)), 4) :=
      if_pos ((hnat 126 (by decide)).mpr h126)
    exact Or.inr (Or.inl ⟨h126, hlen, by rw [hlen]; exact hlt 2⟩)
  by_cases h127 : (at0 m 1 &&& 0x7F) = 127
  · have hlen : wsPayloadLen m = (ofBigEndian ((List.range 8).map fun i => at0 m (2 + i)), 10) :=
      (if_neg fun h => h126 ((hnat 126 (by decide)).mp h)).trans (if_pos ((hnat 127 (by decide)).mpr h127))
    exact Or.inr (Or.inr ⟨h127, hlen, by rw [hlen]; exact hlt 8⟩)
  · have hlen : wsPayloadLen m = ((at0 m 1 &&& 0x7F).toNat, 2) :=
      (if_neg fun h => h126 ((hnat 126 (by decide)).mp h)).trans
        (if_neg fun h => h127 ((hnat 127 (by decide)).mp h))
    exact Or.inl ⟨h126, h127, hlen, by rw [hlen]; exact UInt8.toNat_lt _⟩

theorem wsHeaderLen_ge (m : Bytes) : 2 ≤ wsHeaderLen m := by
  unfold wsHeaderLen
  rcases wsPayloadLen_cases m with ⟨-, -, h, -⟩ | ⟨-, h, -⟩ | ⟨-, h, -⟩ <;> rw [h] <;> dsimp only <;> omega

/-- A frame that is not put off is measured modulo 2^64. -/
theorem wsCalcLen_ready {m : Bytes} {cnt : ℕ} (hfin : at0 m 0 &&& 0x80 ≠ 0) (hthree : 3 ≤ cnt)
    (hcnt : wsHeaderLen m < cnt) : wsCalcLen m cnt = Int.bmod (wsTotal m) 0x10000000000000000 := by
  have hsum : ((wsPayloadLen m).2 + (if wsMasked m then 4 else 0) + (wsPayloadLen m).1 : ℤ) = wsTotal m := by
    unfold wsTotal wsHeaderLen wsMaskLen
    split_ifs <;> push_cast <;> rfl
  have h126 : ¬ ((at0 m 1 &&& 0x7F) = 126 ∧ cnt < 5) := by
    unfold wsHeaderLen at hcnt
    rcases wsPayloadLen_cases m with ⟨h, -⟩ | ⟨-, h, -⟩ | ⟨h, -⟩
    · exact fun hc => h hc.1
    · rw [h] at hcnt
      dsimp only at hcnt
      omega
    · exact fun hc => absurd (h.symm.trans hc.1) (by decide)
  have h127 : ¬ ((at0 m 1 &&& 0x7F) = 127 ∧ cnt < 11) := by
    unfold wsHeaderLen at hcnt
    rcases wsPayloadLen_cases m with ⟨-, h, -⟩ | ⟨h, -⟩ | ⟨-, h, -⟩
    · exact fun hc => h hc.1
    · exact fun hc => absurd (h.symm.trans hc.1) (by decide)
    · rw [h] at hcnt
      dsimp only at hcnt
      omega
  unfold wsCalcLen
  dsimp only
  rw [if_neg hfin, if_neg (by omega), if_neg h126, if_neg h127, hsum]
  rfl

/-- A frame whose header was not read is put off. -/
theorem wsCalcLen_waits {m : Bytes} {cnt : ℕ} (hfin : at0 m 0 &&& 0x80 ≠ 0)
    (h : cnt < 3 ∨ cnt ≤ wsHeaderLen m) : wsCalcLen m cnt = 0 := by
  unfold wsCalcLen
  dsimp only
  rw [if_neg hfin]
  by_cases hthree : cnt < 3
  · rw [if_pos hthree]
  rw [if_neg hthree]
  have hle : cnt ≤ wsHeaderLen m := h.resolve_left hthree
  unfold wsHeaderLen at hle
  rcases wsPayloadLen_cases m with ⟨-, -, hl, -⟩ | ⟨hf, hl, -⟩ | ⟨hf, hl, -⟩ <;> rw [hl] at hle <;>
    dsimp only at hle
  · omega
  · rw [if_pos ⟨hf, by omega⟩]
  · rw [if_neg fun hc => absurd (hf.symm.trans hc.1) (by decide), if_pos ⟨hf, by omega⟩]

/-- The second byte says how long the header is. -/
theorem wsHeaderLen_congr {m m' : Bytes} (h : at0 m' 1 = at0 m 1) : wsHeaderLen m' = wsHeaderLen m := by
  unfold wsHeaderLen wsPayloadLen
  rw [h]
  dsimp only
  split_ifs <;> rfl

/-! ## Decoding -/

theorem readBytes_append {a b c : Bytes} {i n : ℕ} (ha : a.length = i) (hb : b.length = n) :
    readBytes (a ++ (b ++ c)) i n = some b := by
  subst ha hb
  unfold readBytes
  rw [if_pos (by simp only [List.length_append]; omega), List.drop_left, List.take_left]

/-- The bytes read are those of memory. -/
theorem readBytes_eq {m : Bytes} {i n : ℕ} (h : i + n ≤ m.length) :
    readBytes m i n = some ((List.range n).map fun j => at0 m (i + j)) := by
  unfold readBytes
  rw [if_pos h]
  congr 1
  apply List.ext_getElem
  · simp only [List.length_take, List.length_drop, List.length_map, List.length_range]
    omega
  · intro j hj _
    have hlt : i + j < m.length := by
      simp only [List.length_take, List.length_drop] at hj
      omega
    simp [at0, hlt]

@[simp] theorem unmask_length (mask : Bytes) (i : ℕ) (bs : Bytes) : (unmask mask i bs).length = bs.length := by
  induction bs generalizing i with
  | nil => rfl
  | cons b bs ih => rw [unmask, List.length_cons, List.length_cons, ih]

/-- The loop lays the mask over the bytes `b`, in their place. -/
theorem unmaskIn_append (mask : Bytes) {start : ℕ} (b c : Bytes) : ∀ (a : Bytes) (i : ℕ), a.length = start + i →
    unmaskIn mask start b.length i (a ++ (b ++ c)) = some (a ++ (unmask mask i b ++ c)) := by
  induction b with
  | nil => exact fun _ _ _ => rfl
  | cons x b ih =>
    intro a i ha
    have hat : (a ++ (x :: b ++ c))[start + i]? = some x := by
      rw [← ha, List.getElem?_append_right (Nat.le_refl _), Nat.sub_self]
      rfl
    have hset : (a ++ (x :: b ++ c)).set (start + i) (x ^^^ at0 mask (i % 4)) =
        (a ++ [x ^^^ at0 mask (i % 4)]) ++ (b ++ c) := by
      rw [← ha, List.set_append_right _ _ (Nat.le_refl _), Nat.sub_self, List.append_assoc]
      rfl
    have hlen : (a ++ [x ^^^ at0 mask (i % 4)]).length = start + (i + 1) := by
      rw [List.length_append, ha]
      rfl
    have hrest := ih (a ++ [x ^^^ at0 mask (i % 4)]) (i + 1) hlen
    rw [List.length_cons, unmaskIn, hat, Option.bind_some, hset, hrest, unmask, List.append_assoc]
    rfl

theorem movePayload_append {a b c : Bytes} {start plen : ℕ} (ha : a.length = start) (hb : b.length = plen)
    (hstart : 0 < start) :
    ∃ rest, movePayload (a ++ (b ++ c)) start plen = some (b ++ 0 :: rest) := by
  unfold movePayload
  rw [readBytes_append ha hb, Option.bind_some, if_pos (by simp only [List.length_append]; omega)]
  exact ⟨_, rfl⟩

/-- A buffer that holds a frame is taken apart. -/
theorem split_frame {m : Bytes} (h : wsTotal m ≤ m.length) :
    ∃ a mask b c, m = a ++ (mask ++ (b ++ c)) ∧ a.length = wsHeaderLen m ∧ mask.length = wsMaskLen m ∧
      b.length = (wsPayloadLen m).1 := by
  unfold wsTotal at h
  refine ⟨m.take (wsHeaderLen m), (m.drop (wsHeaderLen m)).take (wsMaskLen m),
    (m.drop (wsHeaderLen m + wsMaskLen m)).take (wsPayloadLen m).1,
    m.drop (wsHeaderLen m + wsMaskLen m + (wsPayloadLen m).1), ?_, ?_, ?_, ?_⟩
  · simp only [← List.drop_drop, List.take_append_drop]
  all_goals
    simp only [List.length_take, List.length_drop]
    omega

/-- **`agoo_ws_decode` stays in a buffer that holds the frame**, and leaves the payload and a NUL. -/
theorem wsDecodeIn_eq {m : Bytes} (h : wsTotal m ≤ m.length) :
    ∃ rest, wsDecodeIn m = some (wsDecode m ++ 0 :: rest, (wsPayloadLen m).1) := by
  obtain ⟨a, mask, b, c, hm, ha, hmask, hb⟩ := split_frame h
  have hge := wsHeaderLen_ge m
  have hone : m[1]? = some (at0 m 1) := by
    have hlt : 1 < m.length := by
      unfold wsTotal at h
      omega
    rw [List.getElem?_eq_getElem hlt, at0, List.getD_eq_getElem _ _ hlt]
  have hlen : wsPayloadLenIn m (at0 m 1) = some (wsPayloadLen m) := by
    have hroom : wsHeaderLen m ≤ m.length := by
      unfold wsTotal at h
      omega
    unfold wsHeaderLen wsPayloadLen at hroom
    unfold wsPayloadLenIn wsPayloadLen
    dsimp only at hroom ⊢
    split_ifs at hroom ⊢ with h126 h127
    · rw [readBytes_eq hroom]
      rfl
    · rw [readBytes_eq hroom]
      rfl
    · rfl
  have hpos : 0 < wsHeaderLen m := by omega
  have hbehind : m.drop (wsHeaderLen m) = mask ++ (b ++ c) := by
    have hdrop : (a ++ (mask ++ (b ++ c))).drop (wsHeaderLen m) = _ := List.drop_left' ha
    rwa [← hm] at hdrop
  unfold wsDecodeIn wsDecode
  rw [hone]
  simp only [Option.bind_eq_bind, Option.bind_some, hlen]
  by_cases hmasked : wsMasked m = true
  · have hfour : mask.length = 4 := hmask.trans (if_pos hmasked)
    have hpayload : (m.drop (wsHeaderLen m + 4)).take (wsPayloadLen m).1 = b := by
      rw [← List.drop_drop, hbehind, List.drop_left' hfour, List.take_left' hb]
    have hread := readBytes_append (c := b ++ c) ha hfour
    rw [← hm] at hread
    have hunmask := unmaskIn_append mask b c (a ++ mask) 0
      (by rw [List.length_append, ha, hfour])
    rw [List.append_assoc, ← hm, hb] at hunmask
    obtain ⟨rest, hmove⟩ := movePayload_append (a := a ++ mask) (b := unmask mask 0 b) (c := c)
      (by rw [List.length_append, ha, hfour])
      (by rw [unmask_length, hb]) (by omega)
    refine ⟨rest, ?_⟩
    change (if wsMasked m = true then _ else _) = _
    rw [if_pos hmasked, if_pos hmasked]
    change (readBytes m (wsHeaderLen m) 4).bind _ = some (unmask ((m.drop (wsHeaderLen m)).take 4) 0
      ((m.drop (wsHeaderLen m + 4)).take (wsPayloadLen m).1) ++ 0 :: rest, (wsPayloadLen m).1)
    rw [hread, Option.bind_some]
    change (unmaskIn mask (wsHeaderLen m + 4) (wsPayloadLen m).1 0 m).bind _ = _
    rw [hunmask, Option.bind_some]
    change (movePayload _ (wsHeaderLen m + 4) _).bind _ = _
    rw [hmove, hpayload, hbehind, List.take_left' hfour]
    rfl
  · have hnil : mask = [] := List.eq_nil_of_length_eq_zero (hmask.trans (if_neg hmasked))
    rw [hnil, List.nil_append] at hbehind hm
    have hpayload : (m.drop (wsHeaderLen m)).take (wsPayloadLen m).1 = b := by
      rw [hbehind, List.take_left' hb]
    obtain ⟨rest, hmove⟩ := movePayload_append (c := c) ha hb hpos
    rw [← hm] at hmove
    refine ⟨rest, ?_⟩
    change (if wsMasked m = true then _ else _) = _
    rw [if_neg hmasked, if_neg hmasked]
    change (movePayload m (wsHeaderLen m) _).bind _ = some ((m.drop (wsHeaderLen m)).take _ ++ 0 :: rest, _)
    rw [hmove, hpayload]
    rfl

/-! ## Lengths -/

/-- What a frame says of its length is in the bytes of its header. -/
theorem wsPayloadLen_congr {m m' : Bytes} (h : ∀ i < wsHeaderLen m, at0 m' i = at0 m i) :
    wsPayloadLen m' = wsPayloadLen m ∧ wsMasked m' = wsMasked m := by
  have hone : at0 m' 1 = at0 m 1 := h 1 (wsHeaderLen_ge m)
  refine ⟨?_, by unfold wsMasked; rw [hone]⟩
  have hfield : ∀ k, 2 + k ≤ wsHeaderLen m →
      (List.range k).map (fun i => at0 m' (2 + i)) = (List.range k).map fun i => at0 m (2 + i) := by
    intro k hk
    refine List.map_congr_left fun i hi => h (2 + i) ?_
    have hlt := List.mem_range.mp hi
    omega
  unfold wsHeaderLen at hfield
  unfold wsPayloadLen at hfield ⊢
  dsimp only at hfield ⊢
  rw [hone]
  split_ifs at hfield ⊢ with h126 h127
  · rw [hfield 2 (Nat.le_refl _)]
  · rw [hfield 8 (Nat.le_refl _)]
  · rfl

theorem wsTotal_congr {m m' : Bytes} (hlen : wsPayloadLen m' = wsPayloadLen m)
    (hmasked : wsMasked m' = wsMasked m) : wsTotal m' = wsTotal m := by
  unfold wsTotal wsHeaderLen wsMaskLen
  rw [hlen, hmasked]

theorem at0_wsReqMsg (m : Bytes) {cnt mlen i : ℕ} (hcnt : i < cnt) (hlen : i < mlen) :
    at0 (wsReqMsg m cnt mlen) i = at0 m i := by
  unfold wsReqMsg at0
  rw [List.getD_append _ _ _ _ (by rw [List.length_map, List.length_range]; exact hlen),
    List.getD_eq_getElem _ _ (by rw [List.length_map, List.length_range]; exact hlen), List.getElem_map,
    List.getElem_range, if_pos hcnt]

/-- The length that `agoo_ws_calc_len` returns for `cnt` bytes is exact, or the frame is put off or refused. -/
structure LengthExact (m : Bytes) (cnt : ℕ) : Prop where
  inside : 0 < wsCalcLen m cnt → wsHeaderLen m ≤ cnt
  exact : 0 < wsCalcLen m cnt → wsCalcLen m cnt = wsTotal m
  /-- The request made for it has that many bytes and one for the NUL. -/
  decodes : 0 < wsCalcLen m cnt → (wsDecodeIn (wsReqMsg m cnt (wsCalcLen m cnt).toNat)).isSome
  other : ¬ 0 < wsCalcLen m cnt → wsRead m cnt = .again ∨ wsRead m cnt = .close

theorem wsRead_other {m : Bytes} {cnt : ℕ} (h : ¬ 0 < wsCalcLen m cnt) :
    wsRead m cnt = .again ∨ wsRead m cnt = .close := by
  unfold wsRead
  split_ifs
  · exact Or.inl rfl
  · cases hlen : wsCalcLen m cnt with
    | ofNat n =>
      cases n with
      | zero => exact Or.inl rfl
      | succ n =>
        rw [hlen] at h
        exact absurd (Int.natCast_pos.mpr (Nat.succ_pos n)) h
    | negSucc n => exact Or.inr rfl

theorem wsTotal_lt (m : Bytes) : wsTotal m < 0x10000000000000000 + 14 := by
  have hmask : wsMaskLen m ≤ 4 := by
    unfold wsMaskLen
    split_ifs <;> omega
  unfold wsTotal wsHeaderLen
  rcases wsPayloadLen_cases m with ⟨-, -, h, hlt⟩ | ⟨-, h, hlt⟩ | ⟨-, h, hlt⟩ <;> rw [h] at hlt ⊢ <;>
    dsimp only at hlt ⊢ <;> omega

/-- Only a length of eight bytes is so large. -/
theorem wsHeaderLen_of_total {m : Bytes} (h : 0x8000000000000000 ≤ wsTotal m) : wsHeaderLen m = 10 := by
  have hmask : wsMaskLen m ≤ 4 := by
    unfold wsMaskLen
    split_ifs <;> omega
  unfold wsTotal wsHeaderLen at h
  unfold wsHeaderLen
  rcases wsPayloadLen_cases m with ⟨-, -, hl, hlt⟩ | ⟨-, hl, hlt⟩ | ⟨-, hl, hlt⟩ <;> rw [hl] at h hlt ⊢ <;>
    dsimp only at h hlt ⊢ <;> omega

/-- A length that is returned is that of a frame whose header is there. -/
theorem ready_of_calcLen_pos {m : Bytes} {cnt : ℕ} (h : 0 < wsCalcLen m cnt) :
    at0 m 0 &&& 0x80 ≠ 0 ∧ 3 ≤ cnt ∧ wsHeaderLen m < cnt ∧
      wsCalcLen m cnt = Int.bmod (wsTotal m) 0x10000000000000000 := by
  have hfin : at0 m 0 &&& 0x80 ≠ 0 := by
    intro hzero
    have hrefused : wsCalcLen m cnt = -1 := if_pos hzero
    omega
  have hready : ¬ (cnt < 3 ∨ cnt ≤ wsHeaderLen m) := by
    intro hc
    have hwait := wsCalcLen_waits hfin hc
    omega
  rw [not_or] at hready
  obtain ⟨hthree, hcnt⟩ := hready
  exact ⟨hfin, by omega, by omega, wsCalcLen_ready hfin (by omega) (by omega)⟩

/-- The request of a frame with an exact length is decoded within its bytes. -/
theorem wsReqMsg_decodes {m : Bytes} {cnt : ℕ} (hcnt : wsHeaderLen m ≤ cnt) :
    (wsDecodeIn (wsReqMsg m cnt (wsTotal m))).isSome = true := by
  have hle : wsHeaderLen m ≤ wsTotal m := by
    unfold wsTotal
    omega
  have hat : ∀ i < wsHeaderLen m, at0 (wsReqMsg m cnt (wsTotal m)) i = at0 m i := fun i hi =>
    at0_wsReqMsg m (by omega) (by omega)
  obtain ⟨hlen, hmasked⟩ := wsPayloadLen_congr hat
  have htotal : wsTotal (wsReqMsg m cnt (wsTotal m)) = wsTotal m := wsTotal_congr hlen hmasked
  have hroom : (wsReqMsg m cnt (wsTotal m)).length = wsTotal m + 1 := by
    unfold wsReqMsg
    rw [List.length_append, List.length_map, List.length_range]
    rfl
  obtain ⟨rest, hdecode⟩ := wsDecodeIn_eq (m := wsReqMsg m cnt (wsTotal m)) (by omega)
  rw [hdecode]
  rfl

/-- The sum of the parts passes 2^64: the length that is returned is what is left of it. -/
theorem not_lengthExact {m : Bytes} {cnt : ℕ} (hfin : at0 m 0 &&& 0x80 ≠ 0) (hcnt : 11 ≤ cnt)
    (htotal : 0x10000000000000000 < wsTotal m) : ¬ LengthExact m cnt := by
  intro h
  have hlen := wsCalcLen_ready hfin (by omega) (show wsHeaderLen m < cnt by
    rw [wsHeaderLen_of_total (by omega)]
    omega)
  have hlt := wsTotal_lt m
  have hmod : Int.bmod (wsTotal m) 0x10000000000000000 = wsTotal m - 0x10000000000000000 := by
    rw [← Int.sub_bmod_right]
    exact Int.bmod_eq_of_le (by omega) (by omega)
  rw [hmod] at hlen
  have hexact := h.exact (by omega)
  omega

/-- **A length is exact unless the frame is final, its header was read, and its parts come to more than 2^64
bytes.** -/
theorem length_exact_iff (m : Bytes) (cnt : ℕ) :
    LengthExact m cnt ↔ ¬ (at0 m 0 &&& 0x80 ≠ 0 ∧ 11 ≤ cnt ∧ 0x10000000000000000 < wsTotal m) := by
  constructor
  · rintro h ⟨hfin, hcnt, htotal⟩
    exact not_lengthExact hfin hcnt htotal h
  · intro h
    have hexact : 0 < wsCalcLen m cnt → wsCalcLen m cnt = wsTotal m := by
      intro hpos
      obtain ⟨hfin, hthree, hcnt, hlen⟩ := ready_of_calcLen_pos hpos
      have hle : wsTotal m ≤ 0x10000000000000000 := by
        by_contra hgt
        have hten := wsHeaderLen_of_total (m := m) (by omega)
        exact h ⟨hfin, by omega, by omega⟩
      rw [hlen] at hpos ⊢
      by_cases hsmall : wsTotal m < 0x8000000000000000
      · exact Int.bmod_eq_of_le (by omega) (by omega)
      · have hneg : Int.bmod (wsTotal m) 0x10000000000000000 = wsTotal m - 0x10000000000000000 := by
          rw [← Int.sub_bmod_right]
          exact Int.bmod_eq_of_le (by omega) (by omega)
        omega
    refine ⟨fun hpos => (ready_of_calcLen_pos hpos).2.2.1.le, hexact, fun hpos => ?_, wsRead_other⟩
    rw [hexact hpos]
    exact wsReqMsg_decodes (ready_of_calcLen_pos hpos).2.2.1.le

/-- A length of 2^64 - 9 with a mask: the frame is said to have five bytes. -/
theorem huge_frame_wraps :
    ¬ LengthExact [0x81, 0xFF, 0xFF, 0xFF, 0xFF, 0xFF, 0xFF, 0xFF, 0xFF, 0xF7, 0, 0, 0, 0] 14 :=
  not_lengthExact (by decide) (by decide) (by decide)

/-! ## Frames of RFC 6455 -/

/-- The shortest form of a payload length. -/
def lengthForm (n : ℕ) : Byte × Bytes :=
  if n ≤ 125 then (UInt8.ofNat n, []) else if n ≤ 0xFFFF then (126, bigEndian 2 n) else (127, bigEndian 8 n)

/-- Octet `i` of a payload is masked with octet `i` modulo 4 of the key. -/
def maskPayload (key payload : Bytes) : Bytes := payload.mapIdx fun i b => b ^^^ at0 key (i % 4)

/-- A final frame with an opcode, perhaps masked. -/
def rfcFrame (op : Fin 16) (mask : Option (Vector Byte 4)) (payload : Bytes) : Bytes :=
  (0x80 ||| UInt8.ofNat op) :: (mask.elim 0 (fun _ => 0x80) ||| (lengthForm payload.length).1) ::
    ((lengthForm payload.length).2 ++
      mask.elim payload fun key => key.toList ++ maskPayload key.toList payload)

/-- What the codec is to do with a frame. -/
structure CodecSound (op : Fin 16) (mask : Option (Vector Byte 4)) (payload : Bytes) : Prop where
  /-- For a prefix, with what else is in the buffer, the length is 0 or that of the frame. -/
  part : ∀ n stale, 2 ≤ n → n ≤ (rfcFrame op mask payload).length →
    wsCalcLen ((rfcFrame op mask payload).take n ++ stale) n = 0 ∨
      wsCalcLen ((rfcFrame op mask payload).take n ++ stale) n = (rfcFrame op mask payload).length
  whole : ∀ stale, wsCalcLen (rfcFrame op mask payload ++ stale) (rfcFrame op mask payload).length =
    (rfcFrame op mask payload).length
  decodes : ∃ rest, wsDecodeIn (rfcFrame op mask payload) = some (payload ++ 0 :: rest, payload.length)
  expanded : ∀ isBin, ∃ rest, wsDecodeIn (wsExpand isBin payload) = some (payload ++ 0 :: rest, payload.length)

/-! ### Masks -/

theorem unmask_eq (mask : Bytes) (i : ℕ) (bs : Bytes) :
    unmask mask i bs = bs.mapIdx fun j b => b ^^^ at0 mask ((i + j) % 4) := by
  induction bs generalizing i with
  | nil => rfl
  | cons b bs ih =>
    rw [unmask, ih, List.mapIdx_cons]
    congr 1
    refine congrArg (fun f => List.mapIdx f bs) ?_
    funext j b
    rw [show i + 1 + j = i + (j + 1) by omega]

theorem unmask_maskPayload (key payload : Bytes) : unmask key 0 (maskPayload key payload) = payload := by
  rw [unmask_eq]
  apply List.ext_getElem
  · simp [maskPayload]
  · intro i h _
    simp [maskPayload, UInt8.xor_assoc]

/-! ### The header -/

theorem lengthForm_cases (n : ℕ) :
    (n ≤ 125 ∧ lengthForm n = (UInt8.ofNat n, [])) ∨
      (126 ≤ n ∧ n ≤ 0xFFFF ∧ lengthForm n = (126, bigEndian 2 n)) ∨
      (0x10000 ≤ n ∧ lengthForm n = (127, bigEndian 8 n)) := by
  unfold lengthForm
  by_cases h125 : n ≤ 125
  · exact Or.inl ⟨h125, if_pos h125⟩
  by_cases h16 : n ≤ 0xFFFF
  · exact Or.inr (Or.inl ⟨by omega, h16, by rw [if_neg h125, if_pos h16]⟩)
  · exact Or.inr (Or.inr ⟨by omega, by rw [if_neg h125, if_neg h16]⟩)

/-- Bytes behind two others. -/
theorem field_eq (b0 b1 : Byte) (f t : Bytes) :
    ((List.range f.length).map fun i => at0 (b0 :: b1 :: (f ++ t)) (2 + i)) = f := by
  apply List.ext_getElem
  · simp
  · intro i h hf
    rw [List.getElem_map, List.getElem_range, Nat.add_comm 2 i]
    change (f ++ t).getD i 0 = f[i]
    rw [List.getD_append _ _ _ _ hf, List.getD_eq_getElem _ _ hf]

/-- The second byte. -/
theorem second_byte (mask : Option (Vector Byte 4)) {l : Byte} (hl : l.toNat < 128) :
    ((mask.elim 0 (fun _ => 0x80) ||| l) &&& 0x80 != 0) = mask.isSome ∧
      (mask.elim 0 (fun _ => 0x80) ||| l) &&& 0x7F = l := by
  have hall : ∀ n < 128, (((0 ||| UInt8.ofNat n) &&& 0x80 != 0) = false ∧
      (0 ||| UInt8.ofNat n) &&& 0x7F = UInt8.ofNat n) ∧
      ((0x80 ||| UInt8.ofNat n) &&& 0x80 != 0) = true ∧
        (0x80 ||| UInt8.ofNat n) &&& 0x7F = UInt8.ofNat n := by decide +kernel
  have hbyte := hall l.toNat hl
  rw [UInt8.ofNat_toNat] at hbyte
  cases mask with
  | none => exact hbyte.1
  | some key => exact hbyte.2

/-- The field with the payload length is read. -/
theorem wsPayloadLen_form {b0 b1 : Byte} {n : ℕ} (hn : n < 0x8000000000000000)
    (hb : b1 &&& 0x7F = (lengthForm n).1) (t : Bytes) :
    wsPayloadLen (b0 :: b1 :: ((lengthForm n).2 ++ t)) = (n, 2 + (lengthForm n).2.length) := by
  have hone : at0 (b0 :: b1 :: ((lengthForm n).2 ++ t)) 1 = b1 := rfl
  have hfield := field_eq b0 b1 (lengthForm n).2 t
  unfold wsPayloadLen
  rw [hone, hb]
  dsimp only
  rcases lengthForm_cases n with ⟨hle, hform⟩ | ⟨hlow, hle, hform⟩ | ⟨hlow, hform⟩
  · have hnat : (UInt8.ofNat n).toNat = n := by
      rw [UInt8.toNat_ofNat', Nat.mod_eq_of_lt (by omega)]
    rw [hform]
    dsimp only
    rw [hnat, if_neg (by omega), if_neg (by omega)]
    rfl
  · rw [hform] at hfield ⊢
    dsimp only at hfield ⊢
    rw [bigEndian_length] at hfield ⊢
    rw [if_pos (by decide), hfield, ofBigEndian_bigEndian, Nat.mod_eq_of_lt (by omega)]
  · rw [hform] at hfield ⊢
    dsimp only at hfield ⊢
    rw [bigEndian_length] at hfield ⊢
    rw [if_neg (by decide), if_pos (by decide), hfield, ofBigEndian_bigEndian, Nat.mod_eq_of_lt (by omega)]

theorem lengthForm_lt (n : ℕ) : (lengthForm n).1.toNat < 128 := by
  rcases lengthForm_cases n with ⟨hle, hform⟩ | ⟨-, -, hform⟩ | ⟨-, hform⟩ <;> rw [hform]
  · dsimp only
    rw [UInt8.toNat_ofNat', Nat.mod_eq_of_lt (by omega)]
    omega
  · exact (by decide : (126 : Byte).toNat < 128)
  · exact (by decide : (127 : Byte).toNat < 128)

/-- The header of a frame in memory. -/
theorem rfcFrame_header (op : Fin 16) (mask : Option (Vector Byte 4)) {payload : Bytes}
    (h : payload.length < 0x8000000000000000) (t : Bytes) :
    at0 (rfcFrame op mask payload ++ t) 0 &&& 0x80 ≠ 0 ∧ wsMasked (rfcFrame op mask payload ++ t) = mask.isSome ∧
      wsPayloadLen (rfcFrame op mask payload ++ t) =
        (payload.length, 2 + (lengthForm payload.length).2.length) := by
  obtain ⟨hmask, hlen⟩ := second_byte mask (lengthForm_lt payload.length)
  refine ⟨?_, hmask, ?_⟩
  · have hop : ∀ op : Fin 16, (0x80 ||| UInt8.ofNat op) &&& 0x80 ≠ 0 := by decide
    exact hop op
  · have hassoc : rfcFrame op mask payload ++ t = (0x80 ||| UInt8.ofNat op) ::
        (mask.elim 0 (fun _ => 0x80) ||| (lengthForm payload.length).1) ::
          ((lengthForm payload.length).2 ++
            (mask.elim payload (fun key => key.toList ++ maskPayload key.toList payload) ++ t)) := by
      unfold rfcFrame
      simp only [List.cons_append, List.append_assoc]
    rw [hassoc]
    exact wsPayloadLen_form h hlen _

theorem rfcFrame_length (op : Fin 16) (mask : Option (Vector Byte 4)) (payload : Bytes) :
    (rfcFrame op mask payload).length =
      2 + (lengthForm payload.length).2.length + (if mask.isSome then 4 else 0) + payload.length := by
  unfold rfcFrame
  cases mask with
  | none =>
    simp only [Option.elim_none, List.length_cons, List.length_append, Option.isSome_none, Bool.false_eq_true,
      if_false]
    omega
  | some key =>
    simp only [Option.elim_some, List.length_cons, List.length_append, Option.isSome_some, if_true,
      Vector.length_toList, maskPayload, List.length_mapIdx]
    omega

theorem rfcFrame_total (op : Fin 16) (mask : Option (Vector Byte 4)) {payload : Bytes}
    (h : payload.length < 0x8000000000000000) (t : Bytes) :
    wsTotal (rfcFrame op mask payload ++ t) = (rfcFrame op mask payload).length := by
  obtain ⟨-, hmask, hlen⟩ := rfcFrame_header op mask h t
  rw [rfcFrame_length]
  unfold wsTotal wsHeaderLen wsMaskLen
  rw [hlen, hmask]

/-- `agoo_ws_decode` finds the payload, whatever follows the frame. -/
theorem wsDecode_rfcFrame_append (op : Fin 16) (mask : Option (Vector Byte 4)) {payload : Bytes}
    (h : payload.length < 0x8000000000000000) (t : Bytes) : wsDecode (rfcFrame op mask payload ++ t) = payload := by
  obtain ⟨-, hmask, hlen⟩ := rfcFrame_header op mask h t
  have hbehind : (rfcFrame op mask payload ++ t).drop (2 + (lengthForm payload.length).2.length) =
      mask.elim payload (fun key => key.toList ++ maskPayload key.toList payload) ++ t := by
    unfold rfcFrame
    rw [← List.drop_drop, List.cons_append, List.cons_append, List.append_assoc]
    exact List.drop_left
  unfold wsDecode
  rw [hlen, hmask]
  dsimp only
  cases mask with
  | none =>
    rw [hbehind]
    exact List.take_left
  | some key =>
    have hkey : key.toList.length = 4 := key.length_toList
    have hpayload : (maskPayload key.toList payload).length = payload.length := List.length_mapIdx
    rw [Option.isSome_some, if_pos rfl, hbehind, ← List.drop_drop, hbehind, Option.elim_some, List.append_assoc,
      List.take_left' hkey, List.drop_left' hkey, ← hpayload, List.take_left]
    exact unmask_maskPayload key.toList payload

theorem wsDecode_rfcFrame (op : Fin 16) (mask : Option (Vector Byte 4)) {payload : Bytes}
    (h : payload.length < 0x8000000000000000) : wsDecode (rfcFrame op mask payload) = payload := by
  have hdecode := wsDecode_rfcFrame_append op mask h []
  rwa [List.append_nil] at hdecode

/-- `agoo_ws_expand` makes such a frame. -/
theorem wsExpand_eq (isBin : Bool) (payload : Bytes) :
    wsExpand isBin payload = rfcFrame (if isBin then 2 else 1) none payload := by
  have hlen : wsExpand.lengthField payload =
      (0 ||| (lengthForm payload.length).1) :: (lengthForm payload.length).2 := by
    unfold wsExpand.lengthField lengthForm
    split_ifs <;> simp
  unfold wsExpand rfcFrame
  rw [hlen]
  cases isBin <;> rfl

/-! ### The law -/

/-- An empty frame without a mask has two bytes; all others have more. -/
theorem rfcFrame_two_iff (op : Fin 16) (mask : Option (Vector Byte 4)) (payload : Bytes) :
    (rfcFrame op mask payload).length = 2 ↔ mask = none ∧ payload = [] := by
  rw [rfcFrame_length]
  constructor
  · intro h
    refine ⟨?_, List.eq_nil_of_length_eq_zero (by omega)⟩
    cases mask with
    | none => rfl
    | some key =>
      rw [Option.isSome_some, if_pos rfl] at h
      omega
  · rintro ⟨rfl, rfl⟩
    rfl

theorem rfcFrame_decodes (op : Fin 16) (mask : Option (Vector Byte 4)) {payload : Bytes}
    (h : payload.length < 0x8000000000000000) :
    ∃ rest, wsDecodeIn (rfcFrame op mask payload) = some (payload ++ 0 :: rest, payload.length) := by
  obtain ⟨-, -, hlen⟩ := rfcFrame_header op mask h []
  have htotal := rfcFrame_total op mask h []
  rw [List.append_nil] at hlen htotal
  obtain ⟨rest, hdecode⟩ := wsDecodeIn_eq htotal.le
  rw [wsDecode_rfcFrame op mask h, hlen] at hdecode
  exact ⟨rest, hdecode⟩

/-- Part of a frame is put off, or the whole length is known. -/
theorem wsCalcLen_part (op : Fin 16) (mask : Option (Vector Byte 4)) {payload : Bytes}
    (h : (rfcFrame op mask payload).length < 0x8000000000000000) (stale : Bytes) {n : ℕ}
    (hn : n ≤ (rfcFrame op mask payload).length) (htwo : 2 ≤ n) :
    wsCalcLen ((rfcFrame op mask payload).take n ++ stale) n =
      if n < 3 ∨ n ≤ 2 + (lengthForm payload.length).2.length then 0
      else ((rfcFrame op mask payload).length : ℤ) := by
  have hsize : payload.length < 0x8000000000000000 := by
    rw [rfcFrame_length] at h
    omega
  obtain ⟨hfin, hmask, hlen⟩ := rfcFrame_header op mask hsize []
  have htotal := rfcFrame_total op mask hsize []
  rw [List.append_nil] at hfin hmask hlen htotal
  have hat : ∀ i < n, at0 ((rfcFrame op mask payload).take n ++ stale) i = at0 (rfcFrame op mask payload) i := by
    intro i hi
    have htake : i < ((rfcFrame op mask payload).take n).length := by
      rw [List.length_take]
      omega
    unfold at0
    rw [List.getD_append _ _ _ _ htake, List.getD_eq_getElem _ _ htake, List.getElem_take,
      List.getD_eq_getElem]
  have hheader : wsHeaderLen ((rfcFrame op mask payload).take n ++ stale) =
      2 + (lengthForm payload.length).2.length :=
    (wsHeaderLen_congr (hat 1 (by omega))).trans (congrArg Prod.snd hlen)
  rw [← hat 0 (by omega)] at hfin
  split_ifs with hshort
  · exact wsCalcLen_waits hfin (hheader ▸ hshort)
  · have hheaderF : wsHeaderLen (rfcFrame op mask payload) = 2 + (lengthForm payload.length).2.length :=
      congrArg Prod.snd hlen
    obtain ⟨hsame, hmasked⟩ := wsPayloadLen_congr fun i hi => hat i (by omega)
    rw [wsCalcLen_ready hfin (by omega) (by omega), wsTotal_congr hsame hmasked, htotal]
    exact Int.bmod_eq_of_le (by omega) (by omega)

/-- The empty frame without a mask is never measured. -/
theorem wsCalcLen_empty (op : Fin 16) : wsCalcLen (rfcFrame op none []) 2 = 0 := by
  have hnil : ([] : Bytes).length < 0x8000000000000000 := by decide
  obtain ⟨hfin, -, -⟩ := rfcFrame_header op none hnil []
  rw [List.append_nil] at hfin
  exact wsCalcLen_waits hfin (Or.inl (by decide))

theorem CodecSound.not_empty {op : Fin 16} {mask : Option (Vector Byte 4)} {payload : Bytes}
    (h : CodecSound op mask payload) : ¬ (mask = none ∧ payload = []) := by
  rintro ⟨rfl, rfl⟩
  have hwhole := h.whole []
  rw [List.append_nil] at hwhole
  have hzero := (wsCalcLen_empty op).symm.trans hwhole
  have htwo := (rfcFrame_two_iff op none []).mpr ⟨rfl, rfl⟩
  omega

/-- The length is a `long`. -/
theorem CodecSound.length_lt {op : Fin 16} {mask : Option (Vector Byte 4)} {payload : Bytes}
    (h : CodecSound op mask payload) : (rfcFrame op mask payload).length < 0x8000000000000000 := by
  have hwhole := h.whole []
  have hlt : wsCalcLen (rfcFrame op mask payload ++ []) (rfcFrame op mask payload).length <
      0x8000000000000000 := by
    unfold wsCalcLen
    dsimp only
    split_ifs
    · decide
    · decide
    · decide
    · decide
    · exact Int.bmod_lt (by decide)
    · exact Int.bmod_lt (by decide)
  omega

/-- **The codec is sound for every frame that is not the empty one without a mask and whose length is a
`long`.** -/
theorem codec_sound_iff (op : Fin 16) (mask : Option (Vector Byte 4)) {payload : Bytes}
    (h : payload.length < 0x8000000000000000) :
    CodecSound op mask payload ↔
      ¬ (mask = none ∧ payload = []) ∧ (rfcFrame op mask payload).length < 0x8000000000000000 := by
  constructor
  · exact fun hs => ⟨hs.not_empty, hs.length_lt⟩
  · rintro ⟨hne, hlt⟩
    have hthree : 3 ≤ (rfcFrame op mask payload).length := by
      have htwo : (rfcFrame op mask payload).length ≠ 2 := fun h2 =>
        hne ((rfcFrame_two_iff op mask payload).mp h2)
      have hlen := rfcFrame_length op mask payload
      omega
    refine ⟨fun n stale htwo hn => ?_, fun stale => ?_, rfcFrame_decodes op mask h, fun isBin => ?_⟩
    · rw [wsCalcLen_part op mask hlt stale hn htwo]
      split_ifs
      · exact Or.inl rfl
      · exact Or.inr rfl
    · have hpart := wsCalcLen_part op mask hlt stale le_rfl (by omega)
      rw [List.take_length] at hpart
      rw [hpart, if_neg]
      rintro (hshort | hshort)
      · omega
      · have hlen := rfcFrame_length op mask payload
        have hnone : mask.isSome = false ∧ payload.length = 0 := by
          cases hmask : mask.isSome with
          | false => exact ⟨rfl, by omega⟩
          | true =>
            rw [hmask, if_pos rfl] at hlen
            omega
        exact hne ⟨Option.not_isSome_iff_eq_none.mp (Bool.not_eq_true _ ▸ hnone.1),
          List.eq_nil_of_length_eq_zero hnone.2⟩
    · rw [wsExpand_eq]
      exact rfcFrame_decodes _ none h

theorem masked_text_sound :
    CodecSound 1 (some #v[1, 2, 3, 4]) (bytes "hi") ↔
      ¬ (some #v[1, 2, 3, 4] = (none : Option (Vector Byte 4)) ∧ bytes "hi" = []) ∧
        (rfcFrame 1 (some #v[1, 2, 3, 4]) (bytes "hi")).length < 0x8000000000000000 :=
  codec_sound_iff 1 _ (by decide)

/-- An empty text without a mask has two bytes, and three are waited for. -/
theorem empty_not_sound : ¬ CodecSound 1 none [] := fun h => h.not_empty ⟨rfl, rfl⟩

end Agoo
