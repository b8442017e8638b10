import Agoo.ConHeader

/-!
# The slices of a request (`con_header_read`)

A request has its message to itself when its length is that of the header and the body, the copy fits in
what was allocated, and every slice lies in the copy.

`slices_never_own`: the protocol always stays in the buffer. All else is right exactly when the content
length is a number below 2^32 and a line ends behind the target, inside the message.
-/

namespace Agoo

/-! ## The law -/

/-- The number in the Content-Length that a method's header is read for. -/
def contentValue (method : Method) (m : Bytes) (hend : ℕ) : ℤ :=
  match method with
  | .put | .post | .patch | .delete =>
    match conHeaderValue m hend (bytes "Content-Length") with
    | some v => numberValue (m.drop v.1)
    | none => 0
  | _ => 0

/-- It lies in `msg[0..mlen]`. -/
def Slice.Inside (s : Slice) (mlen : ℤ) : Prop := s.base = .msg ∧ (s.off + s.len : ℤ) ≤ mlen

/-- All but the protocol, for a header that ends at `hend` and a body of `value` bytes. -/
structure HeadReq.Fits (r : HeadReq) (hend : ℕ) (value : ℤ) : Prop where
  natural : 0 ≤ value
  mlen : r.mlen = hend + 4 + value
  copied : (r.copied + 1 : ℤ) ≤ r.room
  path : r.path.Inside r.mlen
  query : r.query.Inside r.mlen
  header : r.header.Inside r.mlen
  body : r.body.Inside r.mlen
  bodyEnd : (r.body.off + r.body.len : ℤ) = r.mlen
  bodyLen : (r.body.len : ℤ) = value

/-- The request refers to its own copy only. -/
structure HeadReq.Own (r : HeadReq) (hend : ℕ) (value : ℤ) : Prop where
  fits : r.Fits hend value
  protocol : r.protocol.Inside r.mlen

/-- The content length is a number of 32 bits, and a line ends behind the target, inside the message. -/
def PlainHeader (m : Bytes) (value : ℤ) : Prop :=
  0 ≤ value ∧ value < 0x100000000 ∧
    ∃ j, strstr (m.drop (targetEnd m)) crlf = some j ∧
      (targetEnd m + j + 2 : ℤ) ≤ headerEnd m + 4 + value

/-! ## Numbers -/

/-- Where a Content-Length was read. -/
theorem contentLength_read {m : Bytes} {hend clen : ℕ} (h : contentLength m hend = some (some clen)) :
    ∃ v, conHeaderValue m hend (bytes "Content-Length") = some v ∧ clen = strtoul (m.drop v.1) := by
  obtain ⟨v, hv, hread⟩ := Option.map_eq_some_iff.mp h
  split_ifs at hread
  exact ⟨v, hv, (Option.some.inj hread).symm⟩

/-- A number of 64 bits is read as it is. -/
theorem contentLength_value {m : Bytes} {hend clen : ℕ} (h : contentLength m hend = some (some clen))
    (hpos : 0 ≤ contentValue .put m hend) (hlt : contentValue .put m hend < 0x10000000000000000) :
    (clen : ℤ) = contentValue .put m hend := by
  obtain ⟨v, hv, rfl⟩ := contentLength_read h
  unfold contentValue at hpos hlt ⊢
  rw [hv] at hpos hlt ⊢
  exact strtoul_of_value hpos hlt

theorem headLength_value {method : Method} {m : Bytes} {hend clen : ℕ} (h : headLength method m hend = .ok clen)
    (hpos : 0 ≤ contentValue method m hend) (hlt : contentValue method m hend < 0x10000000000000000) :
    (clen : ℤ) = contentValue method m hend := by
  have hread : headLength .put m hend = .ok clen → contentLength m hend = some (some clen) := by
    unfold headLength
    cases contentLength m hend with
    | none => exact fun h => by cases h
    | some o =>
      cases o with
      | none => exact fun h => by cases h
      | some c => exact fun h => by rw [Except.ok.inj h]
  cases method with
  | put => exact contentLength_value (hread h) hpos hlt
  | post => exact contentLength_value (hread h) hpos hlt
  | patch => exact contentLength_value (hread h) hpos hlt
  | delete =>
    cases hlen : contentLength m hend with
    | none =>
      unfold headLength at h
      rw [hlen] at h
      unfold contentValue
      rw [Option.map_eq_none_iff.mp hlen]
      exact congrArg _ (Except.ok.inj h).symm
    | some o =>
      cases o with
      | none =>
        unfold headLength at h
        rw [hlen] at h
        cases h
      | some c =>
        unfold headLength at h
        rw [hlen] at h
        obtain rfl := Except.ok.inj h
        exact contentLength_value hlen hpos hlt
  | get => exact congrArg _ (Except.ok.inj h).symm
  | head => exact congrArg _ (Except.ok.inj h).symm
  | options => exact congrArg _ (Except.ok.inj h).symm
  | connect => exact congrArg _ (Except.ok.inj h).symm
  | all => exact congrArg _ (Except.ok.inj h).symm

/-! ## Places -/

theorem headerEnd_le (b : HeadBuf) {e : ℕ} (h : strstr b.mem (crlf ++ crlf) = some e) : e + 4 ≤ 8191 := by
  have hfind := find_add_length_le h
  have hcstr := cstr_length_le_of_at0 b.last
  have hlen : (crlf ++ crlf).length = 4 := rfl
  omega

/-- Without wrapping, the message has room for itself and its NUL. -/
theorem msgLen_fits {hend clen : ℕ} (hhend : hend + 4 ≤ 8191) (hclen : clen < 0x100000000) (bcnt : ℕ) :
    msgLen hend clen = hend + 4 + clen ∧
      (copyLen bcnt (msgLen hend clen) + 1 : ℤ) ≤ reqSize (msgLen hend clen) - 184 := by
  have hmsg : msgLen hend clen = hend + 4 + clen := Int.bmod_eq_of_le (by omega) (by omega)
  refine ⟨hmsg, ?_⟩
  rw [hmsg]
  unfold copyLen reqSize
  split_ifs <;> omega

/-- The header's slice, by where a line ends behind the target. -/
theorem headerSlice_inside {m : Bytes} {hend te : ℕ} {mlen : ℤ} (hhend : (hend + 4 : ℤ) ≤ mlen) :
    (headerSlice m hend te).Inside mlen ↔
      ∃ j, strstr (m.drop te) crlf = some j ∧ (te + j + 2 : ℤ) ≤ mlen := by
  unfold headerSlice
  cases h : strstr (m.drop te) crlf with
  | none =>
    constructor
    · intro hin
      cases hin.1
    · rintro ⟨j, hj, -⟩
      cases hj
  | some j =>
    unfold Slice.Inside
    dsimp only
    constructor
    · rintro ⟨-, hle⟩
      refine ⟨j, rfl, ?_⟩
      split_ifs at hle <;> omega
    · rintro ⟨i, hi, hle⟩
      obtain rfl := Option.some.inj hi
      refine ⟨rfl, ?_⟩
      split_ifs <;> omega

/-! ## The request -/

/-- **The protocol of an accepted request is never in its copy; all else is right exactly when the content
length is a number below 2^32 and a line ends behind the target, inside the message.** -/
theorem slices_never_own {env : HeadEnv} {b : HeadBuf} {r : HeadReq} (h : conHeaderRead env b = .ok r) :
    ¬ r.Own (headerEnd b.mem) (contentValue r.method b.mem (headerEnd b.mem)) ∧
      (r.Fits (headerEnd b.mem) (contentValue r.method b.mem (headerEnd b.mem)) ↔
        PlainHeader b.mem (contentValue r.method b.mem (headerEnd b.mem))) := by
  obtain ⟨clen, n, k, hacc⟩ := conHeaderRead_ok h
  have hend := headerEnd_le b hacc.hend
  have hvalue := headLength_value hacc.length
  have hstop := hacc.stop
  obtain ⟨hpath, hquery⟩ := target_parts b.mem (targetStart b.mem) k
  have hmade := hacc.made
  generalize contentValue r.method b.mem (headerEnd b.mem) = value at *
  rw [hmade]
  unfold makeReq
  refine ⟨fun hown => ?_, fun hfits => ?_, fun ⟨hpos, hlt, hline⟩ => ?_⟩
  · have hbase : SliceBase.buf = .msg := hown.protocol.1
    cases hbase
  · have hpos := hfits.natural
    have hlen : ((clen % 0x100000000 : ℕ) : ℤ) = value := hfits.bodyLen
    have hmlen := hfits.mlen
    have hline := (headerSlice_inside (by omega)).mp hfits.header
    rw [hmlen, ← hstop] at hline
    exact ⟨hpos, by omega, hline⟩
  · have hclen := hvalue hpos (by omega)
    obtain ⟨hmsg, hroom⟩ := msgLen_fits hend (show clen < 0x100000000 by omega) b.bcnt
    have hmlen : msgLen (headerEnd b.mem) clen = headerEnd b.mem + 4 + value := by rw [hmsg, hclen]
    obtain ⟨j, hj, hle⟩ := hline
    rw [hstop] at hj hle
    have hmod : clen % 0x100000000 = clen := Nat.mod_eq_of_lt (by omega)
    refine ⟨hpos, ?_, ?_, ⟨rfl, ?_⟩, ⟨rfl, ?_⟩, ?_, ⟨rfl, ?_⟩, ?_, ?_⟩ <;> dsimp only
    · exact hmlen
    · exact hroom
    · show ((targetStart b.mem : ℕ) + (pathLen b.mem (targetStart b.mem) k : ℕ) : ℤ) ≤ msgLen _ _
      rw [hmlen]
      omega
    · show ((queryStart b.mem (targetStart b.mem) k : ℕ) +
        (targetStart b.mem + k - queryStart b.mem (targetStart b.mem) k : ℕ) : ℤ) ≤ msgLen _ _
      rw [hmlen]
      omega
    · refine (headerSlice_inside ?_).mpr ⟨j, hj, ?_⟩
      · show _ ≤ msgLen _ _
        omega
      · show _ ≤ msgLen _ _
        rw [hmlen]
        exact hle
    · show ((headerEnd b.mem + 4 : ℕ) + (clen % 0x100000000 : ℕ) : ℤ) ≤ msgLen _ _
      rw [hmlen, hmod]
      omega
    · show ((headerEnd b.mem + 4 : ℕ) + (clen % 0x100000000 : ℕ) : ℤ) = msgLen _ _
      rw [hmlen, hmod]
      omega
    · show ((clen % 0x100000000 : ℕ) : ℤ) = value
      rw [hmod, hclen]

def postText : Bytes := bytes "POST /a?b HTTP/1.1\r\nContent-Length: 2\r\n\r\nok"

theorem postText_length : postText.length ≤ 8191 := by decide

def postBuf : HeadBuf := .ofText postText postText_length

theorem postBuf_read : ∃ r, conHeaderRead openEnv postBuf = .ok r ∧ r.method = .post ∧
    r.protocol.base = .buf := ⟨_, rfl, rfl, rfl⟩

theorem postBuf_end : headerEnd postBuf.mem = 37 ∧ contentValue .post postBuf.mem 37 = 2 ∧
    targetEnd postBuf.mem = 9 ∧ strstr (postBuf.mem.drop 9) crlf = some 9 := by
  decide

/-- A request with a body. -/
theorem post_never_own : ∃ r, conHeaderRead openEnv postBuf = .ok r ∧ ¬ r.Own 37 2 ∧ r.Fits 37 2 := by
  obtain ⟨r, hread, hmethod, -⟩ := postBuf_read
  obtain ⟨hend, hvalue, hstop, hline⟩ := postBuf_end
  have hslices := slices_never_own hread
  rw [hend, hmethod, hvalue] at hslices
  refine ⟨r, hread, hslices.1, hslices.2.mpr ⟨by decide, by decide, 9, ?_, ?_⟩⟩
  · rw [hstop]
    exact hline
  · rw [hstop, hend]
    decide

/-- Its protocol is not in its copy. -/
theorem post_protocol_outside : ¬ ∀ env b r, conHeaderRead env b = .ok r →
    r.Own (headerEnd b.mem) (contentValue r.method b.mem (headerEnd b.mem)) := by
  intro h
  obtain ⟨r, hread, -, hprotocol⟩ := postBuf_read
  have hbase := (h _ _ _ hread).protocol.1
  rw [hprotocol] at hbase
  cases hbase

end Agoo
