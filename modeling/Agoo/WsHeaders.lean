import Agoo.Base64
import Agoo.HeaderLookup
import Agoo.Text

/-!
# The answer to an upgrade (`agoo_ws_add_headers`)

The header of a request is any lines, well formed or not. `wsAddHeaders_iff`: what is appended is exactly the
answer that the key and the protocol of the request ask for, unless the value of the protocol is empty.
-/

namespace Agoo

/-! ## The code -/

def upCon : Bytes := bytes "Upgrade: websocket\r\nConnection: Upgrade\r\n"

def wsMagic : Bytes := bytes "258EAFA5-E914-47DA-95CA-C5AB0DC85B11"

def wsProtocol : Bytes := bytes "Sec-WebSocket-Protocol: "

def wsAccept : Bytes := bytes "Sec-WebSocket-Accept: "

def secKey : Bytes := bytes "Sec-WebSocket-Key"

def secProtocol : Bytes := bytes "Sec-WebSocket-Protocol"

/-- Bytes put in `buf`, if it has room for them. -/
def inBuf (s : Bytes) : Option Bytes := if s.length ≤ 1024 then some s else none

variable (sha1 : Bytes → Vector Byte 20)

/-- The line with the digest of the key of `klen` bytes at `m`; none where `buf` is overrun. -/
def wsAddAccept (m : Bytes) (klen : ℕ) (t : Bytes) : Option Bytes := do
  let buf ← inBuf (strncpy m klen ++ wsMagic ++ [0])
  let sha := (sha1 (buf.take (klen + wsMagic.length))).toList
  let buf ← inBuf (Base64.b64To sha)
  let t := textAppend t wsAccept wsAccept.length
  let t := textAppend t buf (Base64.b64ToLen sha)
  return textAppend t crlf 2

/-- The first half of `agoo_ws_add_headers`. -/
def wsAddKey (m : Bytes) (hlen : ℕ) (t : Bytes) : Option Bytes :=
  match conHeaderValue m hlen secKey with
  | some (key, klen) =>
    if klen + (wsMagic.length + 1) < 1024 then wsAddAccept sha1 (m.drop key) klen t else some t
  | none => some t

/-- The second half. -/
def wsAddProtocol (m : Bytes) (hlen : ℕ) (t : Bytes) : Bytes :=
  match conHeaderValue m hlen secProtocol with
  | some (key, klen) =>
    let t := textAppend t wsProtocol wsProtocol.length
    let t := textAppend t (m.drop key) klen
    textAppend t crlf 2
  | none => t

/-- `agoo_ws_add_headers`, on the bytes from `req->header.start` on; none where `buf` is overrun. -/
def wsAddHeaders (m : Bytes) (hlen : ℕ) (t : Bytes) : Option Bytes :=
  (wsAddKey sha1 m hlen (textAppend t upCon upCon.length)).map (wsAddProtocol m hlen)

/-! ## The answer -/

/-- The value of a line behind a key of `klen` bytes: without the blanks before it, up to the first return. -/
def RawLine.value (u : RawLine) (klen : ℕ) : Bytes :=
  ((u.text.drop (klen + 1)).dropWhile (· == chr ' ')).takeWhile (· != chr '\r')

/-- The value of the first line that begins with the key and a colon. -/
def rawValue (key : Bytes) (us : List RawLine) : Option Bytes :=
  (us.find? fun u => BeginsWithKey key u.text).map fun u => u.value key.length

/-- The fixed lines, the digest of a key that is short enough, and the protocol. -/
def upgradeAnswer (key protocol : Option Bytes) : Bytes :=
  upCon ++ (key.elim [] accept ++ protocol.elim [] fun v => wsProtocol ++ v ++ crlf)
where
  accept (v : Bytes) : Bytes :=
    if v.length + 37 < 1024 then wsAccept ++ Base64.encoding (sha1 (v ++ wsMagic)).toList ++ crlf else []

/-! ## Raw lines -/

/-- What a name of a header is made of. -/
def PlainName (key : Bytes) : Prop := ∀ c ∈ key, c ≠ 0 ∧ tolower c ≠ chr '\r'

instance (key : Bytes) : Decidable (PlainName key) := inferInstanceAs (Decidable (∀ c ∈ key, _))

/-- A line is known by the key and the colon in it. -/
theorem keyMatches_raw {key : Bytes} (hkey : PlainName key) (u : RawLine) (x : Bytes) :
    keyMatches key (u.text ++ (crlf ++ x)) = true ↔ BeginsWithKey key u.text := by
  have hzero : 0 ∉ key := fun h => (hkey 0 h).1 rfl
  constructor
  · intro h
    have hall := beginsWithKey_of_matches hzero h
    unfold BeginsWithKey at hall ⊢
    by_cases hle : key.length + 1 ≤ u.text.length
    · have hright : (u.text ++ (crlf ++ x)).map tolower = u.text.map tolower ++ (crlf ++ x).map tolower :=
        List.map_append
      rw [hright] at hall
      exact List.prefix_of_prefix_length_le hall (List.prefix_append _ _) (by simpa using hle)
    · exfalso
      -- the return behind the line would be in the key
      have hlt : u.text.length < ((key ++ [chr ':']).map tolower).length := by
        rw [List.length_map, List.length_append, List.length_singleton]
        omega
      have hreturn : ((key ++ [chr ':']).map tolower)[u.text.length] = chr '\r' := by
        rw [hall.getElem hlt, List.getElem_map, List.getElem_append_right (Nat.le_refl _)]
        simp only [Nat.sub_self]
        rfl
      have hmem := List.getElem_mem hlt
      rw [hreturn, List.mem_map] at hmem
      obtain ⟨c, hc, hlower⟩ := hmem
      rcases List.mem_append.mp hc with hc | hc
      · exact (hkey c hc).2 hlower
      · rw [List.mem_singleton.mp hc] at hlower
        exact absurd hlower (by decide)
  · intro h
    unfold BeginsWithKey at h
    rw [List.map_append] at h
    have hlen := h.length_le
    simp only [List.length_append, List.length_map, List.length_singleton, List.map_cons, List.map_nil] at hlen
    have htake : key.map tolower = (u.text.take key.length).map tolower := by
      have hprefix := (List.prefix_append (key.map tolower) _).trans h
      rw [List.map_take, List.prefix_iff_eq_take.mp hprefix, List.length_map]
    have hcolon : at0 u.text key.length = chr ':' := by
      refine eq_of_tolower (by decide) ?_
      have hlt : key.length < (key.map tolower ++ [chr ':'].map tolower).length := by
        simp
      have hat := h.getElem hlt
      rw [List.getElem_append_right (by rw [List.length_map]), List.getElem_map, List.getElem_map] at hat
      rw [at0, List.getD_eq_getElem _ _ (by omega), ← hat]
      simp only [List.length_map, Nat.sub_self]
      rfl
    unfold keyMatches strncasecmp
    rw [Bool.and_eq_true, beq_iff_eq, beq_iff_eq, cstr_of_not_mem hzero, List.take_length,
      cstr_append u.zero_not_mem, List.take_append_of_le_length (by omega)]
    refine ⟨htake, ?_⟩
    rw [← hcolon, at0, List.getD_append _ _ _ _ (by omega)]
    rfl

/-- A byte that is not taken ends what is. -/
theorem takeWhile_stop {p : Byte → Bool} {c : Byte} (hc : p c = false) (s x : Bytes) :
    (s ++ c :: x).takeWhile p = s.takeWhile p := by
  induction s with
  | nil => exact List.takeWhile_cons_of_neg (by rw [hc]; decide)
  | cons a s ih =>
    rw [List.cons_append, List.takeWhile_cons, List.takeWhile_cons, ih]

/-- A text up to its first return. -/
theorem split_return (s x : Bytes) :
    ∃ rest, s ++ chr '\r' :: x = s.takeWhile (· != chr '\r') ++ chr '\r' :: rest := by
  induction s with
  | nil => exact ⟨x, rfl⟩
  | cons a s ih =>
    by_cases ha : a = chr '\r'
    · subst ha
      exact ⟨s ++ chr '\r' :: x, by rw [List.takeWhile_cons_of_neg (by decide)]; rfl⟩
    · obtain ⟨rest, hrest⟩ := ih
      refine ⟨rest, ?_⟩
      rw [List.takeWhile_cons_of_pos (by simpa using ha), List.cons_append, List.cons_append, hrest]

theorem drop_takeWhile (p : Byte → Bool) (s x : Bytes) :
    (s ++ x).drop (s.takeWhile p).length = s.dropWhile p ++ x := by
  induction s with
  | nil => rfl
  | cons a s ih =>
    by_cases ha : p a = true
    · rw [List.takeWhile_cons_of_pos ha, List.dropWhile_cons_of_pos ha]
      exact ih
    · rw [List.takeWhile_cons_of_neg ha, List.dropWhile_cons_of_neg ha]
      rfl

/-- The value of a line that begins with the key and a colon. -/
theorem valueAfter_raw (u : RawLine) {klen : ℕ} (hlen : klen + 1 ≤ u.text.length) (x : Bytes) :
    (valueAfter klen (u.text ++ (crlf ++ x))).2 = (u.value klen).length ∧
      ∃ rest, (u.text ++ (crlf ++ x)).drop (valueAfter klen (u.text ++ (crlf ++ x))).1 =
        u.value klen ++ chr '\r' :: rest := by
  have hbehind : (u.text ++ (crlf ++ x)).drop (klen + 1) = u.text.drop (klen + 1) ++ (crlf ++ x) :=
    List.drop_append_of_le_length hlen
  have hblanks : ((u.text ++ (crlf ++ x)).drop (klen + 1)).takeWhile (· == chr ' ') =
      (u.text.drop (klen + 1)).takeWhile (· == chr ' ') := by
    rw [hbehind]
    exact takeWhile_stop (by decide) _ _
  have hstart : (u.text ++ (crlf ++ x)).drop (valueAfter klen (u.text ++ (crlf ++ x))).1 =
      (u.text.drop (klen + 1)).dropWhile (· == chr ' ') ++ (crlf ++ x) := by
    unfold valueAfter
    dsimp only
    rw [hblanks, ← List.drop_drop, hbehind]
    exact drop_takeWhile _ _ _
  have hzero : 0 ∉ (u.text.drop (klen + 1)).dropWhile (· == chr ' ') := fun h =>
    u.zero_not_mem (List.mem_of_mem_drop ((List.dropWhile_sublist _).mem h))
  constructor
  · have hvlen : (valueAfter klen (u.text ++ (crlf ++ x))).2 =
        ((cstr ((u.text ++ (crlf ++ x)).drop (valueAfter klen (u.text ++ (crlf ++ x))).1)).takeWhile
          (· != chr '\r')).length := rfl
    rw [hvlen, hstart, cstr_append hzero]
    exact congrArg List.length (takeWhile_stop (by decide) _ _)
  · rw [hstart]
    exact split_return _ _

/-- A value of a header: where it is, and what is behind it in memory. -/
def HasValue (m : Bytes) (found : Option (ℕ × ℕ)) (v : Bytes) : Prop :=
  0 ∉ v ∧ ∃ off rest, found = some (off, v.length) ∧ m.drop off = v ++ chr '\r' :: rest

theorem RawLine.value_zero (u : RawLine) (klen : ℕ) : 0 ∉ u.value klen := fun h =>
  u.zero_not_mem (List.mem_of_mem_drop
    ((List.dropWhile_sublist _).mem ((List.takeWhile_sublist _).mem h)))

/-- **The search finds the value of the first line with that key**, and a return is behind it. -/
theorem firstAt_rawValue {key : Bytes} (hkey : PlainName key) (us : List RawLine) (t : Bytes) :
    (rawValue key us = none → firstAt key t us = none) ∧
      ∀ v, rawValue key us = some v → HasValue (rawMem us t) (firstAt key t us) v := by
  induction us with
  | nil => exact ⟨fun _ => rfl, fun v hv => absurd hv.symm (Option.some_ne_none v)⟩
  | cons u us ih =>
    have hmatch := keyMatches_raw hkey u (rawMem us t)
    unfold rawValue firstAt rawMem
    by_cases hbegins : BeginsWithKey key u.text
    · rw [List.find?_cons_of_pos (by simpa using hbegins), if_pos (hmatch.mpr hbegins)]
      refine ⟨fun h => absurd h (Option.some_ne_none _), fun v hv => ?_⟩
      obtain rfl := Option.some.inj hv
      have hlen : key.length + 1 ≤ u.text.length := by
        have hle := hbegins.length_le
        simpa using hle
      obtain ⟨hvlen, rest, hdrop⟩ := valueAfter_raw u hlen (rawMem us t)
      exact ⟨u.value_zero _, _, rest, congrArg some (Prod.ext rfl hvlen), hdrop⟩
    · rw [List.find?_cons_of_neg (by simpa using hbegins), if_neg fun h => hbegins (hmatch.mp h)]
      refine ⟨fun hnone => by rw [ih.1 hnone]; rfl, fun v hv => ?_⟩
      obtain ⟨hzero, off, rest, hfound, hdrop⟩ := ih.2 v hv
      refine ⟨hzero, u.text.length + 2 + off, rest, by rw [hfound]; rfl, ?_⟩
      rw [← List.drop_drop, ← List.drop_drop, List.drop_left]
      exact hdrop

/-! ## What is appended -/

theorem secKey_plain : PlainName secKey ∧ PlainName secProtocol := by decide

theorem inBuf_of_le {s : Bytes} (h : s.length ≤ 1024) : inBuf s = some s := if_pos h

/-- The digest of a key fits in `buf`. -/
theorem wsAddAccept_eq {m v rest : Bytes} (hzero : 0 ∉ v) (hm : m = v ++ rest) (hlen : v.length + 37 < 1024)
    (t : Bytes) : wsAddAccept sha1 m v.length t =
      some (t ++ (wsAccept ++ Base64.encoding (sha1 (v ++ wsMagic)).toList ++ crlf)) := by
  have hmagic : wsMagic.length = 36 := by decide
  have hbuf : inBuf (strncpy m v.length ++ wsMagic ++ [0]) = some (v ++ wsMagic ++ [0]) := by
    rw [strncpy_value hzero hm]
    refine inBuf_of_le ?_
    rw [List.length_append, List.length_append, hmagic, List.length_singleton]
    omega
  have htake : (v ++ wsMagic ++ [0]).take (v.length + wsMagic.length) = v ++ wsMagic := by
    rw [← List.length_append, List.take_left]
  have hdigest : (Base64.encoding (sha1 (v ++ wsMagic)).toList).length = 28 := by
    rw [Base64.encoding_length, Vector.length_toList]
  have hb64 : inBuf (Base64.b64To (sha1 (v ++ wsMagic)).toList) =
      some (Base64.encoding (sha1 (v ++ wsMagic)).toList ++ [0]) := by
    rw [Base64.b64To_eq]
    refine inBuf_of_le ?_
    rw [List.length_append, hdigest]
    decide
  have hreturned : Base64.b64ToLen (sha1 (v ++ wsMagic)).toList =
      (Base64.encoding (sha1 (v ++ wsMagic)).toList).length := by
    rw [Base64.b64ToLen_eq, hdigest]
    rfl
  have hne : Base64.encoding (sha1 (v ++ wsMagic)).toList ≠ [] := by
    intro h
    rw [h] at hdigest
    cases hdigest
  have hcrlf : ∀ t, textAppend t crlf 2 = t ++ crlf := fun t => textAppend_all t (a := crlf) (by decide)
  unfold wsAddAccept
  rw [hbuf]
  simp only [Option.bind_eq_bind, Option.bind_some, htake, hb64, hreturned]
  rw [textAppend_all t (by decide), textAppend_pos _ hne, hcrlf]
  simp only [List.append_assoc]
  rfl

theorem textAppend_crlf (t : Bytes) : textAppend t crlf 2 = t ++ crlf := textAppend_all t (a := crlf) (by decide)

/-- The first half appends what the key asks for. -/
theorem wsAddKey_eq (us : List RawLine) (x t : Bytes) :
    wsAddKey sha1 (rawMem us x) (rawLen us) t =
      some (t ++ (rawValue secKey us).elim [] (upgradeAnswer.accept sha1)) := by
  obtain ⟨hnone, hsome⟩ := firstAt_rawValue secKey_plain.1 us x
  have hmagic : wsMagic.length + 1 = 37 := by decide
  unfold wsAddKey
  rw [conHeaderValue_raw, hmagic]
  cases hvalue : rawValue secKey us with
  | none =>
    rw [hnone hvalue]
    exact congrArg some (List.append_nil t).symm
  | some v =>
    obtain ⟨hzero, off, rest, hfound, hdrop⟩ := hsome v hvalue
    rw [hfound]
    dsimp only
    rw [Option.elim_some]
    unfold upgradeAnswer.accept
    split_ifs with hlen
    · exact wsAddAccept_eq sha1 hzero hdrop hlen t
    · rw [List.append_nil]

/-- The second half echoes the value of the protocol, unless it is empty: then the rest of the request. -/
theorem wsAddProtocol_eq (us : List RawLine) (x t : Bytes) :
    ∃ rest, wsAddProtocol (rawMem us x) (rawLen us) t = t ++ ((rawValue secProtocol us).map fun v =>
      if v = [] then chr '\r' :: rest else v).elim [] fun v => wsProtocol ++ v ++ crlf := by
  obtain ⟨hnone, hsome⟩ := firstAt_rawValue secKey_plain.2 us x
  unfold wsAddProtocol
  rw [conHeaderValue_raw]
  cases hvalue : rawValue secProtocol us with
  | none =>
    rw [hnone hvalue]
    exact ⟨[], (List.append_nil t).symm⟩
  | some v =>
    obtain ⟨hzero, off, rest, hfound, hdrop⟩ := hsome v hvalue
    rw [hfound]
    dsimp only
    rw [hdrop, textAppend_all t (by decide), textAppend_crlf]
    by_cases hv : v = []
    · refine ⟨cstr rest, ?_⟩
      rw [Option.map_some, Option.elim_some, if_pos hv, hv]
      show textAppend _ (chr '\r' :: rest) 0 ++ crlf = _
      rw [textAppend_empty, show cstr (chr '\r' :: rest) = chr '\r' :: cstr rest from
        List.takeWhile_cons_of_pos (by decide)]
      simp only [List.append_assoc]
    · refine ⟨[], ?_⟩
      rw [Option.map_some, Option.elim_some, if_neg hv, textAppend_pos _ hv]
      simp only [List.append_assoc]

/-! ## The law -/

/-- An answer can be told from its protocol. -/
theorem upgradeAnswer_inj {key p q : Option Bytes} (h : upgradeAnswer sha1 key p = upgradeAnswer sha1 key q) :
    (p.elim [] fun v => wsProtocol ++ v ++ crlf) = q.elim [] fun v => wsProtocol ++ v ++ crlf :=
  List.append_cancel_left (List.append_cancel_left h)

/-- **What is appended is the answer to the key and the protocol of the request, unless the value of the
protocol is empty.** -/
theorem wsAddHeaders_iff (us : List RawLine) (body t : Bytes) :
    wsAddHeaders sha1 (rawMem us (crlf ++ body)) (rawLen us) t =
        some (t ++ upgradeAnswer sha1 (rawValue secKey us) (rawValue secProtocol us)) ↔
      rawValue secProtocol us ≠ some [] := by
  obtain ⟨rest, hproto⟩ := wsAddProtocol_eq us (crlf ++ body)
    (t ++ upCon ++ (rawValue secKey us).elim [] (upgradeAnswer.accept sha1))
  have hrun : wsAddHeaders sha1 (rawMem us (crlf ++ body)) (rawLen us) t =
      some (t ++ upgradeAnswer sha1 (rawValue secKey us)
        ((rawValue secProtocol us).map fun v => if v = [] then chr '\r' :: rest else v)) := by
    unfold wsAddHeaders
    rw [textAppend_all t (by decide), wsAddKey_eq, Option.map_some, hproto]
    unfold upgradeAnswer
    simp only [List.append_assoc]
  rw [hrun]
  constructor
  · intro h hempty
    have hsame := upgradeAnswer_inj sha1 (List.append_cancel_left (Option.some.inj h))
    rw [hempty, Option.map_some, if_pos rfl, Option.elim_some, Option.elim_some] at hsame
    have hlen := congrArg List.length hsame
    simp only [List.length_append, List.length_cons, List.length_nil] at hlen
    omega
  · intro hne
    cases hvalue : rawValue secProtocol us with
    | none => rfl
    | some v =>
      have hv : v ≠ [] := fun hv => hne (hvalue.trans (congrArg some hv))
      rw [Option.map_some, if_neg hv]

/-- A protocol without a value, and a line behind it. -/
def emptyProtocol : List RawLine :=
  [⟨bytes "Sec-WebSocket-Protocol:", by decide, by decide, by decide⟩,
    ⟨bytes "X: 1", by decide, by decide, by decide⟩]

/-- The line behind an empty protocol is sent back. -/
theorem request_echoed :
    wsAddHeaders (fun _ => Vector.replicate 20 0) (rawMem emptyProtocol crlf) (rawLen emptyProtocol) [] =
        some (upCon ++ (wsProtocol ++ crlf ++ bytes "X: 1" ++ crlf ++ crlf ++ crlf)) ∧
      wsAddHeaders (fun _ => Vector.replicate 20 0) (rawMem emptyProtocol crlf) (rawLen emptyProtocol) [] ≠
        some ([] ++ upgradeAnswer (fun _ => Vector.replicate 20 0) (rawValue secKey emptyProtocol)
          (rawValue secProtocol emptyProtocol)) := by
  decide

end Agoo
