import Agoo.Response

/-!
# Header fields (`con.c`)

Functions on the memory of a header, from a pointer on. The length given bounds the lines searched;
a value ends at a return or NUL, wherever that is.
-/

namespace Agoo

/-- How far the search of `agoo_con_header_value` moves from a place that is not the key's line: past
the next line end, or to the end of the `n` bytes left. -/
def lineLen : ℕ → Bytes → ℕ
  | 0, _ => 0
  | n + 1, m => if at0 m 0 = chr '\r' ∧ at0 m 1 = chr '\n' then 2 else 1 + lineLen n m.tail

/-- `strncasecmp(key, h, klen) == 0 && ':' == h[klen]`. -/
def keyMatches (key m : Bytes) : Bool :=
  strncasecmp key m key.length && at0 m key.length == chr ':'

/-- The offset and the length of the value behind a key of length `klen`. -/
def valueAfter (klen : ℕ) (m : Bytes) : ℕ × ℕ :=
  let blanks := (m.drop (klen + 1)).takeWhile (· == chr ' ')
  let start := klen + 1 + blanks.length
  (start, ((cstr (m.drop start)).takeWhile (· != chr '\r')).length)

/-- The loop of `agoo_con_header_value` at offset `h`, with `fuel` rounds. -/
def headerValueFrom (key m : Bytes) (hlen : ℕ) : ℕ → ℕ → Option (ℕ × ℕ)
  | 0, _ => none
  | fuel + 1, h =>
    if hlen ≤ h then none
    else if keyMatches key (m.drop h) then
      let v := valueAfter key.length (m.drop h)
      some (h + v.1, v.2)
    else headerValueFrom key m hlen fuel (h + lineLen (hlen - h) (m.drop h))

/-- `agoo_con_header_value`: the offset and the length of the value. A round moves at least one byte. -/
def conHeaderValue (m : Bytes) (hlen : ℕ) (key : Bytes) : Option (ℕ × ℕ) :=
  headerValueFrom key m hlen hlen 0

/-- `should_close`. -/
def shouldClose (m : Bytes) (hlen : ℕ) : Bool :=
  match conHeaderValue m hlen (bytes "Connection") with
  | some (off, vlen) => vlen == 5 && strncasecmp (bytes "Close") (m.drop off) 5
  | none => false

/-- The kind that `check_upgrade` gives to the response, if any. -/
def checkUpgrade (m : Bytes) (hlen : ℕ) : Option ConKind :=
  if wantsWebSocket then some .ws
  else
    match conHeaderValue m hlen (bytes "Accept") with
    | some (off, vlen) =>
      if strncasecmp (bytes "text/event-stream") (m.drop off) vlen then some .sse else none
    | none => none
where
  wantsWebSocket : Bool :=
    match conHeaderValue m hlen (bytes "Connection") with
    | some (off, _) =>
      (strstr (m.drop off) (bytes "Upgrade")).isSome &&
        match conHeaderValue m hlen (bytes "Upgrade") with
        | some (off, vlen) => strncasecmp (bytes "WebSocket") (m.drop off) vlen
        | none => false
    | none => false

/-- The response record of a request with that header: `agoo_con_http_read` sets the close flag and
`check_upgrade` the kind. -/
def requestRes (con : ℕ) (m : Bytes) (hlen : ℕ) : Res :=
  match checkUpgrade m hlen with
  | some kind => { Res.create con with conKind := kind }
  | none => { Res.create con with close := shouldClose m hlen }

theorem requestRes_flags (k : ℕ) (m : Bytes) (hlen : ℕ) :
    (requestRes k m hlen).con = k ∧ (requestRes k m hlen).ping = false ∧
      (requestRes k m hlen).pong = false := by
  unfold requestRes
  split <;> exact ⟨rfl, rfl, rfl⟩

end Agoo
