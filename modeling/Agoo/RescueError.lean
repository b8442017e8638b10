import Agoo.ErrResp

/-!
# The response to an exception (`rescue_error`)

The response is printed to a buffer of 1024 bytes, and a text is made of as many bytes as would have been printed.
`rescue_framed_iff`: when these are bytes of the buffer, and the length in the header is theirs.
-/

namespace Agoo

namespace Rescue

open ErrResp (afterBlank LengthRight afterBlank_line afterBlank_last)

/-! ## The code -/

/-- What `snprintf` writes to a buffer, with the NUL, and what it returns. -/
def snprintf (size : ℕ) (text : Bytes) : Bytes × ℤ :=
  (text.take (size - 1) ++ [0], if text.length ≤ 0x7FFFFFFF then text.length else -1)

/-- `agoo_text_create` from what was written at `str`; none when it reads more than that. -/
def agooTextCreate (str : Bytes) (len : ℤ) : Option Bytes :=
  if len < 0 then none
  else if len.toNat ≤ str.length then some (str.take len.toNat) else none

def bad500 : Bytes := bytes "HTTP/1.1 500 Internal Error\r\nConnection: Close\r\nContent-Length: "

/-- What becomes of an exception. -/
inductive Outcome
  | pushed (close : Bool) (message : Option Bytes)
  | logged (line : Bytes)
  deriving DecidableEq, Repr

variable (classname ms : Bytes)

/-- `len`. -/
def bodyLen : ℤ :=
  let len := toInt (strlen classname + 2 + strlen ms)
  -- `sizeof(buf) - sizeof(bad500) + 7`
  if 1024 - 65 + 7 ≤ len then 1024 - 65 + 7 else len

/-- The format of `rescue_error`. -/
def response : Bytes :=
  bad500 ++ intText (bodyLen classname ms) ++ bytes "\r\n\r\n" ++ cstr classname ++ bytes ": " ++ cstr ms

/-- `rescue_error`; `up` is whether the request has a connection that was upgraded. -/
def rescueError (up : Bool) : Outcome :=
  if up then .logged (cstr classname ++ bytes ": " ++ cstr ms)
  else
    let (buf, cnt) := snprintf 1024 (response classname ms)
    .pushed true (agooTextCreate buf cnt)

/-! ## The law -/

/-- A text was made of what was printed, and its length is right. -/
def Framed (o : Outcome) : Prop := ∃ close text, o = .pushed close (some text) ∧ LengthRight text

/-! ## When it is framed -/

theorem length_response : (response classname ms).length =
    68 + (intText (bodyLen classname ms)).length + (strlen classname + 2 + strlen ms) := by
  have hbad : bad500.length = 64 := rfl
  have hblank : (bytes "\r\n\r\n").length = 4 := rfl
  have hsep : (bytes ": ").length = 2 := rfl
  unfold response strlen
  simp only [List.length_append]
  omega

variable {classname ms}

theorem bodyLen_short (h : strlen classname + strlen ms ≤ 963) :
    bodyLen classname ms = (strlen classname + 2 + strlen ms : ℕ) := by
  have hint : toInt (strlen classname + 2 + strlen ms) = strlen classname + 2 + strlen ms :=
    toInt_of_int (by omega) (by omega)
  unfold bodyLen
  dsimp only
  rw [hint, if_neg (by omega)]
  push_cast
  rfl

/-- The three lines of the header and the body. -/
theorem lengthRight_lines (body : Bytes) :
    LengthRight (bad500 ++ decimal body.length ++ bytes "\r\n\r\n" ++ body) := by
  have hbad : bad500 = bytes "HTTP/1.1 500 Internal Error" ++ (crlf ++ (bytes "Connection: Close" ++
    (crlf ++ bytes "Content-Length: "))) := rfl
  have hblank : bytes "\r\n\r\n" = crlf ++ crlf := rfl
  have hlength : 13 ∉ bytes "Content-Length: " ++ decimal body.length := by
    rw [List.mem_append, not_or]
    exact ⟨by decide, fun h => absurd (isDigit_decimal h) (by decide)⟩
  have hne : some (chr 'C') ≠ some 13 := by decide
  have hlines : bad500 ++ decimal body.length ++ bytes "\r\n\r\n" ++ body =
      bytes "HTTP/1.1 500 Internal Error" ++ (crlf ++ (bytes "Connection: Close" ++ (crlf ++
        ((bytes "Content-Length: " ++ decimal body.length) ++ (crlf ++ crlf ++ body))))) := by
    rw [hbad, hblank]
    simp only [List.append_assoc]
  have hline : bytes "\r\nContent-Length: " = crlf ++ bytes "Content-Length: " := rfl
  refine ⟨bytes "HTTP/1.1 500 Internal Error" ++ crlf ++ bytes "Connection: Close", body, ?_, ?_⟩
  · have hstatus : 13 ∉ bytes "HTTP/1.1 500 Internal Error" := by decide
    have hclose : 13 ∉ bytes "Connection: Close" := by decide
    have hcon (t : Bytes) : (bytes "Connection: Close" ++ t).head? ≠ some 13 := hne
    have hlast (t : Bytes) : (bytes "Content-Length: " ++ decimal body.length ++ t).head? ≠ some 13 := hne
    rw [hlines, afterBlank_line hstatus (hcon _), afterBlank_line hclose (hlast _), afterBlank_last hlength]
  · rw [hlines, hline]
    simp only [List.append_assoc]

/-- A short response is printed, but for its last byte, which may be the NUL. -/
theorem rescue_short (h : strlen classname + strlen ms ≤ 951) : Framed (rescueError classname ms false) := by
  have hdigits : (decimal (strlen classname + 2 + strlen ms)).length ≤ 3 :=
    ErrResp.length_decimal_le (by decide) (by omega)
  have hlen : bodyLen classname ms = (strlen classname + 2 + strlen ms : ℕ) := bodyLen_short (by omega)
  have htext : intText (bodyLen classname ms) = decimal (strlen classname + 2 + strlen ms) := by
    rw [hlen]
    rfl
  have htotal := length_response classname ms
  rw [htext] at htotal
  have hbad : bad500.length = 64 := rfl
  have hblank : (bytes "\r\n\r\n").length = 4 := rfl
  have hcnt : (if (response classname ms).length ≤ 0x7FFFFFFF then ((response classname ms).length : ℤ) else -1) =
      (response classname ms).length := if_pos (by omega)
  have hmade : agooTextCreate ((response classname ms).take 1023 ++ [0]) (response classname ms).length =
      some (((response classname ms).take 1023 ++ [0]).take (response classname ms).length) := by
    unfold agooTextCreate
    rw [if_neg (by omega), if_pos, Int.toNat_natCast]
    rw [Int.toNat_natCast, List.length_append, List.length_take]
    change _ ≤ _ + 1
    omega
  refine ⟨true, ((response classname ms).take 1023 ++ [0]).take (response classname ms).length, ?_, ?_⟩
  · unfold rescueError snprintf
    dsimp only
    rw [if_neg Bool.false_ne_true, hcnt, hmade]
  · -- the header is below the end of the buffer
    have hsplit : response classname ms = bad500 ++ decimal (strlen classname + 2 + strlen ms) ++
        bytes "\r\n\r\n" ++ (cstr classname ++ bytes ": " ++ cstr ms) := by
      unfold response
      rw [htext]
      simp only [List.append_assoc]
    generalize hhead : bad500 ++ decimal (strlen classname + 2 + strlen ms) ++ bytes "\r\n\r\n" = head at hsplit
    generalize hbody : cstr classname ++ bytes ": " ++ cstr ms = body at hsplit
    have hheadlen : head.length = 68 + (decimal (strlen classname + 2 + strlen ms)).length := by
      rw [← hhead, List.length_append, List.length_append]
      omega
    have hbodylen : body.length = strlen classname + 2 + strlen ms := by
      rw [← hbody, List.length_append, List.length_append]
      rfl
    have hwritten : ((response classname ms).take 1023 ++ [0]).take (response classname ms).length =
        head ++ (body.take (1023 - head.length) ++ [0]).take body.length := by
      have hroom : 1023 = head.length + (1023 - head.length) := by omega
      rw [hsplit, hroom, List.take_length_add_append, List.append_assoc, List.length_append,
        List.take_length_add_append, ← hroom]
    have hsize : ((body.take (1023 - head.length) ++ [0]).take body.length).length =
        strlen classname + 2 + strlen ms := by
      rw [List.length_take, List.length_append, List.length_take]
      change min _ (_ + 1) = _
      omega
    have hright := lengthRight_lines ((body.take (1023 - head.length) ++ [0]).take body.length)
    rw [hsize, hhead] at hright
    rw [hwritten]
    exact hright

/-- A long one is not. -/
theorem rescue_long (h : 951 < strlen classname + strlen ms) : ¬ Framed (rescueError classname ms false) := by
  have htotal := length_response classname ms
  have hlong : 1024 < (response classname ms).length := by
    by_cases hshort : strlen classname + strlen ms ≤ 963
    · have hdigits : ¬ (intText (bodyLen classname ms)).length ≤ 2 := by
        rw [bodyLen_short hshort]
        change ¬ (decimal _).length ≤ 2
        unfold decimal
        rw [List.length_map, Nat.length_toDigits_le_iff (by decide) (by decide)]
        omega
      omega
    · omega
  rintro ⟨close, text, hpushed, -⟩
  unfold rescueError snprintf at hpushed
  dsimp only at hpushed
  rw [if_neg Bool.false_ne_true] at hpushed
  have hnone : ∀ cnt : ℤ, cnt < 0 ∨ 1024 < cnt →
      agooTextCreate ((response classname ms).take 1023 ++ [0]) cnt = none := by
    intro cnt hcnt
    unfold agooTextCreate
    split_ifs with hneg hle
    · rfl
    · rw [List.length_append, List.length_take] at hle
      change _ ≤ _ + 1 at hle
      omega
    · rfl
  rw [hnone] at hpushed
  · cases hpushed
  · split_ifs
    · exact .inr (by omega)
    · exact .inl (by decide)

/-- **The response is framed when the name and the message have 951 bytes at most.** -/
theorem rescue_framed_iff (classname ms : Bytes) :
    Framed (rescueError classname ms false) ↔ strlen classname + strlen ms ≤ 951 :=
  ⟨fun h => not_lt.mp fun hlong => rescue_long hlong h, rescue_short⟩

/-- A message of 1000 bytes is not printed whole. -/
theorem long_message_unframed : ¬ ∀ classname ms, Framed (rescueError classname ms false) := by
  intro h
  refine rescue_long ?_ (h (bytes "StandardError") (List.replicate 1000 (chr 'x')))
  have hms : strlen (List.replicate 1000 (chr 'x')) = 1000 := by
    rw [strlen, cstr_of_not_mem, List.length_replicate]
    exact fun hmem => absurd (List.eq_of_mem_replicate hmem) (by decide)
  omega

end Rescue

end Agoo
