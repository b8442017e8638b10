import Agoo.JsonText
import Agoo.GqlText
import Agoo.TimeRoundTrip

/-!
# Error responses (`err_resp`)

The response to a request that fails is one text: a status line, two header lines, and an object of JSON with
the message as it is. Its length is added up by hand. `err_resp_iff`: the length is always right and the text
is whole, and the message comes out of the JSON if it has no byte that a string has to escape and is UTF-8.
-/

namespace Agoo

namespace ErrResp

open SecTime (AgooTime agooSectime)

/-! ## The code -/

/-- `agoo_http_code_message`. -/
def agooHttpCodeMessage (code : ℤ) : Bytes :=
  match code with
  | 100 => bytes "Continue"
  | 101 => bytes "Switching Protocols"
  | 102 => bytes "Processing"
  | 200 => bytes "OK"
  | 201 => bytes "Created"
  | 202 => bytes "Accepted"
  | 203 => bytes "Non-authoritative Information"
  | 204 => bytes "No Content"
  | 205 => bytes "Reset Content"
  | 206 => bytes "Partial Content"
  | 207 => bytes "Multi-Status"
  | 208 => bytes "Already Reported"
  | 226 => bytes "IM Used"
  | 300 => bytes "Multiple Choices"
  | 301 => bytes "Moved Permanently"
  | 302 => bytes "Found"
  | 303 => bytes "See Other"
  | 304 => bytes "Not Modified"
  | 305 => bytes "Use Proxy"
  | 307 => bytes "Temporary Redirect"
  | 308 => bytes "Permanent Redirect"
  | 400 => bytes "Bad Request"
  | 401 => bytes "Unauthorized"
  | 402 => bytes "Payment Required"
  | 403 => bytes "Forbidden"
  | 404 => bytes "Not Found"
  | 405 => bytes "Method Not Allowed"
  | 406 => bytes "Not Acceptable"
  | 407 => bytes "Proxy Authentication Required"
  | 408 => bytes "Request Timeout"
  | 409 => bytes "Conflict"
  | 410 => bytes "Gone"
  | 411 => bytes "Length Required"
  | 412 => bytes "Precondition Failed"
  | 413 => bytes "Payload Too Large"
  | 414 => bytes "Request-URI Too Long"
  | 415 => bytes "Unsupported Media Type"
  | 416 => bytes "Requested Range Not Satisfiable"
  | 417 => bytes "Expectation Failed"
  | 418 => bytes "I'm a teapot"
  | 421 => bytes "Misdirected Request"
  | 422 => bytes "Unprocessable Entity"
  | 423 => bytes "Locked"
  | 424 => bytes "Failed Dependency"
  | 426 => bytes "Upgrade Required"
  | 428 => bytes "Precondition Required"
  | 429 => bytes "Too Many Requests"
  | 431 => bytes "Request Header Fields Too Large"
  | 444 => bytes "Connection Closed Without Response"
  | 451 => bytes "Unavailable For Legal Reasons"
  | 499 => bytes "Client Closed Request"
  | 500 => bytes "Internal Server Error"
  | 501 => bytes "Not Implemented"
  | 502 => bytes "Bad Gateway"
  | 503 => bytes "Service Unavailable"
  | 504 => bytes "Gateway Timeout"
  | 505 => bytes "HTTP Version Not Supported"
  | 506 => bytes "Variant Also Negotiates"
  | 507 => bytes "Insufficient Storage"
  | 508 => bytes "Loop Detected"
  | 510 => bytes "Not Extended"
  | 511 => bytes "Network Authentication Required"
  | 599 => bytes "Network Connect Timeout Error"
  | _ => []

/-- The texts of the C library for its error numbers. -/
structure Libc where
  strerror : ℤ → Bytes
  short : ∀ code, (strerror code).length ≤ 128
  plain : ∀ code, ∀ c ∈ strerror code, JsonText.Unescaped c ∧ c < 0x80

/-- `agoo_err_str`. -/
def agooErrStr (lib : Libc) (code : ℤ) : Bytes :=
  if code < 300 then lib.strerror code
  else
    match code with
    | 300 => bytes "parse error"
    | 301 => bytes "read failed"
    | 302 => bytes "write failed"
    | 304 => bytes "invalid argument"
    | 305 => bytes "not found"
    | 306 => bytes "thread error"
    | 307 => bytes "network error"
    | 308 => bytes "lock error"
    | 309 => bytes "already freed"
    | 310 => bytes "in use"
    | 311 => bytes "too many"
    | 312 => bytes "type error"
    | 313 => bytes "eval error"
    | 314 => bytes "TLS error"
    | _ => bytes "unknown error"

/-- The time of the clock, in nanoseconds since the start of 1970. -/
structure Clock where
  now : ℤ
  past : 0 ≤ now
  fits : now ≤ 0x7FFFFFFFFFFFFFFF

/-- A message in `err->msg`. -/
abbrev Message := { msg : Bytes // 0 ∉ msg ∧ msg.length ≤ 255 }

variable (lib : Libc) (junk : AgooTime) (clock : Clock) (status code : Int32) (msg : Message)

/-- `at` and `frac` in the format of the timestamp. -/
def timestamp : Bytes :=
  let t := clock.now.tdiv 1000000000
  let frac := clock.now.tmod 1000000000
  Convert.fieldsText (agooSectime t junk) frac

/-- The format of `err_resp`, up to the body. -/
def errHead : Bytes :=
  bytes "HTTP/1.1 " ++ intText status.toInt ++ bytes " " ++ agooHttpCodeMessage status.toInt ++
    bytes "\r\nContent-Type: application/json\r\nContent-Length: " ++
      decimal (msg.1.length + 27 + 45 + (agooErrStr lib code.toInt).length + 10) ++ bytes "\r\n\r\n"

def errBody : Bytes :=
  bytes "\x7b\"errors\":[\x7b\"message\":\"" ++ msg.1 ++ bytes "\",\"code\":\"" ++
    agooErrStr lib code.toInt ++ bytes "\",\"timestamp\":\"" ++ timestamp junk clock ++ bytes "\"\x7d]\x7d"

def errText : Bytes := errHead lib status code msg ++ errBody lib junk clock code msg

/-- `snprintf` to `buf`, and `agoo_text_create` with what it returns; the stack is behind `buf`. -/
def errResp (stack : Bytes) : Bytes :=
  let text := errText lib junk clock status code msg
  let buf := text.take 1023 ++ 0 :: List.replicate (1023 - text.length) 0
  (buf ++ stack).take text.length

/-! ## The law -/

/-- What follows the first empty line of a response. -/
def afterBlank (reply : Bytes) : Option Bytes := (find (crlf ++ crlf) reply).map fun i => reply.drop (i + 4)

/-- `errors[0].message`. -/
def firstMessage (v : JsonText.Value) : Option Bytes :=
  match v.member (bytes "errors") with
  | some (.array (e :: _)) =>
    match e.member (bytes "message") with
    | some (.string s) => some s
    | _ => none
  | _ => none

/-- The length in the header is that of what follows the header. -/
def LengthRight (reply : Bytes) : Prop :=
  ∃ head body, afterBlank reply = some body ∧
    reply = head ++ bytes "\r\nContent-Length: " ++ decimal body.length ++ crlf ++ crlf ++ body

/-- What follows the header is JSON with the message. -/
def MessageRight (reply msg : Bytes) : Prop :=
  ∃ body v, afterBlank reply = some body ∧ JsonText.IsJson body v ∧ firstMessage v = some msg

/-- A well formed response to a request that fails. -/
structure Answered (stack : Bytes) : Prop where
  whole : errResp lib junk clock status code msg stack = errText lib junk clock status code msg
  length : LengthRight (errResp lib junk clock status code msg stack)
  message : MessageRight (errResp lib junk clock status code msg stack) msg.1

/-! ## The parts -/

theorem length_decimal_le {n w : ℕ} (hw : 0 < w) (h : n < 10 ^ w) : (decimal n).length ≤ w := by
  unfold decimal
  rw [List.length_map]
  exact Nat.toDigits_length 10 n w hw h

/-- A byte that is plain in JSON, in ASCII. -/
def PlainAscii (c : Byte) : Prop := JsonText.Unescaped c ∧ c < 0x80

instance (c : Byte) : Decidable (PlainAscii c) := inferInstanceAs (Decidable (_ ∧ _))

theorem plainAscii_digit {c : Byte} (h : isDigit c = true) : PlainAscii c := by
  have hall : ∀ n < 256, isDigit (UInt8.ofNat n) = true → PlainAscii (UInt8.ofNat n) := by decide +kernel
  have hc := hall c.toNat c.toNat_lt
  rw [UInt8.ofNat_toNat] at hc
  exact hc h

theorem plainAscii_zeroPadded {w : ℕ} {z : ℤ} : ∀ c ∈ Convert.zeroPadded w z, PlainAscii c := by
  intro c hc
  unfold Convert.zeroPadded at hc
  simp only [List.mem_append] at hc
  rcases hc with (hc | hc) | hc
  · split_ifs at hc
    · obtain rfl : c = chr '-' := List.mem_singleton.mp hc
      decide
    · cases hc
  · rw [List.eq_of_mem_replicate hc]
    decide
  · exact plainAscii_digit (isDigit_decimal hc)

theorem timestamp_parts : (timestamp junk clock).length = 30 ∧ ∀ c ∈ timestamp junk clock, PlainAscii c := by
  obtain ⟨now, hpast, hfits⟩ := clock
  have hsecs : now.tdiv 1000000000 = now / 1000000000 := Int.tdiv_eq_ediv_of_nonneg hpast
  have hfrac : now.tmod 1000000000 = ((now % 1000000000).toNat : ℕ) := by
    rw [Int.tmod_eq_emod_of_nonneg hpast]
    omega
  unfold timestamp
  dsimp only
  rw [hsecs, hfrac]
  have hprintable : Convert.Printable (agooSectime (now / 1000000000) junk) :=
    (Convert.agooSectime_printed (by omega) junk).1
  obtain ⟨-, -, hlen, -⟩ := Convert.fieldsText_parsed (n := (now % 1000000000).toNat) hprintable (by omega)
  refine ⟨hlen, ?_⟩
  unfold Convert.fieldsText
  simp only [List.forall_mem_append]
  refine ⟨⟨⟨⟨⟨⟨⟨⟨⟨⟨⟨⟨⟨?_, ?_⟩, ?_⟩, ?_⟩, ?_⟩, ?_⟩, ?_⟩, ?_⟩, ?_⟩, ?_⟩, ?_⟩, ?_⟩, ?_⟩, ?_⟩
  all_goals first
    | exact plainAscii_zeroPadded
    | decide

theorem codeMessage_parts (code : ℤ) :
    (agooHttpCodeMessage code).length ≤ 40 ∧ 13 ∉ agooHttpCodeMessage code := by
  unfold agooHttpCodeMessage
  split
  all_goals decide

theorem errStr_parts (lib : Libc) (code : ℤ) :
    (agooErrStr lib code).length ≤ 128 ∧ ∀ c ∈ agooErrStr lib code, PlainAscii c := by
  unfold agooErrStr
  split_ifs
  · exact ⟨lib.short code, lib.plain code⟩
  · split
    all_goals exact ⟨by decide, by decide⟩

theorem status_parts (status : Int32) :
    (intText status.toInt).length ≤ 11 ∧ 13 ∉ intText status.toInt := by
  have hlow := status.le_toInt
  have hhigh := status.toInt_lt
  have hlen : (decimal status.toInt.natAbs).length ≤ 10 := length_decimal_le (by decide) (by omega)
  have hcr : 13 ∉ decimal status.toInt.natAbs := fun h => absurd (isDigit_decimal h) (by decide)
  unfold intText
  split_ifs
  · refine ⟨?_, fun h => (List.mem_append.mp h).elim (by decide) hcr⟩
    rw [List.length_append]
    change 1 + _ ≤ 11
    omega
  · exact ⟨by omega, hcr⟩

/-! ## The length -/

theorem length_errBody : (errBody lib junk clock code msg).length =
    msg.1.length + 27 + 45 + (agooErrStr lib code.toInt).length + 10 := by
  have hstamp := (timestamp_parts junk clock).1
  unfold errBody
  simp only [List.length_append, hstamp]
  have h1 : (bytes "\x7b\"errors\":[\x7b\"message\":\"").length = 23 := rfl
  have h2 : (bytes "\",\"code\":\"").length = 10 := rfl
  have h3 : (bytes "\",\"timestamp\":\"").length = 15 := rfl
  have h4 : (bytes "\"\x7d]\x7d").length = 4 := rfl
  omega

theorem length_errText : (errText lib junk clock status code msg).length ≤ 1023 := by
  have hbody := length_errBody lib junk clock code msg
  have hstatus := (status_parts status).1
  have hmessage := (codeMessage_parts status.toInt).1
  have hcode := (errStr_parts lib code.toInt).1
  have hmsg := msg.2.2
  have hlen : (decimal (msg.1.length + 27 + 45 + (agooErrStr lib code.toInt).length + 10)).length ≤ 3 :=
    length_decimal_le (by decide) (by omega)
  unfold errText errHead
  simp only [List.length_append]
  have h1 : (bytes "HTTP/1.1 ").length = 9 := rfl
  have h2 : (bytes " ").length = 1 := rfl
  have h3 : (bytes "\r\nContent-Type: application/json\r\nContent-Length: ").length = 50 := rfl
  have h4 : (bytes "\r\n\r\n").length = 4 := rfl
  omega

theorem errResp_whole (stack : Bytes) :
    errResp lib junk clock status code msg stack = errText lib junk clock status code msg := by
  have hlen := length_errText lib junk clock status code msg
  unfold errResp
  dsimp only
  rw [List.take_of_length_le hlen, List.append_assoc]
  exact List.take_left

/-! ## The header -/

/-- A line is passed over. -/
theorem find_skip {line s : Bytes} (h : 13 ∉ line) :
    find (crlf ++ crlf) (line ++ s) = (find (crlf ++ crlf) s).map (· + line.length) := by
  induction line with
  | nil =>
    rw [List.nil_append]
    cases find (crlf ++ crlf) s with
    | none => rfl
    | some i => rfl
  | cons c line ih =>
    have hc : ¬ crlf ++ crlf <+: c :: (line ++ s) := by
      intro hpre
      rw [← (List.cons_prefix_cons.mp hpre).1] at h
      exact h List.mem_cons_self
    rw [List.cons_append, find, if_neg hc, ih fun hmem => h (List.mem_cons_of_mem _ hmem), Option.map_map]
    rfl

/-- The end of a line is passed over if the next one is not empty. -/
theorem find_newline {s : Bytes} (h : s.head? ≠ some 13) :
    find (crlf ++ crlf) (crlf ++ s) = (find (crlf ++ crlf) s).map (· + 2) := by
  have hcr : ¬ crlf ++ crlf <+: 13 :: 10 :: s := by
    change ¬ crlf ++ crlf <+: crlf ++ s
    rw [List.prefix_append_right_inj]
    rintro ⟨t, rfl⟩
    exact h rfl
  have hlf : ¬ crlf ++ crlf <+: 10 :: s := by
    intro hpre
    exact absurd (List.cons_prefix_cons.mp hpre).1 (by decide)
  change find (crlf ++ crlf) (13 :: 10 :: s) = _
  rw [find, if_neg hcr, find, if_neg hlf, Option.map_map]
  rfl

theorem afterBlank_append {front s : Bytes}
    (h : find (crlf ++ crlf) (front ++ s) = (find (crlf ++ crlf) s).map (· + front.length)) :
    afterBlank (front ++ s) = afterBlank s := by
  unfold afterBlank
  rw [h, Option.map_map]
  refine congrArg (Option.map · _) (funext fun i => ?_)
  change (front ++ s).drop (i + front.length + 4) = _
  rw [show i + front.length + 4 = front.length + (i + 4) by omega, List.drop_length_add_append]

/-- A line with another one behind it is passed over. -/
theorem afterBlank_line {line s : Bytes} (h : 13 ∉ line) (hs : s.head? ≠ some 13) :
    afterBlank (line ++ (crlf ++ s)) = afterBlank s := by
  rw [afterBlank_append (find_skip h), afterBlank_append (find_newline hs)]

/-- The last line of a header. -/
theorem afterBlank_last {line : Bytes} (h : 13 ∉ line) (s : Bytes) :
    afterBlank (line ++ (crlf ++ crlf ++ s)) = some s := by
  have hend : find (crlf ++ crlf) (crlf ++ crlf ++ s) = some 0 := if_pos (List.prefix_append _ _)
  rw [afterBlank_append (find_skip h)]
  unfold afterBlank
  rw [hend]
  rfl

/-- The status line. -/
def statusLine : Bytes :=
  bytes "HTTP/1.1 " ++ intText status.toInt ++ bytes " " ++ agooHttpCodeMessage status.toInt

/-- The line with the length of the body. -/
def lengthLine : Bytes := bytes "Content-Length: " ++ decimal (errBody lib junk clock code msg).length

theorem errText_lines : errText lib junk clock status code msg = statusLine status ++ (crlf ++
    (bytes "Content-Type: application/json" ++ (crlf ++ (lengthLine lib junk clock code msg ++
      (crlf ++ crlf ++ errBody lib junk clock code msg))))) := by
  have hlines : bytes "\r\nContent-Type: application/json\r\nContent-Length: " =
      crlf ++ (bytes "Content-Type: application/json" ++ (crlf ++ bytes "Content-Length: ")) := rfl
  have hblank : bytes "\r\n\r\n" = crlf ++ crlf := rfl
  unfold errText errHead statusLine lengthLine
  rw [length_errBody, hlines, hblank]
  simp only [List.append_assoc]

theorem afterBlank_errText : afterBlank (errText lib junk clock status code msg) =
    some (errBody lib junk clock code msg) := by
  have hstatus : 13 ∉ statusLine status := by
    unfold statusLine
    simp only [List.mem_append, not_or]
    exact ⟨⟨⟨by decide, (status_parts status).2⟩, by decide⟩, (codeMessage_parts _).2⟩
  have hlength : 13 ∉ lengthLine lib junk clock code msg := by
    unfold lengthLine
    rw [List.mem_append, not_or]
    exact ⟨by decide, fun h => absurd (isDigit_decimal h) (by decide)⟩
  have hne : some (chr 'C') ≠ some 13 := by decide
  have htype (s : Bytes) : (bytes "Content-Type: application/json" ++ s).head? ≠ some 13 := hne
  have hline (s : Bytes) : (lengthLine lib junk clock code msg ++ s).head? ≠ some 13 := hne
  rw [errText_lines, afterBlank_line hstatus (htype _), afterBlank_line (by decide) (hline _),
    afterBlank_last hlength]

theorem lengthRight (stack : Bytes) : LengthRight (errResp lib junk clock status code msg stack) := by
  rw [errResp_whole]
  refine ⟨statusLine status ++ crlf ++ bytes "Content-Type: application/json", errBody lib junk clock code msg,
    afterBlank_errText lib junk clock status code msg, ?_⟩
  have hline : bytes "\r\nContent-Length: " = crlf ++ bytes "Content-Length: " := rfl
  rw [errText_lines, hline]
  unfold lengthLine
  simp only [List.append_assoc]

/-! ## The message -/

open JsonText

/-- The object of the error byte by byte, but for the strings. -/
def errObject (rest : Bytes) : Bytes :=
  chr '{' :: chr '"' :: (bytes "message" ++ chr '"' :: chr ':' :: chr '"' :: (msg.1 ++ chr '"' :: chr ',' ::
    chr '"' :: (bytes "code" ++ chr '"' :: chr ':' :: chr '"' :: (agooErrStr lib code.toInt ++ chr '"' ::
      chr ',' :: chr '"' :: (bytes "timestamp" ++ chr '"' :: chr ':' :: chr '"' :: (timestamp junk clock ++
        chr '"' :: chr '}' :: rest))))))

theorem errBody_eq : errBody lib junk clock code msg = chr '{' :: chr '"' :: (bytes "errors" ++ chr '"' ::
    chr ':' :: chr '[' :: errObject lib junk clock code msg [chr ']', chr '}']) := by
  have h1 : bytes "\x7b\"errors\":[\x7b\"message\":\"" = chr '{' :: chr '"' :: (bytes "errors" ++ chr '"' ::
    chr ':' :: chr '[' :: chr '{' :: chr '"' :: (bytes "message" ++ [chr '"', chr ':', chr '"'])) := rfl
  have h2 : bytes "\",\"code\":\"" =
    chr '"' :: chr ',' :: chr '"' :: (bytes "code" ++ [chr '"', chr ':', chr '"']) := rfl
  have h3 : bytes "\",\"timestamp\":\"" =
    chr '"' :: chr ',' :: chr '"' :: (bytes "timestamp" ++ [chr '"', chr ':', chr '"']) := rfl
  have h4 : bytes "\"\x7d]\x7d" = [chr '"', chr '}', chr ']', chr '}'] := rfl
  unfold errBody errObject
  rw [h1, h2, h3, h4]
  simp only [List.append_assoc, List.cons_append, List.nil_append]

/-- The value of the object. -/
def errorValue : Value :=
  .object [(bytes "message", .string msg.1), (bytes "code", .string (agooErrStr lib code.toInt)),
    (bytes "timestamp", .string (timestamp junk clock))]

theorem errObject_reads (h : ∀ x ∈ msg.1, Unescaped x) (rest : Bytes) :
    ValueReads (errObject lib junk clock code msg rest) (errorValue lib junk clock code msg) rest := by
  have hstring {s : Bytes} (t : Bytes) (hs : ∀ x ∈ s, PlainAscii x) : StringReads (s ++ chr '"' :: t) s t :=
    stringReads_plain (fun x hx => (hs x hx).1) t
  refine .object ?_
  refine .more rfl (hstring _ (by decide)) rfl (.string (stringReads_plain h _)) rfl ?_
  refine .more rfl (hstring _ (by decide)) rfl (.string (hstring _ (errStr_parts lib _).2)) rfl ?_
  exact .last rfl (hstring _ (by decide)) rfl (.string (hstring _ (timestamp_parts junk clock).2)) rfl

theorem errBody_isJson (hplain : ∀ x ∈ msg.1, Unescaped x) (hutf8 : IsUtf8 msg.1) :
    IsJson (errBody lib junk clock code msg)
      (.object [(bytes "errors", .array [errorValue lib junk clock code msg])]) := by
  have hascii {s : Bytes} (hs : ∀ x ∈ s, PlainAscii x) : IsUtf8 s := isUtf8_ascii fun x hx => (hs x hx).2
  constructor
  · unfold errBody
    refine .append (.append (.append (.append (.append (.append ?_ hutf8) ?_) ?_) ?_) ?_) ?_
    · exact isUtf8_ascii (by decide)
    · exact isUtf8_ascii (by decide)
    · exact hascii (errStr_parts lib _).2
    · exact isUtf8_ascii (by decide)
    · exact hascii (timestamp_parts junk clock).2
    · exact isUtf8_ascii (by decide)
  · have hread : ElementsRead (errObject lib junk clock code msg [chr ']', chr '}'])
        [errorValue lib junk clock code msg] [chr '}'] :=
      .last (errObject_reads lib junk clock code msg hplain _) rfl
    rw [errBody_eq]
    exact ⟨[], .object (.last rfl (stringReads_plain (by decide) _) rfl (.array hread) rfl), rfl⟩

/-- The message that comes out of the body is read from behind its first quote on. -/
theorem message_of_body {v : Value} {s : Bytes} (h : IsJson (errBody lib junk clock code msg) v)
    (hmsg : firstMessage v = some s) :
    ∃ rest r, StringReads (msg.1 ++ chr '"' :: chr ',' :: chr '"' :: rest) s r := by
  obtain ⟨-, r, hread, -⟩ := h
  rw [errBody_eq] at hread
  obtain ⟨x, ms, r₁, rfl, hx⟩ := hread.object_first (by decide)
  obtain ⟨e, vs, r₂, rfl, he⟩ := hx.array_first (c := chr '{') rfl (by decide)
  obtain ⟨y, ms', r₃, rfl, hy⟩ := he.object_first (by decide)
  obtain ⟨d, rfl, hd⟩ := hy.string_inv
  have hsd : s = d := by
    unfold firstMessage at hmsg
    cases houter : (Value.object ((bytes "errors",
        .array (.object ((bytes "message", .string d) :: ms') :: vs)) :: ms)).member (bytes "errors") with
    | none =>
      rw [houter] at hmsg
      cases hmsg
    | some a =>
      rw [houter, Value.member_first houter] at hmsg
      dsimp only at hmsg
      cases hinner : (Value.object ((bytes "message", .string d) :: ms')).member (bytes "message") with
      | none =>
        rw [hinner] at hmsg
        cases hmsg
      | some b =>
        rw [hinner, Value.member_first hinner] at hmsg
        exact (Option.some.inj hmsg).symm
  rw [hsd]
  exact ⟨_, _, hd⟩

theorem utf8_of_body (h : IsUtf8 (errBody lib junk clock code msg)) : IsUtf8 msg.1 := by
  have h1 : bytes "\x7b\"errors\":[\x7b\"message\":\"" =
    bytes "\x7b\"errors\":[\x7b\"message\":" ++ [chr '"'] := rfl
  have h2 : bytes "\",\"code\":\"" = chr '"' :: bytes ",\"code\":\"" := rfl
  unfold errBody at h
  rw [h1, h2] at h
  simp only [List.append_assoc, List.cons_append, List.nil_append] at h
  exact ((h.split (by decide)).2.split (by decide)).1

theorem afterBlank_errResp (stack : Bytes) : afterBlank (errResp lib junk clock status code msg stack) =
    some (errBody lib junk clock code msg) := by
  rw [errResp_whole]
  exact afterBlank_errText lib junk clock status code msg

theorem plain_of_answered {stack : Bytes} (h : Answered lib junk clock status code msg stack) :
    (∀ x ∈ msg.1, Unescaped x) ∧ IsUtf8 msg.1 := by
  obtain ⟨body, v, hafter, hjson, hmsg⟩ := h.message
  rw [afterBlank_errResp] at hafter
  obtain rfl := Option.some.inj hafter
  obtain ⟨rest, r, hread⟩ := message_of_body lib junk clock code msg hjson hmsg
  exact ⟨hread.plain_of_self, utf8_of_body lib junk clock code msg hjson.1⟩

/-- Every response to a request that fails is whole and has its length in the header, and it is well formed if
and only if the message is UTF-8 with no byte that JSON has to escape. -/
theorem err_resp_iff (stack : Bytes) :
    errResp lib junk clock status code msg stack = errText lib junk clock status code msg ∧
      LengthRight (errResp lib junk clock status code msg stack) ∧
      (Answered lib junk clock status code msg stack ↔ (∀ x ∈ msg.1, Unescaped x) ∧ IsUtf8 msg.1) := by
  have hwhole := errResp_whole lib junk clock status code msg stack
  have hlength := lengthRight lib junk clock status code msg stack
  refine ⟨hwhole, hlength, plain_of_answered lib junk clock status code msg, fun ⟨hplain, hutf8⟩ => ?_⟩
  have hjson := errBody_isJson lib junk clock code msg hplain hutf8
  exact ⟨hwhole, hlength, _, _, afterBlank_errResp lib junk clock status code msg stack, hjson, rfl⟩

/-- A C library for `ERANGE`. -/
def rangeText : Libc where
  strerror _ := bytes "Numerical result out of range"
  short _ := of_decide_eq_true rfl
  plain _ := of_decide_eq_true rfl

/-- A string that is no number, in the message about it. -/
def quoteMessage : Message := ⟨bytes "Can not coerce a '\"' into an Int value.", of_decide_eq_true rfl⟩

theorem quote_not_escaped : ¬ Answered rangeText ⟨0, 0, 0, 1, 1, 1970⟩
    ⟨0, Int.le_refl 0, Int.natCast_nonneg 0x7FFFFFFFFFFFFFFF⟩ 500 34 quoteMessage [] := by
  intro h
  have hplain := (plain_of_answered rangeText _ _ _ _ quoteMessage h).1 (chr '"') (by decide)
  exact hplain.1 rfl

end ErrResp

end Agoo
