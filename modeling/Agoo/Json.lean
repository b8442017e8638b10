import Agoo.Doc
import Agoo.Gql
import Mathlib.Data.Nat.Log

/-!
# The JSON reader (`gqljson.c`)

Readers of JSON text move a cursor over the text and its NUL; the memory behind the NUL reads as
zero, for the reader does look there when a string is not ended. A reader stops with a value, an
error, or for want of fuel.
-/

namespace Agoo

variable {τ α : Type}

abbrev JsonReader := StateT ℕ (ExceptT Err Option)

namespace Json

/-- Out of fuel. -/
def spent : JsonReader α := fun _ => (none : Option (Except Err (α × ℕ)))

section

variable (text : Bytes)

/-- `*doc->cur`. -/
def peek : JsonReader Byte := do return at0 text (← get)

/-- `doc->cur += n`. -/
def forward (n : ℕ) : JsonReader Unit := modify (· + n)

/-- `agoo_doc_err`. -/
def jsonErr (msg : Bytes) : JsonReader α := do throw (errAt text (← get) msg)

def require (c : Prop) [Decidable c] (msg : Bytes) : JsonReader Unit :=
  if c then pure () else jsonErr text msg

/-- The bytes at the cursor that `p` holds for, and past them. -/
def span (p : Byte → Bool) : JsonReader Bytes := do
  let run := (text.drop (← get)).takeWhile p
  forward run.length
  return run

end

/-- `w` in `json_map`: the comma is not white. -/
def isJwhite (b : Byte) : Bool :=
  b == chr '\t' || b == chr '\n' || b == chr '\r' || b == chr ' '

/-- `agoo_doc_skip_jwhite`. -/
def skipJwhite (text : Bytes) : JsonReader Unit := do
  let _ ← span text isJwhite

/-- What `gql_string_create` copies of `len` bytes: to the first NUL, and to it when the length is not
positive. -/
def stringCreate (s : Bytes) (len : ℕ) : Bytes :=
  if len = 0 then cstr s else cstr (s.take len)

/-! ## Numbers -/

/-- `BIGGISH`. -/
def biggish : ℤ := 922337203685477580

def i64Max : ℤ := 0x7FFFFFFFFFFFFFFF

/-- Arithmetic of `int64_t` wraps. -/
def wrap64 (z : ℤ) : ℤ := Int.bmod z 0x10000000000000000

structure NumState where
  zeroCnt : ℕ
  i : ℤ
  num : ℤ
  div : ℤ
  decCnt : ℕ
  big : Bool

def numInit : NumState := ⟨0, 0, 0, 1, 0, false⟩

/-- `zero_cnt`. -/
def countZero (s : NumState) (d : ℕ) : NumState :=
  { s with zeroCnt := if d = 0 then s.zeroCnt + 1 else 0 }

/-- A digit before the point. -/
def wholeDigit (s : NumState) (c : Byte) : NumState :=
  let d := (c - chr '0').toNat
  let s := { s with decCnt := s.decCnt + 1 }
  if s.big then s
  else
    let s := countZero s d
    if biggish ≤ s.i ∧ wrap64 (i64Max - wrap64 (s.i * 10)) < d then { s with big := true }
    else { s with i := wrap64 (s.i * 10 + d) }

/-- A digit after the point; `DEC_MAX` is 14 and `DIV_MAX` has 18 digits. -/
def fracDigit (s : NumState) (c : Byte) : NumState :=
  let d := (c - chr '0').toNat
  let s := countZero s d
  let s := { s with decCnt := s.decCnt + 1 }
  if (biggish < s.num ∧ (i64Max - d) / 10 ≤ s.num) ∨ 100000000000000000 ≤ s.div ∨
      14 + s.zeroCnt < s.decCnt then
    { s with big := true }
  else { s with num := s.num * 10 + d, div := s.div * 10 }

/-- A digit of the exponent; `EXP_MAX` is 1023. -/
def expDigit (s : ℤ × Bool) (c : Byte) : ℤ × Bool :=
  let exp := wrap64 (s.1 * 10 + (c - chr '0').toNat)
  (exp, s.2 || 1023 ≤ exp)

section

variable (text : Bytes)

/-- A sign: whether it is a minus. -/
def readSign : JsonReader Bool := do
  let c ← peek text
  if c = chr '-' then forward 1
  else if c = chr '+' then forward 1
  return c = chr '-'

/-- The digits behind the point, if there is one. -/
def readFrac (s : NumState) : JsonReader NumState := do
  if (← peek text) = chr '.' then
    forward 1
    return (← span text isDigit).foldl fracDigit s
  else return s

/-- The exponent, if there is one, and whether it is too big. -/
def readExp : JsonReader (ℤ × Bool) := do
  let c ← peek text
  if c = chr 'e' ∨ c = chr 'E' then
    forward 1
    let eneg ← readSign text
    let (exp, big) := (← span text isDigit).foldl expDigit (0, false)
    return (if eneg then -exp else exp, big)
  else return (0, false)

/-- The value of a number that is not too big. -/
def numValue (neg : Bool) (s : NumState) (exp : ℤ) : GqlValue τ :=
  if s.div = 1 ∧ exp = 0 then
    let si := if neg then -s.i else s.i
    if 0x7FFFFFFF < s.i then .i64 si else .int si
  else
    .float ⟨neg, .ofNat s.i.toNat, .ofNat s.num.toNat, .ofNat s.div.toNat,
      exp - Nat.log 10 s.div.toNat⟩

/-- `parse_num`: a number too big is a string. -/
def parseNum : JsonReader (GqlValue τ) := do
  let start ← get
  let neg ← readSign text
  let s ← readFrac text ((← span text isDigit).foldl wholeDigit numInit)
  let (exp, expBig) ← readExp text
  if s.big || expBig then
    return .string (stringCreate (text.drop start) ((← get) - start))
  else return numValue neg s exp

/-! ## Strings -/

/-- The value of a hexadecimal digit. -/
def hexDigit (c : Byte) : Option ℕ :=
  if isDigit c then some (c - chr '0').toNat
  else if chr 'A' ≤ c ∧ c ≤ chr 'F' then some ((c - chr 'A').toNat + 10)
  else if chr 'a' ≤ c ∧ c ≤ chr 'f' then some ((c - chr 'a').toNat + 10)
  else none

theorem toNat_sub_le {low high c : Byte} (hl : low ≤ c) (hh : c ≤ high) :
    (c - low).toNat ≤ high.toNat - low.toNat := by
  rw [UInt8.toNat_sub_of_le _ _ hl]
  exact Nat.sub_le_sub_right (UInt8.le_iff_toNat_le.mp hh) _

theorem hexDigit_lt {c : Byte} {d : ℕ} (h : hexDigit c = some d) : d < 16 := by
  unfold hexDigit isDigit at h
  by_cases h1 : (chr '0' ≤ c && c ≤ chr '9') = true
  · obtain rfl := Option.some.inj ((if_pos h1).symm.trans h)
    obtain ⟨hl, hh⟩ := Bool.and_eq_true_iff.mp h1
    exact Nat.lt_of_le_of_lt (toNat_sub_le (of_decide_eq_true hl) (of_decide_eq_true hh)) (by decide)
  · rw [if_neg h1] at h
    by_cases h2 : chr 'A' ≤ c ∧ c ≤ chr 'F'
    · obtain rfl := Option.some.inj ((if_pos h2).symm.trans h)
      exact Nat.lt_of_le_of_lt (Nat.add_le_add_right (toNat_sub_le h2.1 h2.2) 10) (by decide)
    · rw [if_neg h2] at h
      by_cases h3 : chr 'a' ≤ c ∧ c ≤ chr 'f'
      · obtain rfl := Option.some.inj ((if_pos h3).symm.trans h)
        exact Nat.lt_of_le_of_lt (Nat.add_le_add_right (toNat_sub_le h3.1 h3.2) 10) (by decide)
      · rw [if_neg h3] at h
        cases h

/-- The loop of `read_hex`. -/
def hexLoop : ℕ → ℕ → JsonReader ℕ
  | 0, hex => pure hex
  | k + 1, hex => do
    match hexDigit (← peek text) with
    | some d =>
      forward 1
      hexLoop k (hex * 16 + d)
    | none => jsonErr text (bytes "invalid unicode character")

/-- `read_hex`. -/
def readHex : JsonReader ℕ := do
  require text ((← get) + 4 ≤ text.length) (bytes "invalid escaped character")
  hexLoop text 4 0

/-- A byte of an encoded character: its mark and six bits or fewer of the code. -/
def codeByte (mark code : ℕ) : Byte := .ofNat (mark ||| code)

/-- `unicode_to_chars`. -/
def unicodeToChars (code : ℕ) : JsonReader Bytes :=
  let tail := fun shift => codeByte 0x80 (code >>> shift &&& 0x3F)
  if code ≤ 0x7F then return [.ofNat code]
  else if code ≤ 0x7FF then return [codeByte 0xC0 (code >>> 6), tail 0]
  else if code ≤ 0xFFFF then return [codeByte 0xE0 (code >>> 12), tail 6, tail 0]
  else if code ≤ 0x1FFFFF then return [codeByte 0xF0 (code >>> 18), tail 12, tail 6, tail 0]
  else if code ≤ 0x3FFFFFF then
    return [codeByte 0xF8 (code >>> 24), tail 18, tail 12, tail 6, tail 0]
  else if code ≤ 0x7FFFFFFF then
    return [codeByte 0xFC (code >>> 30), tail 24, tail 18, tail 12, tail 6, tail 0]
  else jsonErr text (bytes "invalid unicode character")

/-- The second half of a surrogate pair, behind the first: the code of both. -/
def lowSurrogate (code : ℕ) : JsonReader ℕ := do
  let cur ← get
  require text (at0 text cur = chr '\\' ∧ at0 text (cur + 1) = chr 'u')
    (bytes "invalid unicode character")
  forward 2
  let c2 ← readHex text
  let c1 := (code - 0xD800) &&& 0x3FF
  let c2 := (c2 + 0x100000000 - 0xDC00) &&& 0x3FF
  return (c1 <<< 10 ||| c2) + 0x10000

/-- `\u` and what follows it, with the cursor on the `u`. -/
def readUnicode : JsonReader Bytes := do
  forward 1
  let code ← readHex text
  if 0xD800 ≤ code ∧ code ≤ 0xDFFF then unicodeToChars text (← lowSurrogate text code)
  else unicodeToChars text code

/-- What stands for one byte behind a backslash. -/
def plainEscape (c : Byte) : Option Byte :=
  if c = chr 'n' then some 10
  else if c = chr 'r' then some 13
  else if c = chr 't' then some 9
  else if c = chr 'f' then some 12
  else if c = chr 'b' then some 8
  else if c = chr '"' ∨ c = chr '/' ∨ c = chr '\\' then some c
  else none

/-- A character of a string, escaped or not. -/
def readChar : JsonReader Bytes := do
  let c ← peek text
  forward 1
  if c = chr '\\' then
    let e ← peek text
    match plainEscape e with
    | some b =>
      forward 1
      return [b]
    | none =>
      require text (e = chr 'u') (bytes "invalid escaped character")
      readUnicode text
  else return [c]

/-- The loop of `parse_escaped`. -/
def escapedLoop : ℕ → Bytes → JsonReader Bytes
  | 0, _ => spent
  | fuel + 1, t => do
    if (← get) < text.length ∧ (← peek text) ≠ chr '"' then
      escapedLoop fuel (t ++ (← readChar text))
    else return t

/-- `parse_escaped`. -/
def parseEscaped (fuel : ℕ) : JsonReader (GqlValue τ) := do
  let t ← escapedLoop text fuel []
  forward 1
  return .string (cstr t)

/-- `parse_string`: from the start again when there is a backslash in it. -/
def parseString (fuel : ℕ) : JsonReader (GqlValue τ) := do
  require text ((← peek text) = chr '"') (bytes "invalid string")
  forward 1
  let start ← get
  let body ← span text (· ≠ chr '"')
  if chr '\\' ∈ body then
    set start
    parseEscaped text fuel
  else
    forward 1
    return .string (stringCreate (text.drop start) body.length)

/-! ## Objects and arrays -/

/-- A member of an object. -/
def parseMember (read : JsonReader (GqlValue τ)) : JsonReader (Bytes × GqlValue τ) := do
  skipJwhite text
  require text ((← peek text) = chr '"') (bytes "expected an object key as a string")
  forward 1
  let key ← span text (· ≠ chr '"')
  require text (key.length < 256) (bytes "object key too long")
  forward 1
  skipJwhite text
  require text ((← peek text) = chr ':') (bytes "expected a colon")
  forward 1
  skipJwhite text
  return (cstr key, ← read)

/-- Members up to the closing byte, with commas between them: `for (; doc->cur < doc->end;
doc->cur++)`. -/
def members (close : Byte) (member : JsonReader α) : ℕ → List α → JsonReader (List α)
  | 0, _ => spent
  | fuel + 1, ms => do
    if (← get) < text.length then
      let m ← member
      skipJwhite text
      let c ← peek text
      if c = close then return ms ++ [m]
      else
        require text (c = chr ',') (bytes "expected a comma")
        forward 1
        members close member fuel (ms ++ [m])
    else return ms

/-- What `parse_object` and `parse_array` have in common. -/
def enclosed (close : Byte) (member : JsonReader α) (fuel : ℕ) (msg : Bytes) :
    JsonReader (List α) := do
  forward 1
  skipJwhite text
  let ms ← if (← peek text) = close then pure [] else members text close member fuel []
  require text ((← peek text) = close) msg
  forward 1
  return ms

/-- `parse_object`. -/
def parseObject (read : JsonReader (GqlValue τ)) (fuel : ℕ) : JsonReader (GqlValue τ) := do
  let ms ← enclosed text (chr '}') (parseMember text read) fuel (bytes "object not terminated")
  return .object ms

/-- `parse_array`. -/
def parseArray (read : JsonReader (GqlValue τ)) (fuel : ℕ) : JsonReader (GqlValue τ) := do
  let ms ← enclosed text (chr ']') read fuel (bytes "array not terminated")
  return .list none ms

/-- A word that must follow. -/
def word (lit : Bytes) (value : GqlValue τ) : JsonReader (GqlValue τ) := do
  require text (lit <+: text.drop (← get)) (bytes "invalid token")
  forward lit.length
  return value

/-- `parse_value`. -/
def parseValue : ℕ → JsonReader (GqlValue τ)
  | 0 => spent
  | fuel + 1 => do
    skipJwhite text
    let c ← peek text
    if c = chr '\x7b' then parseObject text (parseValue fuel) fuel
    else if c = chr '[' then parseArray text (parseValue fuel) fuel
    else if c = chr '"' then parseString text (fuel + 1)
    else if c = chr '+' ∨ c = chr '-' ∨ isDigit c then parseNum text
    else if c = chr 't' then word text (bytes "true") (.bool true)
    else if c = chr 'f' then word text (bytes "false") (.bool false)
    else if c = chr 'n' then word text (bytes "null") .null
    else if c = 0 then jsonErr text (bytes "embedded null character")
    else jsonErr text (bytes "invalid token character")

/-- `agoo_doc_init` puts the cursor after the byte order mark, if any. -/
def jsonStart : ℕ := if [0xEF, 0xBB, 0xBF] <+: text then 3 else 0

/-- `gql_json_parse`. -/
def gqlJsonParse : ExceptT Err Option (GqlValue τ) :=
  (parseValue text (text.length + 1)).run' (jsonStart text)

end

end Json

end Agoo
