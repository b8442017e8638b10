import Agoo.Doc
import Agoo.Gql

/-!
# GraphQL values in documents (`agoo_doc_read_value`)
-/

namespace Agoo

open Agoo.Parser

variable {text : Bytes} {σ τ δ φ α β : Type}

/-! ## Numbers -/

/-- A loop over digits: `f` takes a digit and tells whether to stop with an error, before the cursor
moves past it. -/
def digitLoop (f : β → UInt64 → β × Bool) : β → Bytes → (β × Bool) × ℕ
  | b, [] => ((b, false), 0)
  | b, c :: rest =>
    if isDigit c then
      let r := f b (c - chr '0').toUInt64
      if r.2 then (r, 0)
      else
        let q := digitLoop f r.1 rest
        (q.1, q.2 + 1)
    else ((b, false), 0)

theorem digitLoop_le (f : β → UInt64 → β × Bool) (b : β) (rest : Bytes) :
    (digitLoop f b rest).2 ≤ rest.length := by
  induction rest generalizing b with
  | nil => exact Nat.le_refl 0
  | cons c rest ih =>
    have := ih (f b (c - chr '0').toUInt64).1
    rw [digitLoop]
    dsimp only
    split_ifs
    · exact Nat.zero_le _
    · rw [List.length_cons]
      omega
    · exact Nat.zero_le _

def digits (f : β → UInt64 → β × Bool) (b : β) (msg : Bytes) : Parser text σ β := do
  let r ← advance (digitLoop f b) (digitLoop_le f b)
  if r.2 then docErr msg else pure r.1

/-- `INT64_MAX`. -/
def int64Max : UInt64 := 0x7FFFFFFFFFFFFFFF

/-- `DEC_MAX`. -/
def decMax : ℕ := 16

/-- `EXP_MAX`. -/
def expMax : ℕ := 100000

/-- The digits before the point: the number and how many follow a non-zero one. -/
def intDigit (s : UInt64 × ℕ) (d : UInt64) : (UInt64 × ℕ) × Bool :=
  let dec := if 0 < s.1 then s.2 + 1 else s.2
  let i := s.1 * 10 + d
  ((i, dec), int64Max ≤ i)

/-- The digits after the point: `num`, `div`, `di` and `dec_cnt`. -/
def fracDigit (i : UInt64) (s : UInt64 × UInt64 × ℕ × ℕ) (d : UInt64) :
    (UInt64 × UInt64 × ℕ × ℕ) × Bool :=
  let dec := if 0 < s.1 ∨ 0 < i then s.2.2.2 + 1 else s.2.2.2
  let div := s.2.1 * 10
  ((s.1 * 10 + d, div, s.2.2.1 + 1, dec), int64Max ≤ div || decMax < dec)

def expDigit (e : ℕ) (d : UInt64) : ℕ × Bool :=
  let e := e * 10 + d.toNat
  (e, expMax ≤ e)

/-- A sign: whether it is a minus. -/
def readSign : Parser text σ Bool := do
  if ← accept (bytes "-") then return true
  let _ ← accept (bytes "+")
  return false

def acceptE : Parser text σ Bool := do
  if ← accept (bytes "e") then return true
  accept (bytes "E")

/-- The exponent, if there is one. -/
def readExp : Parser text σ (Option ℤ) := do
  if ← acceptE then
    let eneg ← readSign
    let exp ← digits expDigit 0 (bytes "number has too many digits")
    return some (if eneg then -exp else exp)
  return none

/-- `gql_int_create` or `gql_i64_create`, by size. -/
def intValue (neg : Bool) (i : UInt64) : GqlValue τ :=
  let v : ℤ := if neg then -i.toNat else i.toNat
  if 0x7FFFFFFF < i then .i64 v else .int v

/-- What follows the whole part of a number. -/
def readFraction (neg : Bool) (i : UInt64) (dec : ℕ) : Parser text σ (GqlValue τ) := do
  if ← accept (bytes ".") then
    let (num, div, di, _) ← digits (fracDigit i) (0, 1, 0, dec) (bytes "number has too many digits")
    let exp ← readExp
    if exp.isSome || 0 < num then return .float ⟨neg, i, num, div, exp.getD 0 - di⟩
  return intValue neg i

/-- A number after its sign. -/
def readUnsigned (neg : Bool) : Parser text σ (GqlValue τ) := do
  let (i, dec) ← digits intDigit (0, 0) (bytes "number is too large")
  readFraction neg i dec

/-- `read_number`. -/
def readNumber : Parser text σ (GqlValue τ) := do readUnsigned (← readSign)

/-! ## Strings -/

/-- The start and the end of the string value whose first quote is at `p`, with the cursor behind it:
past two more quotes, and back over three, when the byte after the first is a quote. -/
def stringBounds (text : Bytes) (p cur : ℕ) : ℕ × ℕ :=
  if at0 text (p + 1) = chr '"' then (p + 3, cur - 3) else (p + 1, cur - 1)

/-- `gql_string_create` on these bounds copies to the NUL when there is nothing between them; none
when the start is past the NUL. -/
def stringValue (text : Bytes) (p cur : ℕ) : Option Bytes :=
  let b := stringBounds text p cur
  if b.1 < b.2 then some ((text.take b.2).drop b.1)
  else if text.length < b.1 then none
  else some (cstr (text.drop b.1))

/-- For the empty string `""` the start is one past the second quote. -/
theorem stringValue_none_iff {p cur : ℕ} (hq : at0 text p = chr '"') (hcur : cur ≤ text.length) :
    stringValue text p cur = none ↔ text.drop (p + 1) = bytes "\"" := by
  have hlt : ∀ q, at0 text q = chr '"' → q < text.length := fun q hq =>
    lt_of_at0 (by rw [hq]; decide)
  have hp := hlt p hq
  by_cases hq' : at0 text (p + 1) = chr '"'
  · have hp' := hlt (p + 1) hq'
    have hget : text[p + 1] = chr '"' := by simpa [at0, hp'] using hq'
    have hone : text.drop (p + 1) = bytes "\"" ↔ text.length ≤ p + 2 := by
      rw [List.drop_eq_getElem_cons hp', hget, show bytes "\"" = [chr '"'] from rfl,
        List.cons.injEq, List.drop_eq_nil_iff]
      simp
    rw [hone]
    unfold stringValue stringBounds
    rw [if_pos hq']
    dsimp only
    split_ifs
    · simp
      omega
    · simp
      omega
    · simp
      omega
  · have hone : text.drop (p + 1) ≠ bytes "\"" := fun h => hq' (drop_succ_of_drop h).1
    unfold stringValue stringBounds
    rw [if_neg hq']
    dsimp only
    split_ifs
    · simp [hone]
    · omega
    · simp [hone]

/-- `gql_string_create` on the string value whose quote is at `p`, after it was read. -/
def copyString (p : ℕ) (quote : at0 text p = chr '"') (s : DocState text σ) :
    List (DocEvent text) × Option (Pos text) :=
  ([.string p quote], (stringValue text p s.cur).map fun _ => ⟨s.cur, s.le⟩)

theorem copyString_none_iff {p : ℕ} (quote : at0 text p = chr '"') (s : DocState text σ) :
    (copyString p quote s).2 = none ↔ ∃ e ∈ (copyString p quote s).1, ¬ e.Fits := by
  rw [copyString, Option.map_eq_none_iff, stringValue_none_iff quote s.le]
  simp [DocEvent.Fits]

def createString (p : ℕ) (quote : at0 text p = chr '"') : Parser text σ (GqlValue τ) := do
  Scanner.sweep (copyString p quote) (copyString_none_iff quote)
  return .string ((stringValue text p (← Scanner.pos)).getD [])

/-! ## Values -/

/-- `gql_token_create`: the type is kept when it is an enum. -/
def createToken (reg : Registry σ τ δ φ) (type : Option τ) (start : Pos text) :
    Parser text σ (GqlValue τ) := do
  let s := created text start ((← Scanner.pos).1 - start.1)
  askReg fun σ => .token s (type.filter fun t => reg.kind σ t = .enum)

/-- A word: `lit` has a value of its own, any other is a token. -/
def readWord (reg : Registry σ τ δ φ) (type : Option τ) (lit : Bytes) (value : GqlValue τ) :
    Parser text σ (GqlValue τ) := do
  let start ← Scanner.pos
  readToken
  if (← since start) = lit then return value
  createToken reg type start

/-- A loop that reads members up to a closing byte. -/
def membersTo (close : Bytes) (body : β → Parser text σ β) (fuel : ℕ) (b : β) : Parser text σ β :=
  Scanner.whileLt (fun b => do
    let _ ← skipWhite
    if ← accept close then return (true, b)
    return (false, ← body b)) fuel b

/-- The type of the members of a list read for a type. -/
def itemType (reg : Registry σ τ δ φ) : Option τ → Parser text σ (Option τ)
  | none => pure none
  | some t => do
    let kind ← askReg fun σ => reg.kind σ t
    require (kind = .list) (bytes "Not a list type")
    askReg fun σ => some (reg.base σ t)

theorem item_fits (p : ℕ) : (DocEvent.item p : DocEvent text).Fits := trivial

/-- Log that a member of a list is read. -/
def noteItem : Parser text σ Unit :=
  Scanner.note (fun s => .item s.cur) fun s => item_fits s.cur

/-- One more member of a list. -/
def listMember (read : Parser text σ (GqlValue τ)) (members : List (GqlValue τ)) :
    Parser text σ (List (GqlValue τ)) := do
  noteItem
  return members ++ [← read]

/-- The name of a member of an object, through its colon. -/
def readKey : Parser text σ Bytes := do
  let start ← Scanner.pos
  readToken
  let key ← since start
  require (key ≠ []) (bytes "Expected a member name.")
  require (key.length < 256) (bytes "Member name too long.")
  readToken
  let colon ← accept (bytes ":")
  require colon (bytes "Expected a ':' after member name.")
  return key

/-- One more member of an object. -/
def objectMember (read : Parser text σ (GqlValue τ)) (members : List (Bytes × GqlValue τ)) :
    Parser text σ (List (Bytes × GqlValue τ)) := do
  let key ← readKey
  return members ++ [(key, ← read)]

/-- The switch of `agoo_doc_read_value` on the byte at `start`, where the cursor is; `read` reads the
members. -/
def valueAt (reg : Registry σ τ δ φ) (read : Option τ → Parser text σ (GqlValue τ)) (fuel : ℕ)
    (type : Option τ) (start : Pos text) : Parser text σ (GqlValue τ) :=
  let c := at0 text start
  if c = chr '$' then do
    let _ ← accept (bytes "$")
    let start ← Scanner.pos
    readToken
    return .var (created text start ((← Scanner.pos).1 - start.1))
  else if quote : c = chr '"' then do
    readString
    createString start quote
  else if c = chr '-' ∨ c = chr '+' ∨ isDigit c then readNumber
  else if c = chr 'n' then readWord reg type (bytes "null") .null
  else if c = chr 't' then readWord reg type (bytes "true") (.bool true)
  else if c = chr 'f' then readWord reg type (bytes "false") (.bool false)
  else if c = chr '[' then do
    let item ← itemType reg type
    let _ ← accept (bytes "[")
    let members ← membersTo (bytes "]") (listMember (read item)) fuel []
    return .list item members
  else if c = chr '{' then do
    let _ ← accept (bytes "\x7b")
    let members ← membersTo (bytes "\x7d") (objectMember (read type)) fuel []
    return .object members
  else do
    -- an enum value, or nothing at all
    readToken
    createToken reg type start

/-- `agoo_doc_read_value`. -/
def readValue (reg : Registry σ τ δ φ) : ℕ → Option τ → Parser text σ (GqlValue τ)
  | 0, _ => Scanner.spent
  | fuel + 1, type => do
    let _ ← skipWhite
    let start ← Scanner.pos
    valueAt reg (readValue reg fuel) fuel type start

end Agoo
