import Agoo.LittleEndian
import Agoo.TimeParse

/-!
# Value conversion (`gql_value_convert`)

A value is a type and the 16 bytes of a union: a number, or a flag and 15 characters, or a flag and the
address of a buffer. `gqlValueConvert` is the code with the writes in its order; what it hands to `free`
is recorded. `failed_kept_iff`: when it leaves a value as it was if it fails.
-/

namespace Agoo

open SecTime (AgooTime agooSectime timeParse)

namespace Convert

/-! ## Types and values -/

/-- `gqlScalarKind`; a type that is no scalar has none. -/
inductive ScalarKind
  | null
  | bool
  | int
  | i64
  | float
  | string
  | token
  | var
  | time
  | uuid
  | id
  | list
  | object
  deriving DecidableEq

/-- The type of a value: one of those in `gqlvalue.c`, one for each kind, or an enum. -/
inductive ValueType
  | core (k : ScalarKind)
  | enum (name : Bytes)
  deriving DecidableEq

/-- A type to convert to: the type of a value, a scalar of the schema, a non-null type, or another. -/
inductive TargetType
  | value (t : ValueType)
  | scalar (name : Bytes)
  | other (name : Bytes)
  | nonNull (base : TargetType)
  deriving DecidableEq

def ValueType.scalarKind : ValueType → Option ScalarKind
  | core k => some k
  | enum _ => none

theorem ValueType.eq_core {t : ValueType} {k : ScalarKind} (h : t.scalarKind = some k) : t = core k := by
  cases t with
  | core k' => exact congrArg core (Option.some.inj h)
  | enum name => cases h

/-- A scalar of the schema is made as a kind of string. -/
def TargetType.scalarKind : TargetType → Option ScalarKind
  | value t => t.scalarKind
  | scalar _ => some .string
  | other _ => none
  | nonNull _ => none

/-- `struct _gqlValue`. -/
structure Cell where
  type : ValueType
  raw : Bytes
  size : raw.length = 16

/-- A value, and the C strings at the addresses of buffers. -/
structure Memory where
  cell : Cell
  heap : ℕ → Bytes

/-- What the C library does with floating point numbers, taken as 64 bits. -/
structure FloatUnit where
  /-- `strtod`: the number, and how many bytes were read. -/
  strtod : Bytes → ℕ × ℕ
  ofInt : ℤ → ℕ
  /-- Nanoseconds divided by 10^9. -/
  ofTime : ℤ → ℕ
  /-- The `int32_t` that is the same number. -/
  toInt : ℕ → Option ℤ
  /-- The `int64_t` that is the same number. -/
  toI64 : ℕ → Option ℤ
  isZero : ℕ → Bool
  /-- `%g`. -/
  print : ℕ → Bytes

/-- What a conversion depends on besides the value. -/
structure Env where
  float : FloatUnit
  errno : ℤ
  /-- The memory behind the value. -/
  behind : Bytes
  /-- Where the next buffer is, unless memory is out. -/
  malloc : Option ℕ
  malloc_pos : ∀ p ∈ malloc, 0 < p ∧ p < 256 ^ 8
  /-- A time on the stack before it is set. -/
  junk : AgooTime

inductive ErrCode
  | parse
  | range
  | mem
  deriving DecidableEq

/-- The value and the buffers after a call, the addresses that were freed but NULL, and the error. -/
structure Outcome extends Memory where
  freed : List ℕ
  err : Option ErrCode

namespace Cell

theorem write_size (c : Cell) {off : ℕ} {bs : Bytes} (h : off + bs.length ≤ 16) :
    (patch c.raw off bs).length = 16 := by
  rw [length_patch (by rw [c.size]; exact h), c.size]

/-- Some bytes of the union are written. -/
def write (c : Cell) (off : ℕ) (bs : Bytes) : Cell :=
  if h : off + bs.length ≤ 16 then ⟨c.type, patch c.raw off bs, c.write_size h⟩ else c

def withType (c : Cell) (t : ValueType) : Cell := { c with type := t }

/-- `value_create`. -/
def create (t : ValueType) : Cell := ⟨t, List.replicate 16 0, List.length_replicate⟩

/-! ### The members of the union -/

def alloced (c : Cell) : Bool := at0 c.raw 0 != 0

def ptr (c : Cell) : ℕ := leVal (c.raw.drop 8)

def b (c : Cell) : Bool := at0 c.raw 0 != 0

def i (c : Cell) : ℤ := leInt (c.raw.take 4)

def i64 (c : Cell) : ℤ := leInt (c.raw.take 8)

def f (c : Cell) : ℕ := leVal (c.raw.take 8)

def time (c : Cell) : ℤ := leInt (c.raw.take 8)

def hi (c : Cell) : ℕ := leVal (c.raw.take 8)

def lo (c : Cell) : ℕ := leVal (c.raw.drop 8)

/-! ### The set functions -/

/-- `gql_bool_set`. -/
def setBool (c : Cell) (b : Bool) : Cell := (c.withType (.core .bool)).write 0 [if b then 1 else 0]

/-- `gql_int_set`. -/
def setInt (c : Cell) (i : ℤ) : Cell := (c.withType (.core .int)).write 0 (leBytesInt 4 i)

/-- `gql_i64_set`. -/
def setI64 (c : Cell) (i : ℤ) : Cell := (c.withType (.core .i64)).write 0 (leBytesInt 8 i)

/-- `gql_flofieldsset`. -/
def setFloat (c : Cell) (f : ℕ) : Cell := (c.withType (.core .float)).write 0 (leBytes 8 f)

/-- `gql_time_set`. -/
def setTime (c : Cell) (t : ℤ) : Cell := (c.withType (.core .time)).write 0 (leBytesInt 8 t)

/-- `gql_uuid_set`. -/
def setUuid (c : Cell) (hi lo : ℕ) : Cell :=
  ((c.withType (.core .uuid)).write 0 (leBytes 8 hi)).write 8 (leBytes 8 lo)

end Cell

/-! ## Texts -/

/-- `%0wd`. -/
def zeroPadded (w : ℕ) (z : ℤ) : Bytes :=
  let sign := if z < 0 then bytes "-" else []
  sign ++ List.replicate (w - sign.length - (decimal z.natAbs).length) (chr '0') ++ decimal z.natAbs

/-- The text of a time in `time_to_text`, without the quotes, and in `convert_to_string`. -/
def timeText (junk : AgooTime) (tt : ℤ) : Bytes :=
  let t := tt.tdiv 1000000000
  let nsecs := tt - t * 1000000000
  let nsecs := if nsecs < 0 then -nsecs else nsecs
  let fields := agooSectime t junk
  zeroPadded 4 fields.year ++ bytes "-" ++ zeroPadded 2 fields.mon ++ bytes "-" ++ zeroPadded 2 fields.day ++
    bytes "T" ++ zeroPadded 2 fields.hour ++ bytes ":" ++ zeroPadded 2 fields.min ++ bytes ":" ++
      zeroPadded 2 fields.sec ++ bytes "." ++ zeroPadded 9 nsecs ++ bytes "Z"

/-- `%0wlx`. -/
def hexPadded (w n : ℕ) : Bytes :=
  let ds := (Nat.toDigits 16 n).map chr
  List.replicate (w - ds.length) (chr '0') ++ ds

/-- The text of a UUID. -/
def uuidText (hi lo : ℕ) : Bytes :=
  hexPadded 8 (hi / 2 ^ 32) ++ bytes "-" ++ hexPadded 4 (hi / 2 ^ 16 % 2 ^ 16) ++ bytes "-" ++
    hexPadded 4 (hi % 2 ^ 16) ++ bytes "-" ++ hexPadded 4 (lo / 2 ^ 48) ++ bytes "-" ++ hexPadded 12 (lo % 2 ^ 48)

/-- A loop of `parse_uuid`: `n` digits from offset `off` on. -/
def hexRun (str : Bytes) : ℕ → ℕ → ℕ → Option ℕ
  | 0, _, v => some v
  | n + 1, off, v => do hexRun str n (off + 1) (v * 16 + (← Json.hexDigit (at0 str off)))

/-- `parse_uuid` of a C string. -/
def parseUuid (str : Bytes) : Option (ℕ × ℕ) := do
  if strlen str ≠ 36 ∨ at0 str 8 ≠ chr '-' ∨ at0 str 13 ≠ chr '-' ∨ at0 str 18 ≠ chr '-' ∨
      at0 str 23 ≠ chr '-' then none
  else
    let hi ← hexRun str 8 0 0
    let hi ← hexRun str 4 9 hi
    let hi ← hexRun str 4 14 hi
    let lo ← hexRun str 4 19 0
    let lo ← hexRun str 12 24 lo
    return (hi, lo)

/-! ## The converters -/

/-- `free`. -/
def free (p : ℕ) : List ℕ := if p = 0 then [] else [p]

def done (m : Memory) (c : Cell) : Outcome := ⟨⟨c, m.heap⟩, [], none⟩

/-- `agoo_err_set`. -/
def failed (m : Memory) (e : ErrCode) : Outcome := ⟨m, [], some e⟩

/-- The buffer of a value is freed if its flag is set. -/
def Cell.release (c : Cell) : List ℕ := if c.alloced then free c.ptr else []

section

variable (env : Env) (m : Memory)

/-- `gql_string_get` of a String, a Token or an ID. -/
def text : Bytes := cstr (if m.cell.alloced then m.heap m.cell.ptr else m.cell.raw.drop 1 ++ env.behind)

/-- `string_set`. -/
def stringSet (c : Cell) (str : Bytes) (len : ℕ) : Outcome :=
  let len := if len = 0 then strlen str else len
  if len < 15 then done m ((c.write 1 (strncpy str len)).write 0 [0])
  else
    let c := c.write 0 [1]
    match env.malloc with
    | some p => ⟨⟨c.write 8 (leBytes 8 p), Function.update m.heap p (cstr (str.take len))⟩, [], none⟩
    | none => ⟨⟨c.write 8 (leBytes 8 0), m.heap⟩, [], some .mem⟩

/-- `gql_string_set`, with the count of a `sprintf`. -/
def gqlStringSet (str : Bytes) : Outcome := stringSet env m (m.cell.withType (.core .string)) str str.length

/-- `convert_to_bool`. -/
def convertToBool : Outcome :=
  match m.cell.type.scalarKind with
  | some .int => done m (m.cell.setBool (m.cell.i ≠ 0))
  | some .i64 => done m (m.cell.setBool (m.cell.i64 ≠ 0))
  | some .float => done m (m.cell.setBool (!env.float.isZero m.cell.f))
  | some .string | some .token =>
    let s := text env m
    let c := m.cell.withType (.core .bool)
    if strcasecmp (bytes "true") s then
      let c := c.write 0 [1]
      ⟨⟨c, m.heap⟩, c.release, none⟩
    else if strcasecmp (bytes "false") s then
      let c := c.write 0 [0]
      ⟨⟨c, m.heap⟩, c.release, none⟩
    else ⟨⟨c, m.heap⟩, c.release, some .parse⟩
  | _ => failed m .parse

/-- What `strtol` and `strtoll` read of a whole text. -/
def wholeNumber (s : Bytes) : Option ℤ :=
  if at0 s (numberEnd s) ≠ 0 ∨ strtol s = 0 ∧ env.errno ≠ 0 then none else some (strtol s)

/-- `convert_to_int`. -/
def convertToInt : Outcome :=
  match m.cell.type.scalarKind with
  | some .i64 =>
    if m.cell.i64 < -0x80000000 ∨ 0x7FFFFFFF < m.cell.i64 then failed m .range
    else done m (m.cell.setInt m.cell.i64)
  | some .float =>
    match env.float.toInt m.cell.f with
    | some i => done m (m.cell.setInt i)
    | none => failed m .range
  | some .string =>
    match wholeNumber env (text env m) with
    | none => failed m .range
    | some i =>
      if i < -0x80000000 ∨ 0x7FFFFFFF < i then failed m .range
      else
        let c := m.cell.setInt i
        ⟨⟨c, m.heap⟩, c.release, none⟩
  | _ => failed m .parse

/-- `convert_to_i64`. -/
def convertToI64 : Outcome :=
  match m.cell.type.scalarKind with
  | some .int => done m (m.cell.setI64 m.cell.i)
  | some .float =>
    match env.float.toI64 m.cell.f with
    | some i => done m (m.cell.setI64 i)
    | none => failed m .range
  | some .string =>
    match wholeNumber env (text env m) with
    | none => failed m .range
    | some i =>
      let c := m.cell.setI64 i
      ⟨⟨c, m.heap⟩, c.release, none⟩
  | some .time => done m (m.cell.setI64 m.cell.time)
  | _ => failed m .parse

/-- `convert_to_float`. -/
def convertToFloat : Outcome :=
  match m.cell.type.scalarKind with
  | some .int => done m (m.cell.setFloat (env.float.ofInt m.cell.i))
  | some .i64 => done m (m.cell.setFloat (env.float.ofInt m.cell.i64))
  | some .string =>
    let s := text env m
    let (d, stop) := env.float.strtod s
    if at0 s stop ≠ 0 then failed m .range
    else
      let c := m.cell.setFloat d
      ⟨⟨c, m.heap⟩, c.release, none⟩
  | some .time => done m (m.cell.setFloat (env.float.ofTime m.cell.time))
  | _ => failed m .parse

/-- `convert_to_string`. -/
def convertToString : Outcome :=
  match m.cell.type.scalarKind with
  | some .bool => gqlStringSet env m (boolText m.cell.b)
  | some .int => gqlStringSet env m (intText m.cell.i)
  | some .i64 => gqlStringSet env m (intText m.cell.i64)
  | some .float => gqlStringSet env m (env.float.print m.cell.f)
  | some .token | some .id => done m (m.cell.withType (.core .string))
  | some .time => gqlStringSet env m (timeText env.junk m.cell.time)
  | some .uuid => gqlStringSet env m (uuidText m.cell.hi m.cell.lo)
  | _ => failed m .parse

/-- `convert_to_token`. -/
def convertToToken : Outcome :=
  match m.cell.type.scalarKind with
  | some .string | some .id => done m (m.cell.withType (.core .token))
  | _ => failed m .parse

/-- `convert_to_id`. -/
def convertToId : Outcome :=
  match m.cell.type.scalarKind with
  | some .string | some .token => done m (m.cell.withType (.core .id))
  | _ => failed m .parse

/-- `convert_to_time`. -/
def convertToTime : Outcome :=
  match m.cell.type.scalarKind with
  | some .i64 => done m (m.cell.setTime m.cell.i64)
  | some .string =>
    match timeParse (text env m) (-1) with
    | some nsecs => ⟨⟨m.cell.setTime nsecs, m.heap⟩, m.cell.release, none⟩
    | none => failed m .parse
  | _ => failed m .parse

/-- `convert_to_uuid`. -/
def convertToUuid : Outcome :=
  match m.cell.type.scalarKind with
  | some .string =>
    match parseUuid (text env m) with
    | some (hi, lo) => ⟨⟨m.cell.setUuid hi lo, m.heap⟩, m.cell.release, none⟩
    | none => failed m .parse
  | _ => failed m .parse

/-- The type behind a non-null one. -/
def TargetType.base : TargetType → TargetType
  | nonNull base => base
  | t => t

/-- `gql_value_convert`, with an `err` that holds no error. -/
def gqlValueConvert (type : TargetType) : Outcome :=
  if type.base = .value m.cell.type then done m m.cell
  else match type.base.scalarKind with
    | some .bool => convertToBool env m
    | some .int => convertToInt env m
    | some .i64 => convertToI64 env m
    | some .float => convertToFloat env m
    | some .string => convertToString env m
    | some .token => convertToToken m
    | some .id => convertToId m
    | some .time => convertToTime env m
    | some .uuid => convertToUuid env m
    | _ => done m m.cell

end

/-! ## Failing -/

/-- Nothing was changed or freed. -/
structure Kept (m : Memory) (o : Outcome) : Prop where
  memory : o.toMemory = m
  freed : o.freed = []

/-- A conversion that fails changes nothing. -/
def FailsKept (m : Memory) (o : Outcome) : Prop := o.err ≠ none → Kept m o

variable {env : Env} {m : Memory}

/-- The text that a value of another kind is printed as. -/
def printed (env : Env) (m : Memory) : Option Bytes :=
  match m.cell.type.scalarKind with
  | some .bool => some (boolText m.cell.b)
  | some .int => some (intText m.cell.i)
  | some .i64 => some (intText m.cell.i64)
  | some .float => some (env.float.print m.cell.f)
  | some .time => some (timeText env.junk m.cell.time)
  | some .uuid => some (uuidText m.cell.hi m.cell.lo)
  | _ => none

/-- A String or a Token that is no boolean. -/
def NoWord (env : Env) (m : Memory) : Prop :=
  (m.cell.type = .core .string ∨ m.cell.type = .core .token) ∧
    strcasecmp (bytes "true") (text env m) = false ∧ strcasecmp (bytes "false") (text env m) = false

/-- A text that needs a buffer when memory is out. -/
def NoRoom (env : Env) (m : Memory) : Prop := env.malloc = none ∧ ∃ p ∈ printed env m, 15 ≤ p.length

@[simp] theorem write_type (c : Cell) (off : ℕ) (bs : Bytes) : (c.write off bs).type = c.type := by
  unfold Cell.write
  split_ifs
  · rfl
  · rfl

theorem failsKept_done (c : Cell) : FailsKept m (done m c) := fun h => absurd rfl h

theorem failsKept_failed (e : ErrCode) : FailsKept m (failed m e) := fun _ => ⟨rfl, rfl⟩

theorem failsKept_none {o : Outcome} (h : o.err = none) : FailsKept m o := fun he => absurd h he

/-- A value that has another type afterwards was not kept. -/
theorem not_kept_of_type {o : Outcome} (h : o.cell.type ≠ m.cell.type) : ¬ Kept m o :=
  fun hkept => h (congrArg (fun m : Memory => m.cell.type) hkept.memory)

theorem failsKept_word (h : m.cell.type = .core .string ∨ m.cell.type = .core .token) :
    FailsKept m (convertToBool env m) ↔ ¬ NoWord env m := by
  have hconv : convertToBool env m =
      if strcasecmp (bytes "true") (text env m) then
        ⟨⟨(m.cell.withType (.core .bool)).write 0 [1], m.heap⟩,
          ((m.cell.withType (.core .bool)).write 0 [1]).release, none⟩
      else if strcasecmp (bytes "false") (text env m) then
        ⟨⟨(m.cell.withType (.core .bool)).write 0 [0], m.heap⟩,
          ((m.cell.withType (.core .bool)).write 0 [0]).release, none⟩
      else ⟨⟨m.cell.withType (.core .bool), m.heap⟩, (m.cell.withType (.core .bool)).release, some .parse⟩ := by
    unfold convertToBool
    rcases h with h | h
    all_goals rw [h]; rfl
  have htype : (ValueType.core .bool) ≠ m.cell.type := by
    rcases h with h | h
    all_goals rw [h]; decide
  unfold NoWord
  rw [hconv]
  split_ifs with htrue hfalse
  · exact iff_of_true (failsKept_none rfl) fun hno => Bool.false_ne_true (hno.2.1.symm.trans htrue)
  · exact iff_of_true (failsKept_none rfl) fun hno => Bool.false_ne_true (hno.2.2.symm.trans hfalse)
  · refine iff_of_false (fun hkept => not_kept_of_type htype (hkept nofun)) fun hno => hno ⟨h, ?_, ?_⟩
    · exact Bool.eq_false_iff.mpr htrue
    · exact Bool.eq_false_iff.mpr hfalse

theorem failsKept_bool : FailsKept m (convertToBool env m) ↔ ¬ NoWord env m := by
  by_cases h : m.cell.type = .core .string ∨ m.cell.type = .core .token
  · exact failsKept_word h
  · refine iff_of_true ?_ fun hno => h hno.1
    unfold convertToBool
    match hk : m.cell.type with
    | .enum name => exact failsKept_failed _
    | .core .string => exact absurd (.inl hk) h
    | .core .token => exact absurd (.inr hk) h
    | .core .int | .core .i64 | .core .float => exact failsKept_done _
    | .core .null | .core .bool | .core .var | .core .time | .core .uuid | .core .id | .core .list
    | .core .object => exact failsKept_failed _

theorem failsKept_int : FailsKept m (convertToInt env m) := by
  unfold convertToInt
  repeat' split
  all_goals first
    | exact failsKept_done _
    | exact failsKept_failed _
    | exact failsKept_none rfl

theorem failsKept_i64 : FailsKept m (convertToI64 env m) := by
  unfold convertToI64
  repeat' split
  all_goals first
    | exact failsKept_done _
    | exact failsKept_failed _
    | exact failsKept_none rfl

theorem failsKept_float : FailsKept m (convertToFloat env m) := by
  unfold convertToFloat
  split
  · exact failsKept_done _
  · exact failsKept_done _
  · dsimp only
    split_ifs
    · exact failsKept_failed _
    · exact failsKept_none rfl
  · exact failsKept_done _
  · exact failsKept_failed _

theorem failsKept_token : FailsKept m (convertToToken m) := by
  unfold convertToToken
  split
  · exact failsKept_done _
  · exact failsKept_done _
  · exact failsKept_failed _

theorem failsKept_id : FailsKept m (convertToId m) := by
  unfold convertToId
  split
  · exact failsKept_done _
  · exact failsKept_done _
  · exact failsKept_failed _

theorem failsKept_time : FailsKept m (convertToTime env m) := by
  unfold convertToTime
  split
  · exact failsKept_done _
  · split
    · exact failsKept_none rfl
    · exact failsKept_failed _
  · exact failsKept_failed _

theorem failsKept_uuid : FailsKept m (convertToUuid env m) := by
  unfold convertToUuid
  split
  · split
    · exact failsKept_none rfl
    · exact failsKept_failed _
  · exact failsKept_failed _

theorem gqlStringSet_len (m : Memory) (p : Bytes) : gqlStringSet env m p =
    if p.length < 15 then
      done m (((m.cell.withType (.core .string)).write 1 (strncpy p p.length)).write 0 [0])
    else
      match env.malloc with
      | some q => ⟨⟨((m.cell.withType (.core .string)).write 0 [1]).write 8 (leBytes 8 q),
          Function.update m.heap q (cstr (p.take p.length))⟩, [], none⟩
      | none =>
        ⟨⟨((m.cell.withType (.core .string)).write 0 [1]).write 8 (leBytes 8 0), m.heap⟩, [], some .mem⟩ := by
  have hlen : (if p.length = 0 then strlen p else p.length) = p.length := by
    split_ifs with h0
    · rw [List.eq_nil_of_length_eq_zero h0]
      rfl
    · rfl
  unfold gqlStringSet stringSet
  rw [hlen]

theorem failsKept_stringSet (str : Bytes) (h : m.cell.type ≠ .core .string) :
    FailsKept m (gqlStringSet env m str) ↔ ¬ (env.malloc = none ∧ 15 ≤ str.length) := by
  rw [gqlStringSet_len]
  by_cases hshort : str.length < 15
  · rw [if_pos hshort]
    exact iff_of_true (failsKept_done _) fun hno => Nat.not_lt.mpr hno.2 hshort
  · rw [if_neg hshort]
    cases hmalloc : env.malloc with
    | some p => exact iff_of_true (failsKept_none rfl) (by simp)
    | none =>
      refine iff_of_false (fun hkept => not_kept_of_type ?_ (hkept nofun)) fun hno =>
        hno ⟨rfl, Nat.not_lt.mp hshort⟩
      simp only [write_type]
      exact h.symm

theorem failsKept_string : FailsKept m (convertToString env m) ↔ ¬ NoRoom env m := by
  have hprint : ∀ {p : Bytes}, m.cell.type ≠ .core .string → printed env m = some p →
      (FailsKept m (gqlStringSet env m p) ↔ ¬ NoRoom env m) := by
    intro p htype hp
    unfold NoRoom
    rw [failsKept_stringSet p htype, hp]
    simp
  have hnone : printed env m = none → ¬ NoRoom env m := by
    rintro hp ⟨-, p, hmem, -⟩
    rw [hp] at hmem
    cases hmem
  unfold convertToString
  match hk : m.cell.type with
  | .enum name => exact iff_of_true (failsKept_failed _) (hnone (by unfold printed; rw [hk]; rfl))
  | .core .bool => exact hprint (by rw [hk]; decide) (by unfold printed; rw [hk]; rfl)
  | .core .int => exact hprint (by rw [hk]; decide) (by unfold printed; rw [hk]; rfl)
  | .core .i64 => exact hprint (by rw [hk]; decide) (by unfold printed; rw [hk]; rfl)
  | .core .float => exact hprint (by rw [hk]; decide) (by unfold printed; rw [hk]; rfl)
  | .core .time => exact hprint (by rw [hk]; decide) (by unfold printed; rw [hk]; rfl)
  | .core .uuid => exact hprint (by rw [hk]; decide) (by unfold printed; rw [hk]; rfl)
  | .core .token | .core .id =>
    exact iff_of_true (failsKept_done _) (hnone (by unfold printed; rw [hk]; rfl))
  | .core .null | .core .string | .core .var | .core .list | .core .object =>
    exact iff_of_true (failsKept_failed _) (hnone (by unfold printed; rw [hk]; rfl))

/-- **For every value and type: a conversion that fails changes nothing if and only if it is not one of a
String or a Token that is no boolean to a Boolean, nor one to a text that needs a buffer when memory is out.** -/
theorem failed_kept_iff (env : Env) (m : Memory) (type : TargetType) :
    FailsKept m (gqlValueConvert env m type) ↔
      ¬ (type.base.scalarKind = some .bool ∧ NoWord env m) ∧
        ¬ (type.base.scalarKind = some .string ∧ NoRoom env m) := by
  unfold gqlValueConvert
  by_cases hsame : type.base = .value m.cell.type
  · rw [if_pos hsame, hsame]
    refine iff_of_true (failsKept_done _) ⟨?_, ?_⟩
    · rintro ⟨hk, htype | htype, -⟩
      all_goals
        rw [ValueType.eq_core hk] at htype
        cases htype
    · rintro ⟨hk, -, p, hp, -⟩
      unfold printed at hp
      rw [ValueType.eq_core hk] at hp
      cases hp
  rw [if_neg hsame]
  match hk : type.base.scalarKind with
  | some .bool =>
    rw [failsKept_bool]
    simp
  | some .string =>
    rw [failsKept_string]
    simp
  | some .int => exact iff_of_true failsKept_int (by simp)
  | some .i64 => exact iff_of_true failsKept_i64 (by simp)
  | some .float => exact iff_of_true failsKept_float (by simp)
  | some .token => exact iff_of_true failsKept_token (by simp)
  | some .id => exact iff_of_true failsKept_id (by simp)
  | some .time => exact iff_of_true failsKept_time (by simp)
  | some .uuid => exact iff_of_true failsKept_uuid (by simp)
  | none | some .null | some .var | some .list | some .object => exact iff_of_true (failsKept_done _) (by simp)

/-- A machine whose floating point numbers are all zero and whose memory is out. -/
def bareEnv : Env where
  float := ⟨fun _ => (0, 0), fun _ => 0, fun _ => 0, fun _ => none, fun _ => none, fun _ => true,
    fun _ => bytes "0"⟩
  errno := 0
  behind := []
  malloc := none
  malloc_pos := nofun
  junk := ⟨0, 0, 0, 0, 0, 0⟩

/-- A value that was created and had bytes written at an offset, with no buffer anywhere. -/
def written (t : ValueType) (off : ℕ) (bs : Bytes) : Memory := ⟨(Cell.create t).write off bs, fun _ => []⟩

/-- A String that is no boolean is a Boolean afterwards. -/
theorem no_word_retyped :
    ¬ FailsKept (written (.core .string) 1 (bytes "abc"))
      (gqlValueConvert bareEnv (written (.core .string) 1 (bytes "abc")) (.value (.core .bool))) := by
  intro h
  exact not_kept_of_type (by decide) (h (by decide))

end Convert

end Agoo
