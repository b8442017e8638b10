import Agoo.Err
import Agoo.Scan

/-!
# Documents (`doc.c`)

The cursor of a GraphQL document and the readers that move it. The text is a byte string followed by
its NUL; `cur` lies between its ends by type, and moving or reading past the NUL is a fault. Two
events can fault: skipping a comment, and the value of a string.
-/

namespace Agoo

/-- `w` in `char_map`: tab, newline, return, space and comma. -/
def isWhite (b : Byte) : Bool :=
  b == chr '\t' || b == chr '\n' || b == chr '\r' || b == chr ' ' || b == chr ','

def isDigit (b : Byte) : Bool := chr '0' ≤ b && b ≤ chr '9'

/-- `t` in `char_map`: digits, letters and the underscore. -/
def isToken (b : Byte) : Bool :=
  isDigit b || (chr 'A' ≤ b && b ≤ chr 'Z') || b == chr '_' || (chr 'a' ≤ b && b ≤ chr 'z')

def isNewline (b : Byte) : Bool := b == chr '\r' || b == chr '\n'

/-- The calls that the log keeps, with the place of the cursor and the byte found there. -/
inductive DocEvent (text : Bytes)
  /-- `agoo_doc_skip_comment`. -/
  | comment (p : ℕ) (hash : at0 text p = chr '#')
  /-- `agoo_doc_read_value` at a quote. -/
  | string (p : ℕ) (quote : at0 text p = chr '"')
  /-- `agoo_doc_read_value` for the next member of a list. -/
  | item (p : ℕ)
  deriving DecidableEq

/-- The call stays in the document: a comment is ended by a newline, and the quote that begins a
string value is not followed by just one more quote, the last byte. -/
def DocEvent.Fits {text : Bytes} : DocEvent text → Prop
  | .comment p _ => (text.drop p).any isNewline
  | .string p _ => text.drop (p + 1) ≠ bytes "\""
  | .item _ => True

instance {text : Bytes} : DecidablePred (@DocEvent.Fits text) := fun e => by
  cases e <;> unfold DocEvent.Fits <;> infer_instance

/-- What the readers work on beside the cursor: the error and the state of the caller. -/
structure DocUser (σ : Type) where
  err : Option Err
  reg : σ

abbrev DocState (text : Bytes) (σ : Type) := ScanState text.length (DocEvent text) (DocUser σ)

abbrev Parser (text : Bytes) (σ α : Type) :=
  Scanner text.length (@DocEvent.Fits text) (DocUser σ) α

/-- A place in the document. -/
abbrev Pos (text : Bytes) := {p : ℕ // p ≤ text.length}

variable {text : Bytes} {σ α : Type}

namespace Parser

/-- `*doc->cur`. -/
def peek : Parser text σ Byte :=
  Scanner.step fun s => (at0 text s.cur, ⟨s.cur, s.le⟩, s.user)

/-- Move over the first bytes of what is left; `f` tells how many, and gives a value. -/
def advance (f : Bytes → α × ℕ) (h : ∀ rest, (f rest).2 ≤ rest.length) : Parser text σ α :=
  Scanner.step fun s =>
    ((f (text.drop s.cur)).1, ⟨s.cur + (f (text.drop s.cur)).2, by
      have := h (text.drop s.cur)
      have := s.le
      rw [List.length_drop] at *
      omega⟩, s.user)

/-- Whether the text goes on with `lit`; the comparison ends at the first byte that differs. -/
def looking (lit : Bytes) : Parser text σ Bool :=
  Scanner.step fun s => (decide (lit <+: text.drop s.cur), ⟨s.cur, s.le⟩, s.user)

/-- `looking`, and past it when it does: `if (c == *doc->cur) doc->cur++`. -/
def accept (lit : Bytes) : Parser text σ Bool :=
  advance (fun rest => if lit <+: rest then (true, lit.length) else (false, 0)) fun rest => by
    split
    · next h => exact h.length_le
    · exact Nat.zero_le _

/-- The bytes from a place to the cursor. -/
def since (start : Pos text) : Parser text σ Bytes :=
  Scanner.step fun s =>
    ((text.take s.cur).drop start, ⟨s.cur, s.le⟩, s.user)

end Parser

open Agoo.Parser

/-! ## Errors -/

/-- `agoo_doc_location`, over the bytes before the cursor. -/
def location : ℕ → Bytes → ℕ → ℕ → ℕ × ℕ
  | 0, _, line, col => (line, col)
  | _, [], line, col => (line, col)
  | k + 1, b :: rest, line, col =>
    if b = chr '\n' then location k rest (line + 1) 1
    else if b = chr '\r' then
      match rest with
      | c :: rest' =>
        if c = chr '\n' then location (k - 1) rest' (line + 1) 1
        else location k (c :: rest') (line + 1) 1
      | [] => (line + 1, 1)
    else location k rest line (col + 1)

/-- The error that `agoo_doc_err` sets: the message is cut to 247 bytes before the place is added. -/
def errAt (text : Bytes) (cur : ℕ) (msg : Bytes) : Err :=
  let lc := location cur text 1 1
  errSet .parse (msg.take 247 ++ bytes " at " ++ decimal lc.1 ++ bytes ":" ++ decimal lc.2)

/-- `agoo_doc_err`, and return its code. -/
def docErr (msg : Bytes) : Parser text σ α :=
  Scanner.abort fun s => { s.user with err := some (errAt text s.cur msg) }

/-- `agoo_doc_err` where the caller goes on. -/
def docErrGoOn (msg : Bytes) : Parser text σ Unit :=
  Scanner.step fun s => ((), ⟨s.cur, s.le⟩, { s.user with err := some (errAt text s.cur msg) })

/-- `agoo_doc_err` unless the condition holds. -/
def require (c : Prop) [Decidable c] (msg : Bytes) : Parser text σ Unit :=
  if c then pure () else docErr msg

/-- `agoo_err_set` and return its code. -/
def fail (e : Err) : Parser text σ α := Scanner.abort fun s => { s.user with err := some e }

/-- `return err->code`. -/
def errCode : Parser text σ Unit := do
  match (← Scanner.getUser).err with
  | some e => fail e
  | none => pure ()

/-- A call that reads or changes the caller's state. -/
def callReg (f : σ → Except Err α × σ) : Parser text σ α := do
  let u ← Scanner.getUser
  Scanner.setUser { u with reg := (f u.reg).2 }
  match (f u.reg).1 with
  | .ok a => pure a
  | .error e => fail e

/-- The same where the caller takes a null pointer for the answer. -/
def tryReg (f : σ → Except Err α × σ) : Parser text σ (Option α) := do
  let u ← Scanner.getUser
  match (f u.reg).1 with
  | .ok a =>
    Scanner.setUser { u with reg := (f u.reg).2 }
    return some a
  | .error e =>
    Scanner.setUser { u with reg := (f u.reg).2, err := some e }
    return none

def askReg (f : σ → α) : Parser text σ α := do return f (← Scanner.getUser).reg

def changeReg (f : σ → σ) : Parser text σ Unit := do
  let u ← Scanner.getUser
  Scanner.setUser { u with reg := f u.reg }

/-! ## White space and comments -/

/-- The loop of `agoo_doc_skip_white` with the one of `agoo_doc_skip_comment` in it, at place `p`:
where comments begin, newest first, and the place reached, or none past the end. The newline that
ends a comment is white. -/
def skipFrom : Bool → ℕ → Bytes → List ℕ × Option ℕ
  | false, p, [] => ([], some p)
  | true, _, [] => ([], none)
  | false, p, b :: rest =>
    if isWhite b then skipFrom false (p + 1) rest
    else if b = chr '#' then
      ((skipFrom true (p + 1) rest).1 ++ [p], (skipFrom true (p + 1) rest).2)
    else ([], some p)
  | true, p, b :: rest =>
    if isNewline b then skipFrom false (p + 1) rest else skipFrom true (p + 1) rest

theorem skipFrom_le {m : Bool} {p q : ℕ} {rest : Bytes} (h : (skipFrom m p rest).2 = some q) :
    p ≤ q ∧ q ≤ p + rest.length := by
  induction rest generalizing m p with
  | nil =>
    cases m with
    | false =>
      obtain rfl : p = q := by simpa [skipFrom] using h
      simp
    | true => simp [skipFrom] at h
  | cons b rest ih =>
    have hstep : ∀ m', (skipFrom m' (p + 1) rest).2 = some q → p ≤ q ∧ q ≤ p + (b :: rest).length := by
      intro m' h'
      have := ih h'
      rw [List.length_cons]
      omega
    cases m with
    | false =>
      unfold skipFrom at h
      split at h
      · exact hstep _ h
      · split at h
        · exact hstep _ h
        · obtain rfl : p = q := by simpa using h
          simp
    | true =>
      unfold skipFrom at h
      split at h
      · exact hstep _ h
      · exact hstep _ h

/-- The place behind the first byte of what is left. -/
theorem drop_succ_of_drop {p : ℕ} {b : Byte} {rest : Bytes} (h : text.drop p = b :: rest) :
    at0 text p = b ∧ text.drop (p + 1) = rest := by
  have hget : text[p]? = some b := by
    rw [← List.head?_drop, h]
    rfl
  refine ⟨by simp [at0, List.getD_eq_getElem?_getD, hget], ?_⟩
  rw [← List.drop_drop, h]
  rfl

theorem skipFrom_hash {m : Bool} {p : ℕ} {rest : Bytes} (hr : text.drop p = rest) :
    ∀ q ∈ (skipFrom m p rest).1, at0 text q = chr '#' := by
  induction rest generalizing m p with
  | nil => cases m <;> simp [skipFrom]
  | cons b rest ih =>
    obtain ⟨hb, hr'⟩ := drop_succ_of_drop hr
    intro q hq
    cases m with
    | false =>
      unfold skipFrom at hq
      split at hq
      · exact ih hr' q hq
      · split at hq
        · next hc =>
          rcases List.mem_append.mp hq with hq | hq
          · exact ih hr' q hq
          · rw [List.mem_singleton.mp hq, hb, hc]
        · cases hq
    | true =>
      unfold skipFrom at hq
      split at hq
      · exact ih hr' q hq
      · exact ih hr' q hq

/-- White space and comments lead past the end exactly when some comment has no newline after it. -/
theorem skipFrom_none_iff {m : Bool} {p : ℕ} {rest : Bytes} (hr : text.drop p = rest) :
    (skipFrom m p rest).2 = none ↔ (m = true ∧ rest.any isNewline = false) ∨
      ∃ q ∈ (skipFrom m p rest).1, (text.drop q).any isNewline = false := by
  induction rest generalizing m p with
  | nil => cases m <;> simp [skipFrom]
  | cons b rest ih =>
    obtain ⟨-, hr'⟩ := drop_succ_of_drop hr
    cases m with
    | false =>
      unfold skipFrom
      split
      · rw [ih hr']
        simp
      · split
        · next hb =>
          rw [ih hr']
          have hfit : (text.drop p).any isNewline = rest.any isNewline := by
            rw [hr, List.any_cons, hb, show isNewline (chr '#') = false from by decide,
              Bool.false_or]
          simp only [true_and, List.mem_append, List.mem_singleton]
          constructor
          · rintro (h | ⟨q, hq, hn⟩)
            · exact Or.inr ⟨p, Or.inr rfl, by rw [hfit, h]⟩
            · exact Or.inr ⟨q, Or.inl hq, hn⟩
          · rintro (h | ⟨q, hq | rfl, hn⟩)
            · exact absurd h.1 (by simp)
            · exact Or.inr ⟨q, hq, hn⟩
            · exact Or.inl (by rwa [hfit] at hn)
        · simp
    | true =>
      unfold skipFrom
      split
      · next hb =>
        rw [ih hr']
        simp [hb]
      · next hb =>
        rw [ih hr']
        simp [hb]

/-- What `agoo_doc_skip_white` does at the cursor: the comments met and the place reached. -/
def skipAt (s : DocState text σ) : List (DocEvent text) × Option (Pos text) :=
  let r := skipFrom false s.cur (text.drop s.cur)
  (r.1.pmap DocEvent.comment (skipFrom_hash rfl),
    match h : r.2 with
    | some q => some ⟨q, by
        have := skipFrom_le h
        have := s.le
        rw [List.length_drop] at *
        omega⟩
    | none => none)

theorem skipAt_some {s : DocState text σ} {q : Pos text} (h : (skipAt s).2 = some q) :
    (skipFrom false s.cur (text.drop s.cur)).2 = some q.1 := by
  unfold skipAt at h
  dsimp only at h
  split at h
  · next q' hq =>
    obtain rfl := Option.some.inj h
    exact hq
  · cases h

theorem skipAt_stay {s : DocState text σ}
    (h : skipFrom false s.cur (text.drop s.cur) = ([], some s.cur)) :
    skipAt s = ([], some ⟨s.cur, s.le⟩) := by
  refine Prod.ext (List.pmap_eq_nil_iff.mpr (by rw [h])) ?_
  cases hq : (skipAt s).2 with
  | some q =>
    have := skipAt_some hq
    rw [h] at this
    rw [Option.some.injEq]
    exact Subtype.ext (Option.some.inj this).symm
  | none =>
    unfold skipAt at hq
    dsimp only at hq
    split at hq
    · cases hq
    · next hn =>
      rw [h] at hn
      cases hn

theorem skipAt_none_iff (s : DocState text σ) :
    (skipAt s).2 = none ↔ ∃ e ∈ (skipAt s).1, ¬ e.Fits := by
  have hskip := skipFrom_none_iff (m := false) (Eq.refl (text.drop s.cur))
  have hnone : (skipAt s).2 = none ↔ (skipFrom false s.cur (text.drop s.cur)).2 = none := by
    unfold skipAt
    dsimp only
    constructor
    · intro h
      split at h
      · cases h
      · next hn => exact hn
    · intro h
      split
      · next hs =>
        rw [hs] at h
        cases h
      · rfl
  rw [hnone, hskip]
  constructor
  · rintro (h | ⟨q, hq, hn⟩)
    · exact absurd h.1 (by simp)
    · refine ⟨_, List.mem_pmap.mpr ⟨q, hq, rfl⟩, ?_⟩
      rw [DocEvent.Fits, hn]
      exact Bool.false_ne_true
  · rintro ⟨e, he, hn⟩
    obtain ⟨q, hq, rfl⟩ := List.mem_pmap.mp he
    exact Or.inr ⟨q, hq, Bool.eq_false_iff.mpr hn⟩

/-- `agoo_doc_skip_white`: how many bytes were skipped. -/
def skipWhite : Parser text σ ℕ := do
  let start ← Scanner.pos
  Scanner.sweep skipAt skipAt_none_iff
  return (← Scanner.pos).1 - start.1

/-- `agoo_doc_next_token`: no comment is left after the white space. -/
def nextToken : Parser text σ Unit := do
  let _ ← skipWhite

/-- `agoo_doc_skip_to`: the cursor stays when `c` is not found. -/
def skipTo (c : Byte) : Parser text σ Bool :=
  advance (fun rest => match rest.findIdx? (· == c) with
    | some i => (true, i)
    | none => (false, 0)) fun rest => by
    split
    · next h =>
      obtain ⟨hlt, -⟩ := List.findIdx?_eq_some_iff_getElem.mp h
      exact hlt.le
    · exact Nat.zero_le _

/-! ## Tokens and strings -/

def tokenLen : Bytes → ℕ
  | [] => 0
  | b :: rest => if isToken b ∧ chr '9' < b then 1 + (rest.takeWhile isToken).length else 0

theorem tokenLen_le (rest : Bytes) : tokenLen rest ≤ rest.length := by
  cases rest with
  | nil => exact Nat.le_refl 0
  | cons b rest =>
    have := (List.takeWhile_sublist (l := rest) isToken).length_le
    rw [tokenLen, List.length_cons]
    split_ifs
    · omega
    · exact Nat.zero_le _

/-- `agoo_doc_read_token`. -/
def readToken : Parser text σ Unit := advance (fun rest => ((), tokenLen rest)) tokenLen_le

/-- What is read of a string after its first quote: to the quote not after a backslash. -/
def simpleLen : Byte → Bytes → ℕ
  | _, [] => 0
  | prev, b :: rest => if b = chr '"' ∧ prev ≠ chr '\\' then 1 else 1 + simpleLen b rest

/-- What is read after three quotes: to the next three. -/
def tripleLen : Bytes → ℕ
  | [] => 0
  | b :: rest => if bytes "\"\"\"" <+: b :: rest then 3 else 1 + tripleLen rest

theorem simpleLen_le (prev : Byte) (rest : Bytes) : simpleLen prev rest ≤ rest.length := by
  induction rest generalizing prev with
  | nil => exact Nat.le_refl 0
  | cons b rest ih =>
    have := ih b
    rw [simpleLen, List.length_cons]
    split_ifs
    · omega
    · omega

theorem tripleLen_le (rest : Bytes) : tripleLen rest ≤ rest.length := by
  induction rest with
  | nil => exact Nat.le_refl 0
  | cons b rest ih =>
    rw [tripleLen]
    split_ifs with h
    · exact h.length_le
    · rw [List.length_cons]
      omega

/-- `agoo_doc_read_string` on text that begins with a quote: how far the cursor goes, and whether the
end of the string is known without the test for the end of the text. -/
def stringLen : Bytes → Bool × ℕ
  | [] => (false, 0)
  | _ :: rest =>
    if bytes "\"\"" <+: rest then (false, 3 + tripleLen (rest.drop 2))
    else if bytes "\"" <+: rest then (true, 2)
    else (false, 1 + simpleLen (chr '"') rest)

theorem stringLen_le (rest : Bytes) : (stringLen rest).2 ≤ rest.length := by
  cases rest with
  | nil => exact Nat.le_refl 0
  | cons b rest =>
    rw [stringLen, List.length_cons]
    split_ifs with h h'
    · have htriple := tripleLen_le (rest.drop 2)
      have hlen : 2 ≤ rest.length := h.length_le
      rw [List.length_drop] at htriple
      dsimp only
      omega
    · have hlen : 1 ≤ rest.length := h'.length_le
      dsimp only
      omega
    · have hsimple := simpleLen_le (chr '"') rest
      dsimp only
      omega

/-- `agoo_doc_read_string`. -/
def readString : Parser text σ Unit := do
  let closed ← advance stringLen stringLen_le
  let cur ← Scanner.pos
  require (closed ∨ cur.1 < text.length) (bytes "String not terminated")

/-- The string that a create function makes of `len` bytes at a place in the text: to the NUL when
`len` is not positive. -/
def created (text : Bytes) (start len : ℕ) : Bytes :=
  if len = 0 then cstr (text.drop start) else (text.drop start).take len

/-- `agoo_doc_init`: after the byte order mark, if any. -/
def docInit (text : Bytes) (err : Option Err) (reg : σ) : DocState text σ where
  cur := if [0xEF, 0xBB, 0xBF] <+: text then 3 else 0
  le := by
    split
    · next h => exact h.length_le
    · exact Nat.zero_le _
  log := []
  user := ⟨err, reg⟩

end Agoo
