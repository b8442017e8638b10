import Agoo.Doc
import Agoo.GqlTree

/-!
# Printed values (`text.c`, `gqlvalue.c`)

What the value functions append to a text, as JSON and in the language of schemas. Printing a float is
left to `fmt`, which stands for `snprintf` with `%g`.
-/

namespace Agoo

variable {τ β : Type} {text : Bytes}

/-! ## JSON strings -/

def hexChars : Bytes := bytes "0123456789abcdef"

/-- `dump_hex`. -/
def dumpHex (c : Byte) : Bytes := [at0 hexChars (c >>> 4 &&& 15).toNat, at0 hexChars (c &&& 15).toNat]

/-- What follows the backslash for a byte that `json_chars` gives two characters. -/
def shortEscape (c : Byte) : Option Byte :=
  if c = chr '\\' ∨ c = chr '"' then some c
  else if c = 8 then some (chr 'b')
  else if c = 9 then some (chr 't')
  else if c = 10 then some (chr 'n')
  else if c = 12 then some (chr 'f')
  else if c = 13 then some (chr 'r')
  else none

/-- A byte of a string in `agoo_text_append_json`. -/
def jsonByte (c : Byte) : Bytes :=
  match shortEscape c with
  | some e => [chr '\\', e]
  | none => if c < 0x20 then bytes "\\u00" ++ dumpHex c else [c]

/-- `agoo_text_append_json` with a length of `-1`. -/
def appendJson (s : Bytes) : Bytes := (cstr s).flatMap jsonByte

/-! ## Indentation -/

/-- `spaces`: a newline and blanks. -/
def spaces : Bytes := chr '\n' :: List.replicate 255 (chr ' ')

/-- `agoo_text_append(text, spaces, n)`: all of them when `n` is not positive. -/
def pad (n : ℤ) : Bytes :=
  if n ≤ 0 then spaces else (List.range n.toNat).map (at0 spaces)

/-- `i` and `i2`, for the end of a list or object and for its members. -/
def indents (indent depth : ℤ) : ℤ × ℤ :=
  let nl := if 0 < indent then 1 else 0
  let i := toInt (indent * depth + nl)
  if 257 ≤ i then (256 - indent, 256) else (i, toInt (indent * depth + indent + nl))

/-- Before a member. -/
def memberPad (indent depth : ℤ) : Bytes :=
  if 0 < (indents indent depth).2 then pad (indents indent depth).2 else []

/-- Before the closing byte. -/
def endPad (indent depth : ℤ) : Bytes :=
  if 0 < indent then pad (indents indent depth).1 else []

theorem memberPad_zero (depth : ℤ) : memberPad 0 depth = [] := by
  simp [memberPad, indents, toInt]

theorem endPad_zero (depth : ℤ) : endPad 0 depth = [] := rfl

/-- `int_to_text` and `i64_to_text`. -/
def intText (i : ℤ) : Bytes :=
  if i < 0 then bytes "-" ++ decimal i.natAbs else decimal i.natAbs

/-- A string between quotes. -/
def quoted (s : Bytes) : Bytes := bytes "\"" ++ appendJson s ++ bytes "\""

def boolText (b : Bool) : Bytes := if b then bytes "true" else bytes "false"

/-- A comma, unless the member before it is the last. -/
def comma {α : Type} : List α → Bytes
  | [] => []
  | _ :: _ => bytes ","

/-! ## As JSON -/

mutual

/-- `gql_value_json`. -/
def valueJson (fmt : FloatLit → Bytes) (indent : ℤ) : ℤ → GqlValue τ → Bytes
  | _, .null => bytes "null"
  | _, .bool b => boolText b
  | _, .int i => intText i
  | _, .i64 i => intText i
  | _, .float f => fmt f
  | _, .string s => quoted s
  | _, .token s _ => quoted s
  | _, .var s => bytes "%" ++ appendJson s
  | depth, .list _ ms =>
    bytes "[" ++ listJson fmt indent depth ms ++ endPad indent depth ++ bytes "]"
  | depth, .object ms =>
    bytes "\x7b" ++ membersJson fmt indent depth ms ++ endPad indent depth ++ bytes "\x7d"

/-- The members in `list_to_json`. -/
def listJson (fmt : FloatLit → Bytes) (indent : ℤ) : ℤ → List (GqlValue τ) → Bytes
  | _, [] => []
  | depth, m :: ms =>
    memberPad indent depth ++ valueJson fmt indent (depth + 1) m ++ comma ms ++
      listJson fmt indent depth ms

/-- The members in `gql_object_to_json`. -/
def membersJson (fmt : FloatLit → Bytes) (indent : ℤ) : ℤ → List (Bytes × GqlValue τ) → Bytes
  | _, [] => []
  | depth, (key, m) :: ms =>
    memberPad indent depth ++ bytes "\"" ++ cstr key ++ bytes "\":" ++
      valueJson fmt indent (depth + 1) m ++ comma ms ++ membersJson fmt indent depth ms

end

/-! ## In the schema language -/

mutual

/-- `gql_value_sdl`: none when it calls through a pointer that is no function. -/
def valueSdl (fmt : FloatLit → Bytes) (indent : ℤ) : ℤ → GqlValue τ → Option Bytes
  | _, .null => some (bytes "null")
  | _, .bool b => some (boolText b)
  | _, .int i => some (intText i)
  | _, .i64 i => some (intText i)
  | _, .float f => some (fmt f)
  | _, .string s => some (quoted s)
  | _, .token s _ => some (appendJson s)
  | _, .var s => some (bytes "%" ++ appendJson s)
  | depth, .list _ ms => do
    let inside ← listSdl fmt indent depth ms
    return bytes "[" ++ inside ++ endPad indent depth ++ bytes "]"
  | depth, .object ms => do
    let inside ← membersSdl fmt indent depth ms
    return bytes "\x7b" ++ inside ++ endPad indent depth ++ bytes "\x7d"

/-- The members in `list_to_sdl`. The function called for a member is `to_sdl` of its type, which is
the list of choices when that is an enum. -/
def listSdl (fmt : FloatLit → Bytes) (indent : ℤ) : ℤ → List (GqlValue τ) → Option Bytes
  | _, [] => some []
  | _, .token _ (some _) :: _ => none
  | depth, m :: ms => do
    let one ← valueSdl fmt indent (depth + 1) m
    let more ← listSdl fmt indent depth ms
    return memberPad indent depth ++ one ++ comma ms ++ more

/-- The members in `gql_object_to_sdl`. -/
def membersSdl (fmt : FloatLit → Bytes) (indent : ℤ) :
    ℤ → List (Bytes × GqlValue τ) → Option Bytes
  | _, [] => some []
  | _, (_, .token _ (some _)) :: _ => none
  | depth, (key, m) :: ms => do
    let one ← valueSdl fmt indent (depth + 1) m
    let more ← membersSdl fmt indent depth ms
    return memberPad indent depth ++ cstr key ++ (if 0 < indent then bytes ": " else bytes ":") ++
      one ++ comma ms ++ more

end

/-! ## The decimal text of a number -/

/-- The number that a digit stands for. -/
def digitVal (c : Byte) : ℕ := (c - chr '0').toNat

theorem chr_of_isDigit {c : Char} (h : c.isDigit = true) :
    isDigit (chr c) = true ∧ digitVal (chr c) = c.toNat - '0'.toNat := by
  have hc := Char.isDigit_iff_toNat.mp h
  have hval : ∀ k < 58, '0'.toNat ≤ k → isDigit (UInt8.ofNat k) = true ∧
      digitVal (UInt8.ofNat k) = k - '0'.toNat := by decide
  exact hval c.toNat (Nat.lt_succ_of_le hc.2) hc.1

theorem isDigit_decimal {n : ℕ} {c : Byte} (h : c ∈ decimal n) : isDigit c = true := by
  obtain ⟨d, hd, rfl⟩ := List.mem_map.mp h
  exact (chr_of_isDigit (Nat.isDigit_of_mem_toDigits (by decide) (by decide) hd)).1

theorem decimal_ne_nil (n : ℕ) : decimal n ≠ [] := by
  unfold decimal
  simp [Nat.toDigits_ne_nil]

theorem foldl_digits_le (ds : Bytes) (a : ℕ) :
    a ≤ ds.foldl (fun a c => 10 * a + digitVal c) a := by
  induction ds generalizing a with
  | nil => exact Nat.le_refl a
  | cons c ds ih =>
    have := ih (10 * a + digitVal c)
    rw [List.foldl_cons]
    omega

/-- Read back digit by digit, the text of a number is that number. -/
theorem foldl_decimal (n : ℕ) :
    (decimal n).foldl (fun a c => 10 * a + digitVal c) 0 = n := by
  have hfold : ∀ (cs : List Char) (a : ℕ), (∀ c ∈ cs, c.isDigit = true) →
      (cs.map chr).foldl (fun a c => 10 * a + digitVal c) a = Nat.ofDigitChars 10 cs a := by
    intro cs
    induction cs with
    | nil => simp [Nat.ofDigitChars_nil]
    | cons c cs ih =>
      intro a hcs
      rw [List.map_cons, List.foldl_cons, Nat.ofDigitChars_cons,
        (chr_of_isDigit (hcs c (.head _))).2]
      exact ih _ fun d hd => hcs d (.tail _ hd)
  unfold decimal
  rw [hfold _ _ fun c hc => Nat.isDigit_of_mem_toDigits (by decide) (by decide) hc]
  exact Nat.ofDigitChars_ten_toDigits

/-- The first byte of a printed number. -/
theorem intText_head (z : ℤ) : ∃ c more, intText z = c :: more ∧ (c = chr '-' ∨ isDigit c = true) := by
  unfold intText
  split
  · exact ⟨chr '-', _, rfl, Or.inl rfl⟩
  · obtain ⟨d, ds, hds⟩ := List.exists_cons_of_ne_nil (decimal_ne_nil z.natAbs)
    exact ⟨d, ds, hds, Or.inr (isDigit_decimal (by rw [hds]; exact .head _))⟩

/-! ## The bytes of printed strings -/

/-- What is printed for a byte begins with that byte or a backslash, never with a quote. -/
theorem jsonByte_head (b : Byte) :
    ∃ c rest, jsonByte b = c :: rest ∧ c ≠ chr '"' ∧ (c = chr '\\' ∨ jsonByte b = [b]) := by
  unfold jsonByte
  cases hs : shortEscape b with
  | some e => exact ⟨_, _, rfl, by decide, Or.inl rfl⟩
  | none =>
    by_cases hb : b < 0x20
    · simp only [if_pos hb]
      exact ⟨chr '\\', _, rfl, by decide, Or.inl rfl⟩
    · simp only [if_neg hb]
      refine ⟨b, [], rfl, ?_, Or.inr trivial⟩
      rintro rfl
      cases hs

/-- Text without a backslash is text in which nothing was escaped. -/
theorem flatMap_jsonByte_plain {s : Bytes} (h : ∀ b ∈ s, jsonByte b = [b]) :
    s.flatMap jsonByte = s := by
  induction s with
  | nil => rfl
  | cons b s ih =>
    rw [List.flatMap_cons, h b (.head _), ih fun c hc => h c (.tail _ hc)]
    rfl

theorem jsonByte_ne_backslash (b : Byte) : jsonByte b ≠ [chr '\\'] := by
  unfold jsonByte
  cases hs : shortEscape b with
  | some e => simp
  | none =>
    by_cases hb : b < 0x20
    · simp only [if_pos hb]
      exact fun h => absurd (congrArg List.length h) (by simp [bytes])
    · simp only [if_neg hb]
      intro h
      obtain rfl : b = chr '\\' := by simpa using h
      cases hs

/-- The digits of a control byte are no quotes. -/
theorem dumpHex_no_quote {b : Byte} (hb : b < 0x20) :
    ∃ x y, dumpHex b = [x, y] ∧ x ≠ chr '"' ∧ y ≠ chr '"' := by
  have hall : ∀ k < 32, at0 hexChars (UInt8.ofNat k >>> 4 &&& 15).toNat ≠ chr '"' ∧
      at0 hexChars (UInt8.ofNat k &&& 15).toNat ≠ chr '"' := by decide
  have := hall b.toNat (UInt8.lt_iff_toNat_lt.mp hb)
  rw [UInt8.ofNat_toNat] at this
  exact ⟨_, _, rfl, this⟩

/-- Each byte of a string is printed as one byte or more. -/
theorem length_le_flatMap_jsonByte (s : Bytes) : s.length ≤ (s.flatMap jsonByte).length := by
  induction s with
  | nil => exact Nat.le_refl 0
  | cons b s ih =>
    obtain ⟨c, more, hc, -, -⟩ := jsonByte_head b
    rw [List.flatMap_cons, hc, List.length_append, List.length_cons, List.length_cons]
    omega

theorem length_le_quoted {s : Bytes} (h : 0 ∉ s) : s.length ≤ (quoted s).length := by
  have := length_le_flatMap_jsonByte s
  rw [quoted, appendJson, cstr_of_not_mem h, List.length_append, List.length_append]
  omega

/-! ## What is left of a text -/

/-- The bytes behind the first part of what is left. -/
theorem drop_add_of_drop {i : ℕ} {a b : Bytes} (h : text.drop i = a ++ b) :
    text.drop (i + a.length) = b := by
  rw [← List.drop_drop, h, List.drop_left]

theorem at0_of_drop_nil {i : ℕ} (h : text.drop i = []) : at0 text i = 0 :=
  at0_of_le (List.drop_eq_nil_iff.mp h)

/-- A place before something is not at the end of the text. -/
theorem lt_of_drop {i : ℕ} {a rest : Bytes} {c : Byte} (h : text.drop i = a ++ c :: rest) :
    i < text.length := by
  by_contra hge
  rw [List.drop_eq_nil_iff.mpr (Nat.not_lt.mp hge)] at h
  simp at h

/-- The text after a member: nothing, a comma or a closing byte. -/
def Follow (rest : Bytes) : Prop :=
  ∀ b ∈ rest.head?, b = chr ',' ∨ b = chr ']' ∨ b = chr '}'

theorem Follow.head {rest : Bytes} (h : Follow rest) {p : Byte → Bool} (hc : p (chr ',') = false)
    (hb : p (chr ']') = false) (ho : p (chr '}') = false) : ∀ b ∈ rest.head?, p b = false := by
  intro b hbr
  rcases h b hbr with rfl | rfl | rfl
  · exact hc
  · exact hb
  · exact ho

/-- The byte at the cursor, when what follows a value is left. -/
theorem Follow.at0 {rest : Bytes} (h : Follow rest) {i : ℕ} (hi : text.drop i = rest) :
    at0 text i = 0 ∨ Agoo.at0 text i = chr ',' ∨ Agoo.at0 text i = chr ']' ∨
      Agoo.at0 text i = chr '}' := by
  cases rest with
  | nil => exact Or.inl (at0_of_drop_nil hi)
  | cons b rest =>
    rw [(drop_succ_of_drop hi).1]
    exact Or.inr (h b rfl)

/-! ## Members with commas between them -/

/-- Printed members, with commas between them. -/
def sepBy (txt : β → Bytes) : List β → Bytes
  | [] => []
  | b :: bs => txt b ++ comma bs ++ sepBy txt bs

theorem length_sepBy_cons (txt : β → Bytes) (b c : β) (bs : List β) :
    (sepBy txt (b :: c :: bs)).length = (txt b).length + 1 + (sepBy txt (c :: bs)).length := by
  conv_lhs => unfold sepBy
  rw [List.length_append, List.length_append]
  rfl

theorem length_le_sepBy (txt : β → Bytes) (bs : List β) : bs.length ≤ (sepBy txt bs).length + 1 := by
  induction bs with
  | nil => simp
  | cons b bs ih =>
    cases bs with
    | nil => simp
    | cons c bs =>
      rw [length_sepBy_cons]
      rw [List.length_cons]
      omega

theorem length_le_sepBy_of_mem (txt : β → Bytes) {bs : List β} {b : β} (h : b ∈ bs) :
    (txt b).length ≤ (sepBy txt bs).length := by
  induction bs with
  | nil => cases h
  | cons c bs ih =>
    rw [sepBy, List.length_append, List.length_append]
    rcases List.mem_cons.mp h with rfl | h
    · omega
    · have := ih h
      omega

/-- What follows a member in front of others. -/
theorem follow_comma (txt : β → Bytes) {close : Byte} (bs : List β)
    (hclose : close = chr ']' ∨ close = chr '}') (rest : Bytes) :
    Follow (comma bs ++ sepBy txt bs ++ close :: rest) := by
  cases bs with
  | nil =>
    intro b hb
    obtain rfl : close = b := by simpa [comma, sepBy] using hb
    exact Or.inr hclose
  | cons b' bs =>
    intro b hb
    obtain rfl : chr ',' = b := by simpa [comma, sepBy, bytes, chr] using hb
    exact Or.inl rfl

end Agoo
