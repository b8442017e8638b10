import Agoo.JsonRoundTrip
import Mathlib.Data.Nat.Bitwise

/-!
# Unicode escapes in JSON strings (`parse_escaped`)

A string is a list of tokens: bytes, escaped or not, and the codes of unicode escapes. A high surrogate
and a low one behind it stand for one character; any other surrogate is an error. `parse_escaped` takes
two escapes together when the first is a surrogate of either kind and looks at ten bits of the second, and
it makes a C string of the text.

`escapes_iff`: it is right exactly when the string is broken in another way, or its surrogates are paired
and its text has no NUL.
-/

namespace Agoo

variable {τ : Type} {text : Bytes}

namespace Json

/-! ## Tokens -/

/-- A part of a string, or why it ends: a wrong escape, the quote, or the end of the text. -/
inductive StrToken
  | byte (b : Byte)
  | code (n : ℕ)
  | bad
  | quote
  | eof
  deriving DecidableEq

/-- The number that four hexadecimal digits stand for. -/
def hexCode (a b c d : Byte) : Option ℕ := do
  let a ← hexDigit a
  let b ← hexDigit b
  let c ← hexDigit c
  let d ← hexDigit d
  return ((a * 16 + b) * 16 + c) * 16 + d

/-- The tokens from a place in a string on. -/
def tokens : Bytes → List StrToken
  | [] => [.eof]
  | x :: s =>
    if x = chr '"' then [.quote]
    else if x = chr '\\' then
      match s with
      | [] => [.bad]
      | e :: s =>
        match plainEscape e with
        | some b => .byte b :: tokens s
        | none =>
          if e = chr 'u' then
            match s with
            | a :: b :: c :: d :: s =>
              match hexCode a b c d with
              | some n => .code n :: tokens s
              | none => [.bad]
            | _ => [.bad]
          else [.bad]
    else .byte x :: tokens s

/-! ## The law -/

/-- A high surrogate. -/
def IsHigh (n : ℕ) : Prop := 0xD800 ≤ n ∧ n ≤ 0xDBFF

/-- A low surrogate. -/
def IsLow (n : ℕ) : Prop := 0xDC00 ≤ n ∧ n ≤ 0xDFFF

instance (n : ℕ) : Decidable (IsHigh n) := inferInstanceAs (Decidable (_ ∧ _))

instance (n : ℕ) : Decidable (IsLow n) := inferInstanceAs (Decidable (_ ∧ _))

/-- The code point of a pair. -/
def pairCode (high low : ℕ) : ℕ := 0x10000 + (high - 0xD800) * 0x400 + (low - 0xDC00)

/-- A character in UTF-8. -/
def utf8 (n : ℕ) : Bytes := String.utf8EncodeChar (Char.ofNat n)

/-- What a string stands for. -/
inductive Denoted
  | string (t : Bytes)
  | wrong
  /-- It is not ended. -/
  | unended
  deriving DecidableEq

def Denoted.before (a : Bytes) : Denoted → Denoted
  | string t => string (a ++ t)
  | wrong => wrong
  | unended => unended

def denoted : List StrToken → Denoted
  | [] => .unended
  | .byte b :: ts => (denoted ts).before [b]
  | .code n :: ts =>
    if IsHigh n then
      match ts with
      | .code m :: ts => if IsLow m then (denoted ts).before (utf8 (pairCode n m)) else .wrong
      | _ => .wrong
    else if IsLow n then .wrong
    else (denoted ts).before (utf8 n)
  | .bad :: _ => .wrong
  | .quote :: _ => .string []
  | .eof :: _ => .unended

/-- `parse_escaped` from offset `i` on yields the text, or an error for a string that is wrong. -/
structure DecodesAt (τ : Type) (text : Bytes) (i : ℕ) : Prop where
  right : ∀ t, denoted (tokens (text.drop i)) = .string t →
    ∃ k, Reads (parseEscaped text (text.length + 1) : JsonReader (GqlValue τ)) i (.string t) k
  wrong : denoted (tokens (text.drop i)) = .wrong →
    ∃ e, (parseEscaped text (text.length + 1) : JsonReader (GqlValue τ)).run i = some (.error e)

/-- A wrong escape, when each surrogate takes the next unicode escape with it, or none follows it. -/
def Broken : List StrToken → Prop
  | [] => False
  | .byte _ :: ts => Broken ts
  | .code n :: ts =>
    if IsHigh n ∨ IsLow n then
      match ts with
      | .code _ :: ts => Broken ts
      | _ => True
    else Broken ts
  | .bad :: _ => True
  | .quote :: _ => False
  | .eof :: _ => False

/-- The first of two unicode escapes that are taken together is a high surrogate and the second a low one. -/
def Paired : List StrToken → Prop
  | [] => True
  | .byte _ :: ts => Paired ts
  | .code n :: ts =>
    if IsHigh n ∨ IsLow n then
      match ts with
      | .code m :: ts => IsHigh n ∧ IsLow m ∧ Paired ts
      | _ => True
    else Paired ts
  | _ :: _ => True

/-- No NUL, neither as a byte nor as a code, up to the quote. -/
def NulFree (ts : List StrToken) : Prop := .quote ∈ ts → .byte 0 ∉ ts ∧ .code 0 ∉ ts

-- Their equations are made here once, not by each of the lemmas below.
attribute [local simp] tokens denoted Broken Paired

/-! ## Characters -/

/-- A mark and the bits below it. -/
theorem codeByte_eq {mark x : ℕ} (k : ℕ) (hx : x < 2 ^ k) (hmark : 2 ^ k * (mark / 2 ^ k) = mark) :
    codeByte mark x = UInt8.ofNat (x + mark) := by
  have hor := Nat.two_pow_add_eq_or_of_lt hx (mark / 2 ^ k)
  rw [hmark] at hor
  unfold codeByte
  rw [← hor, Nat.add_comm]

theorem codeByte_tail (n k : ℕ) : codeByte 0x80 (n >>> k &&& 0x3F) = UInt8.ofNat (n / 2 ^ k % 0x40 + 0x80) := by
  have hmask : n >>> k &&& 0x3F = n / 2 ^ k % 0x40 := by
    rw [Nat.shiftRight_eq_div_pow]
    exact Nat.and_two_pow_sub_one_eq_mod _ 6
  rw [hmask]
  exact codeByte_eq 6 (Nat.mod_lt _ (by decide)) rfl

theorem utf8_eq {n : ℕ} (h : n.isValidChar) : utf8 n =
    if n ≤ 0x7F then [.ofNat n]
    else if n ≤ 0x7FF then [.ofNat (n / 64 % 0x20 + 0xC0), .ofNat (n % 0x40 + 0x80)]
    else if n ≤ 0xFFFF then
      [.ofNat (n / 4096 % 0x10 + 0xE0), .ofNat (n / 64 % 0x40 + 0x80), .ofNat (n % 0x40 + 0x80)]
    else [.ofNat (n / 262144 % 0x08 + 0xF0), .ofNat (n / 4096 % 0x40 + 0x80), .ofNat (n / 64 % 0x40 + 0x80),
      .ofNat (n % 0x40 + 0x80)] := by
  have hval : (Char.ofNat n).val.toNat = n := by
    unfold Char.ofNat
    rw [dif_pos h]
    rfl
  unfold utf8 String.utf8EncodeChar
  rw [hval]

/-- `unicode_to_chars` of a code point is UTF-8. -/
theorem unicodeToChars_eq {n : ℕ} (h : n.isValidChar) : unicodeToChars text n = pure (utf8 n) := by
  have hlt : n < 0x110000 := by
    rcases h with h | h
    · exact Nat.lt_trans h (by decide)
    · exact h.2
  have htail0 : codeByte 0x80 (n &&& 0x3F) = .ofNat (n % 0x40 + 0x80) := by
    have := codeByte_tail n 0
    rwa [Nat.shiftRight_zero, Nat.pow_zero, Nat.div_one] at this
  have htail6 : codeByte 0x80 (n >>> 6 &&& 0x3F) = .ofNat (n / 64 % 0x40 + 0x80) := codeByte_tail n 6
  have htail12 : codeByte 0x80 (n >>> 12 &&& 0x3F) = .ofNat (n / 4096 % 0x40 + 0x80) := codeByte_tail n 12
  have h6 : n >>> 6 = n / 64 := Nat.shiftRight_eq_div_pow n 6
  have h12 : n >>> 12 = n / 4096 := Nat.shiftRight_eq_div_pow n 12
  have h18 : n >>> 18 = n / 262144 := Nat.shiftRight_eq_div_pow n 18
  rw [utf8_eq h]
  unfold unicodeToChars
  simp only [Nat.shiftRight_zero]
  rw [htail0, htail6, htail12, h6, h12, h18]
  by_cases h1 : n ≤ 0x7F
  · rw [if_pos h1, if_pos h1]
  · rw [if_neg h1, if_neg h1]
    by_cases h2 : n ≤ 0x7FF
    · rw [if_pos h2, if_pos h2, codeByte_eq 5 (by omega) rfl, Nat.mod_eq_of_lt (a := n / 64) (by omega)]
    · rw [if_neg h2, if_neg h2]
      by_cases h3 : n ≤ 0xFFFF
      · rw [if_pos h3, if_pos h3, codeByte_eq 4 (by omega) rfl, Nat.mod_eq_of_lt (a := n / 4096) (by omega)]
      · rw [if_neg h3, if_neg h3, if_pos (by omega), codeByte_eq 3 (by omega) rfl,
          Nat.mod_eq_of_lt (a := n / 262144) (by omega)]

theorem zero_ne_marked {x mark : ℕ} (hmark : 0x80 ≤ mark) (h : x + mark < 0x100) :
    (0 : Byte) ≠ .ofNat (x + mark) := by
  intro h0
  have := congrArg UInt8.toNat h0
  rw [UInt8.toNat_ofNat'] at this
  change 0 = (x + mark) % 256 at this
  omega

/-- Only the NUL has a zero byte in it. -/
theorem zero_mem_utf8 {n : ℕ} (h : n.isValidChar) : 0 ∈ utf8 n ↔ n = 0 := by
  rw [utf8_eq h]
  by_cases h1 : n ≤ 0x7F
  · rw [if_pos h1, List.mem_singleton]
    constructor
    · intro h0
      have := congrArg UInt8.toNat h0
      rw [UInt8.toNat_ofNat'] at this
      change 0 = n % 256 at this
      omega
    · rintro rfl
      rfl
  · have hne : n ≠ 0 := by omega
    rw [if_neg h1]
    have h0x20 : n / 64 % 0x20 < 0x20 := Nat.mod_lt _ (by decide)
    have h0x10 : n / 4096 % 0x10 < 0x10 := Nat.mod_lt _ (by decide)
    have h0x08 : n / 262144 % 0x08 < 0x08 := Nat.mod_lt _ (by decide)
    have htail : ∀ k : ℕ, (0 : Byte) ≠ .ofNat (k % 0x40 + 0x80) := fun k =>
      zero_ne_marked (by decide) (by have := Nat.mod_lt k (show 0x40 > 0 by decide); omega)
    have hhead2 : (0 : Byte) ≠ .ofNat (n / 64 % 0x20 + 0xC0) := zero_ne_marked (by decide) (by omega)
    have hhead3 : (0 : Byte) ≠ .ofNat (n / 4096 % 0x10 + 0xE0) := zero_ne_marked (by decide) (by omega)
    have hhead4 : (0 : Byte) ≠ .ofNat (n / 262144 % 0x08 + 0xF0) := zero_ne_marked (by decide) (by omega)
    split_ifs
    all_goals simp only [List.mem_cons, htail, hhead2, hhead3, hhead4, hne, List.not_mem_nil, or_self]

/-! ## The code that the reader makes of a pair -/

/-- What `parse_escaped` makes of two unicode escapes. -/
def looseCode (n m : ℕ) : ℕ :=
  (((n - 0xD800) &&& 0x3FF) <<< 10 ||| ((m + 0x100000000 - 0xDC00) &&& 0x3FF)) + 0x10000

theorem looseCode_eq (n m : ℕ) :
    looseCode n m = (n - 0xD800) % 0x400 * 0x400 + (m + 0x100000000 - 0xDC00) % 0x400 + 0x10000 := by
  have hmask : ∀ k : ℕ, k &&& 0x3FF = k % 0x400 := fun k => Nat.and_two_pow_sub_one_eq_mod k 10
  have hlow : (m + 0x100000000 - 0xDC00) % 0x400 < 2 ^ 10 := Nat.mod_lt _ (by decide)
  have hor := Nat.two_pow_add_eq_or_of_lt hlow ((n - 0xD800) % 0x400)
  unfold looseCode
  rw [hmask, hmask, Nat.shiftLeft_eq, Nat.mul_comm _ (2 ^ 10), ← hor]

theorem looseCode_valid (n m : ℕ) : (looseCode n m).isValidChar := by
  rw [looseCode_eq]
  right
  omega

theorem looseCode_ne_zero (n m : ℕ) : looseCode n m ≠ 0 := by
  rw [looseCode_eq]
  omega

/-- On a pair it is right. -/
theorem looseCode_pair {n m : ℕ} (hn : IsHigh n) (hm : IsLow m) : looseCode n m = pairCode n m := by
  obtain ⟨hn1, hn2⟩ := hn
  obtain ⟨hm1, hm2⟩ := hm
  rw [looseCode_eq]
  unfold pairCode
  omega

/-- The text that `parse_escaped` builds. -/
def looseText : List StrToken → Bytes
  | [] => []
  | .byte b :: ts => b :: looseText ts
  | .code n :: ts =>
    if IsHigh n ∨ IsLow n then
      match ts with
      | .code m :: ts => utf8 (looseCode n m) ++ looseText ts
      | _ => []
    else utf8 n ++ looseText ts
  | _ :: _ => []

/-! ## The law on tokens -/

/-- Tokens of a string: nothing stands behind its end. -/
inductive StrTokens : List StrToken → Prop
  | byte (b : Byte) {ts : List StrToken} (h : StrTokens ts) : StrTokens (.byte b :: ts)
  | code {n : ℕ} {ts : List StrToken} (hn : n < 0x10000) (h : StrTokens ts) : StrTokens (.code n :: ts)
  | bad : StrTokens [.bad]
  | quote : StrTokens [.quote]
  | eof : StrTokens [.eof]

theorem hexCode_lt {a b c d : Byte} {n : ℕ} (h : hexCode a b c d = some n) : n < 0x10000 := by
  unfold hexCode at h
  obtain ⟨a', ha, h⟩ := Option.bind_eq_some_iff.mp h
  obtain ⟨b', hb, h⟩ := Option.bind_eq_some_iff.mp h
  obtain ⟨c', hc, h⟩ := Option.bind_eq_some_iff.mp h
  obtain ⟨d', hd, h⟩ := Option.bind_eq_some_iff.mp h
  obtain rfl := Option.some.inj h
  have := hexDigit_lt ha
  have := hexDigit_lt hb
  have := hexDigit_lt hc
  have := hexDigit_lt hd
  omega

/-- How a string can go on. -/
inductive TokenAt : Bytes → Prop
  | eof : TokenAt []
  | quote (s : Bytes) : TokenAt (chr '"' :: s)
  | plain {x : Byte} (s : Bytes) (hquote : x ≠ chr '"') (hback : x ≠ chr '\\') : TokenAt (x :: s)
  | short {e b : Byte} (s : Bytes) (he : plainEscape e = some b) : TokenAt (chr '\\' :: e :: s)
  | code {a b c d : Byte} {n : ℕ} (s : Bytes) (hn : hexCode a b c d = some n) :
      TokenAt (chr '\\' :: chr 'u' :: a :: b :: c :: d :: s)
  | badHex {a b c d : Byte} (s : Bytes) (hn : hexCode a b c d = none) :
      TokenAt (chr '\\' :: chr 'u' :: a :: b :: c :: d :: s)
  | cut {s : Bytes} (hlen : s.length < 4) : TokenAt (chr '\\' :: chr 'u' :: s)
  | other {s : Bytes} (hs : ∀ e ∈ s.head?, plainEscape e = none ∧ e ≠ chr 'u') : TokenAt (chr '\\' :: s)

theorem tokenAt (s : Bytes) : TokenAt s := by
  rcases s with _ | ⟨x, s⟩
  · exact .eof
  by_cases hquote : x = chr '"'
  · exact hquote ▸ .quote s
  by_cases hback : x ≠ chr '\\'
  · exact .plain s hquote hback
  obtain rfl := not_not.mp hback
  rcases s with _ | ⟨e, s⟩
  · exact .other (by simp)
  cases he : plainEscape e with
  | some b => exact .short s he
  | none =>
    by_cases hu : e = chr 'u'
    · subst hu
      match s with
      | [] | [_] | [_, _] | [_, _, _] => exact .cut (by simp)
      | a :: b :: c :: d :: s =>
        cases hn : hexCode a b c d with
        | some n => exact .code s hn
        | none => exact .badHex s hn
    · refine .other ?_
      rintro _ ⟨⟩
      exact ⟨he, hu⟩

theorem tokens_quote (s : Bytes) : tokens (chr '"' :: s) = [.quote] := by
  conv_lhs => unfold tokens
  rw [if_pos rfl]

theorem tokens_plain {x : Byte} (s : Bytes) (hquote : x ≠ chr '"') (hback : x ≠ chr '\\') :
    tokens (x :: s) = .byte x :: tokens s := by
  conv_lhs => unfold tokens
  rw [if_neg hquote, if_neg hback]

theorem tokens_short {e b : Byte} (s : Bytes) (he : plainEscape e = some b) :
    tokens (chr '\\' :: e :: s) = .byte b :: tokens s := by
  conv_lhs => unfold tokens
  rw [if_neg (by decide), if_pos rfl]
  simp only [he]

theorem tokens_code {a b c d : Byte} {n : ℕ} (s : Bytes) (hn : hexCode a b c d = some n) :
    tokens (chr '\\' :: chr 'u' :: a :: b :: c :: d :: s) = .code n :: tokens s := by
  rw [tokens, if_neg (by decide), if_pos rfl]
  simp only [show plainEscape (chr 'u') = none from rfl, hn, if_true]

theorem tokens_badHex {a b c d : Byte} (s : Bytes) (hn : hexCode a b c d = none) :
    tokens (chr '\\' :: chr 'u' :: a :: b :: c :: d :: s) = [.bad] := by
  rw [tokens, if_neg (by decide), if_pos rfl]
  simp only [show plainEscape (chr 'u') = none from rfl, hn, if_true]

theorem tokens_cut {s : Bytes} (hlen : s.length < 4) : tokens (chr '\\' :: chr 'u' :: s) = [.bad] := by
  match s with
  | [] | [_] | [_, _] | [_, _, _] => rfl
  | _ :: _ :: _ :: _ :: s =>
    simp only [List.length_cons] at hlen
    omega

theorem tokens_other {s : Bytes} (hs : ∀ e ∈ s.head?, plainEscape e = none ∧ e ≠ chr 'u') :
    tokens (chr '\\' :: s) = [.bad] := by
  rcases s with _ | ⟨e, s⟩
  · rfl
  · obtain ⟨he, hu⟩ := hs e rfl
    conv_lhs => unfold tokens
    rw [if_neg (by decide), if_pos rfl]
    simp only [he, if_neg hu]

theorem strTokens_tokens (s : Bytes) : StrTokens (tokens s) := by
  induction hlen : s.length using Nat.strong_induction_on generalizing s with
  | _ n ih =>
    subst hlen
    cases tokenAt s with
    | eof => exact .eof
    | quote s =>
      rw [tokens_quote]
      exact .quote
    | plain s hquote hback =>
      rw [tokens_plain s hquote hback]
      exact .byte _ (ih _ (Nat.lt_succ_self _) s rfl)
    | short s he =>
      rw [tokens_short s he]
      exact .byte _ (ih _ (by simp only [List.length_cons]; omega) s rfl)
    | code s hn =>
      rw [tokens_code s hn]
      exact .code (hexCode_lt hn) (ih _ (by simp only [List.length_cons]; omega) s rfl)
    | badHex s hn =>
      rw [tokens_badHex s hn]
      exact .bad
    | cut hlen =>
      rw [tokens_cut hlen]
      exact .bad
    | other hs =>
      rw [tokens_other hs]
      exact .bad

/-- A code that is no surrogate is a character. -/
theorem valid_of_not_surrogate {n : ℕ} (h : ¬ (IsHigh n ∨ IsLow n)) (hn : n < 0x10000) : n.isValidChar := by
  unfold IsHigh IsLow at h
  unfold Nat.isValidChar
  omega

theorem denoted_code {n : ℕ} (ts : List StrToken) (h : ¬ (IsHigh n ∨ IsLow n)) :
    denoted (.code n :: ts) = (denoted ts).before (utf8 n) := by
  rw [not_or] at h
  conv_lhs => unfold denoted
  rw [if_neg h.1, if_neg h.2]

/-- A surrogate is right before the other half only. -/
theorem denoted_surrogate {n : ℕ} (ts : List StrToken) (h : ∀ m ts', ts = .code m :: ts' → ¬ (IsHigh n ∧ IsLow m))
    (hn : IsHigh n ∨ IsLow n) : denoted (.code n :: ts) = .wrong := by
  conv_lhs => unfold denoted
  by_cases hhigh : IsHigh n
  · rw [if_pos hhigh]
    split
    · rename_i m ts'
      rw [if_neg fun hlow => h m ts' rfl ⟨hhigh, hlow⟩]
    · rfl
  · rw [if_neg hhigh, if_pos (hn.resolve_left hhigh)]

theorem denoted_pair {n m : ℕ} (ts : List StrToken) (hn : IsHigh n) (hm : IsLow m) :
    denoted (.code n :: .code m :: ts) = (denoted ts).before (utf8 (pairCode n m)) := by
  conv_lhs => unfold denoted
  rw [if_pos hn]
  simp only [if_pos hm]

theorem broken_code {n : ℕ} (ts : List StrToken) (h : ¬ (IsHigh n ∨ IsLow n)) :
    Broken (.code n :: ts) ↔ Broken ts := by
  conv_lhs => unfold Broken
  rw [if_neg h]

theorem broken_pair {n m : ℕ} (ts : List StrToken) (h : IsHigh n ∨ IsLow n) :
    Broken (.code n :: .code m :: ts) ↔ Broken ts := by
  conv_lhs => unfold Broken
  rw [if_pos h]

/-- A surrogate without a unicode escape behind it breaks the string off. -/
theorem broken_alone {n : ℕ} {ts : List StrToken} (h : IsHigh n ∨ IsLow n)
    (hnext : ∀ m ts', ts ≠ .code m :: ts') : Broken (.code n :: ts) := by
  unfold Broken
  rw [if_pos h]
  split
  · exact absurd rfl (hnext _ _)
  · trivial

theorem looseText_code {n : ℕ} (ts : List StrToken) (h : ¬ (IsHigh n ∨ IsLow n)) :
    looseText (.code n :: ts) = utf8 n ++ looseText ts := by
  conv_lhs => unfold looseText
  rw [if_neg h]

theorem looseText_pair {n : ℕ} (m : ℕ) (ts : List StrToken) (h : IsHigh n ∨ IsLow n) :
    looseText (.code n :: .code m :: ts) = utf8 (looseCode n m) ++ looseText ts := by
  conv_lhs => unfold looseText
  rw [if_pos h]

/-- A string that the reader breaks off is wrong. -/
theorem denoted_of_broken {ts : List StrToken} (h : Broken ts) : denoted ts = .wrong := by
  fun_induction Broken ts with
  | case1 => cases h
  | case2 b ts ih =>
    change (denoted ts).before [b] = .wrong
    rw [ih h]
    rfl
  | case3 n hn m ts ih =>
    by_cases hpair : IsHigh n ∧ IsLow m
    · rw [denoted_pair ts hpair.1 hpair.2, ih h]
      rfl
    · refine denoted_surrogate _ ?_ hn
      rintro _ _ ⟨⟩
      exact hpair
  | case4 n ts hn hnext => exact denoted_surrogate ts (fun m ts' heq => (hnext m ts' heq).elim) hn
  | case5 n ts hn ih =>
    rw [denoted_code ts hn, ih h]
    rfl
  | case6 => rfl
  | case7 => cases h
  | case8 => cases h

/-- What the reader takes for a pair and is none makes the string wrong. -/
theorem denoted_of_not_paired {ts : List StrToken} (hbroken : ¬ Broken ts) (h : ¬ Paired ts) :
    denoted ts = .wrong := by
  fun_induction Paired ts with
  | case1 => exact absurd trivial h
  | case2 b ts ih =>
    change (denoted ts).before [b] = .wrong
    rw [ih hbroken h]
    rfl
  | case3 n hn m ts ih =>
    by_cases hpair : IsHigh n ∧ IsLow m
    · rw [denoted_pair ts hpair.1 hpair.2]
      rw [broken_pair ts hn] at hbroken
      rw [ih hbroken fun hp => h ⟨hpair.1, hpair.2, hp⟩]
      rfl
    · refine denoted_surrogate _ ?_ hn
      rintro _ _ ⟨⟩
      exact hpair
  | case4 n ts hn hnext => exact absurd trivial h
  | case5 n ts hn ih =>
    rw [denoted_code ts hn, ih (mt (broken_code ts hn).mpr hbroken) h]
    rfl
  | case6 => exact absurd trivial h

theorem before_ended {ts : List StrToken} {a : Bytes} {x : StrToken} (hx : x ≠ .quote) :
    (if .quote ∈ ts then Denoted.string (looseText ts) else .unended).before a =
      if .quote ∈ x :: ts then .string (a ++ looseText ts) else .unended := by
  by_cases hq : .quote ∈ ts
  · rw [if_pos hq, if_pos (List.mem_cons_of_mem x hq)]
    rfl
  · rw [if_neg hq, if_neg (by simp [hq, hx.symm])]
    rfl

/-- A string that the reader does not break off, when its surrogates are paired, stands for the reader's text. -/
theorem denoted_of_paired {ts : List StrToken} (hts : StrTokens ts) (hbroken : ¬ Broken ts) (h : Paired ts) :
    denoted ts = if .quote ∈ ts then .string (looseText ts) else .unended := by
  fun_induction Paired ts with
  | case1 => cases hts
  | case2 b ts ih =>
    cases hts with
    | byte b hts =>
      change (denoted ts).before [b] = _
      rw [ih hts hbroken h, before_ended (x := .byte b) nofun]
      rfl
  | case3 n hn m ts ih =>
    obtain ⟨hhigh, hlow, hp⟩ := h
    cases hts with
    | code _ hts => cases hts with
      | code _ hts =>
        rw [denoted_pair ts hhigh hlow, ih hts (mt (broken_pair ts hn).mpr hbroken) hp,
          looseText_pair m ts hn, looseCode_pair hhigh hlow, before_ended (x := .code m) nofun]
        congr 1
        simp
  | case4 n ts hn hnext => exact absurd (broken_alone hn hnext) hbroken
  | case5 n ts hn ih =>
    cases hts with
    | code _ hts =>
      rw [denoted_code ts hn, ih hts (mt (broken_code ts hn).mpr hbroken) h, looseText_code ts hn,
        before_ended (x := .code n) nofun]
  | case6 x ts hbyte hcode =>
    cases hts with
    | byte b => exact absurd rfl (hbyte b)
    | code => exact absurd rfl (hcode _)
    | bad => exact absurd trivial hbroken
    | quote => rfl
    | eof => rfl

/-- The text has a NUL where a token is one. -/
theorem zero_mem_looseText {ts : List StrToken} (hts : StrTokens ts) (hbroken : ¬ Broken ts) (h : Paired ts) :
    0 ∈ looseText ts ↔ .byte 0 ∈ ts ∨ .code 0 ∈ ts := by
  fun_induction Paired ts with
  | case1 => cases hts
  | case2 b ts ih =>
    cases hts with
    | byte b hts =>
      change 0 ∈ b :: looseText ts ↔ _
      rw [List.mem_cons, ih hts hbroken h]
      simp [or_assoc]
  | case3 n hn m ts ih =>
    obtain ⟨hhigh, hlow, hp⟩ := h
    cases hts with
    | code _ hts => cases hts with
      | code _ hts =>
        have hn0 : n ≠ 0 := by
          rintro rfl
          exact absurd hhigh.1 (by decide)
        have hm0 : m ≠ 0 := by
          rintro rfl
          exact absurd hlow.1 (by decide)
        rw [looseText_pair m ts hn, List.mem_append, zero_mem_utf8 (looseCode_valid n m),
          ih hts (mt (broken_pair ts hn).mpr hbroken) hp]
        simp [looseCode_ne_zero, hn0.symm, hm0.symm]
  | case4 n ts hn hnext => exact absurd (broken_alone hn hnext) hbroken
  | case5 n ts hn ih =>
    cases hts with
    | code hlt hts =>
      rw [looseText_code ts hn, List.mem_append, zero_mem_utf8 (valid_of_not_surrogate hn hlt),
        ih hts (mt (broken_code ts hn).mpr hbroken) h]
      simp [eq_comm, or_left_comm]
  | case6 x ts hbyte hcode =>
    cases hts with
    | byte b => exact absurd rfl (hbyte b)
    | code => exact absurd rfl (hcode _)
    | bad => exact absurd trivial hbroken
    | quote => simp [looseText]
    | eof => simp [looseText]

/-! ## What the reader does -/

/-- From `i` on the reader stops with an error. -/
def Fails {α : Type} (p : JsonReader α) (i : ℕ) : Prop := ∃ e, p.run i = some (.error e)

theorem Fails.bind {α β : Type} {p : JsonReader α} {i : ℕ} (h : Fails p i) (f : α → JsonReader β) :
    Fails (p >>= f) i := by
  obtain ⟨e, he⟩ := h
  refine ⟨e, ?_⟩
  rw [StateT.run_bind, he]
  rfl

theorem Reads.fails_bind {α β : Type} {p : JsonReader α} {f : α → JsonReader β} {i j : ℕ} {a : α}
    (h : Reads p i a j) (hf : Fails (f a) j) : Fails (p >>= f) i := by
  obtain ⟨e, he⟩ := hf
  refine ⟨e, ?_⟩
  rw [StateT.run_bind, h]
  exact he

theorem fails_require {c : Prop} [Decidable c] (h : ¬ c) (msg : Bytes) (i : ℕ) :
    Fails (require text c msg) i := by
  unfold require
  rw [if_neg h]
  exact ⟨_, rfl⟩

theorem fails_hexLoop {c : Byte} {hex k i : ℕ} (h : at0 text i = c) (hd : hexDigit c = none) :
    Fails (hexLoop text (k + 1) hex) i := by
  unfold hexLoop
  refine (reads_peek i).fails_bind ?_
  rw [h, hd]
  exact ⟨_, rfl⟩

theorem hexLoop_fails {c : Byte} {d hex k i : ℕ} (h : at0 text i = c) (hd : hexDigit c = some d)
    (hrest : Fails (hexLoop text k (hex * 16 + d)) (i + 1)) : Fails (hexLoop text (k + 1) hex) i := by
  unfold hexLoop
  refine (reads_peek i).fails_bind ?_
  rw [h, hd]
  exact (reads_forward 1 i).fails_bind hrest

theorem readHex_reads {a b c d : Byte} {n i : ℕ} {s : Bytes} (h : text.drop i = a :: b :: c :: d :: s)
    (hn : hexCode a b c d = some n) : Reads (readHex text) i n (i + 4) := by
  have h1 := (drop_succ_of_drop h).2
  have h2 := (drop_succ_of_drop h1).2
  have h3 := (drop_succ_of_drop h2).2
  have hlen : i + 4 ≤ text.length := by
    have := congrArg List.length h
    simp only [List.length_drop, List.length_cons] at this
    omega
  obtain ⟨a', ha, hn⟩ := Option.bind_eq_some_iff.mp hn
  obtain ⟨b', hb, hn⟩ := Option.bind_eq_some_iff.mp hn
  obtain ⟨c', hc, hn⟩ := Option.bind_eq_some_iff.mp hn
  obtain ⟨d', hd, hn⟩ := Option.bind_eq_some_iff.mp hn
  obtain rfl := Option.some.inj hn
  refine (reads_get _).bind ((reads_require hlen _ _).bind ?_)
  refine reads_hexLoop h ha (reads_hexLoop h1 hb (reads_hexLoop h2 hc (reads_hexLoop h3 hd ?_)))
  rw [Nat.zero_mul, Nat.zero_add]
  exact reads_pure _ _

theorem readHex_fails {a b c d : Byte} {i : ℕ} {s : Bytes} (h : text.drop i = a :: b :: c :: d :: s)
    (hn : hexCode a b c d = none) : Fails (readHex text) i := by
  obtain ⟨hat, h1⟩ := drop_succ_of_drop h
  obtain ⟨hat1, h2⟩ := drop_succ_of_drop h1
  obtain ⟨hat2, h3⟩ := drop_succ_of_drop h2
  obtain ⟨hat3, -⟩ := drop_succ_of_drop h3
  have hlen : i + 4 ≤ text.length := by
    have := congrArg List.length h
    simp only [List.length_drop, List.length_cons] at this
    omega
  refine (reads_get _).fails_bind ((reads_require hlen _ _).fails_bind ?_)
  cases ha : hexDigit a with
  | none => exact fails_hexLoop hat ha
  | some a' =>
    refine hexLoop_fails hat ha ?_
    cases hb : hexDigit b with
    | none => exact fails_hexLoop hat1 hb
    | some b' =>
      refine hexLoop_fails hat1 hb ?_
      cases hc : hexDigit c with
      | none => exact fails_hexLoop hat2 hc
      | some c' =>
        refine hexLoop_fails hat2 hc ?_
        cases hd : hexDigit d with
        | none => exact fails_hexLoop hat3 hd
        | some d' => simp [hexCode, ha, hb, hc, hd] at hn

theorem readHex_cut {i : ℕ} (h : (text.drop i).length < 4) : Fails (readHex text) i := by
  rw [List.length_drop] at h
  exact (reads_get _).fails_bind ((fails_require (by omega) _ _).bind _)

/-- A unicode escape is a token, and its digits are read, or both are wrong. -/
theorem unicode_at {i : ℕ} {s : Bytes} (h : text.drop i = chr '\\' :: chr 'u' :: s) :
    (∃ n, tokens (text.drop i) = .code n :: tokens (text.drop (i + 6)) ∧ Reads (readHex text) (i + 2) n (i + 6)) ∨
      tokens (text.drop i) = [.bad] ∧ Fails (readHex text) (i + 2) := by
  have h2 : text.drop (i + 2) = s := (drop_succ_of_drop (drop_succ_of_drop h).2).2
  by_cases hlen : s.length < 4
  · refine .inr ⟨?_, readHex_cut (h2 ▸ hlen)⟩
    rw [h, tokens_cut hlen]
  · obtain ⟨a, b, c, d, s, rfl⟩ : ∃ a b c d s', s = a :: b :: c :: d :: s' := by
      match s with
      | a :: b :: c :: d :: s => exact ⟨a, b, c, d, s, rfl⟩
      | [] | [_] | [_, _] | [_, _, _] => simp at hlen
    cases hn : hexCode a b c d with
    | some n =>
      have h6 : text.drop (i + 6) = s := drop_add_of_drop (a := [a, b, c, d]) h2
      refine .inl ⟨n, ?_, readHex_reads h2 hn⟩
      rw [h, tokens_code s hn, h6]
    | none =>
      refine .inr ⟨?_, readHex_fails h2 hn⟩
      rw [h, tokens_badHex s hn]

theorem code_escaped {s : Bytes} {n : ℕ} {ts : List StrToken} (h : tokens s = .code n :: ts) :
    ∃ s', s = chr '\\' :: chr 'u' :: s' := by
  cases tokenAt s with
  | eof => cases h
  | quote s => rw [tokens_quote] at h; cases h
  | plain s hquote hback => rw [tokens_plain s hquote hback] at h; cases h
  | short s he => rw [tokens_short s he] at h; cases h
  | code s hn => exact ⟨_, rfl⟩
  | badHex s hn => exact ⟨_, rfl⟩
  | cut hlen => exact ⟨_, rfl⟩
  | other hs => rw [tokens_other hs] at h; cases h

/-- A backslash and a `u`, read in the text. -/
theorem drop_of_escape {i : ℕ} (hback : at0 text i = chr '\\') (hu : at0 text (i + 1) = chr 'u') :
    ∃ s, text.drop i = chr '\\' :: chr 'u' :: s := by
  have h0 := drop_cons_of_at0 (m := text) (i := i) (by rw [hback]; decide)
  have h1 := drop_cons_of_at0 (m := text) (i := i + 1) (by rw [hu]; decide)
  rw [hback] at h0
  rw [hu] at h1
  exact ⟨_, h0.trans (congrArg _ h1)⟩

/-- The second escape of a pair is the next token, or there is an error. -/
theorem lowSurrogate_spec (n i : ℕ) :
    (∃ m, tokens (text.drop i) = .code m :: tokens (text.drop (i + 6)) ∧
      Reads (lowSurrogate text n) i (looseCode n m) (i + 6)) ∨
    (∀ m ts, tokens (text.drop i) ≠ .code m :: ts) ∧ Fails (lowSurrogate text n) i := by
  by_cases h : at0 text i = chr '\\' ∧ at0 text (i + 1) = chr 'u'
  · obtain ⟨s, hs⟩ := drop_of_escape h.1 h.2
    rcases unicode_at hs with ⟨m, hm, hread⟩ | ⟨hbad, hfail⟩
    · refine .inl ⟨m, hm, ?_⟩
      refine (reads_get _).bind ((reads_require h _ _).bind ((reads_forward 2 i).bind (hread.bind ?_)))
      exact reads_pure _ _
    · refine .inr ⟨?_, ?_⟩
      · rw [hbad]
        nofun
      · exact (reads_get _).fails_bind ((reads_require h _ _).fails_bind
          ((reads_forward 2 i).fails_bind (hfail.bind _)))
  · refine .inr ⟨?_, (reads_get _).fails_bind ((fails_require h _ _).bind _)⟩
    intro m ts hm
    obtain ⟨s, hs⟩ := code_escaped hm
    obtain ⟨hat, h1⟩ := drop_succ_of_drop hs
    exact h ⟨hat, (drop_succ_of_drop h1).1⟩

/-- What one round of the loop does with the next token. -/
inductive CharAt (text : Bytes) (i : ℕ) : Prop
  | byte (b : Byte) {k : ℕ} (hk : i < k) (htok : tokens (text.drop i) = .byte b :: tokens (text.drop k))
      (hread : Reads (readChar text) i [b] k)
  | code {n k : ℕ} (hn : ¬ (IsHigh n ∨ IsLow n)) (hk : i < k)
      (htok : tokens (text.drop i) = .code n :: tokens (text.drop k)) (hread : Reads (readChar text) i (utf8 n) k)
  | pair {n m k : ℕ} (hn : IsHigh n ∨ IsLow n) (hk : i < k)
      (htok : tokens (text.drop i) = .code n :: .code m :: tokens (text.drop k))
      (hread : Reads (readChar text) i (utf8 (looseCode n m)) k)
  | broken (htok : Broken (tokens (text.drop i))) (hfail : Fails (readChar text) i)

theorem readUnicode_at {i : ℕ} {s : Bytes} (h : text.drop i = chr '\\' :: chr 'u' :: s) : CharAt text i := by
  obtain ⟨hat, h1⟩ := drop_succ_of_drop h
  obtain ⟨hat1, h2⟩ := drop_succ_of_drop h1
  have hstart : ∀ {t : Bytes} {k : ℕ}, Reads (readUnicode text) (i + 1) t k → Reads (readChar text) i t k := by
    intro t k hread
    refine (reads_peek i).bind ((reads_forward 1 i).bind ?_)
    rw [hat, if_pos rfl]
    refine (reads_peek (i + 1)).bind ?_
    rw [hat1, show plainEscape (chr 'u') = none from rfl]
    exact (reads_require rfl _ _).bind hread
  have hstop : Fails (readUnicode text) (i + 1) → Fails (readChar text) i := by
    intro hfail
    refine (reads_peek i).fails_bind ((reads_forward 1 i).fails_bind ?_)
    rw [hat, if_pos rfl]
    refine (reads_peek (i + 1)).fails_bind ?_
    rw [hat1, show plainEscape (chr 'u') = none from rfl]
    exact (reads_require rfl _ _).fails_bind hfail
  rcases unicode_at h with ⟨n, hn, hread⟩ | ⟨hbad, hfail⟩
  · by_cases hsur : IsHigh n ∨ IsLow n
    · have hrange : 0xD800 ≤ n ∧ n ≤ 0xDFFF := by
        unfold IsHigh IsLow at hsur
        omega
      rcases lowSurrogate_spec n (i + 6) with ⟨m, hm, hlow⟩ | ⟨hnext, hlow⟩
      · refine .pair hsur (k := i + 12) (by omega) (by rw [hn, hm]) (hstart ?_)
        refine (reads_forward 1 _).bind (hread.bind ?_)
        rw [if_pos hrange]
        refine hlow.bind ?_
        rw [unicodeToChars_eq (looseCode_valid n m)]
        exact reads_pure _ _
      · refine .broken ?_ (hstop ?_)
        · rw [hn]
          exact broken_alone hsur hnext
        · refine (reads_forward 1 _).fails_bind (hread.fails_bind ?_)
          rw [if_pos hrange]
          exact hlow.bind _
    · refine .code hsur (by omega) hn (hstart ?_)
      have hvalid : n.isValidChar := by
        have := strTokens_tokens (text.drop i)
        rw [hn] at this
        cases this with
        | code hlt => exact valid_of_not_surrogate hsur hlt
      refine (reads_forward 1 _).bind (hread.bind ?_)
      have hrange : ¬ (0xD800 ≤ n ∧ n ≤ 0xDFFF) := by
        unfold IsHigh IsLow at hsur
        omega
      rw [if_neg hrange, unicodeToChars_eq hvalid]
      exact reads_pure _ _
  · refine .broken ?_ (hstop ((reads_forward 1 _).fails_bind (hfail.bind _)))
    rw [hbad]
    trivial

theorem charAt {i : ℕ} (hi : i < text.length) (hquote : at0 text i ≠ chr '"') : CharAt text i := by
  generalize hs : text.drop i = s
  have hview := tokenAt s
  cases hview with
  | eof => exact absurd (List.drop_eq_nil_iff.mp hs) (Nat.not_le_of_lt hi)
  | quote s => exact absurd (drop_succ_of_drop hs).1 hquote
  | plain s hq hback =>
    obtain ⟨hat, h1⟩ := drop_succ_of_drop hs
    refine .byte _ (Nat.lt_succ_self i) (by rw [hs, h1, tokens_plain s hq hback]) ?_
    refine (reads_peek i).bind ((reads_forward 1 i).bind ?_)
    rw [hat, if_neg hback]
    exact reads_pure _ _
  | short s he =>
    obtain ⟨hat, h1⟩ := drop_succ_of_drop hs
    obtain ⟨hat1, h2⟩ := drop_succ_of_drop h1
    refine .byte _ (k := i + 2) (by omega) (by rw [hs, h2, tokens_short s he]) ?_
    refine (reads_peek i).bind ((reads_forward 1 i).bind ?_)
    rw [hat, if_pos rfl]
    refine (reads_peek (i + 1)).bind ?_
    rw [hat1, he]
    exact (reads_forward 1 (i + 1)).bind (reads_pure _ _)
  | code s hn => exact readUnicode_at hs
  | badHex s hn => exact readUnicode_at hs
  | cut hlen => exact readUnicode_at hs
  | @other s hother =>
    obtain ⟨hat, h1⟩ := drop_succ_of_drop hs
    refine .broken (by rw [hs, tokens_other hother]; trivial) ?_
    have hnone : plainEscape (at0 text (i + 1)) = none ∧ at0 text (i + 1) ≠ chr 'u' := by
      rcases s with _ | ⟨e, s⟩
      · rw [at0_of_drop_nil h1]
        decide
      · rw [(drop_succ_of_drop h1).1]
        exact hother e rfl
    refine (reads_peek i).fails_bind ((reads_forward 1 i).fails_bind ?_)
    rw [hat, if_pos rfl]
    refine (reads_peek (i + 1)).fails_bind ?_
    rw [hnone.1]
    exact (fails_require hnone.2 _ _).bind _

/-- The loop yields the text, or stops with an error where the string is broken. -/
structure LoopAt (text : Bytes) (fuel i : ℕ) (t : Bytes) : Prop where
  stops : Broken (tokens (text.drop i)) → Fails (escapedLoop text fuel t) i
  yields : ¬ Broken (tokens (text.drop i)) →
    ∃ k, Reads (escapedLoop text fuel t) i (t ++ looseText (tokens (text.drop i))) k

/-- A round of the loop, and the rest. -/
theorem LoopAt.round {fuel i k : ℕ} {t c : Bytes} (hmore : i < text.length ∧ at0 text i ≠ chr '"')
    (hread : Reads (readChar text) i c k)
    (hbroken : Broken (tokens (text.drop i)) ↔ Broken (tokens (text.drop k)))
    (htext : looseText (tokens (text.drop i)) = c ++ looseText (tokens (text.drop k)))
    (hrest : LoopAt text fuel k (t ++ c)) : LoopAt text (fuel + 1) i t := by
  constructor
  · intro h
    unfold escapedLoop
    refine (reads_get i).fails_bind ((reads_peek i).fails_bind ?_)
    rw [if_pos hmore]
    exact hread.fails_bind (hrest.stops (hbroken.mp h))
  · intro h
    obtain ⟨j, hj⟩ := hrest.yields (mt hbroken.mpr h)
    refine ⟨j, ?_⟩
    rw [htext, ← List.append_assoc]
    unfold escapedLoop
    refine (reads_get i).bind ((reads_peek i).bind ?_)
    rw [if_pos hmore]
    exact hread.bind hj

theorem LoopAt.finish {fuel i : ℕ} {t : Bytes} (hend : ¬ (i < text.length ∧ at0 text i ≠ chr '"')) :
    LoopAt text (fuel + 1) i t := by
  have htokens : tokens (text.drop i) = [.eof] ∨ tokens (text.drop i) = [.quote] := by
    by_cases hi : i < text.length
    · have hquote : at0 text i = chr '"' := not_not.mp fun h => hend ⟨hi, h⟩
      right
      rw [drop_cons_of_at0 (by rw [hquote]; decide), hquote, tokens_quote]
    · left
      rw [List.drop_eq_nil_of_le (Nat.not_lt.mp hi)]
      rfl
  have hread : Reads (escapedLoop text (fuel + 1) t) i t i := by
    unfold escapedLoop
    refine (reads_get i).bind ((reads_peek i).bind ?_)
    rw [if_neg hend]
    exact reads_pure t i
  constructor
  · intro h
    rcases htokens with heq | heq
    all_goals
      rw [heq] at h
      cases h
  · intro _
    have htext : looseText (tokens (text.drop i)) = [] := by
      rcases htokens with heq | heq
      all_goals
        rw [heq]
        rfl
    refine ⟨i, ?_⟩
    rw [htext, List.append_nil]
    exact hread

theorem loopAt {fuel i : ℕ} (t : Bytes) (hfuel : text.length - i < fuel) : LoopAt text fuel i t := by
  induction fuel generalizing i t with
  | zero => exact absurd hfuel (Nat.not_lt_zero _)
  | succ fuel ih =>
    by_cases hmore : i < text.length ∧ at0 text i ≠ chr '"'
    · cases charAt hmore.1 hmore.2 with
      | byte b hk htok hread =>
        refine LoopAt.round hmore hread (by rw [htok]; rfl) (by rw [htok]; rfl) (ih _ ?_)
        omega
      | code hn hk htok hread =>
        refine LoopAt.round hmore hread ?_ ?_ (ih _ (by omega))
        · rw [htok, broken_code _ hn]
        · rw [htok, looseText_code _ hn]
      | pair hn hk htok hread =>
        refine LoopAt.round hmore hread ?_ ?_ (ih _ (by omega))
        · rw [htok, broken_pair _ hn]
        · rw [htok, looseText_pair _ _ hn]
      | broken htok hfail =>
        refine ⟨fun _ => ?_, fun h => absurd htok h⟩
        unfold escapedLoop
        refine (reads_get i).fails_bind ((reads_peek i).fails_bind ?_)
        rw [if_pos hmore]
        exact hfail.bind _
    · exact .finish hmore

/-- `parse_escaped` stops with an error where the string is broken, and yields a C string of the text. -/
theorem parseEscaped_spec (τ : Type) (text : Bytes) (i : ℕ) :
    (Broken (tokens (text.drop i)) →
        Fails (parseEscaped text (text.length + 1) : JsonReader (GqlValue τ)) i) ∧
      (¬ Broken (tokens (text.drop i)) → ∃ k,
        Reads (parseEscaped text (text.length + 1) : JsonReader (GqlValue τ)) i
          (.string (cstr (looseText (tokens (text.drop i))))) k) := by
  have hloop : LoopAt text (text.length + 1) i [] := loopAt [] (by omega)
  constructor
  · intro h
    exact (hloop.stops h).bind _
  · intro h
    obtain ⟨k, hk⟩ := hloop.yields h
    exact ⟨_, hk.bind ((reads_forward 1 k).bind (reads_pure _ _))⟩

theorem cstr_eq_self_iff {t : Bytes} : cstr t = t ↔ 0 ∉ t := by
  constructor
  · intro h hzero
    rw [← h] at hzero
    exact zero_not_mem_cstr _ hzero
  · exact cstr_of_not_mem

/-- `parse_escaped` decodes a string exactly when it is broken in another way, or every unicode escape that
is taken with the next is the high half of a pair and that one its low half, and the text has no NUL. -/
theorem escapes_iff (τ : Type) (text : Bytes) (i : ℕ) :
    DecodesAt τ text i ↔ Broken (tokens (text.drop i)) ∨
      Paired (tokens (text.drop i)) ∧ NulFree (tokens (text.drop i)) := by
  obtain ⟨hstops, hyields⟩ := parseEscaped_spec τ text i
  have hts := strTokens_tokens (text.drop i)
  by_cases hbroken : Broken (tokens (text.drop i))
  · refine ⟨fun _ => .inl hbroken, fun _ => ⟨?_, fun _ => hstops hbroken⟩⟩
    intro t ht
    rw [denoted_of_broken hbroken] at ht
    cases ht
  obtain ⟨k, hk⟩ := hyields hbroken
  by_cases hpaired : Paired (tokens (text.drop i))
  · have hden := denoted_of_paired hts hbroken hpaired
    have hzero := zero_mem_looseText hts hbroken hpaired
    by_cases hquote : .quote ∈ tokens (text.drop i)
    · rw [if_pos hquote] at hden
      constructor
      · intro h
        obtain ⟨j, hj⟩ := h.right _ hden
        have hcstr := GqlValue.string.inj (hk.unique hj).1
        refine .inr ⟨hpaired, fun _ => ?_⟩
        exact not_or.mp (mt hzero.mpr (cstr_eq_self_iff.mp hcstr))
      · rintro (h | ⟨-, hnul⟩)
        · exact absurd h hbroken
        · have hfree : 0 ∉ looseText (tokens (text.drop i)) := mt hzero.mp (not_or.mpr (hnul hquote))
          rw [cstr_of_not_mem hfree] at hk
          refine ⟨?_, ?_⟩
          · intro t ht
            obtain rfl := Denoted.string.inj (hden.symm.trans ht)
            exact ⟨k, hk⟩
          · intro hwrong
            cases hden.symm.trans hwrong
    · rw [if_neg hquote] at hden
      refine ⟨fun _ => .inr ⟨hpaired, fun h => absurd h hquote⟩, fun _ => ⟨?_, ?_⟩⟩
      · intro t ht
        cases hden.symm.trans ht
      · intro hwrong
        cases hden.symm.trans hwrong
  · constructor
    · intro h
      obtain ⟨e, he⟩ := h.wrong (denoted_of_not_paired hbroken hpaired)
      cases hk.symm.trans he
    · rintro (h | ⟨h, -⟩)
      · exact absurd h hbroken
      · exact absurd h hpaired

/-- Two low surrogates are taken for a character. -/
theorem low_pair_accepted : ¬ DecodesAt Unit (bytes "\\uDC00\\uDC00\"") 0 := by
  intro h
  have hhex : hexCode (chr 'D') (chr 'C') (chr '0') (chr '0') = some 0xDC00 := by
    unfold hexCode
    rw [show hexDigit (chr 'D') = some 13 from rfl, show hexDigit (chr 'C') = some 12 from rfl,
      show hexDigit (chr '0') = some 0 from rfl]
    rfl
  have htext : (bytes "\\uDC00\\uDC00\"").drop 0 =
      chr '\\' :: chr 'u' :: chr 'D' :: chr 'C' :: chr '0' :: chr '0' ::
        chr '\\' :: chr 'u' :: chr 'D' :: chr 'C' :: chr '0' :: chr '0' :: chr '"' :: [] := rfl
  have htok : tokens ((bytes "\\uDC00\\uDC00\"").drop 0) = [.code 0xDC00, .code 0xDC00, .quote] := by
    rw [htext, tokens_code _ hhex, tokens_code _ hhex, tokens_quote]
  have hlow : IsHigh 0xDC00 ∨ IsLow 0xDC00 := by decide
  have hwrong : denoted (tokens ((bytes "\\uDC00\\uDC00\"").drop 0)) = .wrong := by
    rw [htok]
    refine denoted_surrogate _ ?_ hlow
    rintro m ts' - hpair
    exact absurd hpair.1 (by decide)
  have hbroken : ¬ Broken (tokens ((bytes "\\uDC00\\uDC00\"").drop 0)) := by
    rw [htok, broken_pair _ hlow]
    exact id
  obtain ⟨e, he⟩ := h.wrong hwrong
  obtain ⟨k, hk⟩ := (parseEscaped_spec Unit _ 0).2 hbroken
  cases hk.symm.trans he

end Json

end Agoo
