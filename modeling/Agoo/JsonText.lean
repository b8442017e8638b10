import Agoo.JsonEscapes

/-!
# JSON texts

The grammar of JSON as relations on what a text begins with and what is left of it, and the strings of it in
which no byte is escaped.
-/

namespace Agoo

namespace JsonText

/-! ## The grammar -/

/-- A value; a number is its text. -/
inductive Value
  | null
  | bool (b : Bool)
  | number (n : Bytes)
  | string (s : Bytes)
  | array (vs : List Value)
  | object (ms : List (Bytes × Value))

def isBlank (c : Byte) : Bool := c = chr ' ' ∨ c = chr '\t' ∨ c = chr '\n' ∨ c = chr '\r'

/-- A text from its first byte on that is no blank. -/
def skip (s : Bytes) : Bytes := s.dropWhile isBlank

/-- A byte that may stand in a string as it is. -/
def Unescaped (x : Byte) : Prop := x ≠ chr '"' ∧ x ≠ chr '\\' ∧ 0x20 ≤ x

instance (x : Byte) : Decidable (Unescaped x) := inferInstanceAs (Decidable (_ ∧ _ ∧ _))

/-- What is said of the bytes of a text is tried on these bytes only. -/
instance (priority := 2000) (s : Bytes) (p : Byte → Prop) [DecidablePred p] : Decidable (∀ x ∈ s, p x) :=
  List.decidableBAll p s

/-- What a string stands for, from behind its first quote on, and what is behind its last. -/
inductive StringReads : Bytes → Bytes → Bytes → Prop
  | quote (s : Bytes) : StringReads (chr '"' :: s) [] s
  | plain {x : Byte} {s d r : Bytes} (hx : Unescaped x) (h : StringReads s d r) : StringReads (x :: s) (x :: d) r
  | escape {e b : Byte} {s d r : Bytes} (he : Json.plainEscape e = some b) (h : StringReads s d r) :
      StringReads (chr '\\' :: e :: s) (b :: d) r
  | code {x₁ x₂ x₃ x₄ : Byte} {n : ℕ} {s d r : Bytes} (hn : Json.hexCode x₁ x₂ x₃ x₄ = some n)
      (hhigh : ¬ Json.IsHigh n) (hlow : ¬ Json.IsLow n) (h : StringReads s d r) :
      StringReads (chr '\\' :: chr 'u' :: x₁ :: x₂ :: x₃ :: x₄ :: s) (Json.utf8 n ++ d) r
  | pair {x₁ x₂ x₃ x₄ y₁ y₂ y₃ y₄ : Byte} {n m : ℕ} {s d r : Bytes}
      (hn : Json.hexCode x₁ x₂ x₃ x₄ = some n) (hm : Json.hexCode y₁ y₂ y₃ y₄ = some m)
      (hhigh : Json.IsHigh n) (hlow : Json.IsLow m) (h : StringReads s d r) :
      StringReads
        (chr '\\' :: chr 'u' :: x₁ :: x₂ :: x₃ :: x₄ :: chr '\\' :: chr 'u' :: y₁ :: y₂ :: y₃ :: y₄ :: s)
        (Json.utf8 (Json.pairCode n m) ++ d) r

/-- Some digits. -/
def IsDigits (ds : Bytes) : Prop := ds ≠ [] ∧ ∀ c ∈ ds, isDigit c = true

/-- A number: a sign, the digits with no zero before them, a fraction and an exponent. -/
def IsNumber (n : Bytes) : Prop :=
  ∃ sign whole frac exp, n = sign ++ whole ++ frac ++ exp ∧ (sign = [] ∨ sign = bytes "-") ∧
    (IsDigits whole ∧ (whole.head? = some (chr '0') → whole = bytes "0")) ∧
    (frac = [] ∨ ∃ ds, frac = chr '.' :: ds ∧ IsDigits ds) ∧
    (exp = [] ∨ ∃ mark sign ds, exp = mark :: sign ++ ds ∧ (mark = chr 'e' ∨ mark = chr 'E') ∧
      (sign = [] ∨ sign = bytes "+" ∨ sign = bytes "-") ∧ IsDigits ds)

mutual

/-- `ValueReads s v r`: the value `v` stands at the start of `s`, before `r`. -/
inductive ValueReads : Bytes → Value → Bytes → Prop
  | null (r : Bytes) : ValueReads (bytes "null" ++ r) .null r
  | false (r : Bytes) : ValueReads (bytes "false" ++ r) (.bool false) r
  | true (r : Bytes) : ValueReads (bytes "true" ++ r) (.bool true) r
  | number {n : Bytes} (hn : IsNumber n) (r : Bytes) : ValueReads (n ++ r) (.number n) r
  | string {s d r : Bytes} (h : StringReads s d r) : ValueReads (chr '"' :: s) (.string d) r
  | emptyArray {s r : Bytes} (h : skip s = chr ']' :: r) : ValueReads (chr '[' :: s) (.array []) r
  | array {s r : Bytes} {vs : List Value} (h : ElementsRead s vs r) : ValueReads (chr '[' :: s) (.array vs) r
  | emptyObject {s r : Bytes} (h : skip s = chr '}' :: r) : ValueReads (chr '{' :: s) (.object []) r
  | object {s r : Bytes} {ms : List (Bytes × Value)} (h : MembersRead s ms r) :
      ValueReads (chr '{' :: s) (.object ms) r

/-- The elements of an array up to its bracket. -/
inductive ElementsRead : Bytes → List Value → Bytes → Prop
  | last {s t r : Bytes} {v : Value} (h : ValueReads (skip s) v t) (hend : skip t = chr ']' :: r) :
      ElementsRead s [v] r
  | more {s t u r : Bytes} {v : Value} {vs : List Value} (h : ValueReads (skip s) v t)
      (hcomma : skip t = chr ',' :: u) (hmore : ElementsRead u vs r) : ElementsRead s (v :: vs) r

/-- The members of an object up to its brace. -/
inductive MembersRead : Bytes → List (Bytes × Value) → Bytes → Prop
  | last {s t u w x r key : Bytes} {v : Value} (hkey : skip s = chr '"' :: t) (hname : StringReads t key u)
      (hcolon : skip u = chr ':' :: w) (h : ValueReads (skip w) v x) (hend : skip x = chr '}' :: r) :
      MembersRead s [(key, v)] r
  | more {s t u w x y r key : Bytes} {v : Value} {ms : List (Bytes × Value)} (hkey : skip s = chr '"' :: t)
      (hname : StringReads t key u) (hcolon : skip u = chr ':' :: w) (h : ValueReads (skip w) v x)
      (hcomma : skip x = chr ',' :: y) (hmore : MembersRead y ms r) : MembersRead s ((key, v) :: ms) r

end

/-- A text in UTF-8. -/
def IsUtf8 (s : Bytes) : Prop := ∃ cs : List Char, cs.flatMap String.utf8EncodeChar = s

/-- `s` is the JSON text of `v`. -/
def IsJson (s : Bytes) (v : Value) : Prop := IsUtf8 s ∧ ∃ r, ValueReads (skip s) v r ∧ skip r = []

/-- The member of a name, if there is only one. -/
def Value.member (name : Bytes) : Value → Option Value
  | object ms =>
    match ms.filter (·.1 = name) with
    | [m] => some m.2
    | _ => none
  | _ => none

/-! ## Strings with nothing escaped -/

theorem stringReads_plain {m : Bytes} (h : ∀ x ∈ m, Unescaped x) (s : Bytes) :
    StringReads (m ++ chr '"' :: s) m s := by
  induction m with
  | nil => exact .quote s
  | cons x m ih => exact .plain (h x List.mem_cons_self) (ih fun x hx => h x (List.mem_cons_of_mem _ hx))

/-- A string with nothing escaped is read in one way. -/
theorem StringReads.eq_of_plain {m s d r : Bytes} (hm : ∀ x ∈ m, Unescaped x)
    (h : StringReads (m ++ chr '"' :: s) d r) : d = m ∧ r = s := by
  induction m generalizing d with
  | nil =>
    cases h with
    | quote => exact ⟨rfl, rfl⟩
    | plain hx => exact absurd rfl hx.1
  | cons x m ih =>
    obtain ⟨hquote, hslash, -⟩ := hm x List.mem_cons_self
    rw [List.cons_append] at h
    generalize hraw : x :: (m ++ chr '"' :: s) = raw at h
    cases h with
    | quote => exact absurd (List.cons.inj hraw).1 hquote
    | plain _ h =>
      obtain ⟨rfl, rfl⟩ := List.cons.inj hraw
      obtain ⟨rfl, rfl⟩ := ih (fun x hx => hm x (List.mem_cons_of_mem _ hx)) h
      exact ⟨rfl, rfl⟩
    | escape => exact absurd (List.cons.inj hraw).1 hslash
    | code => exact absurd (List.cons.inj hraw).1 hslash
    | pair => exact absurd (List.cons.inj hraw).1 hslash

/-! ## What a text begins with -/

theorem IsNumber.head {n : Bytes} (h : IsNumber n) : ∃ c n', n = c :: n' ∧ (c = chr '-' ∨ isDigit c = true) := by
  obtain ⟨sign, whole, frac, exp, rfl, hsign, ⟨⟨hne, hdigits⟩, -⟩, -⟩ := h
  rcases hsign with rfl | rfl
  · cases whole with
    | nil => exact absurd rfl hne
    | cons c whole => exact ⟨c, _, rfl, .inr (hdigits c List.mem_cons_self)⟩
  · exact ⟨chr '-', _, rfl, .inl rfl⟩

/-- The byte that a string, an array or an object starts with. -/
def Value.opening : Value → Option Byte
  | string _ => some (chr '"')
  | array _ => some (chr '[')
  | object _ => some (chr '{')
  | _ => none

theorem ValueReads.opening {c : Byte} {s r : Bytes} {v : Value} (hc : c ∈ [chr '"', chr '[', chr '{'])
    (h : ValueReads (c :: s) v r) : v.opening = some c := by
  generalize hraw : c :: s = raw at h
  have hword {d : Byte} {t : Bytes} (hd : d ∉ [chr '"', chr '[', chr '{']) (heq : c :: s = d :: t) :
      v.opening = some c := absurd hc ((List.cons.inj heq).1 ▸ hd)
  cases h with
  | null => exact hword (by decide) hraw
  | false => exact hword (by decide) hraw
  | true => exact hword (by decide) hraw
  | number hn =>
    obtain ⟨d, n', rfl, hd⟩ := hn.head
    refine hword (fun hmem => ?_) hraw
    simp only [List.mem_cons, List.not_mem_nil, or_false] at hmem
    rcases hd with rfl | hd
    · exact absurd hmem (by decide)
    · rcases hmem with rfl | rfl | rfl
      all_goals exact absurd hd (by decide)
  | string => exact congrArg some (List.cons.inj hraw).1.symm
  | emptyArray => exact congrArg some (List.cons.inj hraw).1.symm
  | array => exact congrArg some (List.cons.inj hraw).1.symm
  | emptyObject => exact congrArg some (List.cons.inj hraw).1.symm
  | object => exact congrArg some (List.cons.inj hraw).1.symm

theorem ValueReads.string_inv {s r : Bytes} {v : Value} (h : ValueReads (chr '"' :: s) v r) :
    ∃ d, v = .string d ∧ StringReads s d r := by
  have hopen := h.opening (by decide)
  generalize hraw : chr '"' :: s = raw at h
  cases h with
  | string h =>
    obtain ⟨-, rfl⟩ := List.cons.inj hraw
    exact ⟨_, rfl, h⟩
  | _ => exact absurd hopen (by simp [Value.opening, chr])

/-- The first element of an array that has one. -/
theorem ValueReads.array_first {s s' r : Bytes} {c : Byte} {v : Value} (hs : skip s = c :: s') (hc : c ≠ chr ']')
    (h : ValueReads (chr '[' :: s) v r) : ∃ x vs r', v = .array (x :: vs) ∧ ValueReads (skip s) x r' := by
  have hopen := h.opening (by decide)
  generalize hraw : chr '[' :: s = raw at h
  cases h with
  | emptyArray h =>
    obtain ⟨-, rfl⟩ := List.cons.inj hraw
    exact absurd (List.cons.inj (hs.symm.trans h)).1 hc
  | array h =>
    obtain ⟨-, rfl⟩ := List.cons.inj hraw
    cases h with
    | last h => exact ⟨_, _, _, rfl, h⟩
    | more h => exact ⟨_, _, _, rfl, h⟩
  | _ => exact absurd hopen (by simp [Value.opening, chr])

/-- The first member of an object whose name has nothing escaped. -/
theorem ValueReads.object_first {key w r : Bytes} {v : Value} (hkey : ∀ x ∈ key, Unescaped x)
    (h : ValueReads (chr '{' :: chr '"' :: (key ++ chr '"' :: chr ':' :: w)) v r) :
    ∃ x ms r', v = .object ((key, x) :: ms) ∧ ValueReads (skip w) x r' := by
  have hopen := h.opening (by decide)
  generalize hraw : chr '{' :: chr '"' :: (key ++ chr '"' :: chr ':' :: w) = raw at h
  cases h with
  | emptyObject h =>
    obtain ⟨-, rfl⟩ := List.cons.inj hraw
    exact absurd (List.cons.inj h).1 (by decide)
  | object h =>
    obtain ⟨-, rfl⟩ := List.cons.inj hraw
    cases h with
    | last hquote hname hcolon h =>
      obtain ⟨-, rfl⟩ := List.cons.inj hquote
      obtain ⟨rfl, rfl⟩ := hname.eq_of_plain hkey
      obtain ⟨-, rfl⟩ := List.cons.inj hcolon
      exact ⟨_, _, _, rfl, h⟩
    | more hquote hname hcolon h =>
      obtain ⟨-, rfl⟩ := List.cons.inj hquote
      obtain ⟨rfl, rfl⟩ := hname.eq_of_plain hkey
      obtain ⟨-, rfl⟩ := List.cons.inj hcolon
      exact ⟨_, _, _, rfl, h⟩
  | _ => exact absurd hopen (by simp [Value.opening, chr])

/-- The only member of a name is the first, if that has the name. -/
theorem Value.member_first {name : Bytes} {x y : Value} {ms : List (Bytes × Value)}
    (h : (Value.object ((name, x) :: ms)).member name = some y) : y = x := by
  unfold Value.member at h
  dsimp only at h
  rw [List.filter_cons_of_pos (by simp)] at h
  cases hms : ms.filter (·.1 = name) with
  | nil =>
    rw [hms] at h
    exact (Option.some.inj h).symm
  | cons m ms' =>
    rw [hms] at h
    cases h

/-! ## Strings that read as themselves -/

/-- What stands before a quote is not split by text without quotes. -/
theorem split_quote {p s m t : Bytes} (hp : chr '"' ∉ p) (h : p ++ s = m ++ chr '"' :: t) :
    ∃ m', m = p ++ m' ∧ s = m' ++ chr '"' :: t := by
  induction p generalizing m with
  | nil => exact ⟨m, rfl, h⟩
  | cons x p ih =>
    cases m with
    | nil => exact absurd (List.mem_cons.mpr (.inl (List.cons.inj h).1.symm)) hp
    | cons y m =>
      obtain ⟨rfl, htail⟩ := List.cons.inj h
      obtain ⟨m', rfl, hs⟩ := ih (fun hmem => hp (List.mem_cons_of_mem _ hmem)) htail
      exact ⟨m', rfl, hs⟩

theorem ne_quote_of_digit {x : Byte} {v : ℕ} (h : Json.hexDigit x = some v) : x ≠ chr '"' := by
  rintro rfl
  cases h

theorem quote_not_mem_code {x₁ x₂ x₃ x₄ : Byte} {n : ℕ} (h : Json.hexCode x₁ x₂ x₃ x₄ = some n) :
    chr '"' ∉ [chr '\\', chr 'u', x₁, x₂, x₃, x₄] := by
  obtain ⟨v₁, h₁, h⟩ := Option.bind_eq_some_iff.mp h
  obtain ⟨v₂, h₂, h⟩ := Option.bind_eq_some_iff.mp h
  obtain ⟨v₃, h₃, h⟩ := Option.bind_eq_some_iff.mp h
  obtain ⟨v₄, h₄, -⟩ := Option.bind_eq_some_iff.mp h
  simp only [List.mem_cons, List.not_mem_nil, or_false, not_or]
  exact ⟨by decide, by decide, (ne_quote_of_digit h₁).symm, (ne_quote_of_digit h₂).symm,
    (ne_quote_of_digit h₃).symm, (ne_quote_of_digit h₄).symm⟩

theorem utf8_length_le (n : ℕ) : (Json.utf8 n).length ≤ 4 := by
  unfold Json.utf8
  rw [String.length_utf8EncodeChar]
  exact Char.utf8Size_le_four _

/-- A string that starts before the end of `m` and goes on into `",` and a quote is not longer than `m`, unless
`m` ends in an open escape. -/
theorem StringReads.bound {m rest d r : Bytes}
    (h : StringReads (m ++ chr '"' :: chr ',' :: chr '"' :: rest) d r) :
    d.length ≤ m.length ∨
      d.length = m.length + 1 ∧ d.getLast? = some (chr ',') ∧ m.getLast? = some (chr '\\') := by
  generalize hraw : m ++ chr '"' :: chr ',' :: chr '"' :: rest = raw at h
  -- an induction on how the string is read, with what is left of `m` at each place
  induction h generalizing m with
  | quote s => exact .inl (Nat.zero_le _)
  | @plain x s d r hx h ih =>
    cases m with
    | nil => exact absurd (List.cons.inj hraw).1.symm hx.1
    | cons y m =>
      rcases ih (List.cons.inj hraw).2 with hle | ⟨hlen, hd, hm⟩
      · left
        simpa using hle
      · right
        refine ⟨by simp [hlen], ?_, ?_⟩
        · rw [List.getLast?_cons, hd]
          rfl
        · rw [List.getLast?_cons, hm]
          rfl
  | @escape e b s d r he h ih =>
    obtain ⟨m₁, rfl, hs⟩ := split_quote (p := [chr '\\']) (by decide) hraw.symm
    cases m₁ with
    | nil =>
      obtain ⟨rfl, rfl⟩ := List.cons.inj hs
      obtain ⟨rfl, rfl⟩ := StringReads.eq_of_plain (m := [chr ',']) (by decide) h
      exact .inr ⟨rfl, rfl, rfl⟩
    | cons y m =>
      have hih := ih (List.cons.inj hs).2.symm
      left
      simp only [List.length_cons, List.length_append, List.length_nil]
      omega
  | @code x₁ x₂ x₃ x₄ n s d r hn _ _ h ih =>
    obtain ⟨m, rfl, hs⟩ := split_quote (quote_not_mem_code hn) hraw.symm
    have hih := ih hs.symm
    have hlen := utf8_length_le n
    left
    simp only [List.length_cons, List.length_append, List.length_nil]
    omega
  | @pair x₁ x₂ x₃ x₄ y₁ y₂ y₃ y₄ n k s d r hn hm _ _ h ih =>
    obtain ⟨m₁, rfl, hs₁⟩ := split_quote (quote_not_mem_code hn) hraw.symm
    obtain ⟨m₂, rfl, hs₂⟩ := split_quote (quote_not_mem_code hm) hs₁
    have hih := ih hs₂.symm
    have hlen := utf8_length_le (Json.pairCode n k)
    left
    simp only [List.length_cons, List.length_append, List.length_nil]
    omega

/-- A string that stands for its own text has nothing escaped in it. -/
theorem StringReads.plain_of_self {m rest r : Bytes}
    (h : StringReads (m ++ chr '"' :: chr ',' :: chr '"' :: rest) m r) : ∀ x ∈ m, Unescaped x := by
  induction m with
  | nil => exact fun x hx => absurd hx List.not_mem_nil
  | cons x m ih =>
    rw [List.cons_append] at h
    generalize hraw : x :: (m ++ chr '"' :: chr ',' :: chr '"' :: rest) = raw at h
    generalize hd : x :: m = d at h
    cases h with
    | quote => cases hd
    | @plain y s d r hx h =>
      obtain ⟨rfl, rfl⟩ := List.cons.inj hraw
      obtain ⟨-, rfl⟩ := List.cons.inj hd
      intro y hy
      rcases List.mem_cons.mp hy with rfl | hy
      · exact hx
      · exact ih h y hy
    | @escape e b s d r he h =>
      obtain ⟨rfl, hs⟩ := List.cons.inj hraw
      obtain ⟨rfl, rfl⟩ := List.cons.inj hd
      cases m with
      | nil =>
        obtain ⟨rfl, -⟩ := List.cons.inj hs
        exact absurd he (by decide)
      | cons y m =>
        obtain ⟨rfl, rfl⟩ := List.cons.inj hs
        rcases h.bound with hle | ⟨hlen, hlast, hopen⟩
        · rw [List.length_cons] at hle
          omega
        · -- the string would end in a comma, and the text in the open escape
          rw [List.getLast?_cons, hopen] at hlast
          have hcomma : chr '\\' = chr ',' := Option.some.inj hlast
          exact absurd hcomma (by decide)
    | @code x₁ x₂ x₃ x₄ n s d r hn _ _ h =>
      obtain ⟨m₁, hm, hs⟩ := split_quote (m := x :: m) (quote_not_mem_code hn) hraw.symm
      rw [hs] at h
      have hbound := h.bound
      have hlen := utf8_length_le n
      have := congrArg List.length hd
      rw [hm] at this
      simp only [List.length_cons, List.length_append, List.length_nil] at this
      omega
    | @pair x₁ x₂ x₃ x₄ y₁ y₂ y₃ y₄ n k s d r hn hk _ _ h =>
      obtain ⟨m₁, hm, hs₁⟩ := split_quote (m := x :: m) (quote_not_mem_code hn) hraw.symm
      obtain ⟨m₂, rfl, hs₂⟩ := split_quote (quote_not_mem_code hk) hs₁
      rw [hs₂] at h
      have hbound := h.bound
      have hlen := utf8_length_le (Json.pairCode n k)
      have := congrArg List.length hd
      rw [hm] at this
      simp only [List.length_cons, List.length_append, List.length_nil] at this
      omega

/-! ## UTF-8 -/

theorem marked_le {mark x : ℕ} (hmark : 0x80 ≤ mark) (h : x + mark < 0x100) :
    (0x80 : Byte) ≤ .ofNat (x + mark) := by
  rw [UInt8.le_iff_toNat_le, UInt8.toNat_ofNat']
  change 128 ≤ (x + mark) % 256
  omega

/-- A character is a byte of its own, or has none below `0x80`. -/
theorem encodeChar_bytes (c : Char) :
    (∃ b < 0x80, String.utf8EncodeChar c = [b]) ∨ ∀ b ∈ String.utf8EncodeChar c, 0x80 ≤ b := by
  have hc : String.utf8EncodeChar c = Json.utf8 c.toNat := by
    unfold Json.utf8
    rw [Char.ofNat_toNat]
  have hvalid : c.toNat.isValidChar := c.valid
  rw [hc, Json.utf8_eq hvalid]
  generalize c.toNat = n
  have htail (k : ℕ) : (0x80 : Byte) ≤ .ofNat (k % 0x40 + 0x80) :=
    marked_le (by decide) (by have := Nat.mod_lt k (show 0x40 > 0 by decide); omega)
  split_ifs with h1 h2 h3
  · left
    refine ⟨_, ?_, rfl⟩
    rw [UInt8.lt_iff_toNat_lt, UInt8.toNat_ofNat']
    change n % 256 < 128
    omega
  · right
    have hhead : (0x80 : Byte) ≤ .ofNat (n / 64 % 0x20 + 0xC0) := marked_le (by decide) (by omega)
    simp only [List.forall_mem_cons]
    exact ⟨hhead, htail n, nofun⟩
  · right
    have hhead : (0x80 : Byte) ≤ .ofNat (n / 4096 % 0x10 + 0xE0) := marked_le (by decide) (by omega)
    simp only [List.forall_mem_cons]
    exact ⟨hhead, htail (n / 64), htail n, nofun⟩
  · right
    have hhead : (0x80 : Byte) ≤ .ofNat (n / 262144 % 0x08 + 0xF0) := marked_le (by decide) (by omega)
    simp only [List.forall_mem_cons]
    exact ⟨hhead, htail (n / 4096), htail (n / 64), htail n, nofun⟩

theorem IsUtf8.append {a b : Bytes} (ha : IsUtf8 a) (hb : IsUtf8 b) : IsUtf8 (a ++ b) := by
  obtain ⟨cs, rfl⟩ := ha
  obtain ⟨ds, rfl⟩ := hb
  exact ⟨cs ++ ds, List.flatMap_append⟩

theorem isUtf8_ascii {s : Bytes} (h : ∀ x ∈ s, x < 0x80) : IsUtf8 s := by
  induction s with
  | nil => exact ⟨[], rfl⟩
  | cons x s ih =>
    have hx := h x List.mem_cons_self
    have hchar : IsUtf8 [x] := by
      refine ⟨[Char.ofNat x.toNat], ?_⟩
      rw [UInt8.lt_iff_toNat_lt] at hx
      change x.toNat < 128 at hx
      change Json.utf8 x.toNat ++ [] = [x]
      rw [Json.utf8_eq (.inl (by omega)), if_pos (by omega), UInt8.ofNat_toNat]
      rfl
    exact hchar.append (ih fun x hx => h x (List.mem_cons_of_mem _ hx))

/-- A byte below `0x80` stands between two characters. -/
theorem IsUtf8.split {a t : Bytes} {q : Byte} (hq : q < 0x80) (h : IsUtf8 (a ++ q :: t)) :
    IsUtf8 a ∧ IsUtf8 t := by
  obtain ⟨cs, hcs⟩ := h
  induction cs generalizing a with
  | nil => cases a <;> cases hcs
  | cons c cs ih =>
    rw [List.flatMap_cons] at hcs
    rcases List.append_eq_append_iff.mp hcs with ⟨u, hu, hrest⟩ | ⟨u, hu, hrest⟩
    · obtain ⟨⟨ds, hds⟩, ht⟩ := ih hrest
      exact ⟨⟨c :: ds, by rw [List.flatMap_cons, hds, hu]⟩, ht⟩
    · cases u with
      | nil =>
        rw [List.append_nil] at hu
        obtain ⟨-, ht⟩ := ih (a := []) hrest.symm
        exact ⟨⟨[c], by rw [List.flatMap_cons, hu]; exact List.append_nil a⟩, ht⟩
      | cons y u =>
        obtain ⟨rfl, ht⟩ := List.cons.inj hrest
        rcases encodeChar_bytes c with ⟨b, -, hb⟩ | hall
        · rw [hb] at hu
          cases a with
          | nil =>
            obtain ⟨-, hu⟩ := List.cons.inj hu
            obtain rfl : u = [] := hu.symm
            exact ⟨⟨[], rfl⟩, cs, ht.symm⟩
          | cons z a => simp at hu
        · refine absurd (hall q ?_) (UInt8.not_le.mpr hq)
          rw [hu]
          exact List.mem_append_right _ List.mem_cons_self

end JsonText

end Agoo
