import Agoo.DocReads

/-!
# What the value reader makes of printed literals

A value printed in the schema language without indentation is read again by `agoo_doc_read_value`.
Most values that are not a number or a word come back changed or not at all: a variable is printed
with another mark than it is read with, the escapes of a string stay in it, a string that ends the
text is taken for one that is not ended.
-/

namespace Agoo

open Agoo.Parser

variable {τ σ δ φ α β : Type} {text : Bytes} {fmt : FloatLit → Bytes}

namespace SdlText

/-! ## Printed literals -/

/-- A value of an enum, which keeps its type. -/
def EnumToken : GqlValue τ → Prop
  | .token _ (some _) => True
  | _ => False

/-- Printing the value calls functions only. -/
def Callable : GqlValue τ → Prop
  | .list _ ms => ∀ m ∈ ms, ¬ EnumToken m
  | .object ms => ∀ m ∈ ms, ¬ EnumToken m.2
  | _ => True

mutual

/-- What is printed for a value when something is. -/
def sdlText (fmt : FloatLit → Bytes) : GqlValue τ → Bytes
  | .null => bytes "null"
  | .bool b => boolText b
  | .int i => intText i
  | .i64 i => intText i
  | .float f => fmt f
  | .string s => quoted s
  | .token s _ => appendJson s
  | .var s => bytes "%" ++ appendJson s
  | .list _ ms => chr '[' :: (listText fmt ms ++ [chr ']'])
  | .object ms => chr '\x7b' :: (membersText fmt ms ++ [chr '\x7d'])

def listText (fmt : FloatLit → Bytes) : List (GqlValue τ) → Bytes
  | [] => []
  | m :: ms => sdlText fmt m ++ comma ms ++ listText fmt ms

def membersText (fmt : FloatLit → Bytes) : List (Bytes × GqlValue τ) → Bytes
  | [] => []
  | (key, m) :: ms => cstr key ++ bytes ":" ++ sdlText fmt m ++ comma ms ++ membersText fmt ms

end

/-- A member of an object as it is printed. -/
def memberText (fmt : FloatLit → Bytes) (m : Bytes × GqlValue τ) : Bytes :=
  cstr m.1 ++ bytes ":" ++ sdlText fmt m.2

theorem listText_eq (ms : List (GqlValue τ)) : listText fmt ms = sepBy (sdlText fmt) ms := by
  induction ms with
  | nil => rfl
  | cons m ms ih => rw [listText, sepBy, ih]

theorem membersText_eq (ms : List (Bytes × GqlValue τ)) :
    membersText fmt ms = sepBy (memberText fmt) ms := by
  induction ms with
  | nil => rfl
  | cons m ms ih =>
    obtain ⟨key, m⟩ := m
    rw [membersText, sepBy, ih, memberText]

theorem listSdl_enum {indent d : ℤ} {m : GqlValue τ} {ms : List (GqlValue τ)} (hm : EnumToken m) :
    listSdl fmt indent d (m :: ms) = none := by
  cases m with
  | token s e =>
    cases e with
    | some e => rfl
    | none => exact absurd hm not_false
  | _ => exact absurd hm not_false

theorem listSdl_cons {indent d : ℤ} {m : GqlValue τ} {ms : List (GqlValue τ)} (hm : ¬ EnumToken m) :
    listSdl fmt indent d (m :: ms) = (do
      let one ← valueSdl fmt indent (d + 1) m
      let more ← listSdl fmt indent d ms
      return memberPad indent d ++ one ++ comma ms ++ more) := by
  cases m with
  | token s e =>
    cases e with
    | some e => exact absurd trivial hm
    | none => rfl
  | _ => rfl

theorem membersSdl_enum {indent d : ℤ} {key : Bytes} {m : GqlValue τ} {ms : List (Bytes × GqlValue τ)}
    (hm : EnumToken m) : membersSdl fmt indent d ((key, m) :: ms) = none := by
  cases m with
  | token s e =>
    cases e with
    | some e => rfl
    | none => exact absurd hm not_false
  | _ => exact absurd hm not_false

theorem membersSdl_cons {indent d : ℤ} {key : Bytes} {m : GqlValue τ} {ms : List (Bytes × GqlValue τ)}
    (hm : ¬ EnumToken m) :
    membersSdl fmt indent d ((key, m) :: ms) = (do
      let one ← valueSdl fmt indent (d + 1) m
      let more ← membersSdl fmt indent d ms
      return memberPad indent d ++ cstr key ++ (if 0 < indent then bytes ": " else bytes ":") ++
        one ++ comma ms ++ more) := by
  cases m with
  | token s e =>
    cases e with
    | some e => exact absurd trivial hm
    | none => rfl
  | _ => rfl

/-- Members are printed when each of them is, through a function. -/
theorem listSdl_iff {ms : List (GqlValue τ)} {d : ℤ} {t : Bytes}
    (ih : ∀ m ∈ ms, ∀ t, valueSdl fmt 0 (d + 1) m = some t ↔ m.All Callable ∧ t = sdlText fmt m) :
    listSdl fmt 0 d ms = some t ↔
      (∀ m ∈ ms, ¬ EnumToken m ∧ m.All Callable) ∧ t = listText fmt ms := by
  induction ms generalizing t with
  | nil => simp [listSdl, listText, eq_comm]
  | cons m ms ihms =>
    by_cases hm : EnumToken m
    · rw [listSdl_enum hm]
      simp [hm]
    · have hmore := fun t => ihms (t := t) fun u hu => ih u (.tail _ hu)
      rw [listSdl_cons hm]
      simp only [Option.bind_eq_bind, Option.bind_eq_some_iff, Option.pure_def, Option.some.injEq,
        ih m (.head _), hmore, memberPad_zero, List.nil_append, List.forall_mem_cons, hm,
        not_false_eq_true, true_and, listText]
      constructor
      · rintro ⟨one, ⟨hone, rfl⟩, more, ⟨hall, rfl⟩, rfl⟩
        exact ⟨⟨hone, hall⟩, rfl⟩
      · rintro ⟨⟨hone, hall⟩, rfl⟩
        exact ⟨_, ⟨hone, rfl⟩, _, ⟨hall, rfl⟩, rfl⟩

theorem membersSdl_iff {ms : List (Bytes × GqlValue τ)} {d : ℤ} {t : Bytes}
    (ih : ∀ m ∈ ms, ∀ t, valueSdl fmt 0 (d + 1) m.2 = some t ↔
      m.2.All Callable ∧ t = sdlText fmt m.2) :
    membersSdl fmt 0 d ms = some t ↔
      (∀ m ∈ ms, ¬ EnumToken m.2 ∧ m.2.All Callable) ∧ t = membersText fmt ms := by
  induction ms generalizing t with
  | nil => simp [membersSdl, membersText, eq_comm]
  | cons m ms ihms =>
    obtain ⟨key, m⟩ := m
    by_cases hm : EnumToken m
    · rw [membersSdl_enum hm]
      simp [hm]
    · have hmore := fun t => ihms (t := t) fun u hu => ih u (.tail _ hu)
      rw [membersSdl_cons hm, if_neg (Int.lt_irrefl 0)]
      simp only [Option.bind_eq_bind, Option.bind_eq_some_iff, Option.pure_def, Option.some.injEq,
        ih (key, m) (.head _), hmore, memberPad_zero, List.nil_append, List.forall_mem_cons, hm,
        not_false_eq_true, true_and, membersText]
      constructor
      · rintro ⟨one, ⟨hone, rfl⟩, more, ⟨hall, rfl⟩, rfl⟩
        exact ⟨⟨hone, hall⟩, rfl⟩
      · rintro ⟨⟨hone, hall⟩, rfl⟩
        exact ⟨_, ⟨hone, rfl⟩, _, ⟨hall, rfl⟩, rfl⟩

/-- What `gql_value_sdl` prints, and when it prints. -/
theorem valueSdl_iff {v : GqlValue τ} {d : ℤ} {t : Bytes} :
    valueSdl fmt 0 d v = some t ↔ v.All Callable ∧ t = sdlText fmt v := by
  have hleaf : ∀ (v : GqlValue τ) {t : Bytes}, v.nodes = [v] → Callable v →
      (some (sdlText fmt v) = some t ↔ v.All Callable ∧ t = sdlText fmt v) := by
    intro v t hv hc
    rw [GqlValue.all_of_nodes hv, Option.some.injEq, eq_comm]
    exact (and_iff_right hc).symm
  induction v using GqlValue.tree generalizing d t with
  | list item ms ih =>
    rw [valueSdl]
    simp only [Option.bind_eq_bind, Option.bind_eq_some_iff, Option.pure_def, Option.some.injEq,
      listSdl_iff (fun m hm t => ih m hm (d := d + 1) (t := t)), GqlValue.all_list, Callable,
      endPad_zero, List.append_nil, sdlText]
    constructor
    · rintro ⟨inside, ⟨hall, rfl⟩, rfl⟩
      exact ⟨⟨fun m hm => (hall m hm).1, fun m hm => (hall m hm).2⟩, rfl⟩
    · rintro ⟨⟨henum, hall⟩, rfl⟩
      exact ⟨_, ⟨fun m hm => ⟨henum m hm, hall m hm⟩, rfl⟩, rfl⟩
  | object ms ih =>
    rw [valueSdl]
    simp only [Option.bind_eq_bind, Option.bind_eq_some_iff, Option.pure_def, Option.some.injEq,
      membersSdl_iff (fun m hm t => ih m hm (d := d + 1) (t := t)), GqlValue.all_object, Callable,
      endPad_zero, List.append_nil, sdlText]
    constructor
    · rintro ⟨inside, ⟨hall, rfl⟩, rfl⟩
      exact ⟨⟨fun m hm => (hall m hm).1, fun m hm => (hall m hm).2⟩, rfl⟩
    · rintro ⟨⟨henum, hall⟩, rfl⟩
      exact ⟨_, ⟨fun m hm => ⟨henum m hm, hall m hm⟩, rfl⟩, rfl⟩
  | null => exact hleaf .null rfl trivial
  | bool b => exact hleaf (.bool b) rfl trivial
  | int i => exact hleaf (.int i) rfl trivial
  | i64 i => exact hleaf (.i64 i) rfl trivial
  | float f => exact hleaf (.float f) rfl trivial
  | string s => exact hleaf (.string s) rfl trivial
  | token s e => exact hleaf (.token s e) rfl trivial
  | var s => exact hleaf (.var s) rfl trivial

/-! ## Which literals survive -/

/-- The values that literals are built from. -/
def LiteralNode : GqlValue τ → Prop
  | .null => True
  | .bool _ => True
  | .int i => GqlValue.FitsInt i
  | .i64 i => GqlValue.FitsI64 i
  | .float _ => False
  | .string s => 0 ∉ s
  | .token s _ => IsName s
  | .var s => IsName s
  | .list _ _ => True
  | .object ms => ∀ m ∈ ms, IsName m.1

/-- The three words that are no enum values. -/
def reserved : List Bytes := [bytes "null", bytes "true", bytes "false"]

/-- The values in a list or an object that come back, when more than one byte follows them. -/
def SafeNode : GqlValue τ → Prop
  | .null => True
  | .bool _ => True
  | .int i => i ≠ -0x80000000
  | .i64 i => i.natAbs < 0x7FFFFFFFFFFFFFFF
  | .float _ => False
  | .string s => s ≠ [] ∧ ∀ b ∈ s, jsonByte b = [b]
  | .token s _ => s ∉ reserved
  | .var _ => False
  | .list _ _ => True
  | .object ms => ∀ m ∈ ms, m.1.length < 256

/-- The values that come back before one more byte, the last of the text: the empty string, too. -/
def SafeLast (v : GqlValue τ) : Prop := v = .string [] ∨ v.All SafeNode

/-- The values that come back when they are the whole text: no string. -/
def SafeText : GqlValue τ → Prop
  | .string _ => False
  | .list _ ms => (∀ m ∈ ms.dropLast, m.All SafeNode) ∧ ∀ m ∈ ms.getLast?, SafeLast m
  | .object ms => (∀ m ∈ ms, m.1.length < 256) ∧ (∀ m ∈ ms.dropLast, m.2.All SafeNode) ∧
      ∀ m ∈ ms.getLast?, SafeLast m.2
  | v => SafeNode v

/-- The values that come back in front of `n` bytes. -/
def Safe : ℕ → GqlValue τ → Prop
  | 0, v => SafeText v
  | 1, v => SafeLast v
  | _ + 2, v => v.All SafeNode

/-! ## Numbers -/

/-- `readValue` at a byte that is neither white nor begins a comment is the switch on it. -/
theorem reads_readValue {reg : Registry σ τ δ φ} {fuel i j : ℕ} {type : Option τ} {c : Byte}
    {rest : Bytes} {u : DocUser σ} {w : GqlValue τ} (h : text.drop i = c :: rest)
    (hc : isWhite c = false ∧ c ≠ chr '#') (hi : i ≤ text.length)
    (hv : Reads (valueAt reg (readValue reg fuel) fuel type ⟨i, hi⟩) i u w j) :
    Reads (readValue reg (fuel + 1) type : Parser text σ (GqlValue τ)) i u w j := by
  unfold readValue
  refine (reads_skipWhite_stay h ?_ u).bind ((reads_pos hi u).bind hv)
  rintro b ⟨⟩
  exact hc

theorem ends_readValue {reg : Registry σ τ δ φ} {fuel i j : ℕ} {type : Option τ} {c : Byte}
    {rest : Bytes} {u u' : DocUser σ} {w : GqlValue τ} (h : text.drop i = c :: rest)
    (hc : isWhite c = false ∧ c ≠ chr '#') (hi : i ≤ text.length)
    (hv : Ends (readValue reg (fuel + 1) type : Parser text σ (GqlValue τ)) i u w j u') :
    Ends (valueAt reg (readValue reg fuel) fuel type ⟨i, hi⟩) i u w j u' := by
  unfold readValue at hv
  refine (hv.after (reads_skipWhite_stay h ?_ u)).after (reads_pos hi u)
  rintro b ⟨⟩
  exact hc

/-- Digits are added up until the sum reaches the highest I64. -/
theorem digitLoop_intDigit {ds : Bytes} (rest : Bytes) {s : UInt64 × ℕ} (hds : ∀ c ∈ ds, isDigit c = true)
    (hrest : ∀ c ∈ rest.head?, isDigit c = false) (hs : s.1.toNat < 0x7FFFFFFFFFFFFFFF)
    (hfit : ds.foldl (fun a c => 10 * a + digitVal c) s.1.toNat ≤ 0x8000000000000000) :
    ((digitLoop intDigit s (ds ++ rest)).1.2 = true ↔ 0x7FFFFFFFFFFFFFFF ≤
      ds.foldl (fun a c => 10 * a + digitVal c) s.1.toNat) ∧
    (ds.foldl (fun a c => 10 * a + digitVal c) s.1.toNat < 0x7FFFFFFFFFFFFFFF →
      (digitLoop intDigit s (ds ++ rest)).1.1.1.toNat =
        ds.foldl (fun a c => 10 * a + digitVal c) s.1.toNat ∧
      (digitLoop intDigit s (ds ++ rest)).2 = ds.length) := by
  induction ds generalizing s with
  | nil =>
    have hloop : digitLoop intDigit s rest = ((s, false), 0) := by
      cases rest with
      | nil => rfl
      | cons c rest => simp [digitLoop, hrest c rfl]
    rw [List.nil_append, hloop, List.foldl_nil]
    exact ⟨by simpa using hs, fun _ => ⟨rfl, rfl⟩⟩
  | cons c ds ih =>
    rw [List.foldl_cons] at hfit ⊢
    have hle := foldl_digits_le ds (10 * s.1.toNat + digitVal c)
    have hd : digitVal c ≤ 255 := by
      have := (c - chr '0').toNat_lt
      unfold digitVal
      omega
    have hsum : (s.1 * 10 + (c - chr '0').toUInt64).toNat = 10 * s.1.toNat + digitVal c := by
      have hval : (c - chr '0').toUInt64.toNat = digitVal c := UInt8.toNat_toUInt64 _
      rw [UInt64.toNat_add, UInt64.toNat_mul, hval]
      simp only [UInt64.reduceToNat]
      omega
    have hloop : digitLoop intDigit s (c :: ds ++ rest) =
        if 0x7FFFFFFFFFFFFFFF ≤ 10 * s.1.toNat + digitVal c then
          (intDigit s (c - chr '0').toUInt64, 0)
        else
          ((digitLoop intDigit (intDigit s (c - chr '0').toUInt64).1 (ds ++ rest)).1,
            (digitLoop intDigit (intDigit s (c - chr '0').toUInt64).1 (ds ++ rest)).2 + 1) := by
      rw [List.cons_append, digitLoop, if_pos (hds c (.head _))]
      dsimp only
      have hflag : (intDigit s (c - chr '0').toUInt64).2 =
          decide (0x7FFFFFFFFFFFFFFF ≤ 10 * s.1.toNat + digitVal c) := by
        rw [← hsum]
        unfold intDigit int64Max
        simp [UInt64.le_iff_toNat_le]
      rw [hflag]
      by_cases hbig : 0x7FFFFFFFFFFFFFFF ≤ 10 * s.1.toNat + digitVal c
      · simp [hbig]
      · simp [hbig]
    have hfst : (intDigit s (c - chr '0').toUInt64).1.1.toNat = 10 * s.1.toNat + digitVal c := hsum
    rw [hloop]
    split_ifs with hbig
    · refine ⟨⟨fun _ => by omega, fun _ => ?_⟩, fun h => by omega⟩
      unfold intDigit int64Max
      rw [← hsum] at hbig
      simpa [UInt64.le_iff_toNat_le] using hbig
    · have := ih (s := (intDigit s (c - chr '0').toUInt64).1) (fun d hd => hds d (.tail _ hd))
        (by omega) (by rw [hfst]; exact hfit)
      rw [hfst] at this
      exact ⟨this.1, fun h => ⟨(this.2 h).1, by rw [(this.2 h).2, List.length_cons]⟩⟩

/-- The sign that `intText` prints. -/
theorem reads_readSign {z : ℤ} {i : ℕ} {rest : Bytes} (h : text.drop i = intText z ++ rest)
    (u : DocUser σ) :
    ∃ j, Reads (readSign : Parser text σ Bool) i u (decide (z < 0)) j ∧
      text.drop j = decimal z.natAbs ++ rest ∧
      j + (decimal z.natAbs).length = i + (intText z).length := by
  unfold intText at h ⊢
  by_cases hz : z < 0
  · rw [if_pos hz] at h ⊢
    have hcons : text.drop i = chr '-' :: (decimal z.natAbs ++ rest) := h
    refine ⟨i + 1, ?_, (drop_succ_of_drop hcons).2, ?_⟩
    · refine (reads_accept rfl hcons u).bind ?_
      rw [decide_eq_true hz]
      exact reads_pure true _ u
    · simp [bytes]
      omega
  · rw [if_neg hz] at h ⊢
    obtain ⟨d, ds, hds⟩ := List.exists_cons_of_ne_nil (decimal_ne_nil z.natAbs)
    have hd : isDigit d = true := isDigit_decimal (by rw [hds]; exact .head _)
    have hne : ∀ c, isDigit c = false → ∀ b ∈ (text.drop i).head?, b ≠ c := by
      intro c hc b hb
      rw [h, hds] at hb
      obtain rfl : d = b := by simpa using hb
      rintro rfl
      rw [hd] at hc
      cases hc
    refine ⟨i, ?_, h, rfl⟩
    rw [decide_eq_false hz]
    refine (reads_accept_not rfl (hne (chr '-') rfl) u).bind ?_
    exact (reads_accept_not rfl (hne (chr '+') rfl) u).bind (reads_pure false i u)

/-- Nothing of a fraction follows an integer. -/
theorem reads_readFraction {i : ℕ} {rest : Bytes} (h : text.drop i = rest) (hrest : Follow rest)
    (neg : Bool) (n : UInt64) (dec : ℕ) (u : DocUser σ) :
    Reads (readFraction neg n dec : Parser text σ (GqlValue τ)) i u (intValue neg n) i := by
  refine (reads_accept_not rfl ?_ u).bind (reads_pure _ i u)
  rw [h]
  intro b hb
  rcases hrest b hb with rfl | rfl | rfl <;> decide

/-- The value of an integer below the highest I64. -/
theorem intValue_eq {z : ℤ} {n : UInt64} (hn : n.toNat = z.natAbs) :
    (intValue (decide (z < 0)) n : GqlValue τ) =
      if -0x80000000 < z ∧ z ≤ 0x7FFFFFFF then .int z else .i64 z := by
  have hsize : 0x7FFFFFFF < n ↔ 0x7FFFFFFF < z.natAbs := by
    rw [UInt64.lt_iff_toNat_lt, hn]
    rfl
  have hval : (if decide (z < 0) = true then -(n.toNat : ℤ) else n.toNat) = z := by
    rw [hn]
    split
    · next hneg =>
      have := of_decide_eq_true hneg
      omega
    · next hneg =>
      have := of_decide_eq_false (Bool.not_eq_true _ ▸ hneg)
      omega
  unfold intValue
  dsimp only
  rw [hval]
  by_cases hlarge : 0x7FFFFFFF < z.natAbs
  · rw [if_pos (hsize.mpr hlarge), if_neg (by omega)]
  · rw [if_neg (fun h => hlarge (hsize.mp h)), if_pos (by omega)]

/-- What the loop over the digits of a printed integer ends with. -/
theorem digitLoop_intText {z : ℤ} {j : ℕ} {rest : Bytes} (hrest : Follow rest)
    (hz : GqlValue.FitsI64 z) (hj : text.drop j = decimal z.natAbs ++ rest) :
    ((digitLoop intDigit (0, 0) (text.drop j)).1.2 = true ↔
      0x7FFFFFFFFFFFFFFF ≤ z.natAbs) ∧
    (z.natAbs < 0x7FFFFFFFFFFFFFFF →
      (digitLoop intDigit (0, 0) (text.drop j)).1.1.1.toNat = z.natAbs ∧
      (digitLoop intDigit (0, 0) (text.drop j)).2 = (decimal z.natAbs).length) := by
  unfold GqlValue.FitsI64 at hz
  have hsum := foldl_decimal z.natAbs
  have := digitLoop_intDigit rest (s := (0, 0)) (fun c => isDigit_decimal (n := z.natAbs))
    (hrest.head rfl rfl rfl) (by decide) (by
      rw [show (0 : UInt64).toNat = 0 from rfl, hsum]
      omega)
  rw [show ((0 : UInt64), 0).1.toNat = 0 from rfl, hsum] at this
  rwa [hj]

section

variable {z : ℤ} {i : ℕ} {rest : Bytes} (h : text.drop i = intText z ++ rest)
  (hrest : Follow rest) (hz : GqlValue.FitsI64 z)

include h hrest hz

theorem reads_readNumber (hmax : z.natAbs < 0x7FFFFFFFFFFFFFFF) (u : DocUser σ) :
    Reads (readNumber : Parser text σ (GqlValue τ)) i u
      (if -0x80000000 < z ∧ z ≤ 0x7FFFFFFF then .int z else .i64 z) (i + (intText z).length) := by
  obtain ⟨j, hsign, hj, hlen⟩ := reads_readSign h u
  obtain ⟨hflag, hval⟩ := digitLoop_intText hrest hz hj
  obtain ⟨hn, hcount⟩ := hval hmax
  have hdigits : Reads (digits intDigit (0, 0) (bytes "number is too large") :
      Parser text σ (UInt64 × ℕ)) j u (digitLoop intDigit (0, 0) (text.drop j)).1.1
      (i + (intText z).length) := by
    rw [← hlen, ← hcount]
    refine (reads_advance j u).bind ?_
    rw [if_neg (by rw [hflag]; omega)]
    exact reads_pure _ _ u
  refine hsign.bind (hdigits.bind ?_)
  rw [← intValue_eq hn]
  exact reads_readFraction (drop_add_of_drop h) hrest _ _ _ u

theorem ends_readNumber {u u' : DocUser σ} {w : GqlValue τ} {k : ℕ}
    (hread : Ends (readNumber : Parser text σ (GqlValue τ)) i u w k u') :
    z.natAbs < 0x7FFFFFFFFFFFFFFF := by
  obtain ⟨j, hsign, hj, hlen⟩ := reads_readSign h u
  obtain ⟨hflag, -⟩ := digitLoop_intText hrest hz hj
  obtain ⟨r, k1, u1, hdigits, -⟩ := (hread.after hsign).split
  have hloop := hdigits.after (reads_advance j u)
  by_contra hmax
  rw [if_pos (hflag.mpr (Nat.not_lt.mp hmax))] at hloop
  exact not_ends_docErr hloop

end

/-! ## Strings -/

/-- Escapes make a string longer. -/
theorem plain_of_length_le {s : Bytes} (h : (s.flatMap jsonByte).length ≤ s.length) :
    ∀ b ∈ s, jsonByte b = [b] := by
  have hle : ∀ s : Bytes, s.length ≤ (s.flatMap jsonByte).length := length_le_flatMap_jsonByte
  induction s with
  | nil => simp
  | cons b s ih =>
    have hs := hle s
    rw [List.flatMap_cons, List.length_append, List.length_cons] at h
    obtain ⟨c, more, hc, -, hcase⟩ := jsonByte_head b
    have hlen : (jsonByte b).length = more.length + 1 := by rw [hc, List.length_cons]
    intro d hd
    rcases List.mem_cons.mp hd with rfl | hd
    · rcases hcase with rfl | hb
      · -- an escape has two bytes at least
        exfalso
        have : more ≠ [] := by
          rintro rfl
          exact jsonByte_ne_backslash d hc
        have := List.length_pos_iff.mpr this
        omega
      · exact hb
    · exact ih (by omega) d hd

/-- The quotes in a printed string are behind backslashes, so the reader goes on to the quote at its
end at least. -/
theorem simpleLen_printed (s rest : Bytes) (prev : Byte) :
    (s.flatMap jsonByte).length + 1 ≤ simpleLen prev (s.flatMap jsonByte ++ chr '"' :: rest) := by
  induction s generalizing prev with
  | nil =>
    rw [List.flatMap_nil, List.nil_append, simpleLen]
    split_ifs
    · exact Nat.le_refl 1
    · simp
  | cons b s ih =>
    rw [List.flatMap_cons, List.append_assoc, List.length_append]
    generalize (s.flatMap jsonByte).length = L at ih ⊢
    generalize s.flatMap jsonByte ++ chr '"' :: rest = X at ih ⊢
    have hstep : ∀ (c : Byte) (p : Byte) (Y : Bytes), c ≠ chr '"' ∨ p = chr '\\' →
        simpleLen p (c :: Y) = 1 + simpleLen c Y := by
      intro c p Y hc
      rw [simpleLen, if_neg]
      rintro ⟨rfl, hp⟩
      exact hc.elim (fun h => h rfl) hp
    unfold jsonByte
    cases hs : shortEscape b with
    | some e =>
      have := ih e
      have h2 : simpleLen prev (chr '\\' :: e :: X) = 1 + (1 + simpleLen e X) := by
        rw [hstep _ _ _ (Or.inl (by decide)), hstep _ _ _ (Or.inr rfl)]
      change _ ≤ simpleLen prev (chr '\\' :: e :: X)
      rw [h2, List.length_cons, List.length_singleton]
      omega
    | none =>
      by_cases hb : b < 0x20
      · simp only [if_pos hb]
        obtain ⟨x, y, hxy, hx, hy⟩ := dumpHex_no_quote hb
        have := ih y
        have h6 : simpleLen prev (bytes "\\u00" ++ dumpHex b ++ X) =
            1 + (1 + (1 + (1 + (1 + (1 + simpleLen y X))))) := by
          rw [hxy]
          change simpleLen prev
            (chr '\\' :: chr 'u' :: chr '0' :: chr '0' :: x :: y :: X) = _
          rw [hstep _ _ _ (Or.inl (by decide)), hstep _ _ _ (Or.inl (by decide)),
            hstep _ _ _ (Or.inl (by decide)), hstep _ _ _ (Or.inl (by decide)),
            hstep _ _ _ (Or.inl hx), hstep _ _ _ (Or.inl hy)]
        have hlen : (bytes "\\u00" ++ dumpHex b).length = 6 := by
          rw [hxy]
          rfl
        rw [h6, hlen]
        omega
      · simp only [if_neg hb]
        have hq : b ≠ chr '"' := by
          rintro rfl
          cases hs
        have := ih b
        change _ ≤ simpleLen prev (b :: X)
        rw [hstep _ _ _ (Or.inl hq), List.length_singleton]
        omega

/-- In a string without escapes the reader stops at the quote at its end. -/
theorem simpleLen_plain {s rest : Bytes} {prev : Byte} (h : ∀ b ∈ s, jsonByte b = [b])
    (hprev : prev ≠ chr '\\') : simpleLen prev (s ++ chr '"' :: rest) = s.length + 1 := by
  induction s generalizing prev with
  | nil => rw [List.nil_append, simpleLen, if_pos ⟨rfl, hprev⟩, List.length_nil]
  | cons b s ih =>
    have hb := h b (.head _)
    have hne : b ≠ chr '"' ∧ b ≠ chr '\\' := by
      constructor
      · rintro rfl
        exact absurd hb (by decide)
      · rintro rfl
        exact absurd hb (by decide)
    rw [List.cons_append, simpleLen, if_neg (fun hq => hne.1 hq.1),
      ih (fun c hc => h c (.tail _ hc)) hne.2, List.length_cons]
    omega

/-- How far `readString` goes where a string was printed. -/
theorem stringLen_printed {s : Bytes} (rest : Bytes) (hs : s ≠ []) :
    stringLen (chr '"' :: (s.flatMap jsonByte ++ chr '"' :: rest)) =
      (false, 1 + simpleLen (chr '"') (s.flatMap jsonByte ++ chr '"' :: rest)) := by
  obtain ⟨b, more, rfl⟩ := List.exists_cons_of_ne_nil hs
  obtain ⟨c, tail, hc, hq, -⟩ := jsonByte_head b
  have hno : ∀ pat, ¬ chr '"' :: pat <+: ((b :: more).flatMap jsonByte ++ chr '"' :: rest : Bytes) := by
    intro pat
    rw [List.flatMap_cons, hc]
    rintro ⟨t, ht⟩
    exact hq (List.cons.inj ht).1.symm
  have hone : ¬ bytes "\"" <+: (b :: more).flatMap jsonByte ++ chr '"' :: rest := hno []
  have htwo : ¬ bytes "\"\"" <+: (b :: more).flatMap jsonByte ++ chr '"' :: rest := hno [chr '"']
  rw [stringLen, if_neg htwo, if_neg hone]

/-- How far `readString` goes where the empty string was printed. -/
theorem stringLen_empty {rest : Bytes} (h : Follow rest) :
    stringLen (chr '"' :: chr '"' :: rest) = (true, 2) := by
  rw [stringLen, if_neg, if_pos ⟨rest, rfl⟩]
  rintro ⟨t, ht⟩
  have hq : rest = chr '"' :: t := ((List.cons.inj ht).2).symm
  rcases h (chr '"') (by rw [hq]; rfl) with e | e | e <;> exact absurd e (by decide)

theorem reads_createString {p j : ℕ} {quote : at0 text p = chr '"'} {v : Bytes}
    (h : stringValue text p j = some v) (hj : j ≤ text.length) (u : DocUser σ) :
    Reads (createString p quote : Parser text σ (GqlValue τ)) j u (.string v) j := by
  have hsweep : Reads (Scanner.sweep (copyString p quote) (copyString_none_iff quote) :
      Parser text σ Unit) j u () j := by
    rintro s rfl hu
    refine ⟨⟨s.cur, s.le, (copyString p quote s).1 ++ s.log, s.user⟩, ?_, rfl, hu⟩
    have hplace : (copyString p quote s).2 = some ⟨s.cur, s.le⟩ := by rw [copyString, h]; rfl
    rw [Scanner.sweep]
    dsimp only
    rw [hplace]
  refine hsweep.bind ((reads_pos hj u).bind ?_)
  rw [h, Option.getD_some]
  exact reads_pure _ _ u

theorem ends_createString {p j k : ℕ} {quote : at0 text p = chr '"'} {u u' : DocUser σ}
    {w : GqlValue τ} (h : Ends (createString p quote) j u w k u') :
    ∃ v, stringValue text p j = some v ∧ w = .string v := by
  obtain ⟨a, i1, u1, hsweep, -⟩ := h.split
  obtain ⟨s, s', rfl, hu, hrun, rfl, -⟩ := hsweep
  cases hv : stringValue text p s.cur with
  | some v =>
    have hle := s.le
    obtain ⟨rfl, -⟩ := (reads_createString hv hle u).unique h
    exact ⟨v, rfl, rfl⟩
  | none =>
    have hplace : (copyString p quote s).2 = none := by rw [copyString, hv]; rfl
    rw [Scanner.sweep] at hrun
    dsimp only at hrun
    rw [hplace] at hrun
    cases hrun

theorem valueAt_string {reg : Registry σ τ δ φ} {read : Option τ → Parser text σ (GqlValue τ)}
    {fuel : ℕ} {type : Option τ} {start : Pos text} (quote : at0 text start = chr '"') :
    valueAt reg read fuel type start = (do
      readString
      createString start quote) := by
  unfold valueAt
  dsimp only
  rw [if_neg (by rw [quote]; decide), dif_pos quote]

/-- The bytes between the quotes of a string that is not empty. -/
theorem stringValue_printed {i k : ℕ} {s rest : Bytes} (hs : s ≠ [])
    (h : text.drop i = chr '"' :: (s.flatMap jsonByte ++ chr '"' :: rest)) (hk : 1 < k) :
    stringValue text i (i + 1 + k) = some ((text.drop (i + 1)).take (k - 1)) := by
  obtain ⟨b, more, rfl⟩ := List.exists_cons_of_ne_nil hs
  obtain ⟨c, tail, hc, hq, -⟩ := jsonByte_head b
  have hat : at0 text (i + 1) = c := by
    have h1 := (drop_succ_of_drop h).2
    rw [List.flatMap_cons, hc] at h1
    exact (drop_succ_of_drop h1).1
  unfold stringValue stringBounds
  rw [hat, if_neg hq]
  dsimp only
  rw [if_pos (by omega), List.drop_take, show i + 1 + k - 1 - (i + 1) = k - 1 by omega]

section

variable {reg : Registry σ τ δ φ} {read : Option τ → Parser text σ (GqlValue τ)} {fuel : ℕ}
  {type : Option τ} {s rest : Bytes} {i : ℕ} {u u' : DocUser σ}

/-- A string without escapes, with something behind it, is read as it is. -/
theorem reads_string (hs : s ≠ []) (hplain : ∀ b ∈ s, jsonByte b = [b]) (hrest : rest ≠ [])
    (h : text.drop i = chr '"' :: (s ++ chr '"' :: rest)) (hi : i ≤ text.length) :
    Reads (valueAt reg read fuel type ⟨i, hi⟩) i u (.string s) (i + s.length + 2) := by
  have hprinted : text.drop i = chr '"' :: (s.flatMap jsonByte ++ chr '"' :: rest) := by
    rw [h, flatMap_jsonByte_plain hplain]
  have hlen := congrArg List.length h
  have hpos := List.length_pos_iff.mpr hrest
  have hspos := List.length_pos_iff.mpr hs
  simp only [List.length_drop, List.length_cons, List.length_append] at hlen
  have hcount : (stringLen (text.drop i)).2 = s.length + 2 := by
    rw [hprinted, stringLen_printed _ hs, flatMap_jsonByte_plain hplain,
      simpleLen_plain hplain (by decide)]
    dsimp only
    omega
  have hread : Reads (readString : Parser text σ Unit) i u () (i + s.length + 2) := by
    rw [Nat.add_assoc, ← hcount]
    refine (reads_advance i u).bind ((reads_pos (by omega) u).bind ?_)
    exact reads_require (Or.inr (by dsimp only; omega)) _ _ u
  rw [valueAt_string (drop_succ_of_drop h).1]
  refine hread.bind (reads_createString ?_ (by omega) u)
  have hval := stringValue_printed (k := s.length + 1) hs hprinted (by omega)
  rw [(drop_succ_of_drop h).2, Nat.add_sub_cancel, List.take_left] at hval
  rwa [show i + s.length + 2 = i + 1 + (s.length + 1) by omega]

/-- A string that is not empty was read as it is: it had no escapes, and something behind it. -/
theorem ends_string {j : ℕ} (hs : s ≠ [])
    (h : text.drop i = chr '"' :: (s.flatMap jsonByte ++ chr '"' :: rest)) (hi : i ≤ text.length)
    (hread : Ends (valueAt reg read fuel type ⟨i, hi⟩) i u (.string s) j u') :
    (∀ b ∈ s, jsonByte b = [b]) ∧ rest ≠ [] := by
  have hlen := congrArg List.length h
  simp only [List.length_drop, List.length_cons, List.length_append] at hlen
  have hcount := stringLen_printed rest hs
  have hge := simpleLen_printed s rest (chr '"')
  have hle := stringLen_le (text.drop i)
  rw [← h] at hcount
  rw [hcount, h] at hle
  simp only [List.length_cons, List.length_append] at hle
  generalize simpleLen (chr '"') (s.flatMap jsonByte ++ chr '"' :: rest) = k at hcount hge hle
  have hspos := List.length_pos_iff.mpr hs
  have hmore := length_le_flatMap_jsonByte s
  rw [valueAt_string (drop_succ_of_drop h).1] at hread
  obtain ⟨x, i1, u1, hstr, hcreate⟩ := hread.split
  have hreq := hstr.after (reads_advance i u)
  rw [hcount] at hreq
  have hplace : i + (1 + k) ≤ text.length := by omega
  have hend := hreq.after (reads_pos hplace u)
  obtain ⟨rfl, rfl, rfl⟩ := (reads_require hend.require _ _ u).unique hend
  have hlt : i + (1 + k) < text.length := hend.require.resolve_left Bool.false_ne_true
  obtain ⟨v, hv, hsv⟩ := ends_createString hcreate
  obtain rfl : s = v := GqlValue.string.inj hsv
  rw [← Nat.add_assoc, stringValue_printed hs h (by omega)] at hv
  have hk : s.length = k - 1 := by
    have := congrArg List.length (Option.some.inj hv)
    rw [List.length_take, List.length_drop] at this
    omega
  have hplain := plain_of_length_le (s := s) (by omega)
  refine ⟨hplain, ?_⟩
  rintro rfl
  rw [flatMap_jsonByte_plain hplain] at hlen
  simp only [List.length_nil] at hlen
  omega

/-- The bounds that `agoo_doc_read_value` takes for the empty string. -/
theorem stringValue_empty (h : text.drop i = chr '"' :: chr '"' :: rest) :
    stringValue text i (i + 2) =
      if rest = [] then none else some (cstr (rest.drop 1)) := by
  have h2 := (drop_succ_of_drop (drop_succ_of_drop h).2).2
  have hat := (drop_succ_of_drop (drop_succ_of_drop h).2).1
  have hlen := congrArg List.length h
  simp only [List.length_drop, List.length_cons] at hlen
  unfold stringValue stringBounds
  rw [if_pos hat]
  dsimp only
  rw [if_neg (by omega)]
  cases rest with
  | nil => rw [if_pos (by simp only [List.length_nil] at hlen; omega), if_pos rfl]
  | cons c rest =>
    rw [if_neg (by simp only [List.length_cons] at hlen; omega), if_neg (List.cons_ne_nil c rest),
      ← h2, List.drop_drop]

/-- The empty string is read as one when a single byte follows it. -/
theorem reads_empty (hfollow : Follow rest) (hrest : rest.length = 1)
    (h : text.drop i = chr '"' :: chr '"' :: rest) (hi : i ≤ text.length) :
    Reads (valueAt reg read fuel type ⟨i, hi⟩) i u (.string []) (i + 2) := by
  obtain ⟨c, rfl⟩ := List.length_eq_one_iff.mp hrest
  have hlen := congrArg List.length h
  simp only [List.length_drop, List.length_cons, List.length_nil] at hlen
  have hcount : stringLen (text.drop i) = (true, 2) := by rw [h, stringLen_empty hfollow]
  have hread : Reads (readString : Parser text σ Unit) i u () (i + 2) := by
    have hstep : Reads (advance stringLen stringLen_le : Parser text σ Bool) i u
        (stringLen (text.drop i)).1 (i + (stringLen (text.drop i)).2) := reads_advance i u
    rw [hcount] at hstep
    exact hstep.bind ((reads_pos (by omega) u).bind (reads_require (Or.inl rfl) _ _ u))
  rw [valueAt_string (drop_succ_of_drop h).1]
  refine hread.bind (reads_createString ?_ (by omega) u)
  rw [stringValue_empty h, if_neg (List.cons_ne_nil c [])]
  rfl

/-- The empty string was read as one: a single byte followed it. -/
theorem ends_empty {j : ℕ} (hfollow : Follow rest) (hzero : 0 ∉ rest)
    (h : text.drop i = chr '"' :: chr '"' :: rest) (hi : i ≤ text.length)
    (hread : Ends (valueAt reg read fuel type ⟨i, hi⟩) i u (.string []) j u') :
    rest.length = 1 := by
  have hcount : stringLen (text.drop i) = (true, 2) := by rw [h, stringLen_empty hfollow]
  have hle := stringLen_le (text.drop i)
  have hlen : (text.drop i).length = text.length - i := List.length_drop
  rw [hcount] at hle
  rw [valueAt_string (drop_succ_of_drop h).1] at hread
  obtain ⟨x, i1, u1, hstr, hcreate⟩ := hread.split
  have hreq := hstr.after (reads_advance i u)
  rw [hcount] at hreq
  have hplace : i + 2 ≤ text.length := by
    have := congrArg List.length h
    simp only [List.length_drop, List.length_cons] at this
    omega
  have hend := hreq.after (reads_pos hplace u)
  obtain ⟨rfl, rfl, rfl⟩ := (reads_require (Or.inl rfl) _ _ u).unique hend
  obtain ⟨v, hv, hsv⟩ := ends_createString hcreate
  obtain rfl : [] = v := GqlValue.string.inj hsv
  rw [stringValue_empty h] at hv
  split_ifs at hv with hnil
  obtain ⟨c, more, rfl⟩ := List.exists_cons_of_ne_nil hnil
  have hmore : cstr more = [] := Option.some.inj hv
  rw [cstr_of_not_mem (fun h0 => hzero (.tail _ h0))] at hmore
  rw [hmore]
  rfl

/-! ## Words -/

theorem name_head_table : ∀ k < 256, isToken (UInt8.ofNat k) = true → chr '9' < UInt8.ofNat k →
    UInt8.ofNat k ∉ bytes "$\"-+[\x7b#" ∧ isDigit (UInt8.ofNat k) = false ∧
      isWhite (UInt8.ofNat k) = false := by decide +kernel

/-- What a name does not begin with. -/
theorem name_head {c : Byte} (h : isToken c = true) (h9 : chr '9' < c) :
    c ∉ bytes "$\"-+[\x7b#" ∧ isDigit c = false ∧ isWhite c = false := by
  have := name_head_table c.toNat c.toNat_lt
  rw [UInt8.ofNat_toNat] at this
  exact this h h9

/-- The switch at a name. -/
theorem valueAt_name {c : Byte} (hat : at0 text i = c) (htok : isToken c = true)
    (h9 : chr '9' < c) (hi : i ≤ text.length) :
    valueAt reg read fuel type ⟨i, hi⟩ =
      if c = chr 'n' then readWord reg type (bytes "null") .null
      else if c = chr 't' then readWord reg type (bytes "true") (.bool true)
      else if c = chr 'f' then readWord reg type (bytes "false") (.bool false)
      else readToken >>= fun _ => createToken reg type ⟨i, hi⟩ := by
  obtain ⟨hnot, hdig, -⟩ := name_head htok h9
  have hne : ∀ b ∈ bytes "$\"-+[\x7b#", c ≠ b := by
    rintro b hb rfl
    exact hnot hb
  unfold valueAt
  dsimp only
  rw [if_neg (by rw [hat]; exact hne _ (by decide)), dif_neg (by rw [hat]; exact hne _ (by decide)),
    hat, if_neg]
  · split_ifs with h1 h2 h3 h4 h5
    · rfl
    · rfl
    · rfl
    · exact absurd h4 (hne _ (by decide))
    · exact absurd h5 (hne _ (by decide))
    · rfl
  · rintro (h | h | h)
    · exact hne _ (by decide) h
    · exact hne _ (by decide) h
    · rw [hdig] at h
      cases h

theorem reads_askReg (f : σ → α) (i : ℕ) (u : DocUser σ) :
    Reads (askReg f : Parser text σ α) i u (f u.reg) i := by
  rintro s rfl rfl
  exact ⟨s, rfl, rfl, rfl⟩

/-- The token that was read from `i` on. -/
theorem reads_createToken {word : Bytes} (hword : word ≠ []) (h : text.drop i = word ++ rest)
    (hi : i ≤ text.length) :
    Reads (createToken reg none ⟨i, hi⟩ : Parser text σ (GqlValue τ)) (i + word.length) u
      (.token word none) (i + word.length) := by
  have hlen := congrArg List.length h
  rw [List.length_drop, List.length_append] at hlen
  have hcreated : created text i (i + word.length - i) = word := by
    rw [Nat.add_sub_cancel_left, created, if_neg (by simpa using hword), h, List.take_left]
  refine (reads_pos (by omega) u).bind ?_
  change Reads (askReg fun r => GqlValue.token (created text i (i + word.length - i))
    ((none : Option τ).filter fun t => reg.kind r t = .enum)) _ _ _ _
  rw [hcreated]
  exact reads_askReg _ _ u

/-- A word that begins as `lit` does. -/
theorem reads_readWord {word lit : Bytes} {value : GqlValue τ} (hname : IsName word)
    (h : text.drop i = word ++ rest) (hi : i ≤ text.length)
    (hrest : ∀ b ∈ rest.head?, isToken b = false) :
    Reads (readWord reg none lit value : Parser text σ (GqlValue τ)) i u
      (if word = lit then value else .token word none) (i + word.length) := by
  have hne : word ≠ [] := by
    obtain ⟨c, more, rfl, -⟩ := hname
    exact List.cons_ne_nil c more
  refine (reads_pos hi u).bind ((reads_readToken h hname hrest u).bind ?_)
  refine (reads_since h hi u).bind ?_
  split_ifs with hlit
  · exact reads_pure value _ u
  · exact reads_createToken hne h hi

/-- A name is read as the word it is. -/
theorem reads_name {word : Bytes} (hname : IsName word) (h : text.drop i = word ++ rest)
    (hi : i ≤ text.length) (hrest : ∀ b ∈ rest.head?, isToken b = false) :
    Reads (valueAt reg read fuel none ⟨i, hi⟩ : Parser text σ (GqlValue τ)) i u
      (if word = bytes "null" then .null else if word = bytes "true" then .bool true
        else if word = bytes "false" then .bool false else .token word none)
      (i + word.length) := by
  obtain ⟨c, more, hcons, h9, htok⟩ := hname
  have hat : at0 text i = c := by
    rw [hcons] at h
    exact (drop_succ_of_drop h).1
  have hne : word ≠ [] := by
    rw [hcons]
    exact List.cons_ne_nil c more
  have hname : IsName word := ⟨c, more, hcons, h9, htok⟩
  have hfirst : ∀ lit d tail, lit = d :: tail → c ≠ d → word ≠ lit := by
    rintro lit d tail rfl hcd rfl
    exact hcd (List.cons.inj hcons).1.symm
  rw [valueAt_name hat (htok c (by rw [hcons]; exact .head _)) h9 hi]
  have hword : ∀ lit (value : GqlValue τ),
      Reads (readWord reg none lit value : Parser text σ (GqlValue τ)) i u
        (if word = lit then value else .token word none) (i + word.length) :=
    fun lit value => reads_readWord hname h hi hrest
  by_cases hn : c = chr 'n'
  · rw [if_pos hn, if_neg (hfirst (bytes "true") (chr 't') _ rfl (by rw [hn]; decide)),
      if_neg (hfirst (bytes "false") (chr 'f') _ rfl (by rw [hn]; decide))]
    exact hword _ _
  · rw [if_neg hn, if_neg (hfirst (bytes "null") (chr 'n') _ rfl hn)]
    by_cases ht : c = chr 't'
    · rw [if_pos ht, if_neg (hfirst (bytes "false") (chr 'f') _ rfl (by rw [ht]; decide))]
      exact hword _ _
    · rw [if_neg ht, if_neg (hfirst (bytes "true") (chr 't') _ rfl ht)]
      by_cases hf : c = chr 'f'
      · rw [if_pos hf]
        exact hword _ _
      · rw [if_neg hf, if_neg (hfirst (bytes "false") (chr 'f') _ rfl hf)]
        exact (reads_readToken h hname hrest u).bind (reads_createToken hne h hi)

end

/-! ## Members -/

/-- How printed things of type `β` are read by `read`: those that are good in front of what follows
come back as `back` says, and the others not as what they were. -/
structure Undoes (text : Bytes) (txt : β → Bytes) (good : ℕ → β → Prop) (back : β → α)
    (same : β → α → Prop) (read : Parser text σ α) (b : β) : Prop where
  reads : ∀ {i rest} (u : DocUser σ), text.drop i = txt b ++ rest → Follow rest → 0 ∉ rest →
    good rest.length b → Reads read i u (back b) (i + (txt b).length)
  good : ∀ {i rest a j} {u u' : DocUser σ}, text.drop i = txt b ++ rest → Follow rest → 0 ∉ rest →
    Ends read i u a j u' → same b a → good rest.length b

/-- Each member is good in front of what follows it, when `n` bytes follow the last. -/
def AllGood (txt : β → Bytes) (good : ℕ → β → Prop) (n : ℕ) : List β → Prop
  | [] => True
  | b :: bs => good ((comma bs).length + (sepBy txt bs).length + n) b ∧ AllGood txt good n bs

/-- The body of a loop over members reads one with `read` and puts it last. -/
structure Appends (body : List α → Parser text σ (List α)) (read : Parser text σ α) : Prop where
  reads : ∀ {ms i j a} {u : DocUser σ}, Reads read i u a j → Reads (body ms) i u (ms ++ [a]) j
  ends : ∀ {ms as i j} {u u' : DocUser σ}, Ends (body ms) i u as j u' →
    ∃ a, as = ms ++ [a] ∧ Ends read i u a j u'

section

variable {txt : β → Bytes} {good : ℕ → β → Prop} {back : β → α} {same : β → α → Prop}
  {read : Parser text σ α} {body : List α → Parser text σ (List α)} {close : Byte} {lit : Bytes}

/-- A byte that neither is skipped nor closes. -/
def Opens (close c : Byte) : Prop := isWhite c = false ∧ c ≠ chr '#' ∧ c ≠ close

/-- A comma before a member is skipped. -/
theorem reads_skip_lead {i : ℕ} {lead rest : Bytes} {c : Byte}
    (h : text.drop i = lead ++ c :: rest) (hlead : lead = [] ∨ lead = bytes ",")
    (hw : isWhite c = false) (hc : c ≠ chr '#') (u : DocUser σ) :
    ∃ n, Reads (skipWhite : Parser text σ ℕ) i u n (i + lead.length) := by
  rcases hlead with rfl | rfl
  · refine ⟨0, reads_skipWhite_stay h ?_ u⟩
    rintro b ⟨⟩
    exact ⟨hw, hc⟩
  · exact ⟨1, reads_skipWhite_comma h hw hc u⟩

/-- The round that finds the closing byte. -/
theorem reads_close {i k : ℕ} {rest : Bytes} {ms : List α} (hlit : lit = [close])
    (h : text.drop i = close :: rest) (hw : isWhite close = false) (hc : close ≠ chr '#')
    (u : DocUser σ) : Reads (membersTo lit body (k + 1) ms) i u ms (i + 1) := by
  have hlt : i < text.length := by
    by_contra hge
    rw [List.drop_eq_nil_iff.mpr (Nat.not_lt.mp hge)] at h
    cases h
  have hskip : Reads (skipWhite : Parser text σ ℕ) i u 0 i := by
    refine reads_skipWhite_stay h ?_ u
    rintro b ⟨⟩
    exact ⟨hw, hc⟩
  unfold membersTo Scanner.whileLt
  refine (reads_pos hlt.le u).bind ?_
  rw [if_neg (Nat.not_le.mpr hlt)]
  refine Reads.bind (hskip.bind ((reads_accept hlit h u).bind (reads_pure (true, ms) _ u))) ?_
  exact reads_pure ms _ u

/-- A round that reads a member, and the rounds after it. -/
theorem reads_round {i j q k : ℕ} {lead rest : Bytes} {c : Byte} {a : α} {ms as : List α}
    {u : DocUser σ} (hlit : lit = [close]) (hbody : Appends body read)
    (h : text.drop i = lead ++ c :: rest) (hlead : lead = [] ∨ lead = bytes ",")
    (hc : Opens close c) (hread : Reads read (i + lead.length) u a j)
    (hmore : Reads (membersTo lit body k (ms ++ [a])) j u as q) :
    Reads (membersTo lit body (k + 1) ms) i u as q := by
  obtain ⟨n, hskip⟩ := reads_skip_lead h hlead hc.1 hc.2.1 u
  have hlt : i < text.length := lt_of_drop h
  have hnot : Reads (accept lit : Parser text σ Bool) (i + lead.length) u false (i + lead.length) := by
    refine reads_accept_not hlit ?_ u
    rw [drop_add_of_drop h]
    rintro b ⟨⟩
    exact hc.2.2
  unfold membersTo Scanner.whileLt
  refine (reads_pos hlt.le u).bind ?_
  rw [if_neg (Nat.not_le.mpr hlt)]
  refine Reads.bind (hskip.bind (hnot.bind ((hbody.reads hread).bind (reads_pure _ _ u)))) ?_
  exact hmore

/-- A round that ended read a member, and the rounds after it ended. -/
theorem ends_round {i q k : ℕ} {lead rest : Bytes} {c : Byte} {ms as : List α}
    {u u' : DocUser σ} (hlit : lit = [close]) (hbody : Appends body read)
    (h : text.drop i = lead ++ c :: rest) (hlead : lead = [] ∨ lead = bytes ",")
    (hc : Opens close c) (hends : Ends (membersTo lit body (k + 1) ms) i u as q u') :
    ∃ a j u1, Ends read (i + lead.length) u a j u1 ∧
      Ends (membersTo lit body k (ms ++ [a])) j u1 as q u' := by
  obtain ⟨n, hskip⟩ := reads_skip_lead h hlead hc.1 hc.2.1 u
  have hlt : i < text.length := lt_of_drop h
  have hnot : Reads (accept lit : Parser text σ Bool) (i + lead.length) u false (i + lead.length) := by
    refine reads_accept_not hlit ?_ u
    rw [drop_add_of_drop h]
    rintro b ⟨⟩
    exact hc.2.2
  unfold membersTo Scanner.whileLt at hends
  have hround := hends.after (reads_pos hlt.le u)
  rw [if_neg (Nat.not_le.mpr hlt)] at hround
  obtain ⟨r, j, u1, hone, hrest⟩ := hround.split
  obtain ⟨ms', j', u2, hms, hpure⟩ := ((hone.after hskip).after hnot).split
  obtain ⟨a, rfl, hread⟩ := hbody.ends hms
  obtain ⟨rfl, rfl, rfl⟩ := (reads_pure (false, ms ++ [a]) j' u2).unique hpure
  exact ⟨a, j, u1, hread, hrest⟩

/-- The loop only adds to the members it has. -/
theorem membersTo_more {i j fuel : ℕ} {ms as : List α} {u u' : DocUser σ}
    (hbody : Appends body read) (h : Ends (membersTo lit body fuel ms) i u as j u') :
    ∃ more, as = ms ++ more := by
  induction fuel generalizing i ms u with
  | zero =>
    obtain ⟨s, s', -, -, hrun, -⟩ := h
    cases hrun
  | succ k ih =>
    unfold membersTo Scanner.whileLt at h
    obtain ⟨p, i1, u1, -, h⟩ := h.split
    split_ifs at h
    · obtain ⟨rfl, -⟩ := (reads_pure ms i1 u1).unique h
      exact ⟨[], (List.append_nil _).symm⟩
    · obtain ⟨r, i2, u2, hone, h⟩ := h.split
      obtain ⟨n, i3, u3, -, hone⟩ := hone.split
      obtain ⟨closed, i4, u4, -, hone⟩ := hone.split
      split_ifs at hone
      · obtain ⟨rfl, rfl, rfl⟩ := (reads_pure (true, ms) i4 u4).unique hone
        obtain ⟨rfl, -⟩ := (reads_pure ms i2 u2).unique h
        exact ⟨[], (List.append_nil _).symm⟩
      · obtain ⟨ms', i5, u5, hms, hpure⟩ := hone.split
        obtain ⟨a, rfl, -⟩ := hbody.ends hms
        obtain ⟨rfl, rfl, rfl⟩ := (reads_pure (false, ms ++ [a]) i5 u5).unique hpure
        obtain ⟨more, rfl⟩ := ih h
        exact ⟨a :: more, by rw [List.append_assoc, List.singleton_append]⟩

/-- What the members before the closing byte are followed by. -/
theorem members_cons {b : β} {bs : List β} {rest : Bytes} {i : ℕ} {lead : Bytes}
    (h : text.drop i = lead ++ (sepBy txt (b :: bs) ++ close :: rest)) :
    text.drop (i + lead.length) = txt b ++ (comma bs ++ sepBy txt bs ++ close :: rest) := by
  rw [drop_add_of_drop h, sepBy]
  simp

/-- Good members are read as they were. -/
theorem reads_membersTo {i fuel : ℕ} {bs : List β} {rest lead : Bytes} {ms : List α}
    (hlit : lit = [close]) (hclose : close = chr ']' ∨ close = chr '}')
    (hbody : Appends body read) (hund : ∀ b ∈ bs, Undoes text txt good back same read b)
    (hhead : ∀ b ∈ bs, ∃ c more, txt b = c :: more ∧ Opens close c)
    (hgood : AllGood txt good (rest.length + 1) bs) (hzero : 0 ∉ sepBy txt bs ++ close :: rest)
    (h : text.drop i = lead ++ (sepBy txt bs ++ close :: rest))
    (hlead : lead = [] ∨ lead = comma bs) (hfuel : bs.length < fuel) (u : DocUser σ) :
    Reads (membersTo lit body fuel ms) i u (ms ++ bs.map back)
      (i + lead.length + (sepBy txt bs).length + 1) := by
  induction bs generalizing i fuel lead ms with
  | nil =>
    obtain ⟨k, rfl⟩ : ∃ k, fuel = k + 1 := ⟨fuel - 1, by omega⟩
    obtain rfl : lead = [] := hlead.elim id id
    have hcw : isWhite close = false ∧ close ≠ chr '#' := by
      rcases hclose with rfl | rfl <;> decide
    rw [List.map_nil, List.append_nil]
    exact reads_close hlit h hcw.1 hcw.2 u
  | cons b bs ih =>
    obtain ⟨k, rfl⟩ : ∃ k, fuel = k + 1 := ⟨fuel - 1, by omega⟩
    obtain ⟨c, more, hc, hopens⟩ := hhead b (.head _)
    have hb := members_cons h
    have hcons : text.drop i = lead ++ c :: (more ++ (comma bs ++ sepBy txt bs ++ close :: rest)) := by
      rw [h, sepBy, hc]
      simp
    have hzero' : 0 ∉ comma bs ++ sepBy txt bs ++ close :: rest := by
      intro h0
      refine hzero ?_
      rw [sepBy, List.append_assoc, List.append_assoc, ← List.append_assoc (comma bs)]
      exact List.mem_append_right _ h0
    have hread := (hund b (.head _)).reads u hb (follow_comma txt bs hclose rest) hzero' (by
      rw [List.length_append, List.length_append, List.length_cons]
      exact hgood.1)
    have hmore : Reads (membersTo lit body k (ms ++ [back b])) _ u
        (ms ++ [back b] ++ bs.map back) _ := ih (fun d hd => hund d (.tail _ hd))
      (fun d hd => hhead d (.tail _ hd)) hgood.2
      (fun h0 => hzero' (by rw [List.append_assoc]; exact List.mem_append_right _ h0))
      (by rw [drop_add_of_drop hb, List.append_assoc]) (Or.inr rfl)
      (Nat.lt_of_succ_lt_succ hfuel)
    have := reads_round hlit hbody hcons hlead hopens hread hmore
    rw [List.append_assoc, List.singleton_append, ← List.map_cons] at this
    rw [sepBy, List.length_append, List.length_append]
    rwa [show i + lead.length + (txt b).length + (comma bs).length + (sepBy txt bs).length + 1 =
      i + lead.length + ((txt b).length + (comma bs).length + (sepBy txt bs).length) + 1 by omega]
      at this

/-- Members that came back as they were are good. -/
theorem good_of_membersTo {i j fuel : ℕ} {bs : List β} {rest lead : Bytes} {ms as : List α}
    {u u' : DocUser σ} (hlit : lit = [close]) (hclose : close = chr ']' ∨ close = chr '}')
    (hbody : Appends body read) (hund : ∀ b ∈ bs, Undoes text txt good back same read b)
    (hhead : ∀ b ∈ bs, ∃ c more, txt b = c :: more ∧ Opens close c)
    (hzero : 0 ∉ sepBy txt bs ++ close :: rest)
    (h : text.drop i = lead ++ (sepBy txt bs ++ close :: rest))
    (hlead : lead = [] ∨ lead = comma bs)
    (hends : Ends (membersTo lit body fuel ms) i u (ms ++ as) j u')
    (hsame : List.Forall₂ same bs as) : AllGood txt good (rest.length + 1) bs := by
  induction bs generalizing i fuel lead ms as u with
  | nil => trivial
  | cons b bs ih =>
    obtain ⟨k, rfl⟩ : ∃ k, fuel = k + 1 := by
      cases fuel with
      | zero =>
        obtain ⟨s, s', -, -, hrun, -⟩ := hends
        cases hrun
      | succ k => exact ⟨k, rfl⟩
    obtain ⟨c, more, hc, hopens⟩ := hhead b (.head _)
    have hb := members_cons h
    have hcons : text.drop i = lead ++ c :: (more ++ (comma bs ++ sepBy txt bs ++ close :: rest)) := by
      rw [h, sepBy, hc]
      simp
    have hzero' : 0 ∉ comma bs ++ sepBy txt bs ++ close :: rest := by
      intro h0
      refine hzero ?_
      rw [sepBy, List.append_assoc, List.append_assoc, ← List.append_assoc (comma bs)]
      exact List.mem_append_right _ h0
    have hfollow := follow_comma txt bs hclose rest
    obtain ⟨a, j1, u1, hread, hrest⟩ := ends_round hlit hbody hcons hlead hopens hends
    obtain ⟨more', has⟩ := membersTo_more hbody hrest
    rw [List.append_assoc, List.singleton_append] at has
    obtain rfl := List.append_cancel_left has
    obtain ⟨hab, hmore⟩ := List.forall₂_cons.mp hsame
    have hgood := (hund b (.head _)).good hb hfollow hzero' hread hab
    obtain ⟨rfl, rfl, rfl⟩ := ((hund b (.head _)).reads u hb hfollow hzero' hgood).unique hread
    refine ⟨?_, ?_⟩
    · rwa [List.length_append, List.length_append, List.length_cons] at hgood
    · rw [show ms ++ back b :: more' = ms ++ [back b] ++ more' by simp] at hrest
      exact ih (fun d hd => hund d (.tail _ hd)) (fun d hd => hhead d (.tail _ hd))
        (fun h0 => hzero' (by rw [List.append_assoc]; exact List.mem_append_right _ h0))
        (by rw [drop_add_of_drop hb, List.append_assoc]) (Or.inr rfl) hrest hmore

/-- Two bytes or more follow each member but the last. -/
theorem allGood_iff {P : β → Prop} (hP : ∀ k b, good (k + 2) b ↔ P b) {n : ℕ} {bs : List β} :
    AllGood txt good (n + 1) bs ↔
      (∀ b ∈ bs.dropLast, P b) ∧ ∀ b ∈ bs.getLast?, good (n + 1) b := by
  induction bs with
  | nil => simp [AllGood]
  | cons b bs ih =>
    cases bs with
    | nil => simp [AllGood, comma, sepBy]
    | cons c bs =>
      rw [AllGood, ih, List.dropLast_cons_cons, List.getLast?_cons_cons, List.forall_mem_cons,
        and_assoc]
      refine and_congr_left fun _ => ?_
      have hlen : (comma (c :: bs)).length + (sepBy txt (c :: bs)).length + (n + 1) =
          (sepBy txt (c :: bs)).length + n + 2 := by
        rw [show (comma (c :: bs)).length = 1 from rfl]
        omega
      rw [hlen]
      exact hP _ b

/-- When more than one byte follows the last member, too. -/
theorem allGood_inner {P : β → Prop} (hP : ∀ k b, good (k + 2) b ↔ P b) {n : ℕ} {bs : List β} :
    AllGood txt good (n + 2) bs ↔ ∀ b ∈ bs, P b := by
  induction bs with
  | nil => simp [AllGood]
  | cons b bs ih =>
    rw [AllGood, ih, List.forall_mem_cons, ← Nat.add_assoc]
    exact and_congr_left fun _ => hP _ b

end

/-! ## Values -/

/-- The last of `n + 1` bytes behind a list is the one that closes it. -/
theorem safe_list {n : ℕ} {item : Option τ} {ms : List (GqlValue τ)} :
    AllGood (sdlText fmt) Safe (n + 1) ms ↔ Safe n (.list item ms) := by
  have hall : ∀ k (m : GqlValue τ), Safe (k + 2) m ↔ m.All SafeNode := fun k m => Iff.rfl
  cases n with
  | zero => exact allGood_iff hall
  | succ n =>
    rw [allGood_inner hall]
    have hlist : (GqlValue.list item ms).All SafeNode ↔ ∀ m ∈ ms, m.All SafeNode := by
      rw [GqlValue.all_list]
      exact and_iff_right trivial
    cases n with
    | zero => simp [Safe, SafeLast, hlist]
    | succ n => exact hlist.symm

/-- The same for an object, whose keys are short. -/
theorem safe_object {n : ℕ} {ms : List (Bytes × GqlValue τ)} :
    AllGood (memberText fmt) (fun k m => m.1.length < 256 ∧ Safe k m.2) (n + 1) ms ↔
      Safe n (.object ms) := by
  have hall : ∀ k (m : Bytes × GqlValue τ), m.1.length < 256 ∧ Safe (k + 2) m.2 ↔
      m.1.length < 256 ∧ m.2.All SafeNode := fun k m => Iff.rfl
  cases n with
  | zero =>
    rw [allGood_iff hall]
    have hmem : ∀ m : Bytes × GqlValue τ, m ∈ ms ↔ m ∈ ms.dropLast ∨ m ∈ ms.getLast? := by
      intro m
      cases ms using List.reverseRecOn with
      | nil => simp
      | append_singleton ms m' => simp [eq_comm]
    simp only [Safe, SafeText, hmem, or_imp, forall_and]
    tauto
  | succ n =>
    rw [allGood_inner hall]
    have hobj : (GqlValue.object ms).All SafeNode ↔
        ∀ m ∈ ms, m.1.length < 256 ∧ m.2.All SafeNode := by
      rw [GqlValue.all_object]
      simp only [SafeNode, forall_and]
    cases n with
    | zero => simp only [Safe, SafeLast, hobj, reduceCtorEq, false_or]
    | succ n => exact hobj.symm

/-- What follows a value that is no string, list or object makes no difference to it. -/
theorem safe_leaf {v : GqlValue τ} (hv : v.nodes = [v]) (hs : ∀ s, v ≠ .string s)
    (htext : SafeText v ↔ SafeNode v) (n : ℕ) : Safe n v ↔ SafeNode v := by
  match n with
  | 0 => exact htext
  | 1 =>
    have hlast : SafeLast v ↔ SafeNode v := by
      unfold SafeLast
      rw [GqlValue.all_of_nodes hv]
      exact or_iff_right (hs [])
    exact hlast
  | n + 2 => exact GqlValue.all_of_nodes hv

theorem appends_listMember (read : Parser text σ (GqlValue τ)) :
    Appends (listMember read) read where
  reads {ms i j a u} h := by
    have hnote : Reads (noteItem : Parser text σ Unit) i u () i := by
      rintro s rfl rfl
      exact ⟨_, rfl, rfl, rfl⟩
    exact hnote.bind (h.bind (reads_pure _ _ u))
  ends {ms as i j u u'} h := by
    have hnote : Reads (noteItem : Parser text σ Unit) i u () i := by
      rintro s rfl rfl
      exact ⟨_, rfl, rfl, rfl⟩
    obtain ⟨a, j1, u1, hread, hpure⟩ := (h.after hnote).split
    obtain ⟨rfl, rfl, rfl⟩ := (reads_pure (ms ++ [a]) j1 u1).unique hpure
    exact ⟨a, rfl, hread⟩

/-- A member of an object by itself. -/
def readMember (read : Parser text σ (GqlValue τ)) : Parser text σ (Bytes × GqlValue τ) := do
  let key ← readKey
  return (key, ← read)

theorem appends_objectMember (read : Parser text σ (GqlValue τ)) :
    Appends (objectMember read) (readMember read) where
  reads {ms i j a u} h := by
    intro s hi hu
    obtain ⟨s', hrun, hj⟩ := h s hi hu
    obtain ⟨key, s1, hkey, hrest⟩ := Scanner.run_bind_ok hrun
    obtain ⟨v, s2, hread, hpure⟩ := Scanner.run_bind_ok hrest
    cases hpure
    refine ⟨s', ?_, hj⟩
    rw [objectMember, Scanner.run_bind, hkey, Scanner.andThen_ok, Scanner.run_bind, hread]
    rfl
  ends {ms as i j u u'} h := by
    obtain ⟨s, s', hi, hu, hrun, hj⟩ := h
    obtain ⟨key, s1, hkey, hrest⟩ := Scanner.run_bind_ok hrun
    obtain ⟨v, s2, hread, hpure⟩ := Scanner.run_bind_ok hrest
    cases hpure
    refine ⟨(key, v), rfl, s, s', hi, hu, ?_, hj⟩
    rw [readMember, Scanner.run_bind, hkey, Scanner.andThen_ok, Scanner.run_bind, hread]
    rfl

section

variable {read : Parser text σ (GqlValue τ)} {i : ℕ} {key rest : Bytes} {u u' : DocUser σ}

/-- The name of a member through its colon. -/
theorem reads_readKey (hname : IsName key) (hshort : key.length < 256)
    (h : text.drop i = key ++ chr ':' :: rest) :
    Reads (readKey : Parser text σ Bytes) i u key (i + key.length + 1) := by
  have hlen := congrArg List.length h
  rw [List.length_drop, List.length_append, List.length_cons] at hlen
  have hi : i ≤ text.length := by omega
  have hne : key ≠ [] := by
    obtain ⟨c, more, rfl, -⟩ := hname
    exact List.cons_ne_nil c more
  have hend := drop_add_of_drop h
  have hcolon : ∀ b ∈ (chr ':' :: rest).head?, isToken b = false := by
    rintro b ⟨⟩
    rfl
  refine (reads_pos hi u).bind ((reads_readToken h hname hcolon u).bind ?_)
  refine (reads_since h hi u).bind ((reads_require hne _ _ u).bind ?_)
  refine (reads_require hshort _ _ u).bind ((reads_readToken_none hend hcolon u).bind ?_)
  refine (reads_accept rfl hend u).bind ((reads_require rfl _ _ u).bind ?_)
  exact reads_pure key _ u

/-- A key that was read is short. -/
theorem short_of_readKey {k : Bytes} {j : ℕ} (hname : IsName key)
    (h : text.drop i = key ++ chr ':' :: rest) (hends : Ends (readKey : Parser text σ Bytes) i u k j u') :
    key.length < 256 := by
  have hlen := congrArg List.length h
  rw [List.length_drop, List.length_append, List.length_cons] at hlen
  have hi : i ≤ text.length := by omega
  have hne : key ≠ [] := by
    obtain ⟨c, more, rfl, -⟩ := hname
    exact List.cons_ne_nil c more
  have hcolon : ∀ b ∈ (chr ':' :: rest).head?, isToken b = false := by
    rintro b ⟨⟩
    rfl
  have hkey := (((hends.after (reads_pos hi u)).after (reads_readToken h hname hcolon u)).after
    (reads_since h hi u)).after (reads_require hne _ _ u)
  obtain ⟨x, j1, u1, hreq, -⟩ := hkey.split
  exact hreq.require

/-- A member of an object is read as its value is. -/
theorem readMember_undoes {m : Bytes × GqlValue τ} (hname : IsName m.1)
    (h : Undoes text (sdlText fmt) Safe GqlValue.narrow GqlValue.ReadsAs read m.2) :
    Undoes text (memberText fmt) (fun k m => m.1.length < 256 ∧ Safe k m.2)
      (fun m => (m.1, m.2.narrow)) (fun m n => m.1 = n.1 ∧ m.2.ReadsAs n.2) (readMember read) m := by
  have hzero : cstr m.1 = m.1 := by
    refine cstr_of_not_mem fun h0 => ?_
    obtain ⟨c, more, hc, -, htok⟩ := hname
    exact absurd (htok 0 h0) (by decide)
  have htext : ∀ {i rest}, text.drop i = memberText fmt m ++ rest →
      text.drop i = m.1 ++ chr ':' :: (sdlText fmt m.2 ++ rest) := by
    intro i rest hi
    rw [hi, memberText, hzero]
    simp [bytes, chr]
  have hvalue : ∀ {i rest}, text.drop i = memberText fmt m ++ rest →
      text.drop (i + m.1.length + 1) = sdlText fmt m.2 ++ rest := fun hi =>
    (drop_succ_of_drop (drop_add_of_drop (htext hi))).2
  constructor
  · rintro i rest u hi hfollow hz ⟨hshort, hsafe⟩
    have hend : i + (memberText fmt m).length =
        i + m.1.length + 1 + (sdlText fmt m.2).length := by
      rw [memberText, hzero]
      simp [bytes]
      omega
    rw [hend]
    refine (reads_readKey hname hshort (htext hi)).bind ?_
    exact (h.reads u (hvalue hi) hfollow hz hsafe).bind (reads_pure _ _ u)
  · rintro i rest a j u u' hi hfollow hz hends ⟨-, hsame⟩
    obtain ⟨k, j1, u1, hkey, -⟩ := id hends.split
    have hshort := short_of_readKey hname (htext hi) hkey
    obtain ⟨v, j2, u2, hread, hpure⟩ := (hends.after (reads_readKey hname hshort (htext hi))).split
    obtain ⟨rfl, -⟩ := (reads_pure (m.1, v) j2 u2).unique hpure
    exact ⟨hshort, h.good (hvalue hi) hfollow hz hread hsame⟩

end

/-- The bytes that a printed literal can begin with. -/
def StartsLiteral (c : Byte) : Prop :=
  c ∈ bytes "\"-[\x7b%" ∨ isDigit c = true ∨ isToken c = true ∧ chr '9' < c

theorem startsLiteral_table : ∀ k < 256,
    isDigit (UInt8.ofNat k) = true ∨ isToken (UInt8.ofNat k) = true →
      Opens (chr ']') (UInt8.ofNat k) ∧ UInt8.ofNat k ≠ chr '}' := by
  unfold Opens
  decide +kernel

theorem StartsLiteral.opens {c : Byte} (h : StartsLiteral c) :
    Opens (chr ']') c ∧ c ≠ chr '}' := by
  have htable := startsLiteral_table c.toNat c.toNat_lt
  rw [UInt8.ofNat_toNat] at htable
  rcases h with h | h | h
  · revert h
    revert c
    unfold Opens
    intro c _ h
    have hall : ∀ b ∈ bytes "\"-[\x7b%", (isWhite b = false ∧ b ≠ chr '#' ∧ b ≠ chr ']') ∧
        b ≠ chr '}' := by decide +kernel
    exact hall c h
  · exact htable (Or.inl h)
  · exact htable (Or.inr h.1)

/-- A name is printed as it is. -/
theorem appendJson_name {s : Bytes} (h : IsName s) : appendJson s = s := by
  obtain ⟨c, more, -, -, htok⟩ := h
  have hplain : ∀ b ∈ s, jsonByte b = [b] := by
    intro b hb
    have hall : ∀ k < 256, isToken (UInt8.ofNat k) = true →
        jsonByte (UInt8.ofNat k) = [UInt8.ofNat k] := by decide +kernel
    have := hall b.toNat b.toNat_lt
    rw [UInt8.ofNat_toNat] at this
    exact this (htok b hb)
  rw [appendJson, cstr_of_not_mem fun h0 => absurd (htok 0 h0) (by decide),
    flatMap_jsonByte_plain hplain]

/-- A literal is printed with something to begin with. -/
theorem sdlText_head (fmt : FloatLit → Bytes) {v : GqlValue τ} (hv : LiteralNode v) :
    ∃ c more, sdlText fmt v = c :: more ∧ StartsLiteral c := by
  have hname : ∀ {s : Bytes}, IsName s → ∃ c more, s = c :: more ∧ StartsLiteral c := by
    rintro s ⟨c, more, rfl, h9, htok⟩
    exact ⟨c, more, rfl, Or.inr (Or.inr ⟨htok c (.head _), h9⟩)⟩
  have hint : ∀ z, ∃ c more, intText z = c :: more ∧ StartsLiteral c := by
    intro z
    obtain ⟨c, more, hc, h | h⟩ := intText_head z
    · exact ⟨c, more, hc, Or.inl (by rw [h]; decide)⟩
    · exact ⟨c, more, hc, Or.inr (Or.inl h)⟩
  cases v with
  | null => exact ⟨chr 'n', _, rfl, Or.inr (Or.inr (by decide))⟩
  | bool b => cases b <;> exact ⟨_, _, rfl, Or.inr (Or.inr (by decide))⟩
  | int i => exact hint i
  | i64 i => exact hint i
  | string s => exact ⟨chr '"', _, rfl, Or.inl (by decide)⟩
  | token s e =>
    rw [sdlText, appendJson_name hv]
    exact hname hv
  | var s => exact ⟨chr '%', _, rfl, Or.inl (by decide)⟩
  | list item ms => exact ⟨chr '[', _, rfl, Or.inl (by decide)⟩
  | object ms => exact ⟨chr '\x7b', _, rfl, Or.inl (by decide)⟩
  | float f => exact absurd hv not_false

theorem zero_not_mem_jsonByte {b : Byte} (h : b ≠ 0) : 0 ∉ jsonByte b := by
  have hall : ∀ k < 256, UInt8.ofNat k ≠ 0 → 0 ∉ jsonByte (UInt8.ofNat k) := by decide +kernel
  have := hall b.toNat b.toNat_lt
  rw [UInt8.ofNat_toNat] at this
  exact this h

theorem zero_not_mem_appendJson {s : Bytes} (h : 0 ∉ s) : 0 ∉ appendJson s := by
  rw [appendJson, cstr_of_not_mem h, List.mem_flatMap]
  rintro ⟨b, hb, h0⟩
  exact zero_not_mem_jsonByte (fun e => h (e ▸ hb)) h0

theorem zero_not_mem_sepBy {txt : β → Bytes} {bs : List β} (h : ∀ b ∈ bs, 0 ∉ txt b) :
    0 ∉ sepBy txt bs := by
  induction bs with
  | nil => simp [sepBy]
  | cons b bs ih =>
    have hcomma : 0 ∉ comma bs := by
      cases bs with
      | nil => exact List.not_mem_nil
      | cons c bs =>
        change 0 ∉ bytes ","
        decide
    have hmore := ih fun c hc => h c (.tail _ hc)
    simp only [sepBy, List.mem_append, not_or]
    exact ⟨⟨h b (.head _), hcomma⟩, hmore⟩

theorem zero_not_mem_intText (z : ℤ) : 0 ∉ intText z := by
  have hdec : 0 ∉ decimal z.natAbs := fun h => absurd (isDigit_decimal h) (by decide)
  unfold intText
  split
  · rw [List.mem_append, not_or]
    exact ⟨by decide, hdec⟩
  · exact hdec

/-- Printed literals have no NUL in them. -/
theorem zero_not_mem_sdlText {v : GqlValue τ} (hv : v.All LiteralNode) : 0 ∉ sdlText fmt v := by
  have hname : ∀ {s : Bytes}, IsName s → 0 ∉ s := by
    rintro s ⟨c, more, -, -, htok⟩ h0
    exact absurd (htok 0 h0) (by decide)
  induction v using GqlValue.tree with
  | list item ms ih =>
    obtain ⟨-, hms⟩ := GqlValue.all_list.mp hv
    have := zero_not_mem_sepBy fun m hm => ih m hm (hms m hm)
    rw [sdlText, listText_eq, List.mem_cons, List.mem_append, not_or, not_or]
    exact ⟨by decide, this, by decide⟩
  | object ms ih =>
    obtain ⟨hkeys, hms⟩ := GqlValue.all_object.mp hv
    have hmember : ∀ m ∈ ms, 0 ∉ memberText fmt m := by
      intro m hm
      have hkey := hname (hkeys m hm)
      rw [memberText, cstr_of_not_mem hkey, List.mem_append, List.mem_append, not_or, not_or]
      exact ⟨⟨hkey, by decide⟩, ih m hm (hms m hm)⟩
    rw [sdlText, membersText_eq, List.mem_cons, List.mem_append, not_or, not_or]
    exact ⟨by decide, zero_not_mem_sepBy hmember, by decide⟩
  | null =>
    change 0 ∉ bytes "null"
    decide
  | bool b =>
    change 0 ∉ boolText b
    clear hv
    revert b
    decide
  | int i => exact zero_not_mem_intText i
  | i64 i => exact zero_not_mem_intText i
  | string s =>
    have hs : 0 ∉ s := (GqlValue.all_of_nodes rfl).mp hv
    rw [sdlText, quoted, List.mem_append, List.mem_append, not_or, not_or]
    exact ⟨⟨by decide, zero_not_mem_appendJson hs⟩, by decide⟩
  | token s e => exact zero_not_mem_appendJson (hname ((GqlValue.all_of_nodes rfl).mp hv))
  | var s =>
    have hs : IsName s := (GqlValue.all_of_nodes rfl).mp hv
    rw [sdlText, List.mem_append, not_or]
    exact ⟨by decide, zero_not_mem_appendJson (hname hs)⟩
  | float f => exact absurd ((GqlValue.all_of_nodes rfl).mp hv) not_false

/-- The switch at a number. -/
theorem valueAt_number {reg : Registry σ τ δ φ} {read : Option τ → Parser text σ (GqlValue τ)}
    {fuel : ℕ} {type : Option τ} {start : Pos text} {c : Byte} (hat : at0 text start = c)
    (hc : c = chr '-' ∨ isDigit c = true) : valueAt reg read fuel type start = readNumber := by
  have hne : c ≠ chr '$' ∧ c ≠ chr '"' := by
    constructor
    · rintro rfl
      exact absurd hc (by decide)
    · rintro rfl
      exact absurd hc (by decide)
  unfold valueAt
  dsimp only
  rw [if_neg (by rw [hat]; exact hne.1), dif_neg (by rw [hat]; exact hne.2), hat,
    if_pos (hc.imp_right Or.inr)]

/-- The switch at a bracket. -/
theorem valueAt_list {reg : Registry σ τ δ φ} {read : Option τ → Parser text σ (GqlValue τ)}
    {fuel : ℕ} {start : Pos text} (hat : at0 text start = chr '[') :
    valueAt reg read fuel none start = (do
      let _ ← accept (bytes "[")
      let members ← membersTo (bytes "]") (listMember (read none)) fuel []
      return .list none members) := by
  unfold valueAt
  dsimp only
  rw [if_neg (by rw [hat]; decide), dif_neg (by rw [hat]; decide), hat]
  rfl

/-- The switch at a brace. -/
theorem valueAt_object {reg : Registry σ τ δ φ} {read : Option τ → Parser text σ (GqlValue τ)}
    {fuel : ℕ} {type : Option τ} {start : Pos text} (hat : at0 text start = chr '\x7b') :
    valueAt reg read fuel type start = (do
      let _ ← accept (bytes "\x7b")
      let members ← membersTo (bytes "\x7d") (objectMember (read type)) fuel []
      return .object members) := by
  unfold valueAt
  dsimp only
  rw [if_neg (by rw [hat]; decide), dif_neg (by rw [hat]; decide), hat]
  rfl

/-- What is read where a variable was printed is a token. -/
theorem ends_percent {reg : Registry σ τ δ φ} {read : Option τ → Parser text σ (GqlValue τ)}
    {fuel i j : ℕ} {type : Option τ} {u u' : DocUser σ} {w : GqlValue τ} (hi : i ≤ text.length)
    (hat : at0 text i = chr '%')
    (h : Ends (valueAt reg read fuel type ⟨i, hi⟩ : Parser text σ (GqlValue τ)) i u w j u') :
    ∃ s e, w = .token s e := by
  have hdefault : valueAt reg read fuel type ⟨i, hi⟩ =
      (readToken >>= fun _ => createToken reg type ⟨i, hi⟩) := by
    unfold valueAt
    dsimp only
    rw [if_neg (by rw [hat]; decide), dif_neg (by rw [hat]; decide), hat]
    rfl
  rw [hdefault] at h
  obtain ⟨x, i1, u1, -, h⟩ := h.split
  obtain ⟨q, i2, u2, -, h⟩ := h.split
  obtain ⟨rfl, -⟩ := (reads_askReg _ i2 u2).unique h
  exact ⟨_, _, rfl⟩

/-- A leaf that is read whenever it was printed. -/
theorem undoes_of_reads (reg : Registry σ τ δ φ) {v : GqlValue τ} {k : ℕ}
    (hsafe : ∀ n, Safe n v)
    (h : ∀ {i rest} (u : DocUser σ), text.drop i = sdlText fmt v ++ rest → Follow rest →
      Reads (readValue reg (k + 1) none : Parser text σ (GqlValue τ)) i u v.narrow
        (i + (sdlText fmt v).length)) :
    Undoes text (sdlText fmt) Safe GqlValue.narrow GqlValue.ReadsAs
      (readValue reg (k + 1) none : Parser text σ (GqlValue τ)) v where
  reads u hi hfollow _ _ := h u hi hfollow
  good _ _ _ _ _ := hsafe _

/-- A name that is printed is read as the word it is. -/
theorem readValue_name (reg : Registry σ τ δ φ) {word rest : Bytes} {i k : ℕ} (u : DocUser σ)
    (hname : IsName word) (h : text.drop i = word ++ rest) (hfollow : Follow rest) :
    Reads (readValue reg (k + 1) none : Parser text σ (GqlValue τ)) i u
      (if word = bytes "null" then .null else if word = bytes "true" then .bool true
        else if word = bytes "false" then .bool false else .token word none)
      (i + word.length) := by
  obtain ⟨c, more, hcons, h9, htok⟩ := id hname
  have h0 : text.drop i = c :: (more ++ rest) := by rw [h, hcons, List.cons_append]
  have hi : i ≤ text.length := (lt_of_drop (a := []) h0).le
  obtain ⟨hnot, -, hw⟩ := name_head (htok c (by rw [hcons]; exact .head _)) h9
  refine reads_readValue h0 ⟨hw, ?_⟩ hi (reads_name hname h hi (hfollow.head rfl rfl rfl))
  rintro rfl
  exact hnot (by decide)

/-- Where a number was printed a number is read. -/
theorem number_switch (reg : Registry σ τ δ φ) {z : ℤ} {rest : Bytes} {i k : ℕ}
    (h : text.drop i = intText z ++ rest) :
    (∀ {u : DocUser σ} {w : GqlValue τ} {j}, Reads (readNumber : Parser text σ (GqlValue τ)) i u w j →
      Reads (readValue reg (k + 1) none : Parser text σ (GqlValue τ)) i u w j) ∧
    ∀ {u u' : DocUser σ} {w : GqlValue τ} {j},
      Ends (readValue reg (k + 1) none : Parser text σ (GqlValue τ)) i u w j u' →
      Ends (readNumber : Parser text σ (GqlValue τ)) i u w j u' := by
  obtain ⟨c, more, hcons, hc⟩ := intText_head z
  have h0 : text.drop i = c :: (more ++ rest) := by rw [h, hcons, List.cons_append]
  have hi : i ≤ text.length := (lt_of_drop (a := []) h0).le
  have hstart : StartsLiteral c := hc.elim (fun e => Or.inl (by rw [e]; decide))
    fun hd => Or.inr (Or.inl hd)
  have hopens := hstart.opens.1
  have hat := (drop_succ_of_drop h0).1
  constructor
  · intro u w j hnum
    refine reads_readValue h0 ⟨hopens.1, hopens.2.1⟩ hi ?_
    rwa [valueAt_number hat hc]
  · intro u u' w j hends
    have := ends_readValue h0 ⟨hopens.1, hopens.2.1⟩ hi hends
    rwa [valueAt_number hat hc] at this

section

variable (reg : Registry σ τ δ φ) {k : ℕ}

theorem int_undoes {z : ℤ} (hz : GqlValue.FitsInt z) :
    Undoes text (sdlText fmt) Safe GqlValue.narrow GqlValue.ReadsAs
      (readValue reg (k + 1) none : Parser text σ (GqlValue τ)) (.int z) := by
  unfold GqlValue.FitsInt at hz
  have hz' : GqlValue.FitsI64 z := by
    unfold GqlValue.FitsI64
    omega
  have hsafe := fun n => safe_leaf (v := (.int z : GqlValue τ)) rfl (by simp) Iff.rfl n
  have hread : ∀ {i rest} (u : DocUser σ), text.drop i = intText z ++ rest → Follow rest →
      Reads (readNumber : Parser text σ (GqlValue τ)) i u
        (if -0x80000000 < z ∧ z ≤ 0x7FFFFFFF then .int z else .i64 z) (i + (intText z).length) :=
    fun u hi hfollow => reads_readNumber hi hfollow hz' (by omega) u
  constructor
  · intro i rest u hi hfollow _ hgood
    have hne : z ≠ -0x80000000 := (hsafe _).mp hgood
    have := hread u hi hfollow
    rw [if_pos (by omega)] at this
    exact (number_switch reg hi).1 this
  · intro i rest a j u u' hi hfollow _ hends hsame
    refine (hsafe _).mpr ?_
    obtain ⟨rfl, -⟩ := (hread u hi hfollow).unique ((number_switch reg hi).2 hends)
    rintro rfl
    exact hsame

theorem i64_undoes {z : ℤ} (hz : GqlValue.FitsI64 z) :
    Undoes text (sdlText fmt) Safe GqlValue.narrow GqlValue.ReadsAs
      (readValue reg (k + 1) none : Parser text σ (GqlValue τ)) (.i64 z) := by
  have hsafe := fun n => safe_leaf (v := (.i64 z : GqlValue τ)) rfl (by simp) Iff.rfl n
  constructor
  · intro i rest u hi hfollow _ hgood
    exact (number_switch reg hi).1 (reads_readNumber hi hfollow hz ((hsafe _).mp hgood) u)
  · intro i rest a j u u' hi hfollow _ hends _
    exact (hsafe _).mpr (ends_readNumber hi hfollow hz ((number_switch reg hi).2 hends))

theorem safe_string (s : Bytes) (n : ℕ) : Safe n (.string s : GqlValue τ) ↔
    (s = [] ∧ n = 1) ∨ s ≠ [] ∧ (∀ b ∈ s, jsonByte b = [b]) ∧ n ≠ 0 := by
  have hnode : (.string s : GqlValue τ).All SafeNode ↔ s ≠ [] ∧ ∀ b ∈ s, jsonByte b = [b] :=
    GqlValue.all_of_nodes rfl
  match n with
  | 0 => simp [Safe, SafeText]
  | 1 =>
    have hlast : Safe 1 (.string s : GqlValue τ) ↔
        s = [] ∨ s ≠ [] ∧ ∀ b ∈ s, jsonByte b = [b] := by
      rw [← hnode, Safe, SafeLast, GqlValue.string.injEq]
    simp [hlast]
  | n + 2 =>
    have hmore : Safe (n + 2) (.string s : GqlValue τ) ↔ s ≠ [] ∧ ∀ b ∈ s, jsonByte b = [b] := hnode
    simp [hmore]

theorem string_undoes {s : Bytes} (hs : 0 ∉ s) :
    Undoes text (sdlText fmt) Safe GqlValue.narrow GqlValue.ReadsAs
      (readValue reg (k + 1) none : Parser text σ (GqlValue τ)) (.string s) := by
  have htext : sdlText fmt (.string s : GqlValue τ) =
      chr '"' :: (s.flatMap jsonByte ++ [chr '"']) := by
    rw [sdlText, quoted, appendJson, cstr_of_not_mem hs]
    rfl
  have hdrop : ∀ {i rest}, text.drop i = sdlText fmt (.string s : GqlValue τ) ++ rest →
      text.drop i = chr '"' :: (s.flatMap jsonByte ++ chr '"' :: rest) := by
    intro i rest hi
    rw [hi, htext]
    simp
  constructor
  · intro i rest u hi hfollow hz hgood
    have hq := hdrop hi
    have hplace : i ≤ text.length := (lt_of_drop (a := []) hq).le
    refine reads_readValue hq (by decide) hplace ?_
    rw [htext]
    rcases (safe_string s _).mp hgood with ⟨rfl, hone⟩ | ⟨hne, hplain, hpos⟩
    · exact reads_empty hfollow hone hq hplace
    · have hrest : rest ≠ [] := fun e => hpos (by rw [e]; rfl)
      rw [flatMap_jsonByte_plain hplain] at hq ⊢
      rw [List.length_cons, List.length_append, List.length_singleton]
      exact reads_string hne hplain hrest hq hplace
  · intro i rest a j u u' hi hfollow hz hends hsame
    have hq := hdrop hi
    have hplace : i ≤ text.length := (lt_of_drop (a := []) hq).le
    obtain ⟨t, rfl, rfl⟩ : ∃ t, a = .string t ∧ s = t := by
      cases a with
      | string t => exact ⟨t, rfl, hsame⟩
      | _ => exact absurd hsame not_false
    have hat := ends_readValue hq (by decide) hplace hends
    refine (safe_string s _).mpr ?_
    by_cases hne : s = []
    · subst hne
      exact Or.inl ⟨rfl, ends_empty hfollow hz hq hplace hat⟩
    · obtain ⟨hplain, hrest⟩ := ends_string hne hq hplace hat
      exact Or.inr ⟨hne, hplain, fun h0 => hrest (List.length_eq_zero_iff.mp h0)⟩

theorem token_undoes {s : Bytes} {e : Option τ} (hname : IsName s) :
    Undoes text (sdlText fmt) Safe GqlValue.narrow GqlValue.ReadsAs
      (readValue reg (k + 1) none : Parser text σ (GqlValue τ)) (.token s e) := by
  have htext : sdlText fmt (.token s e : GqlValue τ) = s := appendJson_name hname
  have hsafe := fun n => safe_leaf (v := (.token s e : GqlValue τ)) rfl (by simp) Iff.rfl n
  constructor
  · intro i rest u hi hfollow _ hgood
    rw [htext] at hi ⊢
    have hres : s ∉ reserved := (hsafe _).mp hgood
    have := readValue_name reg (k := k) u hname hi hfollow
    rwa [if_neg fun e => hres (by rw [e]; decide), if_neg fun e => hres (by rw [e]; decide),
      if_neg fun e => hres (by rw [e]; decide)] at this
  · intro i rest a j u u' hi hfollow _ hends hsame
    rw [htext] at hi
    refine (hsafe _).mpr ?_
    obtain ⟨rfl, -⟩ := (readValue_name reg u hname hi hfollow).unique hends
    intro hres
    have hcases : s = bytes "null" ∨ s = bytes "true" ∨ s = bytes "false" := by
      simpa [reserved] using hres
    rcases hcases with rfl | rfl | rfl
    · exact hsame
    · exact hsame
    · exact hsame

theorem var_undoes (s : Bytes) :
    Undoes text (sdlText fmt) Safe GqlValue.narrow GqlValue.ReadsAs
      (readValue reg (k + 1) none : Parser text σ (GqlValue τ)) (.var s) := by
  have hsafe := fun n => safe_leaf (v := (.var s : GqlValue τ)) rfl (by simp) Iff.rfl n
  constructor
  · intro i rest u _ _ _ hgood
    exact absurd ((hsafe _).mp hgood) not_false
  · intro i rest a j u u' hi _ _ hends hsame
    have hq : text.drop i = chr '%' :: (appendJson s ++ rest) := hi
    have hplace : i ≤ text.length := (lt_of_drop (a := []) hq).le
    obtain ⟨t, e, rfl⟩ := ends_percent hplace (drop_succ_of_drop hq).1
      (ends_readValue hq (by decide) hplace hends)
    exact absurd hsame not_false

/-- A list or an object is read as its members are. -/
theorem enclosed_undoes {v : GqlValue τ} {txt : β → Bytes} {good : ℕ → β → Prop} {back : β → α}
    {same : β → α → Prop} {read : Parser text σ α} {body : List α → Parser text σ (List α)}
    (wrap : List α → GqlValue τ) {bs : List β} {opening close : Byte} {first last : Bytes}
    (hfirst : first = [opening]) (hlast : last = [close])
    (hopening : isWhite opening = false ∧ opening ≠ chr '#')
    (hclose : close = chr ']' ∨ close = chr '}')
    (htext : sdlText fmt v = opening :: (sepBy txt bs ++ [close]))
    (hback : v.narrow = wrap (bs.map back)) (hsafe : ∀ n, AllGood txt good (n + 1) bs ↔ Safe n v)
    (hsame : ∀ as, v.ReadsAs (wrap as) → List.Forall₂ same bs as)
    (hswitch : ∀ start : Pos text, at0 text start = opening →
      valueAt reg (readValue reg k) k none start =
        (accept first >>= fun _ => membersTo last body k [] >>= fun as => pure (wrap as)))
    (hbody : Appends body read) (hund : ∀ b ∈ bs, Undoes text txt good back same read b)
    (hhead : ∀ b ∈ bs, ∃ c more, txt b = c :: more ∧ Opens close c) (hzero : 0 ∉ sdlText fmt v)
    (hfuel : bs.length < k) :
    Undoes text (sdlText fmt) Safe GqlValue.narrow GqlValue.ReadsAs
      (readValue reg (k + 1) none : Parser text σ (GqlValue τ)) v := by
  have hcons : ∀ {i rest}, text.drop i = sdlText fmt v ++ rest →
      text.drop i = opening :: ([] ++ (sepBy txt bs ++ close :: rest)) := by
    intro i rest hi
    rw [hi, htext]
    simp
  have hrest : ∀ {rest : Bytes}, 0 ∉ rest → 0 ∉ sepBy txt bs ++ close :: rest := by
    intro rest hr
    rw [htext] at hzero
    simp only [List.mem_cons, List.mem_append, not_or] at hzero ⊢
    exact ⟨hzero.2.1, hzero.2.2.1, hr⟩
  constructor
  · intro i rest u hi hfollow hz hgood
    have h0 := hcons hi
    have hplace : i ≤ text.length := (lt_of_drop (a := []) h0).le
    refine reads_readValue h0 hopening hplace ?_
    rw [hswitch _ (drop_succ_of_drop h0).1]
    have hmembers : Reads (membersTo last body k []) (i + 1) u ([] ++ bs.map back)
        (i + 1 + ([] : Bytes).length + (sepBy txt bs).length + 1) :=
      reads_membersTo hlast hclose hbody hund hhead ((hsafe _).mpr hgood) (hrest hz)
        (drop_succ_of_drop h0).2 (Or.inl rfl) hfuel u
    have hend : i + (sdlText fmt v).length =
        i + 1 + ([] : Bytes).length + (sepBy txt bs).length + 1 := by
      rw [htext]
      simp
      omega
    rw [hend, hback]
    exact (reads_accept hfirst h0 u).bind (hmembers.bind (reads_pure _ _ u))
  · intro i rest a j u u' hi hfollow hz hends hs
    have h0 := hcons hi
    have hplace : i ≤ text.length := (lt_of_drop (a := []) h0).le
    have hat := ends_readValue h0 hopening hplace hends
    rw [hswitch _ (drop_succ_of_drop h0).1] at hat
    obtain ⟨as, j1, u1, hmembers, hpure⟩ := (hat.after (reads_accept hfirst h0 u)).split
    obtain ⟨rfl, -⟩ := (reads_pure (wrap as) j1 u1).unique hpure
    have hmembers' : Ends (membersTo last body k []) (i + 1) u ([] ++ as) j1 u1 := hmembers
    exact (hsafe _).mp (good_of_membersTo hlast hclose hbody hund hhead (hrest hz)
      (drop_succ_of_drop h0).2 (Or.inl rfl) hmembers' (hsame as hs))

theorem list_undoes {item : Option τ} {ms : List (GqlValue τ)}
    (hv : (GqlValue.list item ms).All LiteralNode) (hfuel : ms.length < k)
    (hund : ∀ m ∈ ms, Undoes text (sdlText fmt) Safe GqlValue.narrow GqlValue.ReadsAs
      (readValue reg k none : Parser text σ (GqlValue τ)) m) :
    Undoes text (sdlText fmt) Safe GqlValue.narrow GqlValue.ReadsAs
      (readValue reg (k + 1) none : Parser text σ (GqlValue τ)) (.list item ms) := by
  refine enclosed_undoes reg (.list none) rfl rfl (by decide) (Or.inl rfl)
    (by rw [sdlText, listText_eq]; rfl) (by rw [GqlValue.narrow, GqlValue.listNarrow_eq])
    (fun n => safe_list) (fun as h => GqlValue.forall₂_listReadsAs.mp h)
    (fun start h => valueAt_list h) (appends_listMember _) hund (fun m hm => ?_)
    (zero_not_mem_sdlText hv) hfuel
  obtain ⟨c, more, hc, hstart⟩ :=
    sdlText_head fmt ((GqlValue.all_list.mp hv).2 m hm m (GqlValue.mem_nodes m))
  exact ⟨c, more, hc, hstart.opens.1⟩

theorem object_undoes {ms : List (Bytes × GqlValue τ)}
    (hv : (GqlValue.object ms).All LiteralNode) (hfuel : ms.length < k)
    (hund : ∀ m ∈ ms, Undoes text (sdlText fmt) Safe GqlValue.narrow GqlValue.ReadsAs
      (readValue reg k none : Parser text σ (GqlValue τ)) m.2) :
    Undoes text (sdlText fmt) Safe GqlValue.narrow GqlValue.ReadsAs
      (readValue reg (k + 1) none : Parser text σ (GqlValue τ)) (.object ms) := by
  have hkeys : ∀ m ∈ ms, IsName m.1 := (GqlValue.all_object.mp hv).1
  refine enclosed_undoes reg .object rfl rfl (by decide) (Or.inr rfl)
    (by rw [sdlText, membersText_eq]; rfl) (by rw [GqlValue.narrow, GqlValue.membersNarrow_eq])
    (fun n => safe_object) (fun as h => GqlValue.forall₂_membersReadAs.mp h)
    (fun start h => valueAt_object h) (appends_objectMember _)
    (fun m hm => readMember_undoes (hkeys m hm) (hund m hm)) (fun m hm => ?_)
    (zero_not_mem_sdlText hv) hfuel
  obtain ⟨c, more, hc, h9, htok⟩ := hkeys m hm
  have hzero : 0 ∉ m.1 := fun h0 => absurd (htok 0 h0) (by decide)
  have htok' : isToken c = true := htok c (by rw [hc]; exact .head _)
  have hopens := StartsLiteral.opens (Or.inr (Or.inr ⟨htok', h9⟩))
  refine ⟨c, more ++ bytes ":" ++ sdlText fmt m.2, ?_, hopens.1.1, hopens.1.2.1, hopens.2⟩
  rw [memberText, cstr_of_not_mem hzero, hc]
  simp

end

/-- **Printed literals are read as they were exactly when they are safe in front of what follows.** -/
theorem readValue_undoes (reg : Registry σ τ δ φ) {v : GqlValue τ} (hv : v.All LiteralNode)
    {fuel : ℕ} (hfuel : (sdlText fmt v).length < fuel) :
    Undoes text (sdlText fmt) Safe GqlValue.narrow GqlValue.ReadsAs
      (readValue reg fuel none : Parser text σ (GqlValue τ)) v := by
  obtain ⟨k, rfl⟩ : ∃ k, fuel = k + 1 := ⟨fuel - 1, by omega⟩
  induction v using GqlValue.tree generalizing k with
  | null =>
    refine undoes_of_reads reg (fun n => (safe_leaf rfl (by simp) Iff.rfl n).mpr trivial) ?_
    intro i rest u hi hfollow
    exact readValue_name reg u ⟨chr 'n', _, rfl, by decide, by decide +kernel⟩ hi hfollow
  | bool b =>
    refine undoes_of_reads reg (fun n => (safe_leaf rfl (by simp) Iff.rfl n).mpr trivial) ?_
    intro i rest u hi hfollow
    cases b with
    | true => exact readValue_name reg u ⟨chr 't', _, rfl, by decide, by decide +kernel⟩ hi hfollow
    | false => exact readValue_name reg u ⟨chr 'f', _, rfl, by decide, by decide +kernel⟩ hi hfollow
  | int z => exact int_undoes reg ((GqlValue.all_of_nodes rfl).mp hv)
  | i64 z => exact i64_undoes reg ((GqlValue.all_of_nodes rfl).mp hv)
  | string s => exact string_undoes reg ((GqlValue.all_of_nodes rfl).mp hv)
  | token s e => exact token_undoes reg ((GqlValue.all_of_nodes rfl).mp hv)
  | var s => exact var_undoes reg s
  | list item ms ih =>
    have hcount := length_le_sepBy (sdlText fmt) ms
    rw [sdlText, listText_eq, List.length_cons, List.length_append, List.length_singleton] at hfuel
    obtain ⟨k, rfl⟩ : ∃ k', k = k' + 1 := ⟨k - 1, by omega⟩
    refine list_undoes reg hv (by omega) fun m hm => ih m hm ((GqlValue.all_list.mp hv).2 m hm) k ?_
    have := length_le_sepBy_of_mem (sdlText fmt) hm
    omega
  | object ms ih =>
    have hcount := length_le_sepBy (memberText fmt) ms
    rw [sdlText, membersText_eq, List.length_cons, List.length_append, List.length_singleton]
      at hfuel
    obtain ⟨k, rfl⟩ : ∃ k', k = k' + 1 := ⟨k - 1, by omega⟩
    refine object_undoes reg hv (by omega)
      fun m hm => ih m hm ((GqlValue.all_object.mp hv).2 m hm) k ?_
    have := length_le_sepBy_of_mem (memberText fmt) hm
    have : (sdlText fmt m.2).length ≤ (memberText fmt m).length := by
      rw [memberText, List.length_append]
      omega
    omega
  | float f => exact absurd ((GqlValue.all_of_nodes rfl).mp hv) not_false

/-! ## Whole texts -/

/-- A tree of values that a literal can hold. -/
structure LiteralTree (τ : Type) where
  value : GqlValue τ
  plain : value.All LiteralNode

/-- The value is printed, and `agoo_doc_read_value` on the text succeeds, takes all of it and gives an
equal tree. -/
def ReadsBack (fmt : FloatLit → Bytes) (reg : Registry σ τ δ φ) (err : Option Err) (u : σ)
    (v : GqlValue τ) : Prop :=
  ∃ text w s', valueSdl fmt 0 0 v = some text ∧
    (readValue reg (text.length + 1) none).run (docInit text err u) = (.ok w, s') ∧
    s'.cur = text.length ∧ v.ReadsAs w

/-- **Reading undoes printing exactly for the literals that are safe, and in which no list or object
has an enum value that keeps its type.** -/
theorem readsBack_iff (fmt : FloatLit → Bytes) (reg : Registry σ τ δ φ) (err : Option Err) (u : σ)
    (t : LiteralTree τ) :
    ReadsBack fmt reg err u t.value ↔ t.value.All Callable ∧ SafeText t.value := by
  have hund : Undoes (sdlText fmt t.value) (sdlText fmt) Safe GqlValue.narrow GqlValue.ReadsAs
      (readValue reg ((sdlText fmt t.value).length + 1) none : Parser _ σ (GqlValue τ)) t.value :=
    readValue_undoes reg t.plain (Nat.lt_succ_self _)
  obtain ⟨c, more, hc, hstart⟩ := sdlText_head fmt (t.plain _ (GqlValue.mem_nodes t.value))
  have hcur : (docInit (sdlText fmt t.value) err u).cur = 0 := by
    unfold docInit
    dsimp only
    rw [if_neg]
    intro hpre
    rw [hc] at hpre
    obtain rfl := (List.cons_prefix_cons.mp hpre).1
    exact absurd hstart (by unfold StartsLiteral; decide)
  have hdrop : (sdlText fmt t.value).drop 0 = sdlText fmt t.value ++ [] := by simp
  have hfollow : Follow [] := by simp [Follow]
  constructor
  · rintro ⟨text, w, s', htext, hrun, hend, hsame⟩
    obtain ⟨hcall, rfl⟩ := valueSdl_iff.mp htext
    exact ⟨hcall, hund.good hdrop hfollow List.not_mem_nil
      ⟨_, s', hcur, rfl, hrun, rfl, rfl⟩ hsame⟩
  · rintro ⟨hcall, hsafe⟩
    obtain ⟨s', hrun, hend, -⟩ := hund.reads (docInit (sdlText fmt t.value) err u).user hdrop hfollow
      List.not_mem_nil hsafe _ hcur rfl
    refine ⟨_, _, s', valueSdl_iff.mpr ⟨hcall, rfl⟩, hrun, ?_, t.value.readsAs_narrow⟩
    rw [hend, Nat.zero_add]

/-- The variable `$v` is printed with another mark, and read as a token. -/
theorem variable_not_read_back :
    ¬ ReadsBack (fun _ => []) nameRegistry none () (.var (bytes "v")) := by
  rintro ⟨text, w, s', htext, hrun, -, hsame⟩
  obtain rfl : bytes "%v" = text := Option.some.inj htext
  have hread : (readValue nameRegistry ((bytes "%v").length + 1) none).run
      (docInit (bytes "%v") none ()) = (.ok (.token (bytes "%v") none), docInit (bytes "%v") none ()) := rfl
  rw [hread] at hrun
  obtain rfl := Outcome.ok.inj (Prod.mk.inj hrun).1
  exact hsame

end SdlText

end Agoo
