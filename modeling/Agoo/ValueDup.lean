import Agoo.ConversionFree
import Agoo.GqlText

/-!
# Copies of values (`gql_value_dup`)

A value is copied by the kind of scalar of its type. The characters of a long text are copied to a buffer,
but not the flag that says so, and the members of a list or an object and the characters of an enum value
are not copied at all (`dup_iff`).
-/

namespace Agoo

open Agoo.Convert SecTime

namespace ValueDup

/-! ## Values in memory -/

/-- The C strings at the addresses of buffers. -/
abbrev Heap := ℕ → Bytes

/-- The union of a value of the type holds characters, or the address of them. -/
def HasChars (t : ValueType) : Prop := t.IsText ∨ t = .core .var ∨ t.scalarKind = none

instance (t : ValueType) : Decidable (HasChars t) := inferInstanceAs (Decidable (_ ∨ _))

/-- A type and a union that was set. -/
structure Union where
  cell : Cell
  owned : HasChars cell.type → cell.alloced = true → cell.ptr ≠ 0
  ended : HasChars cell.type → cell.alloced = false → 0 ∈ cell.raw.drop 1

/-- `struct _gqlLink`, at an address; the key is one too, and NULL in a list. -/
structure Link (α : Type) where
  addr : ℕ
  key : Option ℕ
  value : α

/-- A value at an address, with the links of its members if it is a list or an object. -/
inductive Stored
  | node (addr : ℕ) (union : Union) (members : List (Link Stored))

/-! ## Destroying -/

mutual

/-- `gql_value_destroy`: what is freed. A value is in these blocks. -/
def gqlValueDestroy : Stored → List ℕ
  | .node addr u ms =>
    (match u.cell.type.scalarKind with
      | some .string | some .token | some .id | some .var | none => u.cell.release
      | some .list | some .object => linksDestroy ms
      | _ => []) ++ [addr]

/-- `gql_link_destroy` of all links. -/
def linksDestroy : List (Link Stored) → List ℕ
  | [] => []
  | ⟨addr, key, value⟩ :: ms => key.toList ++ gqlValueDestroy value ++ [addr] ++ linksDestroy ms

end

/-! ## Printing -/

/-- `%g` of a number, and what is on the stack where a time is made. -/
structure Printer where
  float : ℕ → Bytes
  float_ne_nil : ∀ f, float f ≠ []
  junk : AgooTime

/-- The characters of a text. -/
def chars (h : Heap) (c : Cell) : Bytes := if c.alloced then h c.ptr else c.raw.drop 1

/-- The functions that print characters, with what they do to them. -/
def charsToText (wrap : Bytes → Bytes) (h : Heap) (c : Cell) : Bytes :=
  if c.alloced ∧ c.ptr = 0 then bytes "null" else wrap (chars h c)

def stringToText : Heap → Cell → Bytes := charsToText quoted

def tokenToText : Heap → Cell → Bytes := charsToText appendJson

def varToText : Heap → Cell → Bytes := charsToText fun s => bytes "%" ++ appendJson s

/-- What is printed for a value without members, and by `token` for a Token or an enum value. -/
def unionText (pr : Printer) (token : Heap → Cell → Bytes) (h : Heap) (c : Cell) : Bytes :=
  match c.type.scalarKind with
  | some .bool => boolText c.b
  | some .int => intText c.i
  | some .i64 => intText c.i64
  | some .float => pr.float c.f
  | some .string | some .id => stringToText h c
  | some .token | none => token h c
  | some .var => varToText h c
  | some .time => bytes "\"" ++ timeText pr.junk c.time ++ bytes "\""
  | some .uuid => bytes "\"" ++ uuidText c.hi c.lo ++ bytes "\""
  | some .null | some .list | some .object => bytes "null"

section

variable (pr : Printer) (h : Heap) (indent : ℤ)

mutual

/-- `gql_value_json`, with `list_to_json` and `gql_object_to_json`. -/
def gqlValueJson : ℤ → Stored → Bytes
  | depth, .node _ u ms =>
    match u.cell.type.scalarKind with
    | some .list => bytes "[" ++ linksJson depth ms ++ endPad indent depth ++ bytes "]"
    | some .object => bytes "\x7b" ++ linksJson depth ms ++ endPad indent depth ++ bytes "\x7d"
    | _ => unionText pr stringToText h u.cell

/-- The members; only those of an object have a key. -/
def linksJson : ℤ → List (Link Stored) → Bytes
  | _, [] => []
  | depth, ⟨_, key, m⟩ :: ms =>
    memberPad indent depth ++ (key.elim [] fun k => bytes "\"" ++ cstr (h k) ++ bytes "\":") ++
      gqlValueJson (depth + 1) m ++ comma ms ++ linksJson depth ms

end

/-- The type of a value is an enum, where `to_sdl` of a type is the list of choices. -/
def Stored.isEnum : Stored → Bool
  | .node _ u _ => u.cell.type.scalarKind = none

mutual

/-- `gql_value_sdl`, with `list_to_sdl` and `gql_object_to_sdl`: none when a list of choices is called. -/
def gqlValueSdl : ℤ → Stored → Option Bytes
  | depth, .node _ u ms =>
    match u.cell.type.scalarKind with
    | some .list => do return bytes "[" ++ (← linksSdl depth ms) ++ endPad indent depth ++ bytes "]"
    | some .object => do return bytes "\x7b" ++ (← linksSdl depth ms) ++ endPad indent depth ++ bytes "\x7d"
    | _ => some (unionText pr tokenToText h u.cell)

def linksSdl : ℤ → List (Link Stored) → Option Bytes
  | _, [] => some []
  | depth, ⟨_, key, m⟩ :: ms =>
    if m.isEnum then none
    else do
      let one ← gqlValueSdl (depth + 1) m
      let more ← linksSdl depth ms
      return memberPad indent depth ++
        (key.elim [] fun k => cstr (h k) ++ if 0 < indent then bytes ": " else bytes ":") ++
          one ++ comma ms ++ more

end

end

/-! ## Copying -/

/-- An assignment of a field of the union, `n` bytes from offset `off` on. -/
def assign (dup c : Cell) (off n : ℕ) : Cell := dup.write off ((c.raw.drop off).take n)

/-- The union of the copy, with `strdup` giving the address `p`. -/
def dupCell (p : ℕ) (c : Cell) : Cell :=
  let dup := Cell.create c.type
  match c.type.scalarKind with
  | some .bool => assign dup c 0 1
  | some .int => assign dup c 0 4
  | some .i64 | some .float | some .time => assign dup c 0 8
  | some .string | some .token | some .id =>
    if c.alloced then dup.write 8 (leBytes 8 p) else assign dup c 1 15
  | some .uuid => assign (assign dup c 0 8) c 8 8
  | _ => dup

/-! ### The union of the copy -/

theorem assign_type (dup c : Cell) (off n : ℕ) : (assign dup c off n).type = dup.type := write_type dup off _

theorem length_field (c : Cell) {off n : ℕ} (h : off + n ≤ 16) : ((c.raw.drop off).take n).length = n := by
  rw [List.length_take, List.length_drop, c.size]
  omega

theorem assign_raw (dup c : Cell) {off n : ℕ} (h : off + n ≤ 16) :
    (assign dup c off n).raw = patch dup.raw off ((c.raw.drop off).take n) :=
  write_raw dup (by rw [length_field c h]; exact h)

/-- A field that was assigned is the same in both. -/
theorem assign_field (dup c : Cell) {off n : ℕ} (h : off + n ≤ 16) :
    ((assign dup c off n).raw.drop off).take n = (c.raw.drop off).take n := by
  have hat := @patch_at dup.raw ((c.raw.drop off).take n) off (by rw [dup.size]; omega)
  rw [length_field c h] at hat
  rw [assign_raw dup c h, hat]

/-- The bytes in front of a field are left. -/
theorem assign_front (dup c : Cell) {off n : ℕ} (h : off + n ≤ 16) :
    (assign dup c off n).raw.take off = dup.raw.take off := by
  rw [assign_raw dup c h]
  unfold patch
  rw [List.append_assoc, List.take_append_of_le_length (by rw [List.length_take, dup.size]; omega),
    List.take_take, Nat.min_self]

/-- A long text in a buffer: the address is written, and no flag. -/
theorem dup_buffer (t : ValueType) (p : ℕ) :
    ∃ more, ((Cell.create t).write 8 (leBytes 8 p)).raw = 0 :: 0 :: more := by
  rw [write_raw _ (by rw [length_leBytes])]
  exact ⟨_, rfl⟩

theorem hasChars_cases {t : ValueType} (ht : HasChars t) :
    t.scalarKind = some .string ∨ t.scalarKind = some .token ∨ t.scalarKind = some .id ∨
      t.scalarKind = some .var ∨ t.scalarKind = none := by
  rcases ht with (rfl | rfl | rfl) | rfl | ht
  · exact .inl rfl
  · exact .inr (.inl rfl)
  · exact .inr (.inr (.inl rfl))
  · exact .inr (.inr (.inr (.inl rfl)))
  · exact .inr (.inr (.inr (.inr ht)))

theorem dupCell_type (p : ℕ) (c : Cell) : (dupCell p c).type = c.type := by
  unfold dupCell
  split
  · exact assign_type _ _ _ _
  · exact assign_type _ _ _ _
  · exact assign_type _ _ _ _
  · exact assign_type _ _ _ _
  · exact assign_type _ _ _ _
  · split_ifs
    · exact write_type _ _ _
    · exact assign_type _ _ _ _
  · split_ifs
    · exact write_type _ _ _
    · exact assign_type _ _ _ _
  · split_ifs
    · exact write_type _ _ _
    · exact assign_type _ _ _ _
  · exact (assign_type _ _ _ _).trans (assign_type _ _ _ _)
  · rfl

/-- The characters in the union of a text that is in no buffer are copied. -/
theorem dupCell_inline {p : ℕ} {c : Cell} (ht : c.type.IsText) (hc : c.alloced = false) :
    (dupCell p c).raw = 0 :: c.raw.drop 1 := by
  have hdup : dupCell p c = assign (Cell.create c.type) c 1 15 := by
    unfold dupCell
    rcases ht with ht | ht | ht
    all_goals
      rw [ht, hc]
      rfl
  rw [hdup, assign_raw _ _ (by decide), List.take_of_length_le (by rw [List.length_drop, c.size])]
  unfold patch
  rw [List.length_drop, c.size]
  simp [Cell.create]

/-- The flag and the first character are zero in any other copy of characters. -/
theorem dupCell_blank {p : ℕ} {c : Cell} (ht : HasChars c.type)
    (hc : c.type.IsText → c.alloced = true) : ∃ more, (dupCell p c).raw = 0 :: 0 :: more := by
  rcases ht with ht | ht | ht
  · have hdup : dupCell p c = (Cell.create c.type).write 8 (leBytes 8 p) := by
      have halloced := hc ht
      unfold dupCell
      rcases ht with ht | ht | ht
      all_goals
        rw [ht, halloced]
        rfl
    rw [hdup]
    exact dup_buffer _ p
  · unfold dupCell
    rw [ht]
    exact ⟨_, rfl⟩
  · unfold dupCell
    rw [ht]
    exact ⟨_, rfl⟩

theorem alloced_of_cons {c : Cell} {more : Bytes} (h : c.raw = 0 :: more) : c.alloced = false := by
  unfold Cell.alloced
  rw [h]
  rfl

theorem dupCell_alloced {p : ℕ} {c : Cell} (ht : HasChars c.type) : (dupCell p c).alloced = false := by
  by_cases hc : c.type.IsText ∧ c.alloced = false
  · exact alloced_of_cons (dupCell_inline hc.1 hc.2)
  · obtain ⟨more, hraw⟩ := dupCell_blank (p := p) ht fun htext =>
      Bool.eq_true_of_not_eq_false fun hfalse => hc ⟨htext, hfalse⟩
    exact alloced_of_cons hraw

/-- The copy of a union that was set is one. -/
def dupUnion (p : ℕ) (u : Union) : Union where
  cell := dupCell p u.cell
  owned := by
    intro ht halloced
    rw [dupCell_type] at ht
    rw [dupCell_alloced ht] at halloced
    cases halloced
  ended := by
    intro ht _
    rw [dupCell_type] at ht
    by_cases hc : u.cell.type.IsText ∧ u.cell.alloced = false
    · rw [dupCell_inline hc.1 hc.2]
      exact u.ended ht hc.2
    · obtain ⟨more, hraw⟩ := @dupCell_blank p u.cell ht fun htext =>
        Bool.eq_true_of_not_eq_false fun hfalse => hc ⟨htext, hfalse⟩
      rw [hraw]
      exact .head _

/-- What the allocator gives, unless memory is out: blocks that the value is not in. -/
structure Room (v : Stored) where
  value : Option ℕ
  chars : Option ℕ
  value_new : ∀ p ∈ value, p ∉ gqlValueDestroy v
  chars_new : ∀ p ∈ chars, p ∉ gqlValueDestroy v

/-- `gql_value_dup`: the buffers behind it, and the copy. -/
def gqlValueDup (h : Heap) : (v : Stored) → Room v → Option (Heap × Stored)
  | .node _ u _, room => do
    let addr ← room.value
    if u.cell.type.IsText ∧ u.cell.alloced then
      let p ← room.chars
      some (Function.update h p (cstr (h u.cell.ptr)), .node addr (dupUnion p u) [])
    else some (h, .node addr (dupUnion 0 u) [])

/-! ## Equal and independent -/

/-- The same text, as JSON and in the schema language. -/
def SameText (pr : Printer) (h : Heap) (v : Stored) (h' : Heap) (v' : Stored) : Prop :=
  ∀ indent depth, gqlValueJson pr h' indent depth v' = gqlValueJson pr h indent depth v ∧
    gqlValueSdl pr h' indent depth v' = gqlValueSdl pr h indent depth v

/-- No memory is shared: whatever is in the blocks of one when it was destroyed, the other is intact. -/
structure Independent (pr : Printer) (h : Heap) (v w : Stored) : Prop where
  disjoint : (gqlValueDestroy v).Disjoint (gqlValueDestroy w)
  left : ∀ h', (∀ p ∉ gqlValueDestroy w, h' p = h p) → SameText pr h v h' v
  right : ∀ h', (∀ p ∉ gqlValueDestroy v, h' p = h p) → SameText pr h w h' w

/-- There is a copy, which prints as the value does, and the two are independent. -/
def Duplicates (pr : Printer) (h : Heap) (v : Stored) (room : Room v) : Prop :=
  ∃ h' d, gqlValueDup h v room = some (h', d) ∧ SameText pr h v h' v ∧ SameText pr h v h' d ∧
    Independent pr h' v d

/-- The characters are in the union of a String, a Token or an ID, or there are none. -/
def CharsKept (h : Heap) (u : Union) : Prop :=
  u.cell.type.IsText ∧ u.cell.alloced = false ∨ cstr (chars h u.cell) = []

/-- Nothing of the value is lost. -/
def CopiedWhole (h : Heap) : Stored → Prop
  | .node _ u ms =>
    (HasChars u.cell.type → CharsKept h u) ∧
      (u.cell.type = .core .list ∨ u.cell.type = .core .object → ms = [])

/-- There is memory for the copy. -/
def HasRoom : (v : Stored) → Room v → Prop
  | .node _ u _, room => room.value ≠ none ∧ (u.cell.type.IsText → u.cell.alloced = true → room.chars ≠ none)

/-! ## Printing reads the blocks of a value -/

variable {pr : Printer} {h h' : Heap} {indent : ℤ}

/-- To show `P` of all values, show it of values whose members have it. -/
@[elab_as_elim]
theorem Stored.tree {P : Stored → Prop}
    (node : ∀ addr u ms, (∀ l ∈ ms, P l.value) → P (.node addr u ms)) (v : Stored) : P v := by
  refine Stored.rec (motive_2 := fun ms => ∀ l ∈ ms, P l.value) (motive_3 := fun l => P l.value)
    node ?_ ?_ ?_ v
  · simp
  · intro l ms hl hms l' hl'
    rcases List.mem_cons.mp hl' with rfl | hl'
    · exact hl
    · exact hms l' hl'
  · intro addr key value hvalue
    exact hvalue

theorem charsToText_congr (wrap : Bytes → Bytes) {u : Union} (ht : HasChars u.cell.type)
    (hh : ∀ p ∈ u.cell.release, h' p = h p) : charsToText wrap h' u.cell = charsToText wrap h u.cell := by
  have hchars : chars h' u.cell = chars h u.cell := by
    unfold chars
    by_cases halloced : u.cell.alloced = true
    · rw [if_pos halloced, if_pos halloced]
      apply hh
      unfold Cell.release
      rw [if_pos halloced]
      exact mem_free.mpr ⟨rfl, u.owned ht halloced⟩
    · rw [if_neg halloced, if_neg halloced]
  unfold charsToText
  rw [hchars]

theorem unionText_congr (wrap : Bytes → Bytes) {u : Union}
    (hh : HasChars u.cell.type → ∀ p ∈ u.cell.release, h' p = h p) :
    unionText pr (charsToText wrap) h' u.cell = unionText pr (charsToText wrap) h u.cell := by
  by_cases ht : HasChars u.cell.type
  · have hcongr := fun wrap => charsToText_congr wrap ht (hh ht)
    unfold unionText stringToText varToText
    simp only [hcongr]
  · unfold unionText
    match hk : u.cell.type with
    | .enum name => exact absurd (.inr (.inr (by rw [hk]; rfl))) ht
    | .core .string => exact absurd (.inl (.inl hk)) ht
    | .core .token => exact absurd (.inl (.inr (.inl hk))) ht
    | .core .id => exact absurd (.inl (.inr (.inr hk))) ht
    | .core .var => exact absurd (.inr (.inl hk)) ht
    | .core .null | .core .bool | .core .int | .core .i64 | .core .float | .core .time | .core .uuid
    | .core .list | .core .object => rfl

/-- The release of the characters is part of what is freed. -/
theorem release_freed {addr : ℕ} {u : Union} {ms : List (Link Stored)} (ht : HasChars u.cell.type) :
    ∀ p ∈ u.cell.release, p ∈ gqlValueDestroy (.node addr u ms) := by
  intro p hp
  unfold gqlValueDestroy
  rcases hasChars_cases ht with hk | hk | hk | hk | hk
  all_goals
    rw [hk]
    exact List.mem_append_left _ hp

theorem links_congr {ms : List (Link Stored)}
    (ih : ∀ l ∈ ms, (∀ p ∈ gqlValueDestroy l.value, h' p = h p) → SameText pr h l.value h' l.value)
    (hh : ∀ p ∈ linksDestroy ms, h' p = h p) (indent depth : ℤ) :
    linksJson pr h' indent depth ms = linksJson pr h indent depth ms ∧
      linksSdl pr h' indent depth ms = linksSdl pr h indent depth ms := by
  induction ms with
  | nil => exact ⟨rfl, rfl⟩
  | cons l ms ihms =>
    obtain ⟨addr, key, m⟩ := l
    unfold linksDestroy at hh
    simp only [List.mem_append] at hh
    have hkey : ∀ k ∈ key, h' k = h k := fun k hk =>
      hh k (.inl (.inl (.inl (Option.mem_toList.mpr hk))))
    have hvalue := ih _ (.head _) fun p hp => hh p (.inl (.inl (.inr hp)))
    have hmore := ihms (fun l hl => ih l (.tail _ hl)) fun p hp => hh p (.inr hp)
    obtain ⟨hjson, hsdl⟩ := hvalue indent (depth + 1)
    unfold linksJson linksSdl
    rw [hjson, hsdl, hmore.1, hmore.2]
    cases key with
    | none => exact ⟨rfl, rfl⟩
    | some k =>
      have := hkey k rfl
      simp only [Option.elim_some, this]
      exact ⟨trivial, trivial⟩

/-- What is printed depends on the blocks of the value alone. -/
theorem text_congr (v : Stored) :
    (∀ p ∈ gqlValueDestroy v, h' p = h p) → SameText pr h v h' v := by
  induction v using Stored.tree with
  | node addr u ms ih =>
    intro hh indent depth
    have hunion := fun wrap => @unionText_congr pr h h' wrap u fun ht p hp => hh p (release_freed ht p hp)
    have hlinks : u.cell.type.scalarKind = some .list ∨ u.cell.type.scalarKind = some .object →
        linksJson pr h' indent depth ms = linksJson pr h indent depth ms ∧
          linksSdl pr h' indent depth ms = linksSdl pr h indent depth ms := by
      intro hk
      refine links_congr ih (fun p hp => hh p ?_) indent depth
      unfold gqlValueDestroy
      rcases hk with hk | hk
      all_goals
        rw [hk]
        exact List.mem_append_left _ hp
    unfold gqlValueJson gqlValueSdl stringToText tokenToText
    split
    · next hk => rw [(hlinks (.inl hk)).1, (hlinks (.inl hk)).2]; exact ⟨rfl, rfl⟩
    · next hk => rw [(hlinks (.inr hk)).1, (hlinks (.inr hk)).2]; exact ⟨rfl, rfl⟩
    · exact ⟨hunion quoted, congrArg some (hunion appendJson)⟩

/-- Values in different blocks are independent. -/
theorem independent_of_disjoint {v w : Stored} (hvw : (gqlValueDestroy v).Disjoint (gqlValueDestroy w)) :
    Independent pr h v w where
  disjoint := hvw
  left _ hh := text_congr v fun p hp => hh p fun hw => hvw hp hw
  right _ hh := text_congr w fun p hp => hh p fun hv => hvw hv hp

/-! ## What is printed for a copy -/

theorem charsToText_set (wrap : Bytes → Bytes) {u : Union} (ht : HasChars u.cell.type) :
    charsToText wrap h u.cell = wrap (chars h u.cell) := by
  unfold charsToText
  rw [if_neg fun hnull => u.owned ht hnull.1 hnull.2]

theorem appendJson_eq_nil {s : Bytes} : appendJson s = [] ↔ cstr s = [] := by
  unfold appendJson
  constructor
  · intro hnil
    have := length_le_flatMap_jsonByte (cstr s)
    rw [hnil] at this
    exact List.eq_nil_of_length_eq_zero (Nat.le_zero.mp this)
  · intro hnil
    rw [hnil]
    rfl

theorem dup_b {p : ℕ} {c : Cell} (hk : c.type = .core .bool) : (dupCell p c).b = c.b := by
  have hbit : ∀ m : Bytes, at0 m 0 = at0 ((m.drop 0).take 1) 0 := fun m => by cases m <;> rfl
  have hdup : dupCell p c = assign (Cell.create c.type) c 0 1 := by
    unfold dupCell
    rw [hk]
    rfl
  unfold Cell.b
  rw [hdup, hbit, assign_field _ _ (by decide), ← hbit]

theorem dup_i {p : ℕ} {c : Cell} (hk : c.type = .core .int) : (dupCell p c).i = c.i := by
  have hdup : dupCell p c = assign (Cell.create c.type) c 0 4 := by
    unfold dupCell
    rw [hk]
    rfl
  rw [hdup]
  exact congrArg leInt (assign_field (Cell.create c.type) c (by decide : 0 + 4 ≤ 16))

/-- The first eight bytes of a copy of an I64, a Float or a Time. -/
theorem dup_word {p : ℕ} {c : Cell} (hk : c.type = .core .i64 ∨ c.type = .core .float ∨ c.type = .core .time) :
    (dupCell p c).raw.take 8 = c.raw.take 8 := by
  have hdup : dupCell p c = assign (Cell.create c.type) c 0 8 := by
    unfold dupCell
    rcases hk with hk | hk | hk
    all_goals
      rw [hk]
      rfl
  rw [hdup]
  exact assign_field (Cell.create c.type) c (by decide : 0 + 8 ≤ 16)

theorem dup_uuid {p : ℕ} {c : Cell} (hk : c.type = .core .uuid) :
    (dupCell p c).hi = c.hi ∧ (dupCell p c).lo = c.lo := by
  have hdup : dupCell p c = assign (assign (Cell.create c.type) c 0 8) c 8 8 := by
    unfold dupCell
    rw [hk]
    rfl
  have hwhole : ∀ c : Cell, (c.raw.drop 8).take 8 = c.raw.drop 8 := fun c =>
    List.take_of_length_le (by rw [List.length_drop, c.size])
  unfold Cell.hi Cell.lo
  constructor
  · rw [hdup, assign_front _ _ (by decide)]
    exact congrArg leVal (assign_field (Cell.create c.type) c (by decide : 0 + 8 ≤ 16))
  · rw [hdup, ← hwhole, assign_field _ _ (by decide), hwhole]

/-- What has no characters is copied. -/
theorem dup_number (token : Heap → Cell → Bytes) {p : ℕ} {c : Cell} (ht : ¬ HasChars c.type) :
    unionText pr token h' (dupCell p c) = unionText pr token h c := by
  unfold unionText
  rw [dupCell_type]
  match hk : c.type with
  | .enum name => exact absurd (.inr (.inr (by rw [hk]; rfl))) ht
  | .core .string => exact absurd (.inl (.inl hk)) ht
  | .core .token => exact absurd (.inl (.inr (.inl hk))) ht
  | .core .id => exact absurd (.inl (.inr (.inr hk))) ht
  | .core .var => exact absurd (.inr (.inl hk)) ht
  | .core .null | .core .list | .core .object => rfl
  | .core .bool => exact congrArg boolText (dup_b hk)
  | .core .int => exact congrArg intText (dup_i hk)
  | .core .i64 => exact congrArg (fun w => intText (leInt w)) (dup_word (.inl hk))
  | .core .float => exact congrArg (fun w => pr.float (leVal w)) (dup_word (.inr (.inl hk)))
  | .core .time =>
    have htime : (dupCell p c).time = c.time := congrArg leInt (dup_word (.inr (.inr hk)))
    change bytes "\"" ++ timeText pr.junk (dupCell p c).time ++ bytes "\"" = _
    rw [htime]
    rfl
  | .core .uuid =>
    obtain ⟨hhi, hlo⟩ := @dup_uuid p c hk
    change bytes "\"" ++ uuidText (dupCell p c).hi (dupCell p c).lo ++ bytes "\"" = _
    rw [hhi, hlo]
    rfl

/-- The characters of a copy: those of a short text, and else none. -/
theorem dup_chars {p : ℕ} {u : Union} (ht : HasChars u.cell.type) :
    cstr (chars h' (dupUnion p u).cell) =
      if u.cell.type.IsText ∧ u.cell.alloced = false then cstr (chars h u.cell) else [] := by
  have hdup : chars h' (dupUnion p u).cell = (dupCell p u.cell).raw.drop 1 := by
    unfold chars
    rw [if_neg]
    · rfl
    · exact Bool.eq_false_iff.mp (dupCell_alloced ht)
  rw [hdup]
  split_ifs with hc
  · rw [dupCell_inline hc.1 hc.2]
    unfold chars
    rw [if_neg (Bool.eq_false_iff.mp hc.2)]
    rfl
  · obtain ⟨more, hraw⟩ := @dupCell_blank p u.cell ht fun htext =>
      Bool.eq_true_of_not_eq_false fun hfalse => hc ⟨htext, hfalse⟩
    rw [hraw]
    rfl

theorem dup_chars_iff {p : ℕ} {u : Union} (ht : HasChars u.cell.type) :
    cstr (chars h' (dupUnion p u).cell) = cstr (chars h u.cell) ↔ CharsKept h u := by
  rw [@dup_chars h h' p u ht]
  unfold CharsKept
  split_ifs with hc
  · exact iff_of_true rfl (.inl hc)
  · rw [eq_comm]
    exact (or_iff_right hc).symm

/-- A printer of characters that keeps them. -/
structure Wraps (wrap : Bytes → Bytes) : Prop where
  chars : ∀ s s', cstr s = cstr s' → wrap s = wrap s'
  length : ∀ s, wrap s = wrap [] → cstr s = []

theorem wraps_appendJson : Wraps appendJson where
  chars _ _ hs := congrArg (List.flatMap jsonByte) hs
  length _ hs := appendJson_eq_nil.mp hs

theorem Wraps.around {wrap : Bytes → Bytes} (hw : Wraps wrap) (front back : Bytes) :
    Wraps fun s => front ++ wrap s ++ back where
  chars s s' hs := by rw [hw.chars s s' hs]
  length s hs := hw.length s (List.append_cancel_left (List.append_cancel_right hs))

theorem wraps_quoted : Wraps quoted := wraps_appendJson.around (bytes "\"") (bytes "\"")

theorem wraps_var : Wraps fun s => bytes "%" ++ appendJson s := by
  simpa using wraps_appendJson.around (bytes "%") []

theorem unionText_chars {wrap : Bytes → Bytes} (hw : Wraps wrap) {t : ValueType} (ht : HasChars t) :
    ∃ w, Wraps w ∧ ∀ (h : Heap) (u : Union), u.cell.type = t →
      unionText pr (charsToText wrap) h u.cell = w (chars h u.cell) := by
  have hset : ∀ (w : Bytes → Bytes) (h : Heap) (u : Union), u.cell.type = t →
      charsToText w h u.cell = w (chars h u.cell) :=
    fun w h u hu => charsToText_set w (by rw [hu]; exact ht)
  unfold unionText stringToText varToText
  rcases hasChars_cases ht with hk | hk | hk | hk | hk
  · refine ⟨quoted, wraps_quoted, fun h u hu => ?_⟩
    rw [hu, hk]
    exact hset quoted h u hu
  · refine ⟨wrap, hw, fun h u hu => ?_⟩
    rw [hu, hk]
    exact hset wrap h u hu
  · refine ⟨quoted, wraps_quoted, fun h u hu => ?_⟩
    rw [hu, hk]
    exact hset quoted h u hu
  · refine ⟨_, wraps_var, fun h u hu => ?_⟩
    rw [hu, hk]
    exact hset _ h u hu
  · refine ⟨wrap, hw, fun h u hu => ?_⟩
    rw [hu, hk]
    exact hset wrap h u hu

/-- The copy of a text is printed as the text exactly when its characters are copied. -/
theorem dup_text_iff {wrap : Bytes → Bytes} (hw : Wraps wrap) {p : ℕ} {u : Union}
    (ht : HasChars u.cell.type) :
    unionText pr (charsToText wrap) h' (dupUnion p u).cell = unionText pr (charsToText wrap) h u.cell ↔
      CharsKept h u := by
  obtain ⟨w, hw, htext⟩ := @unionText_chars pr wrap hw _ ht
  rw [htext h' (dupUnion p u) (dupCell_type p u.cell), htext h u rfl]
  constructor
  · intro hsame
    have hdup := @dup_chars h h' p u ht
    split_ifs at hdup with hc
    · exact .inl hc
    · rw [hw.chars (chars h' (dupUnion p u).cell) [] hdup] at hsame
      exact .inr (hw.length _ hsame.symm)
  · intro hkept
    exact hw.chars _ _ ((dup_chars_iff ht).mpr hkept)

/-! ## Members are not copied -/

theorem unionText_ne_nil (c : Cell) : unionText pr stringToText h c ≠ [] := by
  have hstring : stringToText h c ≠ [] := by
    unfold stringToText charsToText
    split_ifs
    · exact List.cons_ne_nil _ _
    · exact List.cons_ne_nil _ _
  have hvar : varToText h c ≠ [] := by
    unfold varToText charsToText
    split_ifs
    · exact List.cons_ne_nil _ _
    · exact List.cons_ne_nil _ _
  have hint : ∀ z : ℤ, intText z ≠ [] := by
    intro z
    obtain ⟨b, more, hz, -⟩ := intText_head z
    rw [hz]
    exact List.cons_ne_nil _ _
  unfold unionText
  split
  · unfold boolText
    split_ifs
    · exact List.cons_ne_nil _ _
    · exact List.cons_ne_nil _ _
  · exact hint _
  · exact hint _
  · exact pr.float_ne_nil _
  · exact hstring
  · exact hstring
  · exact hstring
  · exact hstring
  · exact hvar
  · exact List.cons_ne_nil _ _
  · exact List.cons_ne_nil _ _
  · exact List.cons_ne_nil _ _
  · exact List.cons_ne_nil _ _
  · exact List.cons_ne_nil _ _

theorem json_ne_nil (depth : ℤ) : ∀ v : Stored, gqlValueJson pr h indent depth v ≠ []
  | .node _ u ms => by
    unfold gqlValueJson
    split
    · exact List.cons_ne_nil _ _
    · exact List.cons_ne_nil _ _
    · exact unionText_ne_nil u.cell

theorem linksJson_eq_nil {depth : ℤ} {ms : List (Link Stored)} :
    linksJson pr h indent depth ms = [] ↔ ms = [] := by
  constructor
  · intro hnil
    cases ms with
    | nil => rfl
    | cons l ms =>
      obtain ⟨addr, key, m⟩ := l
      unfold linksJson at hnil
      simp only [List.append_eq_nil_iff] at hnil
      exact absurd hnil.1.1.2 (json_ne_nil _ m)
  · rintro rfl
    rfl

/-! ## The copy of a value -/

variable {a addr p : ℕ} {u : Union} {ms : List (Link Stored)}

/-- A value with characters is printed like its copy when they are kept. -/
theorem sameText_chars (ht : HasChars u.cell.type) :
    SameText pr h (.node a u ms) h' (.node addr (dupUnion p u) []) ↔ CharsKept h u := by
  have hplain : ∀ (h : Heap) (addr : ℕ) (w : Union) (ms : List (Link Stored)) (indent depth : ℤ),
      w.cell.type = u.cell.type →
      gqlValueJson pr h indent depth (.node addr w ms) = unionText pr (charsToText quoted) h w.cell ∧
        gqlValueSdl pr h indent depth (.node addr w ms) =
          some (unionText pr (charsToText appendJson) h w.cell) := by
    intro h addr w ms indent depth hw
    unfold gqlValueJson gqlValueSdl
    rw [hw]
    rcases hasChars_cases ht with hk | hk | hk | hk | hk
    all_goals
      rw [hk]
      exact ⟨rfl, rfl⟩
  constructor
  · intro hsame
    have hjson := (hsame 0 0).1
    rw [(hplain h' addr (dupUnion p u) [] 0 0 (dupCell_type p u.cell)).1, (hplain h a u ms 0 0 rfl).1] at hjson
    exact (dup_text_iff wraps_quoted ht).mp hjson
  · intro hkept indent depth
    obtain ⟨hjson', hsdl'⟩ := hplain h' addr (dupUnion p u) [] indent depth (dupCell_type p u.cell)
    obtain ⟨hjson, hsdl⟩ := hplain h a u ms indent depth rfl
    rw [hjson', hsdl', hjson, hsdl]
    exact ⟨(dup_text_iff wraps_quoted ht).mpr hkept,
      congrArg some ((dup_text_iff wraps_appendJson ht).mpr hkept)⟩

/-- A list or an object is printed like its copy when it has no members. -/
theorem sameText_members (hk : u.cell.type = .core .list ∨ u.cell.type = .core .object) :
    SameText pr h (.node a u ms) h' (.node addr (dupUnion p u) []) ↔ ms = [] := by
  have hdup : (dupUnion p u).cell.type = u.cell.type := dupCell_type p u.cell
  constructor
  · intro hsame
    have hjson := (hsame 0 0).1
    unfold gqlValueJson at hjson
    rw [hdup, endPad_zero] at hjson
    rcases hk with hk | hk
    · rw [hk] at hjson
      have hinside := List.append_cancel_right (List.append_cancel_right hjson)
      exact linksJson_eq_nil.mp (List.append_cancel_left hinside).symm
    · rw [hk] at hjson
      have hinside := List.append_cancel_right (List.append_cancel_right hjson)
      exact linksJson_eq_nil.mp (List.append_cancel_left hinside).symm
  · rintro rfl indent depth
    unfold gqlValueJson gqlValueSdl
    rw [hdup]
    rcases hk with hk | hk
    all_goals
      rw [hk]
      exact ⟨rfl, rfl⟩

theorem not_list_of_chars {t : ValueType} (ht : HasChars t) : ¬ (t = .core .list ∨ t = .core .object) := by
  rintro (rfl | rfl)
  all_goals exact absurd ht (by decide)

/-- A value that has neither characters nor members is printed like its copy. -/
theorem sameText_number (ht : ¬ HasChars u.cell.type)
    (hk : ¬ (u.cell.type = .core .list ∨ u.cell.type = .core .object)) :
    SameText pr h (.node a u ms) h' (.node addr (dupUnion p u) []) := by
  intro indent depth
  have hdup : (dupUnion p u).cell.type = u.cell.type := dupCell_type p u.cell
  unfold gqlValueJson gqlValueSdl
  rw [hdup]
  split
  · next hlist => exact absurd (.inl (ValueType.eq_core hlist)) hk
  · next hobject => exact absurd (.inr (ValueType.eq_core hobject)) hk
  · exact ⟨dup_number _ ht, congrArg some (dup_number _ ht)⟩

theorem sameText_iff :
    SameText pr h (.node a u ms) h' (.node addr (dupUnion p u) []) ↔ CopiedWhole h (.node a u ms) := by
  by_cases ht : HasChars u.cell.type
  · rw [sameText_chars ht]
    constructor
    · intro hkept
      exact ⟨fun _ => hkept, fun hk => absurd hk (not_list_of_chars ht)⟩
    · intro hwhole
      exact hwhole.1 ht
  by_cases hk : u.cell.type = .core .list ∨ u.cell.type = .core .object
  · rw [sameText_members hk]
    constructor
    · intro hnil
      exact ⟨fun h => absurd h ht, fun _ => hnil⟩
    · intro hwhole
      exact hwhole.2 hk
  · exact iff_of_true (sameText_number ht hk) ⟨fun h => absurd h ht, fun h => absurd h hk⟩

/-- When memory is out there is no copy. Otherwise the copy is in one new block, and the buffers of the
value are left. -/
theorem dup_cases (h : Heap) (a : ℕ) (u : Union) (ms : List (Link Stored)) (room : Room (.node a u ms)) :
    ¬ HasRoom _ room ∧ gqlValueDup h _ room = none ∨
      HasRoom _ room ∧ ∃ addr ∈ room.value, ∃ p h', (∀ q ∈ gqlValueDestroy (.node a u ms), h' q = h q) ∧
        gqlValueDup h _ room = some (h', .node addr (dupUnion p u) []) := by
  obtain ⟨value, chars, hvalue, hchars⟩ := room
  cases value with
  | none => exact .inl ⟨fun hroom => hroom.1 rfl, rfl⟩
  | some addr =>
    by_cases hc : u.cell.type.IsText ∧ u.cell.alloced = true
    · cases chars with
      | none =>
        refine .inl ⟨fun hroom => hroom.2 hc.1 hc.2 rfl, ?_⟩
        unfold gqlValueDup
        simp [hc]
      | some p =>
        refine .inr ⟨⟨Option.some_ne_none _, fun _ _ => Option.some_ne_none _⟩, addr, rfl, p,
          Function.update h p (cstr (h u.cell.ptr)), fun q hq => ?_, ?_⟩
        · refine Function.update_of_ne ?_ _ _
          rintro rfl
          exact hchars q rfl hq
        · unfold gqlValueDup
          simp [hc]
    · refine .inr ⟨⟨Option.some_ne_none _, fun ht halloced => absurd ⟨ht, halloced⟩ hc⟩, addr, rfl, 0, h,
        fun _ _ => rfl, ?_⟩
      unfold gqlValueDup
      simp [hc]

/-- A copy is in one block. -/
theorem destroy_dup : gqlValueDestroy (.node addr (dupUnion p u) []) = [addr] := by
  have hdup : (dupUnion p u).cell.type = u.cell.type := dupCell_type p u.cell
  have hrelease : HasChars u.cell.type → (dupUnion p u).cell.release = [] := by
    intro ht
    unfold Cell.release
    exact if_neg (Bool.eq_false_iff.mp (dupCell_alloced ht))
  unfold gqlValueDestroy
  rw [hdup]
  match hk : u.cell.type with
  | .enum name => exact congrArg (· ++ [addr]) (hrelease (.inr (.inr (by rw [hk]; rfl))))
  | .core .string => exact congrArg (· ++ [addr]) (hrelease (.inl (.inl hk)))
  | .core .token => exact congrArg (· ++ [addr]) (hrelease (.inl (.inr (.inl hk))))
  | .core .id => exact congrArg (· ++ [addr]) (hrelease (.inl (.inr (.inr hk))))
  | .core .var => exact congrArg (· ++ [addr]) (hrelease (.inr (.inl hk)))
  | .core .null | .core .bool | .core .int | .core .i64 | .core .float | .core .time | .core .uuid
  | .core .list | .core .object => rfl

theorem duplicates_iff (room : Room (.node a u ms)) :
    Duplicates pr h (.node a u ms) room ↔ HasRoom _ room ∧ CopiedWhole h (.node a u ms) := by
  unfold Duplicates
  rcases dup_cases h a u ms room with ⟨hroom, hnone⟩ | ⟨hroom, addr, haddr, p, h', hkept, hsome⟩
  · rw [hnone]
    refine iff_of_false ?_ fun hboth => hroom hboth.1
    rintro ⟨h', d, hd, -⟩
    cases hd
  · rw [hsome, and_iff_right hroom, ← @sameText_iff pr h h' a addr p u ms]
    constructor
    · rintro ⟨h'', d, hd, -, hsame, -⟩
      obtain ⟨rfl, rfl⟩ := Prod.mk.inj (Option.some.inj hd)
      exact hsame
    · intro hsame
      refine ⟨h', _, rfl, text_congr _ hkept, hsame, independent_of_disjoint ?_⟩
      rw [destroy_dup]
      intro q hq hmem
      obtain rfl := List.mem_singleton.mp hmem
      exact room.value_new q haddr hq

/-- **For every value: its copy prints as the same text, as JSON and in the schema language, and shares no
memory with it, if and only if memory is not out and the value is no text in a buffer, no enum value or
variable with characters, and no list or object with members.** -/
theorem dup_iff (pr : Printer) (h : Heap) (v : Stored) (room : Room v) :
    Duplicates pr h v room ↔ HasRoom v room ∧ CopiedWhole h v := by
  cases v with
  | node a u ms => exact duplicates_iff room

/-! ## Created texts -/

/-- `gql_string_create`, `gql_id_create`, `gql_token_create` and `gql_var_create`, with `strndup` giving the
address `p`. -/
def createCell (t : ValueType) (str : Bytes) (p : ℕ) : Cell :=
  let v := Cell.create t
  if 15 ≤ str.length then (v.write 0 [1]).write 8 (leBytes 8 p)
  else (v.write 0 [0]).write 1 (str ++ [0])

theorem createCell_type (t : ValueType) (str : Bytes) (p : ℕ) : (createCell t str p).type = t := by
  unfold createCell
  split_ifs
  · exact (write_type _ _ _).trans (write_type _ _ _)
  · exact (write_type _ _ _).trans (write_type _ _ _)

theorem createCell_long (t : ValueType) {str : Bytes} {p : ℕ} (hp : p < 256 ^ 8) (hlen : 15 ≤ str.length) :
    (createCell t str p).alloced = true ∧ (createCell t str p).ptr = p := by
  have hcell : createCell t str p = ((Cell.create t).write 0 [1]).write 8 (leBytes 8 p) := if_pos hlen
  have hraw : (createCell t str p).raw = patch (patch (Cell.create t).raw 0 [1]) 8 (leBytes 8 p) := by
    rw [hcell, write_raw _ (by rw [length_leBytes]), write_raw _ (by decide)]
  unfold Cell.alloced Cell.ptr
  rw [hraw]
  constructor
  · rfl
  · have hbehind : (patch (patch (Cell.create t).raw 0 [1]) 8 (leBytes 8 p)).drop 8 = leBytes 8 p := by
      unfold patch
      simp [Cell.create]
    rw [hbehind, leVal_leBytes, Nat.mod_eq_of_lt hp]

theorem createCell_short (t : ValueType) {str : Bytes} {p : ℕ} (hlen : str.length < 15) :
    (createCell t str p).alloced = false ∧ ∃ more, (createCell t str p).raw.drop 1 = str ++ 0 :: more := by
  have hcell : createCell t str p = ((Cell.create t).write 0 [0]).write 1 (str ++ [0]) :=
    if_neg (Nat.not_le.mpr hlen)
  have hraw : (createCell t str p).raw = patch (patch (Cell.create t).raw 0 [0]) 1 (str ++ [0]) := by
    rw [hcell, write_raw _ (by simp only [List.length_append, List.length_singleton]; omega),
      write_raw _ (by decide)]
  obtain ⟨more, hmore⟩ : ∃ more, (createCell t str p).raw = 0 :: more := by
    rw [hraw]
    exact ⟨_, rfl⟩
  refine ⟨alloced_of_cons hmore, ?_⟩
  rw [hraw]
  refine ⟨(patch (Cell.create t).raw 0 [0]).drop (1 + (str.length + 1)), ?_⟩
  unfold patch
  simp [Cell.create]

/-- The union of a created text. -/
def createUnion (t : ValueType) (str : Bytes) {p : ℕ} (h0 : p ≠ 0) (hp : p < 256 ^ 8) : Union where
  cell := createCell t str p
  owned := by
    intro _ halloced
    by_cases hlen : 15 ≤ str.length
    · rw [(createCell_long t hp hlen).2]
      exact h0
    · rw [(createCell_short t (Nat.not_le.mp hlen)).1] at halloced
      cases halloced
  ended := by
    intro _ halloced
    by_cases hlen : 15 ≤ str.length
    · rw [(createCell_long t hp hlen).1] at halloced
      cases halloced
    · obtain ⟨-, more, hmore⟩ := @createCell_short t str p (Nat.not_le.mp hlen)
      rw [hmore]
      exact List.mem_append_right _ (.head _)

/-- The characters of a created String, Token or ID are copied up to fourteen bytes. -/
theorem charsKept_create {t : ValueType} (ht : t.IsText) {str : Bytes} (hstr : 0 ∉ str) {p : ℕ} (h0 : p ≠ 0)
    (hp : p < 256 ^ 8) (hh : h p = str) : CharsKept h (createUnion t str h0 hp) ↔ str.length < 15 := by
  constructor
  · intro hkept
    by_contra hlong
    obtain ⟨halloced, hptr⟩ := createCell_long t hp (Nat.not_lt.mp hlong)
    rcases hkept with ⟨-, hfalse⟩ | hnil
    · exact Bool.false_ne_true (hfalse.symm.trans halloced)
    · have hchars : chars h (createUnion t str h0 hp).cell = str :=
        (if_pos halloced).trans ((congrArg h hptr).trans hh)
      rw [hchars, cstr_of_not_mem hstr] at hnil
      exact hlong (by rw [hnil]; decide)
  · intro hshort
    exact .inl ⟨(congrArg ValueType.IsText (createCell_type t str p)).mpr ht, (createCell_short t hshort).1⟩

/-! ## A default of fifteen bytes -/

def fifteen : Bytes := bytes "fifteen letters"

/-- A String with the fifteen bytes in a buffer behind it. -/
def fifteenValue : Stored := .node 32 (@createUnion (.core .string) fifteen 64 (by decide) (by decide)) []

/-- There is memory behind the buffer. -/
def fifteenRoom : Room fifteenValue where
  value := some 80
  chars := some 112
  value_new := by decide
  chars_new := by decide

def zeroPrinter : Printer := ⟨fun _ => bytes "0", fun _ => List.cons_ne_nil _ _, ⟨0, 0, 0, 0, 0, 0⟩⟩

/-- A String of fifteen bytes is copied as an empty one. -/
theorem fifteen_not_copied :
    ¬ Duplicates zeroPrinter (fun _ => fifteen) fifteenValue fifteenRoom := by
  intro hdup
  obtain ⟨-, hwhole⟩ := (duplicates_iff fifteenRoom).mp hdup
  have hkept := hwhole.1 (by decide)
  exact absurd ((charsKept_create (.inl rfl) (by decide) _ _ rfl).mp hkept) (by decide)

end ValueDup

end Agoo
