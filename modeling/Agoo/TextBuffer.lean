import Agoo.GqlText
import Agoo.LittleEndian
import Agoo.Runs

/-!
# The text buffer (`text.c`)

A text is a length, a capacity and a block that is moved when it gets too small. `text_iff`: when all operations
of a run keep the bytes that they should, write in the block, and end an append with a NUL.
-/

namespace Agoo

namespace TextBuffer

/-! ## The code -/

/-- Which blocks can be had, and what is in new memory. -/
structure Memory where
  has : ℕ → Bool
  bounded : ∀ n, has n → n < 2 ^ 62
  fresh : ℕ → Byte

/-- `struct _agooText`: `block` are the bytes from `text` on, which is 29 bytes into a struct of 40 bytes. -/
structure Text where
  len : ℕ
  alen : ℕ
  block : Bytes
  deriving DecidableEq, Repr

/-- What a call returns, if it does not write or read outside of a block. -/
inductive Result
  | null
  | fault
  | ok (t : Text)
  deriving DecidableEq, Repr

/-- The arguments `s` and `len`: as many bytes are there. -/
structure Data where
  mem : Bytes
  len : ℤ
  low : -1 ≤ len
  int : len < 0x80000000
  held : len ≤ mem.length

/-- Where some bytes are written in a block. -/
def put (block : Bytes) (off : ℕ) (bs : Bytes) : Option Bytes :=
  if off + bs.length ≤ block.length then some (patch block off bs) else none

/-- The first `n` bytes of a block. -/
def get (block : Bytes) (n : ℕ) : Option Bytes := if n ≤ block.length then some (block.take n) else none

def finish (len alen : ℕ) (block : Option Bytes) : Result :=
  block.elim .fault fun block => .ok ⟨len, alen, block⟩

variable (mem : Memory)

/-- `AGOO_MALLOC` of a text. -/
def malloc (size : ℕ) : Option Bytes :=
  if mem.has size then some ((List.range (size - 29)).map mem.fresh) else none

/-- `AGOO_REALLOC` of a text. -/
def realloc (block : Bytes) (size : ℕ) : Option Bytes :=
  if mem.has size then
    some (block.take (size - 29) ++ ((List.range (size - 29)).map mem.fresh).drop block.length)
  else none

/-- `alen` in `agoo_text_create` and `agoo_text_allocate`. -/
def firstAlen (len : ℤ) : ℕ := if 8 ≤ len then len.toNat else 8

/-- `agoo_text_create`. A length below zero is a very large one in `memcpy`. -/
def textCreate (d : Data) : Result :=
  let alen := firstAlen d.len
  match malloc mem (40 + alen + 1) with
  | none => .null
  | some block =>
    if d.len < 0 then .fault
    else
      let len := d.len.toNat
      finish len alen ((put block 0 (d.mem.take len)).bind fun block => put block len [0])

/-- `agoo_text_dup`. -/
def textDup (t : Text) : Result :=
  match malloc mem (40 - 8 + t.alen + 1) with
  | none => .null
  | some block => finish t.len t.alen ((get t.block (t.len + 1)).bind fun bs => put block 0 bs)

/-- `agoo_text_allocate`. -/
def textAllocate (len : ℤ) : Result :=
  let alen := firstAlen len
  match malloc mem (40 + alen + 1) with
  | none => .null
  | some block => finish 0 alen (put block 0 [0])

/-- The capacity that an operation takes for `need` more bytes. -/
def newLen (t : Text) (need : ℕ) : ℕ := t.alen + need + t.alen / 2

/-- The first part of the operations that add bytes. -/
def grow (t : Text) (need : ℕ) : Option Text :=
  if t.alen ≤ t.len + need then
    (realloc mem t.block (40 - 8 + newLen t need + 1)).map fun block => ⟨t.len, newLen t need, block⟩
  else some t

/-- `len`, of which the code takes the length of a C string if it is not positive. -/
def Data.size (d : Data) : ℤ := if 0 ≥ d.len then toInt (strlen d.mem) else d.len

/-- `agoo_text_append`. -/
def textAppend (t : Text) (d : Data) : Result :=
  if d.size < 0 then .fault
  else
    let len := d.size.toNat
    match grow mem t len with
    | none => .null
    | some t => finish (t.len + len) t.alen
        ((put t.block t.len (d.mem.take len)).bind fun block => put block (t.len + len) [0])

/-- `agoo_text_append_char`. -/
def textAppendChar (t : Text) (c : Byte) : Result :=
  match grow mem t 1 with
  | none => .null
  | some t => finish (t.len + 1) t.alen ((put t.block t.len [c]).bind fun block => put block (t.len + 1) [0])

/-- `agoo_text_prepend`. -/
def textPrepend (t : Text) (d : Data) : Result :=
  if d.size < 0 then .fault
  else
    let len := d.size.toNat
    match grow mem t len with
    | none => .null
    | some t => finish (t.len + len) t.alen ((get t.block (t.len + 1)).bind fun bs =>
        (put t.block len bs).bind fun block => put block 0 (d.mem.take len))

/-- `json_chars`. -/
def jsonChars : Bytes :=
  bytes "66666666222622666666666666666666" ++ bytes "11211111111111111111111111111111" ++
    bytes "11111111111111111111111111112111" ++ List.replicate 160 (chr '1')

/-- `json_size`. -/
def jsonSize (s : Bytes) : ℕ := (s.map fun c => (at0 jsonChars c.toNat).toNat).sum - s.length * 48

/-- What the loop of `agoo_text_append_json` writes for a byte. -/
def jsonLoop (c : Byte) : Bytes :=
  let kind := at0 jsonChars c.toNat
  if kind = chr '1' then [c]
  else if kind = chr '2' then
    [chr '\\', if c = chr '\\' then chr '\\' else if c = 8 then chr 'b' else if c = 9 then chr 't'
      else if c = 10 then chr 'n' else if c = 12 then chr 'f' else if c = 13 then chr 'r' else c]
  else if kind = chr '6' then [chr '\\', chr 'u', chr '0', chr '0'] ++ dumpHex c
  else []

/-- `agoo_text_append_json`. -/
def textAppendJson (t : Text) (d : Data) : Result :=
  if d.size < 0 then .fault
  else
    let s := d.mem.take d.size.toNat
    let jlen := jsonSize s
    match grow mem t jlen with
    | none => .null
    | some t => finish (t.len + jlen) t.alen
        ((put t.block t.len (if jlen = d.size.toNat then s else s.flatMap jsonLoop)).bind fun block =>
          put block (t.len + jlen) [0])

/-- `agoo_text_reset`. -/
def textReset (t : Text) : Text := { t with len := 0 }

inductive Op
  | create (d : Data)
  | allocate (len : ℤ)
  | dup
  | append (d : Data)
  | appendChar (c : Byte)
  | prepend (d : Data)
  | appendJson (d : Data)
  | reset

/-- What an operation does with a text; without one there is only a new text. -/
def Op.run (t : Option Text) : Op → Result
  | .create d => textCreate mem d
  | .allocate len => textAllocate mem len
  | .dup => t.elim .null (textDup mem)
  | .append d => t.elim .null (textAppend mem · d)
  | .appendChar c => t.elim .null (textAppendChar mem · c)
  | .prepend d => t.elim .null (textPrepend mem · d)
  | .appendJson d => t.elim .null (textAppendJson mem · d)
  | .reset => t.elim .null fun t => .ok (textReset t)

/-! ## The law -/

/-- What the arguments stand for. -/
def Data.bytes (d : Data) : Bytes := if d.len = -1 then cstr d.mem else d.mem.take d.len.toNat

/-- A byte in a string of JSON. -/
def escaped (c : Byte) : Bytes :=
  if c = chr '"' ∨ c = chr '\\' then [chr '\\', c]
  else if 0x20 ≤ c then [c]
  else
    match [(8, chr 'b'), (9, chr 't'), (10, chr 'n'), (12, chr 'f'), (13, chr 'r')].lookup c with
    | some name => [chr '\\', name]
    | none =>
      let digits := bytes (String.ofList (Nat.toDigits 16 c.toNat))
      bytes "\\u" ++ List.replicate (4 - digits.length) (chr '0') ++ digits

/-- The bytes after an operation. -/
def Op.contents (bs : Bytes) : Op → Bytes
  | .create d => d.bytes
  | .allocate _ => []
  | .dup => bs
  | .append d => bs ++ d.bytes
  | .appendChar c => bs ++ [c]
  | .prepend d => d.bytes ++ bs
  | .appendJson d => bs ++ d.bytes.flatMap escaped
  | .reset => []

def Op.appends : Op → Bool
  | .append _ => true
  | .appendChar _ => true
  | .appendJson _ => true
  | _ => false

/-- The text, the bytes that it should have, whether the last operation was an append, and whether each wrote
in its block. -/
structure State where
  text : Option Text
  contents : Bytes
  ended : Bool
  fine : Bool

def start : State := ⟨none, [], false, true⟩

/-- One operation. A run ends where there is no text or no memory, and `NULL` is returned. -/
def step (s : State) (op : Op) : Option State :=
  match op.run mem s.text with
  | .null => none
  | .fault => some ⟨none, op.contents s.contents, false, false⟩
  | .ok t => some ⟨some t, op.contents s.contents, op.appends, s.fine⟩

/-- A text has some bytes. -/
structure Text.Has (t : Text) (bs : Bytes) : Prop where
  len : t.len = bs.length
  fits : t.len ≤ t.alen
  bytes : t.block.take t.len = bs

/-- The text has its bytes, and a NUL behind them if something was appended. -/
structure Right (s : State) : Prop where
  fine : s.fine = true
  has : ∀ t, s.text = some t → t.Has s.contents
  nul : ∀ t, s.text = some t → s.ended = true → at0 t.block t.len = 0

/-- The length taken is the one that was meant: a new text is not of a C string, a C string is shorter than
2147483648 bytes, and where a length of 0 is given, there is an empty C string. -/
def Data.Plain (d : Data) : Prop := d.size = d.bytes.length

def Op.Plain : Op → Prop
  | .create d => 0 ≤ d.len
  | .append d => d.Plain
  | .prepend d => d.Plain
  | .appendJson d => d.Plain
  | _ => True

/-! ## Blocks -/

theorem take_patch {m bs : Bytes} {off : ℕ} (h : off ≤ m.length) :
    (patch m off bs).take (off + bs.length) = m.take off ++ bs := by
  unfold patch
  refine List.take_left' ?_
  rw [List.length_append, List.length_take, Nat.min_eq_left h]

theorem take_patch_before {m bs : Bytes} {off k : ℕ} (hk : k ≤ off) (h : off ≤ m.length) :
    (patch m off bs).take k = m.take k := by
  unfold patch
  rw [List.append_assoc, List.take_append_of_le_length, List.take_take, Nat.min_eq_left hk]
  rw [List.length_take, Nat.min_eq_left h]
  exact hk

theorem at0_patch {m : Bytes} {off : ℕ} (h : off ≤ m.length) (c : Byte) : at0 (patch m off [c]) off = c := by
  have hat := at0_append (a := m.take off) (b := [c] ++ m.drop (off + 1))
  rw [List.length_take, Nat.min_eq_left h] at hat
  unfold patch
  rw [List.append_assoc]
  exact hat

/-- What is written to a block. -/
theorem put_eq (block : Bytes) (off : ℕ) (bs : Bytes) (h : off + bs.length ≤ block.length) :
    put block off bs = some (patch block off bs) ∧ (patch block off bs).length = block.length :=
  ⟨if_pos h, length_patch h⟩

/-- A text with some bytes, in a block that has room for its capacity and a NUL. -/
structure Text.Sound (t : Text) (bs : Bytes) : Prop extends t.Has bs where
  room : t.alen < t.block.length
  small : t.alen < 2 ^ 62

/-- What an operation should return: nothing, or a text with some bytes, and a NUL behind them. -/
def Result.Good (bs : Bytes) (nul : Bool) : Result → Prop
  | .null => True
  | .fault => False
  | .ok t => t.Sound bs ∧ (nul = true → at0 t.block t.len = 0)

theorem Result.Good.weaken {bs : Bytes} {r : Result} (h : r.Good bs true) : r.Good bs false := by
  cases r with
  | null => trivial
  | fault => exact h
  | ok t => exact ⟨h.1, fun hfalse => absurd hfalse Bool.false_ne_true⟩

variable {mem} {t : Text} {bs : Bytes}

/-- Bytes that fit are written behind those that are there, with a NUL. -/
theorem Text.Sound.write (h : t.Sound bs) {xs : Bytes} {n : ℕ} (hn : xs.length = n) (hfits : t.len + n ≤ t.alen) :
    (finish (t.len + n) t.alen
      ((put t.block t.len xs).bind fun block => put block (t.len + n) [0])).Good (bs ++ xs) true := by
  have hroom := h.room
  obtain ⟨hput, hlen⟩ := put_eq t.block t.len xs (by omega)
  obtain ⟨hnul, hlen'⟩ := put_eq (patch t.block t.len xs) (t.len + n) [0] (by rw [List.length_singleton]; omega)
  rw [hput, Option.bind_some, hnul]
  refine ⟨⟨⟨?_, hfits, ?_⟩, ?_, h.small⟩, fun _ => ?_⟩
  · rw [List.length_append, ← h.len, hn]
  · dsimp only
    rw [take_patch_before (m := patch t.block t.len xs) (Nat.le_refl (t.len + n)) (by omega), ← hn,
      take_patch (by omega), h.bytes]
  · dsimp only
    omega
  · exact at0_patch (m := patch t.block t.len xs) (by omega) 0

/-- Bytes that fit are written before those that are there. -/
theorem Text.Sound.prepend (h : t.Sound bs) {xs : Bytes} {n : ℕ} (hn : xs.length = n)
    (hfits : t.len + n ≤ t.alen) :
    (finish (t.len + n) t.alen ((get t.block (t.len + 1)).bind fun ys =>
      (put t.block n ys).bind fun block => put block 0 xs)).Good (xs ++ bs) false := by
  have hroom := h.room
  have hget : get t.block (t.len + 1) = some (t.block.take (t.len + 1)) := if_pos (by omega)
  have hys : (t.block.take (t.len + 1)).length = t.len + 1 := by
    rw [List.length_take]
    omega
  obtain ⟨hput, hlen⟩ := put_eq t.block n (t.block.take (t.len + 1)) (by omega)
  obtain ⟨hput', hlen'⟩ := put_eq (patch t.block n (t.block.take (t.len + 1))) 0 xs (by omega)
  rw [hget, Option.bind_some, hput, Option.bind_some, hput']
  refine ⟨⟨⟨?_, hfits, ?_⟩, ?_, h.small⟩, fun hfalse => absurd hfalse Bool.false_ne_true⟩
  · rw [List.length_append, ← h.len, hn, Nat.add_comm]
  · have hmoved : ((patch t.block n (t.block.take (t.len + 1))).drop n).take (t.block.take (t.len + 1)).length =
        t.block.take (t.len + 1) := patch_at (by omega)
    generalize patch t.block n (t.block.take (t.len + 1)) = moved at hmoved
    have hbytes : (moved.drop n).take t.len = bs := by
      rw [← h.bytes, ← Nat.min_eq_left (Nat.le_succ t.len), ← List.take_take, ← List.take_take]
      rw [hys] at hmoved
      rw [hmoved]
    unfold patch
    rw [List.take_zero, List.nil_append, Nat.zero_add, hn, Nat.add_comm, ← hn, List.take_length_add_append, hn,
      hbytes]
  · dsimp only
    omega

/-- New memory is as long as it was asked for, and what was there is at its start. -/
theorem realloc_eq {block block' : Bytes} {size k : ℕ} (h : realloc mem block size = some block')
    (hk : k ≤ block.length) (hsize : k ≤ size - 29) :
    size < 2 ^ 62 ∧ block'.length = size - 29 ∧ block'.take k = block.take k := by
  unfold realloc at h
  split_ifs at h with hhas
  obtain rfl := Option.some.inj h
  refine ⟨mem.bounded size hhas, ?_, ?_⟩
  · rw [List.length_append, List.length_take, List.length_drop, List.length_map, List.length_range]
    omega
  · rw [List.take_append_of_le_length, List.take_take, Nat.min_eq_left hsize]
    rw [List.length_take]
    omega

/-- A text that grows has room. -/
theorem Text.Sound.grow (h : t.Sound bs) {n : ℕ} {t' : Text} (hgrow : TextBuffer.grow mem t n = some t') :
    t'.Sound bs ∧ t'.len = t.len ∧ t'.len + n ≤ t'.alen := by
  have hroom := h.room
  have hfits := h.fits
  unfold TextBuffer.grow at hgrow
  split_ifs at hgrow with hlarge
  · obtain ⟨block, hblock, rfl⟩ := Option.map_eq_some_iff.mp hgrow
    have hnew : newLen t n = t.alen + n + t.alen / 2 := rfl
    obtain ⟨hsmall, hlen, htake⟩ := realloc_eq (k := t.len) hblock (by omega) (by omega)
    refine ⟨⟨⟨h.len, ?_, htake.trans h.bytes⟩, ?_, ?_⟩, rfl, ?_⟩
    all_goals
      dsimp only
      omega
  · obtain rfl := Option.some.inj hgrow
    exact ⟨h, rfl, by omega⟩

/-- The new capacity is a `long`. -/
theorem Text.Sound.newLen_lt (h : t.Sound bs) {n : ℕ} (hn : n ≤ 6 * 2 ^ 31) : newLen t n < 2 ^ 63 := by
  have hsmall := h.small
  unfold newLen
  omega

/-! ## The operations -/

theorem toInt_le {n : ℕ} : toInt n ≤ n := by
  obtain ⟨k, hk⟩ := toInt_dvd n
  have hrange := toInt_range n
  omega

/-- No more is taken than is there. -/
theorem Data.size_le (d : Data) : d.size ≤ d.mem.length := by
  unfold Data.size
  split_ifs
  · have hle := toInt_le (n := strlen d.mem)
    have hstr := cstr_length_le d.mem
    unfold strlen at hle ⊢
    omega
  · exact d.held

theorem Data.length_take (d : Data) : (d.mem.take d.size.toNat).length = d.size.toNat := by
  have hle := d.size_le
  rw [List.length_take]
  omega

/-- With the length that was meant the bytes are those that were meant. -/
theorem Data.Plain.take {d : Data} (h : d.Plain) : d.mem.take d.size.toNat = d.bytes := by
  have hlow := d.low
  unfold Data.Plain at h
  have hsize : d.size.toNat = d.bytes.length := by omega
  rw [hsize]
  unfold Data.bytes at hsize ⊢
  split_ifs at hsize ⊢ with hstr
  · exact (List.prefix_iff_eq_take.mp (cstr_isPre d.mem)).symm
  · rw [List.length_take, List.take_eq_take_iff]
    omega

theorem Data.Plain.nonneg {d : Data} (h : d.Plain) : ¬ d.size < 0 := by
  unfold Data.Plain at h
  omega

theorem textAppend_good (h : t.Sound bs) {d : Data} (hd : d.Plain) :
    (textAppend mem t d).Good (bs ++ d.bytes) true := by
  unfold textAppend
  rw [if_neg hd.nonneg]
  dsimp only
  cases hgrow : grow mem t d.size.toNat with
  | none => trivial
  | some t' =>
    obtain ⟨hsound, -, hfits⟩ := h.grow hgrow
    rw [← hd.take]
    exact hsound.write d.length_take hfits

theorem textAppendChar_good (h : t.Sound bs) (c : Byte) : (textAppendChar mem t c).Good (bs ++ [c]) true := by
  unfold textAppendChar
  cases hgrow : grow mem t 1 with
  | none => trivial
  | some t' =>
    obtain ⟨hsound, -, hfits⟩ := h.grow hgrow
    exact hsound.write rfl hfits

theorem textPrepend_good (h : t.Sound bs) {d : Data} (hd : d.Plain) :
    (textPrepend mem t d).Good (d.bytes ++ bs) false := by
  unfold textPrepend
  rw [if_neg hd.nonneg]
  dsimp only
  cases hgrow : grow mem t d.size.toNat with
  | none => trivial
  | some t' =>
    obtain ⟨hsound, -, hfits⟩ := h.grow hgrow
    rw [← hd.take]
    exact hsound.prepend d.length_take hfits

/-- The table and the loop are those of JSON. -/
theorem json_table : ∀ n < 256, jsonLoop (UInt8.ofNat n) = escaped (UInt8.ofNat n) ∧
    (at0 jsonChars n).toNat = 48 + (escaped (UInt8.ofNat n)).length ∧ 1 ≤ (escaped (UInt8.ofNat n)).length ∧
      ((escaped (UInt8.ofNat n)).length = 1 → escaped (UInt8.ofNat n) = [UInt8.ofNat n]) := by
  decide +kernel

theorem json_byte (c : Byte) : jsonLoop c = escaped c ∧
    (at0 jsonChars c.toNat).toNat = 48 + (escaped c).length ∧ 1 ≤ (escaped c).length ∧
      ((escaped c).length = 1 → escaped c = [c]) := by
  have h := json_table c.toNat c.toNat_lt
  rwa [UInt8.ofNat_toNat] at h

/-- The size that is computed. -/
theorem jsonSize_eq (s : Bytes) : jsonSize s = (s.flatMap escaped).length := by
  have hsum : (s.map fun c => (at0 jsonChars c.toNat).toNat).sum =
      s.length * 48 + (s.flatMap escaped).length := by
    induction s with
    | nil => rfl
    | cons c s ih =>
      rw [List.map_cons, List.sum_cons, ih, List.flatMap_cons, List.length_append, List.length_cons,
        (json_byte c).2.1]
      omega
  unfold jsonSize
  omega

theorem length_le_escaped (s : Bytes) : s.length ≤ (s.flatMap escaped).length := by
  induction s with
  | nil => exact Nat.le_refl _
  | cons c s ih =>
    have hone := (json_byte c).2.2.1
    rw [List.flatMap_cons, List.length_append, List.length_cons]
    omega

/-- Where nothing gets longer nothing is escaped. -/
theorem escaped_plain {s : Bytes} (h : (s.flatMap escaped).length = s.length) : s.flatMap escaped = s := by
  induction s with
  | nil => rfl
  | cons c s ih =>
    obtain ⟨-, -, hone, hplain⟩ := json_byte c
    have hle := length_le_escaped s
    rw [List.flatMap_cons, List.length_append, List.length_cons] at h
    rw [List.flatMap_cons, ih (by omega), hplain (by omega)]
    rfl

/-- What is written is what was to be escaped. -/
theorem json_written (s : Bytes) :
    (if jsonSize s = s.length then s else s.flatMap jsonLoop) = s.flatMap escaped := by
  have hloop : s.flatMap jsonLoop = s.flatMap escaped := List.flatMap_congr fun c _ => (json_byte c).1
  rw [hloop, jsonSize_eq]
  split_ifs with hsame
  · exact (escaped_plain hsame).symm
  · rfl

theorem textAppendJson_good (h : t.Sound bs) {d : Data} (hd : d.Plain) :
    (textAppendJson mem t d).Good (bs ++ d.bytes.flatMap escaped) true := by
  unfold textAppendJson
  rw [if_neg hd.nonneg]
  dsimp only
  cases hgrow : grow mem t (jsonSize (d.mem.take d.size.toNat)) with
  | none => trivial
  | some t' =>
    obtain ⟨hsound, -, hfits⟩ := h.grow hgrow
    have hwritten := json_written (d.mem.take d.size.toNat)
    rw [d.length_take] at hwritten
    dsimp only
    rw [hwritten, ← hd.take]
    exact hsound.write (jsonSize_eq _).symm hfits

/-- New memory for a text. -/
theorem malloc_eq {block : Bytes} {size : ℕ} (h : malloc mem size = some block) :
    size < 2 ^ 62 ∧ block.length = size - 29 := by
  unfold malloc at h
  split_ifs at h with hhas
  obtain rfl := Option.some.inj h
  exact ⟨mem.bounded size hhas, by rw [List.length_map, List.length_range]⟩

theorem textCreate_good {d : Data} (hd : 0 ≤ d.len) : (textCreate mem d).Good d.bytes false := by
  unfold textCreate
  dsimp only
  cases hblock : malloc mem (40 + firstAlen d.len + 1) with
  | none => trivial
  | some block =>
    obtain ⟨hsmall, hlen⟩ := malloc_eq hblock
    have hfirst : d.len.toNat ≤ firstAlen d.len := by
      unfold firstAlen
      split_ifs
      · exact Nat.le_refl _
      · omega
    have hempty : (⟨0, firstAlen d.len, block⟩ : Text).Sound [] :=
      ⟨⟨rfl, Nat.zero_le _, rfl⟩, by dsimp only; omega, by dsimp only; omega⟩
    have hbytes : d.bytes = d.mem.take d.len.toNat := by
      unfold Data.bytes
      rw [if_neg (by omega)]
    have hheld := d.held
    have htake : (d.mem.take d.len.toNat).length = d.len.toNat := by
      rw [List.length_take]
      omega
    have hwrite := hempty.write htake (by dsimp only; omega)
    dsimp only at hwrite ⊢
    rw [Nat.zero_add, List.nil_append, ← hbytes] at hwrite
    rw [if_neg (by omega), ← hbytes]
    exact hwrite.weaken

theorem textAllocate_good (len : ℤ) : (textAllocate mem len).Good [] false := by
  unfold textAllocate
  dsimp only
  cases hblock : malloc mem (40 + firstAlen len + 1) with
  | none => trivial
  | some block =>
    obtain ⟨hsmall, hlen⟩ := malloc_eq hblock
    have hnul : (1 : ℕ) = [(0 : Byte)].length := rfl
    obtain ⟨hput, hlen'⟩ := put_eq block 0 [0] (by omega)
    dsimp only
    rw [hput]
    refine ⟨⟨⟨rfl, Nat.zero_le _, rfl⟩, ?_, ?_⟩, fun hfalse => absurd hfalse Bool.false_ne_true⟩
    all_goals
      dsimp only
      omega

theorem textDup_good (h : t.Sound bs) : (textDup mem t).Good bs false := by
  have hroom := h.room
  have hfits := h.fits
  unfold textDup
  cases hblock : malloc mem (40 - 8 + t.alen + 1) with
  | none => trivial
  | some block =>
    obtain ⟨hsmall, hlen⟩ := malloc_eq hblock
    have hget : get t.block (t.len + 1) = some (t.block.take (t.len + 1)) := if_pos (by omega)
    have hys : (t.block.take (t.len + 1)).length = t.len + 1 := by
      rw [List.length_take]
      omega
    obtain ⟨hput, hlen'⟩ := put_eq block 0 (t.block.take (t.len + 1)) (by omega)
    have hcopy : (patch block 0 (t.block.take (t.len + 1))).take (0 + (t.block.take (t.len + 1)).length) =
        block.take 0 ++ t.block.take (t.len + 1) := take_patch (Nat.zero_le _)
    rw [List.take_zero, List.nil_append, hys, Nat.zero_add] at hcopy
    dsimp only
    rw [hget, Option.bind_some, hput]
    refine ⟨⟨⟨h.len, hfits, ?_⟩, ?_, h.small⟩, fun hfalse => absurd hfalse Bool.false_ne_true⟩
    · have htake := congrArg (List.take t.len) hcopy
      rwa [List.take_take, List.take_take, Nat.min_eq_left (Nat.le_succ _), h.bytes] at htake
    · dsimp only
      omega

/-! ## Runs -/

variable {o : Option Text}

/-- What an operation returns for a text with some bytes. -/
theorem run_good (h : ∀ t, o = some t → t.Sound bs) {op : Op} (hop : op.Plain) :
    (op.run mem o).Good (op.contents bs) op.appends := by
  cases op with
  | create d => exact textCreate_good hop
  | allocate len => exact textAllocate_good len
  | dup =>
    cases o with
    | none => trivial
    | some t => exact textDup_good (h t rfl)
  | append d =>
    cases o with
    | none => trivial
    | some t => exact textAppend_good (h t rfl) hop
  | appendChar c =>
    cases o with
    | none => trivial
    | some t => exact textAppendChar_good (h t rfl) c
  | prepend d =>
    cases o with
    | none => trivial
    | some t => exact textPrepend_good (h t rfl) hop
  | appendJson d =>
    cases o with
    | none => trivial
    | some t => exact textAppendJson_good (h t rfl) hop
  | reset =>
    cases o with
    | none => trivial
    | some t =>
      have hsound := h t rfl
      exact ⟨⟨⟨rfl, Nat.zero_le _, rfl⟩, hsound.room, hsound.small⟩,
        fun hfalse => absurd hfalse Bool.false_ne_true⟩

theorem finish_ok {len alen : ℕ} {block : Option Bytes} (h : finish len alen block = .ok t) : t.len = len := by
  cases block with
  | none => cases h
  | some block =>
    obtain rfl := Result.ok.inj h
    rfl

/-- The bytes taken by a wrong length are more or less than those that were meant, escaped or not. -/
theorem Data.not_plain {d : Data} (h : ¬ d.Plain) (hsize : ¬ d.size < 0) :
    d.size.toNat ≠ d.bytes.length ∧
      ((d.mem.take d.size.toNat).flatMap escaped).length ≠ (d.bytes.flatMap escaped).length := by
  have hlow := d.low
  have hheld := d.held
  have htaken := length_le_escaped (d.mem.take d.size.toNat)
  rw [d.length_take] at htaken
  unfold Data.Plain at h
  refine ⟨by omega, ?_⟩
  unfold Data.bytes at h ⊢
  split_ifs at h ⊢ with hstr
  · -- a C string is cut
    have hle : d.size ≤ strlen d.mem := by
      unfold Data.size
      rw [if_pos (by omega)]
      exact toInt_le
    have hlt : d.size.toNat < (cstr d.mem).length := by
      unfold strlen at hle
      omega
    have htaken' : d.mem.take d.size.toNat = (cstr d.mem).take d.size.toNat := by
      rw [List.prefix_iff_eq_take.mp (cstr_isPre d.mem), List.take_take, Nat.min_eq_left hlt.le]
    have hrest := length_le_escaped ((cstr d.mem).drop d.size.toNat)
    rw [List.length_drop] at hrest
    rw [htaken']
    conv_rhs => rw [← List.take_append_drop d.size.toNat (cstr d.mem)]
    rw [List.flatMap_append, List.length_append]
    omega
  · by_cases hzero : d.len = 0
    · rw [hzero] at h ⊢
      change d.size ≠ 0 at h
      change _ ≠ 0
      omega
    · refine absurd ?_ h
      unfold Data.size
      rw [if_neg (by omega), List.length_take]
      omega

theorem grow_len {n : ℕ} {t' : Text} (h : grow mem t n = some t') : t'.len = t.len := by
  unfold grow at h
  split_ifs at h
  · obtain ⟨block, -, rfl⟩ := Option.map_eq_some_iff.mp h
    rfl
  · rw [Option.some.inj h]

/-- A text that gets room and is then written to is longer by what was asked for. -/
theorem grow_finish_len {n : ℕ} {write : Text → Option Bytes} {t' : Text}
    (h : (match grow mem t n with
      | none => .null
      | some u => finish (u.len + n) u.alen (write u)) = Result.ok t') : t'.len = t.len + n := by
  cases hgrow : grow mem t n with
  | none =>
    rw [hgrow] at h
    cases h
  | some u =>
    rw [hgrow] at h
    rw [finish_ok h, grow_len hgrow]

/-- With a wrong length the text gets another length. -/
theorem run_bad (h : ∀ t, o = some t → t.Sound bs) {op : Op} (hop : ¬ op.Plain) {t' : Text}
    (hrun : op.run mem o = .ok t') : t'.len ≠ (op.contents bs).length := by
  cases op with
  | create d =>
    have hneg : d.len < 0 := Int.not_le.mp hop
    change textCreate mem d = .ok t' at hrun
    unfold textCreate at hrun
    simp only [if_pos hneg] at hrun
    split at hrun <;> cases hrun
  | append d =>
    cases o with
    | none => cases hrun
    | some t =>
      change textAppend mem t d = .ok t' at hrun
      unfold textAppend at hrun
      split_ifs at hrun with hsize
      have hne := (Data.not_plain hop hsize).1
      change _ ≠ (bs ++ d.bytes).length
      rw [grow_finish_len hrun, (h t rfl).len, List.length_append]
      omega
  | prepend d =>
    cases o with
    | none => cases hrun
    | some t =>
      change textPrepend mem t d = .ok t' at hrun
      unfold textPrepend at hrun
      split_ifs at hrun with hsize
      have hne := (Data.not_plain hop hsize).1
      change _ ≠ (d.bytes ++ bs).length
      rw [grow_finish_len hrun, (h t rfl).len, List.length_append]
      omega
  | appendJson d =>
    cases o with
    | none => cases hrun
    | some t =>
      change textAppendJson mem t d = .ok t' at hrun
      unfold textAppendJson at hrun
      split_ifs at hrun with hsize
      have hne := (Data.not_plain hop hsize).2
      change _ ≠ (bs ++ d.bytes.flatMap escaped).length
      rw [grow_finish_len hrun, (h t rfl).len, List.length_append, jsonSize_eq]
      omega
  | allocate len => exact absurd trivial hop
  | dup => exact absurd trivial hop
  | appendChar c => exact absurd trivial hop
  | reset => exact absurd trivial hop

/-- What a run keeps. -/
structure Inv (s : State) : Prop where
  fine : s.fine = true
  sound : ∀ t, s.text = some t → t.Sound s.contents
  nul : ∀ t, s.text = some t → s.ended = true → at0 t.block t.len = 0

theorem Inv.right {s : State} (h : Inv s) : Right s := ⟨h.fine, fun t ht => (h.sound t ht).toHas, h.nul⟩

theorem inv_start : Inv start where
  fine := rfl
  sound _ h := nomatch h
  nul _ h := nomatch h

/-- **An operation with the length that was meant keeps the text.** -/
theorem Inv.keeps {s s' : State} (h : Inv s) {op : Op} (hop : op.Plain) (hstep : step mem s op = some s') :
    Inv s' := by
  have hgood : (op.run mem s.text).Good (op.contents s.contents) op.appends := run_good h.sound hop
  unfold step at hstep
  cases hrun : op.run mem s.text with
  | null =>
    rw [hrun] at hstep
    cases hstep
  | fault =>
    rw [hrun] at hgood
    exact hgood.elim
  | ok t =>
    rw [hrun] at hstep hgood
    obtain rfl := Option.some.inj hstep
    refine ⟨h.fine, fun u hu => ?_, fun u hu => ?_⟩
    · obtain rfl := Option.some.inj hu
      exact hgood.1
    · obtain rfl := Option.some.inj hu
      exact hgood.2

theorem Inv.leaves {s s' : State} (h : Inv s) {op : Op} (hop : ¬ op.Plain) (hstep : step mem s op = some s') :
    ¬ Right s' := by
  intro hright
  unfold step at hstep
  cases hrun : op.run mem s.text with
  | null =>
    rw [hrun] at hstep
    cases hstep
  | fault =>
    rw [hrun] at hstep
    obtain rfl := Option.some.inj hstep
    exact Bool.false_ne_true hright.fine
  | ok t =>
    rw [hrun] at hstep
    obtain rfl := Option.some.inj hstep
    exact run_bad h.sound hop hrun (hright.has t rfl).len

/-- **In every run the text has the bytes that it should, in its block, as long as each length is the one that was
meant.** -/
theorem text_iff (mem : Memory) (ops : List Op) :
    Always (step mem) Right start ops ↔ Along (step mem) (fun _ op => op.Plain) start ops :=
  always_iff_along Inv (fun _ _ _ h _ hop hstep => h.keeps hop hstep) (fun _ h => h.right)
    (fun _ _ _ h _ hop hstep => h.leaves hop hstep) inv_start (along_true _ _)

/-- Some hundred bytes can be had. -/
def smallMemory : Memory where
  has n := n < 1000
  bounded n h := (of_decide_eq_true h).trans (by decide)
  fresh _ := 0

/-- No byte, in memory that goes on. -/
def noByte : Data := ⟨bytes "x", 0, by decide, by decide, by decide⟩

/-- An append of no byte appends a C string. -/
theorem zero_length_appends : ¬ ∀ (mem : Memory) (ops : List Op), Always (step mem) Right start ops := by
  intro h
  have hright := (h smallMemory [.allocate 0, .append noByte]).last rfl
  exact absurd (hright.has _ rfl).len (by decide)

end TextBuffer

end Agoo
