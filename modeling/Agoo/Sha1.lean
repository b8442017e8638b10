import Agoo.Blocks
import Agoo.LittleEndian
import Agoo.WsHeaders
import Mathlib.Tactic.IntervalCases

/-!
# SHA-1 (`sha1.c`)

The standard hash, and the code: blocks of words in place, of which each round reads and writes one in a
ring of sixteen, and messages that are taken in piece by piece.

`sha1_eq`: **the digest is the standard one of the data but for the length field**, which is one too high in
its upper word from 2^29 bytes on; and the blocks of the data behind the first are written over.

`wsAddHeaders_standard`: the answer to an upgrade has the standard digest in it.
-/

namespace Agoo

namespace Sha1

abbrev Word := BitVec 32

/-! ## The standard -/

/-- Word `t` of a block. -/
def wordAt (block : Bytes) (t : ℕ) : Word :=
  (at0 block (4 * t)).toBitVec ++ (at0 block (4 * t + 1)).toBitVec ++ (at0 block (4 * t + 2)).toBitVec ++
    (at0 block (4 * t + 3)).toBitVec

/-- The message schedule. -/
def schedule (m : ℕ → Word) (t : ℕ) : Word :=
  if t < 16 then m t
  else (schedule m (t - 3) ^^^ schedule m (t - 8) ^^^ schedule m (t - 14) ^^^ schedule m (t - 16)).rotateLeft 1

structure Regs where
  a : Word
  b : Word
  c : Word
  d : Word
  e : Word
  deriving DecidableEq

/-- The function of round `t`: a choice, the parity or the majority of bits. -/
def mix (t : ℕ) (x y z : Word) : Word :=
  if t < 20 then (x &&& y) ^^^ (~~~x &&& z)
  else if t < 40 then x ^^^ y ^^^ z
  else if t < 60 then (x &&& y) ^^^ (x &&& z) ^^^ (y &&& z)
  else x ^^^ y ^^^ z

/-- The constant of round `t`. -/
def key (t : ℕ) : Word :=
  if t < 20 then 0x5A827999 else if t < 40 then 0x6ED9EBA1 else if t < 60 then 0x8F1BBCDC else 0xCA62C1D6

def round (w : Word) (t : ℕ) (r : Regs) : Regs :=
  ⟨r.a.rotateLeft 5 + mix t r.b r.c r.d + r.e + key t + w, r.a, r.b.rotateLeft 30, r.c, r.d⟩

/-- The registers behind some rounds. -/
def rounds (w : ℕ → Word) (h : Regs) : ℕ → Regs
  | 0 => h
  | t + 1 => round (w t) t (rounds w h t)

def plus (h r : Regs) : Regs := ⟨h.a + r.a, h.b + r.b, h.c + r.c, h.d + r.d, h.e + r.e⟩

def compress (h : Regs) (block : Bytes) : Regs := plus h (rounds (schedule (wordAt block)) h 80)

def start : Regs := ⟨0x67452301, 0xEFCDAB89, 0x98BADCFE, 0x10325476, 0xC3D2E1F0⟩

/-- The bytes of a word, the highest first. -/
def beBytes (w : Word) : Bytes :=
  [.ofBitVec (w.extractLsb' 24 8), .ofBitVec (w.extractLsb' 16 8), .ofBitVec (w.extractLsb' 8 8),
    .ofBitVec (w.extractLsb' 0 8)]

/-- The digest that registers stand for. -/
def output (h : Regs) : Vector Byte 20 :=
  ⟨(beBytes h.a ++ beBytes h.b ++ beBytes h.c ++ beBytes h.d ++ beBytes h.e).toArray, rfl⟩

/-- The zeros behind the bit that ends a message. -/
def zeros (len : ℕ) : ℕ := (119 - len % 64) % 64

/-- A number of 64 bits. -/
def lengthBytes (bits : ℕ) : Bytes := beBytes (.ofNat 32 (bits / 0x100000000)) ++ beBytes (.ofNat 32 bits)

/-- The hash of a message, with a number in its length field. -/
def hash (m : Bytes) (bits : ℕ) : Vector Byte 20 :=
  output (Blocks.chain compress 64 start (m ++ 0x80 :: List.replicate (zeros m.length) 0 ++ lengthBytes bits))

/-- The SHA-1 digest. -/
def standard (m : Bytes) : Vector Byte 20 := hash m (8 * m.length)

/-! ## The code -/

def rol (w : Word) (bits : ℕ) : Word := w <<< bits ||| w >>> (32 - bits)

/-- A word in memory. -/
def leWordAt (block : Bytes) (t : ℕ) : Word :=
  (at0 block (4 * t + 3)).toBitVec ++ (at0 block (4 * t + 2)).toBitVec ++ (at0 block (4 * t + 1)).toBitVec ++
    (at0 block (4 * t)).toBitVec

/-- `block->l`. -/
def load (block : Bytes) : List Word := (List.range 16).map (leWordAt block)

def store (l : List Word) : Bytes := l.flatMap fun w => (beBytes w).reverse

/-- `block->l[i]`. -/
def word (l : List Word) (i : ℕ) : Word := l.getD i 0

/-- `blk0`. -/
def blk0 (l : List Word) (i : ℕ) : List Word :=
  l.set i (rol (word l i) 24 &&& 0xFF00FF00 ||| rol (word l i) 8 &&& 0x00FF00FF)

/-- `blk`; `i & 0x0F` is a remainder. -/
def blk (l : List Word) (i : ℕ) : List Word :=
  l.set (i % 16)
    (rol (word l ((i + 13) % 16) ^^^ word l ((i + 8) % 16) ^^^ word l ((i + 2) % 16) ^^^ word l (i % 16)) 1)

/-- What the macros of the rounds have in common. They are called with the registers moved on by one place from
call to call, so that `v` to `z` are the ones of the standard in their order. -/
def roundMacro (f : Word → Word → Word → Word) (k : Word) (block : List Word → ℕ → List Word) (i : ℕ)
    (s : Regs × List Word) : Regs × List Word :=
  let ⟨⟨v, w, x, y, z⟩, l⟩ := s
  let l := block l i
  (⟨z + (f w x y + word l (i % 16) + k + rol v 5), v, rol w 30, x, y⟩, l)

/-- `R0`. -/
def r0 : ℕ → Regs × List Word → Regs × List Word :=
  roundMacro (fun w x y => (w &&& (x ^^^ y)) ^^^ y) 0x5A827999 blk0

/-- `R1`. -/
def r1 : ℕ → Regs × List Word → Regs × List Word :=
  roundMacro (fun w x y => (w &&& (x ^^^ y)) ^^^ y) 0x5A827999 blk

/-- `R2`. -/
def r2 : ℕ → Regs × List Word → Regs × List Word := roundMacro (fun w x y => w ^^^ x ^^^ y) 0x6ED9EBA1 blk

/-- `R3`. -/
def r3 : ℕ → Regs × List Word → Regs × List Word :=
  roundMacro (fun w x y => ((w ||| x) &&& y) ||| (w &&& x)) 0x8F1BBCDC blk

/-- `R4`. -/
def r4 : ℕ → Regs × List Word → Regs × List Word := roundMacro (fun w x y => w ^^^ x ^^^ y) 0xCA62C1D6 blk

/-- The calls in `transform`, up to the one with `n`. -/
def turns (s : Regs × List Word) : ℕ → Regs × List Word
  | 0 => s
  | i + 1 =>
    let s := turns s i
    if i < 16 then r0 i s
    else if i < 20 then r1 i s
    else if i < 40 then r2 i s
    else if i < 60 then r3 i s
    else r4 i s

/-- `transform`: the registers, and what is left in the memory of the block. -/
def transform (h : Regs) (block : Bytes) : Regs × Bytes :=
  let s := turns (h, load block) 80
  (plus h s.1, store s.2)

/-- `Ctx`. -/
structure Ctx where
  h : Regs
  count0 : Word
  count1 : Word
  buffer : Bytes

/-- `for (; i + 63 < len; i += 64)`, on what is behind `data + i`; it is written over block by block. -/
def blockLoop : ℕ → Regs → Bytes → Regs × Bytes
  | 0, h, m => (h, m)
  | k + 1, h, m =>
    let t := transform h (m.take 64)
    let r := blockLoop k t.1 (m.drop 64)
    (r.1, t.2 ++ r.2)

/-- `len << 3`. -/
def shifted (len : ℕ) : ℕ := (len <<< 3) % 0x10000000000000000

/-- `update`, and the data after it. -/
def update (ctx : Ctx) (data : Bytes) : Ctx × Bytes :=
  let len := data.length
  let j := ctx.count0.toNat >>> 3 % 64
  let count0 := ctx.count0 + .ofNat 32 (shifted len)
  let count1 := if count0.toNat < shifted len then ctx.count1 + 1 else ctx.count1
  let count1 := count1 + .ofNat 32 (len >>> 29)
  if 63 < j + len then
    let i := 64 - j
    let t := transform ctx.h (patch ctx.buffer j (data.take i))
    let k := (len - i) / 64
    let r := blockLoop k t.1 (data.drop i)
    (⟨r.1, count0, count1, patch t.2 0 (data.drop (i + 64 * k))⟩, data.take i ++ r.2)
  else (⟨ctx.h, count0, count1, patch ctx.buffer j data⟩, data)

/-- The bytes of a count, the highest first. -/
def countBytes (w : Word) : Bytes := (List.range 4).map fun i => .ofNat ((w.toNat >>> ((3 - i) * 8)) &&& 0xFF)

/-- `finalcount`. -/
def finalcount (ctx : Ctx) : Bytes := countBytes ctx.count1 ++ countBytes ctx.count0

/-- The loop that fills up a block but for eight bytes. -/
def padLoop : ℕ → Ctx → Option Ctx
  | 0, _ => none
  | fuel + 1, ctx =>
    if ctx.count0 &&& 0x000001F8 ≠ 0x000001C0 then padLoop fuel (update ctx [0]).1 else some ctx

def Regs.word (h : Regs) (i : ℕ) : Word :=
  match i with
  | 0 => h.a
  | 1 => h.b
  | 2 => h.c
  | 3 => h.d
  | _ => h.e

/-- `digest`. -/
def digestOf (h : Regs) : Vector Byte 20 :=
  .ofFn fun i => .ofNat (((h.word (i.val / 4)).toNat >>> ((3 - i.val % 4) * 8)) &&& 0xFF)

/-- `sha1`, with what is in `ctx.buffer` before: the digest, and the data after it. Less than 64 turns of the loop
fill a block. -/
def sha1 (junk : Vector Byte 64) (data : Bytes) : Option (Vector Byte 20 × Bytes) := do
  let r := update ⟨start, 0, 0, junk.toList⟩ data
  let final := finalcount r.1
  let ctx ← padLoop 64 (update r.1 [0x80]).1
  let ctx := (update ctx final).1
  return (digestOf ctx.h, r.2)

/-! ## Words -/

theorem swap_bytes (b0 b1 b2 b3 : BitVec 8) :
    rol (b3 ++ b2 ++ b1 ++ b0) 24 &&& 0xFF00FF00 ||| rol (b3 ++ b2 ++ b1 ++ b0) 8 &&& 0x00FF00FF =
      (b0 ++ b1 ++ b2 ++ b3 : Word) := by
  unfold rol
  apply BitVec.eq_of_getLsbD_eq
  intro i hi
  simp only [BitVec.getLsbD_or, BitVec.getLsbD_and, BitVec.getLsbD_shiftLeft, BitVec.getLsbD_ushiftRight,
    BitVec.getLsbD_append]
  interval_cases i <;> simp

theorem choice_eq (x y z : Word) : (x &&& (y ^^^ z)) ^^^ z = (x &&& y) ^^^ (~~~x &&& z) := by
  ext i
  simp only [BitVec.getElem_xor, BitVec.getElem_and, BitVec.getElem_not]
  cases x[i] <;> cases y[i] <;> cases z[i] <;> rfl

theorem majority_eq (x y z : Word) :
    ((x ||| y) &&& z) ||| (x &&& y) = (x &&& y) ^^^ (x &&& z) ^^^ (y &&& z) := by
  ext i
  simp only [BitVec.getElem_xor, BitVec.getElem_and, BitVec.getElem_or]
  cases x[i] <;> cases y[i] <;> cases z[i] <;> rfl

/-- A byte of a word, as it is printed. -/
theorem byte_eq (w : Word) (s : ℕ) :
    UInt8.ofNat ((w.toNat >>> s) &&& 0xFF) = .ofBitVec (w.extractLsb' s 8) := by
  apply UInt8.toNat_inj.mp
  rw [UInt8.toNat_ofNat', UInt8.toNat_ofBitVec, BitVec.extractLsb'_toNat,
    show 0xFF = 2 ^ 8 - 1 from rfl, Nat.and_two_pow_sub_one_eq_mod, Nat.mod_mod]

theorem countBytes_eq (w : Word) : countBytes w = beBytes w := by
  unfold countBytes beBytes
  simp only [byte_eq]
  rfl

theorem digestOf_eq (h : Regs) : digestOf h = output h := by
  apply Vector.ext
  intro i hi
  unfold digestOf
  rw [Vector.getElem_ofFn, byte_eq]
  interval_cases i <;> simp [output, beBytes, Regs.word]

/-! ## The ring of words -/

theorem word_set {l : List Word} {i : ℕ} (hi : i < l.length) (w : Word) (j : ℕ) :
    word (l.set i w) j = if i = j then w else word l j := by
  unfold word
  by_cases hij : i = j
  · subst hij
    rw [if_pos rfl, List.getD_eq_getElem _ _ (by simpa using hi), List.getElem_set_self]
  · rw [if_neg hij, List.getD_eq_getElem?_getD, List.getD_eq_getElem?_getD, List.getElem?_set_ne hij]

/-- Behind `t` rounds a word of the ring is the last one of the schedule that has its place, or still as it is in
memory. -/
structure Ring (block : Bytes) (l : List Word) (t : ℕ) : Prop where
  length : l.length = 16
  done : ∀ s, s < t → t ≤ s + 16 → word l (s % 16) = schedule (wordAt block) s
  todo : ∀ s, t ≤ s → s < 16 → word l s = leWordAt block s

variable {block : Bytes} {l : List Word} {t : ℕ}

theorem ring_load (block : Bytes) : Ring block (load block) 0 where
  length := by simp [load]
  done s hs := absurd hs (Nat.not_lt_zero s)
  todo s _ hs := by
    unfold word load
    rw [List.getD_eq_getElem _ _ (by simpa using hs), List.getElem_map, List.getElem_range]

theorem schedule_block {m : ℕ → Word} (ht : t < 16) : schedule m t = m t := by
  rw [schedule, if_pos ht]

theorem schedule_next {m : ℕ → Word} (ht : 16 ≤ t) : schedule m t =
    (schedule m (t - 3) ^^^ schedule m (t - 8) ^^^ schedule m (t - 14) ^^^ schedule m (t - 16)).rotateLeft 1 := by
  rw [schedule, if_neg (Nat.not_lt.mpr ht)]

/-- The word of the round is put in its place. -/
theorem Ring.set (h : Ring block l t) {w : Word} (hw : w = schedule (wordAt block) t) :
    Ring block (l.set (t % 16) w) (t + 1) where
  length := by rw [List.length_set, h.length]
  done s hs ht := by
    rw [word_set (by rw [h.length]; omega)]
    by_cases hst : s = t
    · rw [hst, if_pos rfl, hw]
    · rw [if_neg (by omega)]
      exact h.done s (by omega) (by omega)
  todo s hs ht := by
    rw [word_set (by rw [h.length]; omega), if_neg (by omega)]
    exact h.todo s (by omega) ht

theorem Ring.blk0 (h : Ring block l t) (ht : t < 16) : Ring block (blk0 l t) (t + 1) := by
  have hw : word l t = leWordAt block t := h.todo t (Nat.le_refl t) ht
  have hset := h.set (w := rol (word l t) 24 &&& 0xFF00FF00 ||| rol (word l t) 8 &&& 0x00FF00FF) (by
    rw [hw, schedule_block ht]
    exact swap_bytes _ _ _ _)
  rwa [Nat.mod_eq_of_lt ht] at hset

theorem Ring.blk (h : Ring block l t) (ht : 16 ≤ t) : Ring block (blk l t) (t + 1) := by
  refine h.set ?_
  have hback : ∀ d, 0 < d → d ≤ 16 → word l ((t + 16 - d) % 16) = schedule (wordAt block) (t - d) := by
    intro d hpos hd
    rw [show (t + 16 - d) % 16 = (t - d) % 16 by omega]
    exact h.done (t - d) (by omega) (by omega)
  rw [schedule_next ht, ← hback 3 (by omega) (by omega), ← hback 8 (by omega) (by omega),
    ← hback 14 (by omega) (by omega), ← hback 16 (by omega) (by omega)]
  rfl

/-! ## The rounds -/

/-- A call of a macro is the round of the standard. -/
theorem roundMacro_eq {f : Word → Word → Word → Word} {k : Word} {b : List Word → ℕ → List Word} {r : Regs}
    (hf : ∀ x y z, f x y z = mix t x y z) (hk : k = key t) (hring : Ring block (b l t) (t + 1)) :
    (roundMacro f k b t (r, l)).1 = round (schedule (wordAt block) t) t r ∧
      Ring block (roundMacro f k b t (r, l)).2 (t + 1) := by
  refine ⟨?_, hring⟩
  have hword := hring.done t (Nat.lt_succ_self t) (by omega)
  show Regs.mk (r.e + (f r.b r.c r.d + word (b l t) (t % 16) + k + rol r.a 5)) r.a (rol r.b 30) r.c r.d = _
  unfold round
  rw [hword, hf, hk, show rol r.a 5 = r.a.rotateLeft 5 from rfl, show rol r.b 30 = r.b.rotateLeft 30 from rfl]
  congr 1
  ac_rfl

theorem turns_eq (h : Regs) (block : Bytes) (t : ℕ) :
    (turns (h, load block) t).1 = rounds (schedule (wordAt block)) h t ∧
      Ring block (turns (h, load block) t).2 t := by
  induction t with
  | zero => exact ⟨rfl, ring_load block⟩
  | succ t ih =>
    obtain ⟨hregs, hring⟩ := ih
    unfold turns rounds
    rw [← hregs]
    generalize turns (h, load block) t = s at hring ⊢
    obtain ⟨r, l⟩ := s
    dsimp only
    split_ifs with h16 h20 h40 h60
    · refine roundMacro_eq (fun x y z => ?_) ?_ (hring.blk0 h16)
      · rw [mix, if_pos (by omega), choice_eq]
      · rw [key, if_pos (by omega)]
    · refine roundMacro_eq (fun x y z => ?_) ?_ (hring.blk (by omega))
      · rw [mix, if_pos h20, choice_eq]
      · rw [key, if_pos h20]
    · refine roundMacro_eq (fun x y z => ?_) ?_ (hring.blk (by omega))
      · rw [mix, if_neg h20, if_pos h40]
      · rw [key, if_neg h20, if_pos h40]
    · refine roundMacro_eq (fun x y z => ?_) ?_ (hring.blk (by omega))
      · rw [mix, if_neg h20, if_neg h40, if_pos h60, majority_eq]
      · rw [key, if_neg h20, if_neg h40, if_pos h60]
    · refine roundMacro_eq (fun x y z => ?_) ?_ (hring.blk (by omega))
      · rw [mix, if_neg h20, if_neg h40, if_neg h60]
      · rw [key, if_neg h20, if_neg h40, if_neg h60]

/-- What is left in the memory of a block: the last words of its schedule. -/
def wreck (block : Bytes) : Bytes := store ((List.range 16).map fun j => schedule (wordAt block) (64 + j))

theorem length_store (l : List Word) : (store l).length = 4 * l.length := by
  induction l with
  | nil => rfl
  | cons w l ih =>
    rw [store, List.flatMap_cons, List.length_append, List.length_cons]
    rw [store] at ih
    rw [ih, List.length_reverse]
    show 4 + 4 * l.length = _
    omega

theorem length_wreck (block : Bytes) : (wreck block).length = 64 := by
  rw [wreck, length_store, List.length_map, List.length_range]

/-- The ring behind the last round. -/
theorem Ring.eq_wreck (hring : Ring block l 80) : store l = wreck block := by
  refine congrArg store (List.ext_getElem (by simp [hring.length]) fun j hj hj' => ?_)
  have hlt : j < 16 := by simpa using hj'
  have hdone := hring.done (64 + j) (by omega) (by omega)
  rw [show (64 + j) % 16 = j by omega, word, List.getD_eq_getElem _ _ hj] at hdone
  rw [hdone, List.getElem_map, List.getElem_range]

theorem transform_eq (h : Regs) (block : Bytes) : transform h block = (compress h block, wreck block) := by
  obtain ⟨hregs, hring⟩ := turns_eq h block 80
  show (plus h (turns (h, load block) 80).1, store (turns (h, load block) 80).2) = _
  rw [hregs, hring.eq_wreck, compress]

/-! ## Messages -/

/-- Some blocks are written over. -/
def wreckAll : ℕ → Bytes → Bytes
  | 0, m => m
  | k + 1, m => wreck (m.take 64) ++ wreckAll k (m.drop 64)

theorem blockLoop_eq (k : ℕ) (h : Regs) (m : Bytes) :
    blockLoop k h m = (Blocks.absorb compress 64 k h m, wreckAll k m) := by
  induction k generalizing h m with
  | zero => rfl
  | succ k ih =>
    unfold blockLoop Blocks.absorb wreckAll
    dsimp only
    rw [transform_eq, ih]

/-- The context behind a message. -/
structure Holds (ctx : Ctx) (m : Bytes) : Prop where
  h : ctx.h = Blocks.chain compress 64 start m
  size : ctx.buffer.length = 64
  pending : ctx.buffer.take (m.length % 64) = Blocks.left 64 m
  count : ctx.count0 = .ofNat 32 (8 * m.length)

variable {ctx : Ctx} {m : Bytes}

theorem shifted_mod (len : ℕ) : shifted len % 0x100000000 = 8 * len % 0x100000000 := by
  unfold shifted
  rw [Nat.shiftLeft_eq]
  omega

/-- Where the next byte goes in the buffer. -/
theorem Holds.place (hc : Holds ctx m) : ctx.count0.toNat >>> 3 % 64 = m.length % 64 := by
  rw [hc.count, BitVec.toNat_ofNat, Nat.shiftRight_eq_div_pow]
  omega

theorem Holds.next_count (hc : Holds ctx m) (data : Bytes) :
    ctx.count0 + .ofNat 32 (shifted data.length) = .ofNat 32 (8 * (m ++ data).length) := by
  have hmod := shifted_mod data.length
  apply BitVec.eq_of_toNat_eq
  rw [hc.count, BitVec.toNat_add, BitVec.toNat_ofNat, BitVec.toNat_ofNat, BitVec.toNat_ofNat, List.length_append]
  omega

/-- **A piece is taken in.** -/
theorem Holds.update (hc : Holds ctx m) (data : Bytes) : Holds (update ctx data).1 (m ++ data) := by
  have hplace := hc.place
  have hcount := hc.next_count data
  have hleft : (Blocks.left 64 m).length = m.length % 64 := Blocks.length_left m
  have hj : m.length % 64 < 64 := Nat.mod_lt _ (by omega)
  have hchain := Blocks.chain_append compress (show 0 < 64 by decide) start m data
  have hmore := Blocks.left_append (n := 64) (by decide) m data
  unfold Sha1.update
  dsimp only
  rw [hplace]
  by_cases hfull : 63 < m.length % 64 + data.length
  · -- the buffer is filled up, and what is behind is taken in block by block
    obtain ⟨i, hi⟩ : ∃ i, i = 64 - m.length % 64 := ⟨_, rfl⟩
    rw [if_pos hfull, ← hi]
    have hblock : patch ctx.buffer (m.length % 64) (data.take i) = Blocks.left 64 m ++ data.take i := by
      have hrest : ctx.buffer.drop (m.length % 64 + (data.take i).length) = [] := by
        rw [List.drop_eq_nil_iff, hc.size, List.length_take]
        omega
      rw [patch, hrest, List.append_nil, hc.pending]
    have hlen : (Blocks.left 64 m ++ data.take i).length = 64 := by
      rw [List.length_append, hleft, List.length_take]
      omega
    have hsplit : Blocks.left 64 m ++ data = (Blocks.left 64 m ++ data.take i) ++ data.drop i := by
      rw [List.append_assoc, List.take_append_drop]
    rw [hsplit, Blocks.chain_block compress (show 0 < 64 by decide) hlen] at hchain
    rw [hsplit, Blocks.left_block (show 0 < 64 by decide) hlen] at hmore
    have htail : data.drop (i + 64 * ((data.length - i) / 64)) = Blocks.left 64 (data.drop i) := by
      rw [Blocks.left, List.length_drop, List.drop_drop]
    rw [hblock, transform_eq, blockLoop_eq, htail]
    have hshort : (Blocks.left 64 (data.drop i)).length = (m ++ data).length % 64 := by
      rw [← hmore, Blocks.length_left]
    refine ⟨?_, ?_, ?_, hcount⟩
    · rw [hchain, hc.h, Blocks.chain, Blocks.chain, List.length_drop]
    · have hlt := Blocks.left_lt (n := 64) (by decide) (data.drop i)
      dsimp only
      rw [length_patch (by rw [length_wreck]; omega), length_wreck]
    · rw [hmore, ← hshort]
      exact patch_at (Nat.zero_le _)
  · -- the buffer has room
    rw [if_neg hfull]
    have hshort : (Blocks.left 64 m ++ data).length < 64 := by
      rw [List.length_append, hleft]
      omega
    rw [Blocks.chain_short compress hshort] at hchain
    rw [Blocks.left_short hshort] at hmore
    refine ⟨?_, ?_, ?_, hcount⟩
    · rw [hchain, hc.h]
    · dsimp only
      rw [length_patch (by rw [hc.size]; omega), hc.size]
    · dsimp only
      have hlen : (m ++ data).length % 64 = (Blocks.left 64 m ++ data).length := by
        rw [List.length_append, List.length_append, hleft]
        rw [List.length_append, hleft] at hshort
        omega
      rw [hmore, hlen, patch, hc.pending, List.take_left]

/-! ## The end of a message -/

theorem mask_eq (n : ℕ) : (8 * n % 0x100000000) &&& 0x1F8 = 8 * (n % 64) := by
  have hsmall : ∀ r < 64, 8 * r &&& 0x1F8 = 8 * r := by decide
  have hmod := Nat.and_mod_two_pow (a := 8 * n % 0x100000000) (b := 0x1F8) (n := 9)
  rw [show 8 * n % 0x100000000 % 2 ^ 9 = 8 * (n % 64) by omega, show 0x1F8 % 2 ^ 9 = 0x1F8 from rfl,
    hsmall _ (Nat.mod_lt _ (by omega)),
    Nat.mod_eq_of_lt (Nat.lt_of_le_of_lt Nat.and_le_right (by decide))] at hmod
  exact hmod

/-- The test of the loop. -/
theorem Holds.full_iff (hc : Holds ctx m) : ctx.count0 &&& 0x000001F8 = 0x000001C0 ↔ m.length % 64 = 56 := by
  rw [hc.count, ← BitVec.toNat_inj, BitVec.toNat_and, BitVec.toNat_ofNat]
  show (8 * m.length % 0x100000000) &&& 0x1F8 = 0x1C0 ↔ _
  rw [mask_eq]
  omega

theorem Holds.padLoop (hc : Holds ctx m) {z fuel : ℕ} (hz : z < fuel) (hend : (m.length + z) % 64 = 56)
    (hfirst : z < 64) : ∃ ctx', padLoop fuel ctx = some ctx' ∧ Holds ctx' (m ++ List.replicate z 0) := by
  induction z generalizing ctx m fuel with
  | zero =>
    obtain ⟨fuel, rfl⟩ : ∃ k, fuel = k + 1 := ⟨fuel - 1, by omega⟩
    refine ⟨ctx, ?_, by rwa [List.replicate_zero, List.append_nil]⟩
    rw [Sha1.padLoop, if_neg (fun h => h (hc.full_iff.mpr hend))]
  | succ z ih =>
    obtain ⟨fuel, rfl⟩ : ∃ k, fuel = k + 1 := ⟨fuel - 1, by omega⟩
    have hopen : ¬ ctx.count0 &&& 0x000001F8 = 0x000001C0 := by
      rw [hc.full_iff]
      omega
    obtain ⟨ctx', hrun, hctx'⟩ := ih (hc.update [0]) (show z < fuel by omega)
      (by rw [List.length_append, List.length_singleton]; omega) (by omega)
    refine ⟨ctx', ?_, ?_⟩
    · rw [Sha1.padLoop, if_pos hopen, hrun]
    · rwa [List.append_assoc, List.singleton_append] at hctx'

/-- What is in the length field: the number of bits, but for messages of 2^32 bits and more the upper word is one
too high. -/
def lengthField (len : ℕ) : ℕ :=
  if 8 * len % 0x10000000000000000 < 0x100000000 then 8 * len else 8 * len + 0x100000000

theorem lengthField_of_lt {len : ℕ} (h : len < 0x20000000) : lengthField len = 8 * len :=
  if_pos (by omega)

/-- Before a message. -/
def fresh (junk : Vector Byte 64) : Ctx := ⟨start, 0, 0, junk.toList⟩

theorem fresh_holds (junk : Vector Byte 64) : Holds (fresh junk) [] :=
  ⟨rfl, by simp [fresh], rfl, rfl⟩

theorem finalcount_eq (junk : Vector Byte 64) (data : Bytes) :
    finalcount (Sha1.update (fresh junk) data).1 = lengthBytes (lengthField data.length) := by
  have hcounts : (Sha1.update (fresh junk) data).1.count0 = .ofNat 32 (shifted data.length) ∧
      (Sha1.update (fresh junk) data).1.count1 =
        (if (BitVec.ofNat 32 (shifted data.length)).toNat < shifted data.length then 1 else 0) +
          .ofNat 32 (data.length >>> 29) := by
    have hzero : (0 : Word) + .ofNat 32 (shifted data.length) = .ofNat 32 (shifted data.length) := BitVec.zero_add _
    unfold Sha1.update fresh
    dsimp only
    rw [hzero]
    split_ifs <;> exact ⟨rfl, rfl⟩
  have hshift : shifted data.length = 8 * data.length % 0x10000000000000000 := by
    rw [shifted, Nat.shiftLeft_eq, Nat.mul_comm]
  unfold finalcount lengthBytes
  rw [hcounts.1, hcounts.2, countBytes_eq, countBytes_eq, hshift]
  unfold lengthField
  congr 2 <;> apply BitVec.eq_of_toNat_eq
  · rw [BitVec.toNat_add, BitVec.toNat_ofNat, BitVec.toNat_ofNat, BitVec.toNat_ofNat,
      Nat.shiftRight_eq_div_pow]
    split_ifs <;> simp only [BitVec.reduceToNat] <;> omega
  · rw [BitVec.toNat_ofNat, BitVec.toNat_ofNat]
    split_ifs <;> omega

/-- The data afterwards. -/
def spoiled (data : Bytes) : Bytes := data.take 64 ++ wreckAll ((data.length - 64) / 64) (data.drop 64)

theorem update_fresh_data (junk : Vector Byte 64) (data : Bytes) :
    (Sha1.update (fresh junk) data).2 = spoiled data := by
  have hplace := (fresh_holds junk).place
  unfold Sha1.update spoiled
  dsimp only
  rw [hplace]
  show (if 63 < 0 + data.length then _ else _ : Ctx × Bytes).2 = _
  by_cases hlong : 63 < 0 + data.length
  · rw [if_pos hlong, blockLoop_eq]
    rfl
  · rw [if_neg hlong, List.take_of_length_le (by omega), List.drop_eq_nil_of_le (by omega),
      show (data.length - 64) / 64 = 0 by omega, wreckAll, List.append_nil]

/-- **The digest is the one of the standard with `lengthField` for the length; the data is written over from the
second block to the last whole one.** -/
theorem sha1_eq (junk : Vector Byte 64) (data : Bytes) :
    sha1 junk data = some (hash data (lengthField data.length), spoiled data) := by
  have hdata := (fresh_holds junk).update data
  rw [List.nil_append] at hdata
  have hfuel : zeros data.length < 64 := by
    unfold zeros
    omega
  obtain ⟨ctx, hpad, hctx⟩ := (hdata.update [0x80]).padLoop hfuel (by rw [List.length_append, List.length_singleton]; unfold zeros; omega)
    (by unfold zeros; omega)
  have hlast := (hctx.update (lengthBytes (lengthField data.length))).h
  unfold sha1
  show (padLoop 64 (Sha1.update (Sha1.update (fresh junk) data).1 [0x80]).1).bind _ = _
  rw [hpad, Option.bind_some, ← update_fresh_data junk data]
  show some (digestOf (Sha1.update ctx (finalcount (Sha1.update (fresh junk) data).1)).1.h, _) = _
  rw [finalcount_eq, digestOf_eq, hlast]
  unfold hash
  rw [List.append_assoc data [0x80], List.singleton_append]
  rfl

theorem sha1_standard (junk : Vector Byte 64) {data : Bytes} (h : data.length < 0x20000000) :
    (sha1 junk data).map Prod.fst = some (standard data) := by
  rw [sha1_eq, lengthField_of_lt h]
  rfl

/-! ## The answer to an upgrade -/

/-- `sha`, behind the call. -/
def sha (junk : Vector Byte 64) (data : Bytes) : Vector Byte 20 :=
  ((sha1 junk data).map Prod.fst).getD (.replicate 20 0)

theorem sha_standard (junk : Vector Byte 64) {data : Bytes} (h : data.length < 0x20000000) :
    sha junk data = standard data := by
  rw [sha, sha1_standard junk h, Option.getD_some]

/-- A key is short enough. -/
theorem wsAddAccept_standard (junk : Vector Byte 64) (m : Bytes) (klen : ℕ) (t : Bytes) :
    wsAddAccept (sha junk) m klen t = wsAddAccept standard m klen t := by
  unfold wsAddAccept
  cases hbuf : inBuf (strncpy m klen ++ wsMagic ++ [0]) with
  | none => rfl
  | some buf =>
    have hlen : buf.length ≤ 1024 := by
      unfold inBuf at hbuf
      split at hbuf
      next hle =>
        cases hbuf
        exact hle
      next => exact nomatch hbuf
    have hshort : (buf.take (klen + wsMagic.length)).length < 0x20000000 := by
      rw [List.length_take]
      omega
    show (inBuf (Base64.b64To (sha junk (buf.take (klen + wsMagic.length))).toList)).bind _ = _
    rw [sha_standard junk hshort]
    rfl

/-- **With the code's own digest the answer to an upgrade is the one with the standard digest.** -/
theorem wsAddHeaders_standard (junk : Vector Byte 64) (m : Bytes) (hlen : ℕ) (t : Bytes) :
    wsAddHeaders (sha junk) m hlen t = wsAddHeaders standard m hlen t := by
  unfold wsAddHeaders wsAddKey
  simp only [wsAddAccept_standard]

end Sha1

end Agoo
