import Agoo.Json

/-!
# Percent decoding (`agoo_req_query_decode`)

The bytes of a parameter are decoded where they are: one cursor reads, another writes. A turn of the loop
reads a piece and writes at most a byte of it, so that the writing cursor stays behind. A `%` and a digit with
no second digit are dropped, and the end is looked at between the pieces only (`query_decode_iff`).
-/

namespace Agoo

namespace Query

/-! ## The code -/

/-- The buffer and the two cursors. -/
structure Decode where
  buf : Bytes
  sn : ℕ
  so : ℕ

/-- `*sn++ = c`. -/
def Decode.put (d : Decode) (c : Byte) : Decode := { d with buf := d.buf.set d.sn c, sn := d.sn + 1 }

/-- A turn of the loop; `hexVal` is `Json.hexDigit`. -/
def decodeStep (fin : ℕ) (d : Decode) : Decode :=
  if fin ≤ d.so then d
  else if at0 d.buf d.so = chr '%' then
    match Json.hexDigit (at0 d.buf (d.so + 1)) with
    | none => { d with so := d.so + 1 }.put (chr '%')
    | some c =>
      match Json.hexDigit (at0 d.buf (d.so + 2)) with
      | none => { d with so := d.so + 2 }
      | some n => { d with so := d.so + 3 }.put (UInt8.ofNat (c * 16 + n))
  else { d with so := d.so + 1 }.put (at0 d.buf d.so)

/-- The state after `k` turns. -/
def turns (buf : Bytes) (len k : ℕ) : Decode := (decodeStep len)^[k] ⟨buf, 0, 0⟩

/-- `agoo_req_query_decode`: the buffer and what is returned; each turn reads a byte or more. -/
def agooReqQueryDecode (buf : Bytes) (len : ℕ) : Bytes × ℕ :=
  let d := turns buf len len
  (d.buf.set d.sn 0, d.sn)

/-! ## The law -/

/-- The byte of three that are a well formed escape. -/
def escaped (a b c : Byte) : Option Byte :=
  if a = chr '%' then do
    let h ← Json.hexDigit b
    let l ← Json.hexDigit c
    return UInt8.ofNat (h * 16 + l)
  else none

/-- A text with its well formed escapes replaced and every other byte kept. -/
def unescape : Bytes → Bytes
  | [] => []
  | [a] => [a]
  | [a, b] => [a, b]
  | a :: b :: c :: s =>
    match escaped a b c with
    | some x => x :: unescape s
    | none => a :: unescape (b :: c :: s)

/-- `PercentEncoding b e`: some of the bytes of `b` are escaped in `e`, among them every `%`. -/
inductive PercentEncoding : Bytes → Bytes → Prop
  | nil : PercentEncoding [] []
  | plain {c : Byte} {b e : Bytes} (hc : c ≠ chr '%') (h : PercentEncoding b e) :
      PercentEncoding (c :: b) (c :: e)
  | escape {x y : Byte} {c n : ℕ} {b e : Bytes} (hx : Json.hexDigit x = some c) (hy : Json.hexDigit y = some n)
      (h : PercentEncoding b e) : PercentEncoding (UInt8.ofNat (c * 16 + n) :: b) (chr '%' :: x :: y :: e)

/-- `input` is decoded in the memory that ends with the byte for the NUL and `rest`. -/
structure DecodesWell (input : Bytes) (nul : Byte) (rest : Bytes) : Prop where
  encoded : ∀ b, PercentEncoding b input → agooReqQueryDecode (input ++ nul :: rest) input.length =
    (b ++ 0 :: (input ++ nul :: rest).drop (b.length + 1), b.length)
  behind : ∀ k,
    (turns (input ++ nul :: rest) input.length k).sn ≤ (turns (input ++ nul :: rest) input.length k).so
  bounded : (agooReqQueryDecode (input ++ nul :: rest) input.length).2 ≤ input.length ∧
    (agooReqQueryDecode (input ++ nul :: rest) input.length).1.drop (input.length + 1) = rest
  inside : ∀ k, (turns (input ++ nul :: rest) input.length k).so ≤ input.length
  kept : agooReqQueryDecode (input ++ nul :: rest) input.length =
    (unescape input ++ 0 :: (input ++ nul :: rest).drop ((unescape input).length + 1), (unescape input).length)

/-- A `%` before a digit starts a well formed escape of the first `len` bytes. -/
def Escapes (m : Bytes) (len : ℕ) : Prop :=
  ∀ i < len, at0 m i = chr '%' → (Json.hexDigit (at0 m (i + 1))).isSome = true →
    i + 2 < len ∧ (Json.hexDigit (at0 m (i + 2))).isSome = true

instance (m : Bytes) (len : ℕ) : Decidable (Escapes m len) :=
  inferInstanceAs (Decidable (∀ i < len, _ → _ → _ ∧ _))

/-! ## A turn -/

/-- No digit is a `%`. -/
theorem not_percent {x : Byte} {c : ℕ} (h : Json.hexDigit x = some c) : x ≠ chr '%' := by
  rintro rfl
  cases h

/-- What is written for the bytes at `so`, and how many they are. -/
def piece (m : Bytes) (so : ℕ) : Bytes × ℕ :=
  if at0 m so = chr '%' then
    match Json.hexDigit (at0 m (so + 1)) with
    | none => ([chr '%'], 1)
    | some c =>
      match Json.hexDigit (at0 m (so + 2)) with
      | none => ([], 2)
      | some n => ([UInt8.ofNat (c * 16 + n)], 3)
  else ([at0 m so], 1)

theorem piece_length_le (m : Bytes) (so : ℕ) : (piece m so).1.length ≤ 1 := by
  unfold piece
  split_ifs
  · split
    · exact le_rfl
    · split
      · exact Nat.zero_le 1
      · exact le_rfl
  · exact le_rfl

theorem piece_pos (m : Bytes) (so : ℕ) : 1 ≤ (piece m so).2 := by
  unfold piece
  split_ifs
  · split
    · exact le_rfl
    · split
      · exact Nat.le_succ 1
      · exact Nat.le_add_left 1 2
  · exact le_rfl

/-- `out` is written and the memory behind it is as it was. -/
def shape (m out : Bytes) (so : ℕ) : Decode := ⟨out ++ m.drop out.length, out.length, so⟩

theorem at0_shape {m out : Bytes} {j : ℕ} (h : out.length ≤ j) : at0 (out ++ m.drop out.length) j = at0 m j := by
  unfold at0
  rw [List.getD_eq_getElem?_getD, List.getD_eq_getElem?_getD, List.getElem?_append_right h, List.getElem?_drop,
    Nat.add_sub_of_le h]

theorem set_shape {m out : Bytes} (h : out.length < m.length) (c : Byte) :
    (out ++ m.drop out.length).set out.length c = (out ++ [c]) ++ m.drop (out ++ [c]).length := by
  rw [List.set_append_right _ _ le_rfl, Nat.sub_self, List.drop_eq_getElem_cons h, List.set_cons_zero,
    List.length_append, List.length_singleton, List.append_assoc, List.singleton_append]

theorem put_shape {m out : Bytes} {so : ℕ} (h : out.length < m.length) (c : Byte) :
    (shape m out so).put c = shape m (out ++ [c]) so := by
  unfold shape Decode.put
  dsimp only
  rw [set_shape h, List.length_append, List.length_singleton]

theorem decodeStep_shape {m out : Bytes} {fin so : ℕ} (hle : out.length ≤ so) (hso : so < fin)
    (hfin : fin < m.length) :
    decodeStep fin (shape m out so) = shape m (out ++ (piece m so).1) (so + (piece m so).2) := by
  have hput (k : ℕ) (c : Byte) : Decode.put ⟨out ++ m.drop out.length, out.length, so + k⟩ c =
      shape m (out ++ [c]) (so + k) := put_shape (by omega) c
  unfold decodeStep piece
  rw [if_neg (by exact Nat.not_le.mpr hso)]
  unfold shape
  dsimp only
  rw [at0_shape hle, at0_shape (by omega), at0_shape (by omega)]
  split_ifs
  · cases Json.hexDigit (at0 m (so + 1)) with
    | none => exact hput 1 _
    | some c =>
      cases Json.hexDigit (at0 m (so + 2)) with
      | none =>
        simp only [List.append_nil]
      | some n => exact hput 3 _
  · exact hput 1 _

theorem decodeStep_done {fin : ℕ} {d : Decode} (h : fin ≤ d.so) : decodeStep fin d = d := if_pos h

/-! ## The run -/

section

variable {m : Bytes} {fin : ℕ}

theorem turns_succ (k : ℕ) : turns m fin (k + 1) = decodeStep fin (turns m fin k) :=
  Function.iterate_succ_apply' _ _ _

/-- The text written so far is not longer than what is read, and a turn reads unless the end is reached. -/
theorem turns_shape (hfin : fin < m.length) (k : ℕ) : ∃ out so, turns m fin k = shape m out so ∧
    out.length ≤ so ∧ out.length ≤ fin ∧ (k ≤ so ∨ fin ≤ so) := by
  induction k with
  | zero => exact ⟨[], 0, rfl, le_rfl, Nat.zero_le _, .inl le_rfl⟩
  | succ k ih =>
    obtain ⟨out, so, h, hle, hlen, hk⟩ := ih
    rw [turns_succ, h]
    by_cases hso : so < fin
    · have h1 := piece_length_le m so
      have h2 := piece_pos m so
      refine ⟨out ++ (piece m so).1, so + (piece m so).2, decodeStep_shape hle hso hfin, ?_, ?_, ?_⟩
      · rw [List.length_append]
        omega
      · rw [List.length_append]
        omega
      · omega
    · exact ⟨out, so, decodeStep_done (Nat.not_lt.mp hso), hle, hlen, .inr (Nat.not_lt.mp hso)⟩

theorem turns_behind (hfin : fin < m.length) (k : ℕ) : (turns m fin k).sn ≤ (turns m fin k).so := by
  obtain ⟨out, so, h, hle, -⟩ := turns_shape hfin k
  rw [h]
  exact hle

theorem turns_done (hfin : fin < m.length) : fin ≤ (turns m fin fin).so := by
  obtain ⟨out, so, h, -, -, hk⟩ := turns_shape hfin fin
  rw [h]
  exact hk.elim id id

/-- A turn before the end. -/
theorem turns_piece (hfin : fin < m.length) {k : ℕ} (hso : (turns m fin k).so < fin) :
    (turns m fin (k + 1)).sn = (turns m fin k).sn + (piece m (turns m fin k).so).1.length ∧
      (turns m fin (k + 1)).so = (turns m fin k).so + (piece m (turns m fin k).so).2 := by
  obtain ⟨out, so, h, hle, -⟩ := turns_shape hfin k
  rw [h] at hso
  rw [turns_succ, h, decodeStep_shape hle hso hfin]
  exact ⟨List.length_append, rfl⟩

/-- What is written is a text, the NUL, and the memory behind it. -/
theorem decode_shape (hfin : fin < m.length) : ∃ out, out.length ≤ fin ∧
    turns m fin fin = shape m out (turns m fin fin).so ∧
    agooReqQueryDecode m fin = (out ++ 0 :: m.drop (out.length + 1), out.length) := by
  obtain ⟨out, so, h, -, hlen, -⟩ := turns_shape hfin fin
  refine ⟨out, hlen, ?_, ?_⟩
  · rw [h]
    rfl
  · unfold agooReqQueryDecode
    dsimp only
    rw [h]
    unfold shape
    dsimp only
    rw [set_shape (by omega), List.length_append, List.length_singleton, List.append_assoc, List.singleton_append]

theorem decode_bounded (hfin : fin < m.length) : (agooReqQueryDecode m fin).2 ≤ fin ∧
    (agooReqQueryDecode m fin).1.drop (fin + 1) = m.drop (fin + 1) := by
  obtain ⟨out, hlen, -, h⟩ := decode_shape hfin
  rw [h]
  refine ⟨hlen, ?_⟩
  dsimp only
  rw [List.drop_append, List.drop_of_length_le (by omega), List.nil_append,
    show fin + 1 - out.length = (fin - out.length) + 1 by omega, List.drop_succ_cons, List.drop_drop]
  congr 1
  omega

/-- Every `%` is come to, for the bytes read behind another are digits. -/
theorem turns_percent (hfin : fin < m.length) {i : ℕ} (hi : i < fin) (hat : at0 m i = chr '%') :
    ∃ k, (turns m fin k).so = i := by
  have hstep (j : ℕ) : ∀ k, (turns m fin k).so + j = i → ∃ k, (turns m fin k).so = i := by
    induction j using Nat.strong_induction_on with
    | _ j ih =>
      intro k hk
      by_cases hj : j = 0
      · exact ⟨k, by omega⟩
      · have hso := (turns_piece hfin (k := k) (by omega)).2
        have hpos := piece_pos m (turns m fin k).so
        have hle : (piece m (turns m fin k).so).2 ≤ j := by
          generalize (turns m fin k).so = so at *
          unfold piece
          split_ifs
          · split
            · omega
            · rename_i c hc
              have h1 : i ≠ so + 1 := by
                rintro rfl
                exact not_percent hc hat
              split
              · omega
              · rename_i n hn
                have h2 : i ≠ so + 2 := by
                  rintro rfl
                  exact not_percent hn hat
                omega
          · omega
        exact ih (j - (piece m (turns m fin k).so).2) (by omega) (k + 1) (by omega)
  exact hstep i 0 (Nat.zero_add i)

end

/-! ## Texts -/

theorem unescape_cons (a : Byte) (s : Bytes) : unescape (a :: s) =
    match escaped a (at0 s 0) (at0 s 1) with
    | some x => x :: unescape (s.drop 2)
    | none => a :: unescape s := by
  cases s with
  | nil =>
    have hnone : escaped a 0 0 = none := by
      unfold escaped
      split_ifs
      · rfl
      · rfl
    change [a] = match escaped a 0 0 with | some x => _ | none => _
    rw [hnone]
    rfl
  | cons b s =>
    cases s with
    | nil =>
      have hnone : escaped a b 0 = none := by
        unfold escaped
        split_ifs
        · cases Json.hexDigit b with
          | none => rfl
          | some h => rfl
        · rfl
      change [a, b] = match escaped a b 0 with | some x => _ | none => _
      rw [hnone]
      rfl
    | cons c s => rfl

theorem unescape_encoding {b e : Bytes} (h : PercentEncoding b e) : unescape e = b := by
  induction h with
  | nil => rfl
  | @plain c b e hc _ ih =>
    have hnone : escaped c (at0 e 0) (at0 e 1) = none := if_neg hc
    rw [unescape_cons, hnone]
    exact congrArg (c :: ·) ih
  | @escape x y c n b e hx hy _ ih =>
    have hsome : escaped (chr '%') x y = some (UInt8.ofNat (c * 16 + n)) := by
      unfold escaped
      rw [if_pos rfl, hx, hy]
      rfl
    rw [unescape_cons]
    change (match escaped (chr '%') x y with | some x => _ | none => _) = _
    rw [hsome]
    exact congrArg (_ :: ·) ih

/-- The bytes at `so` that are read and not written. -/
def lost (m : Bytes) (so : ℕ) : Bytes :=
  if at0 m so = chr '%' ∧ (Json.hexDigit (at0 m (so + 1))).isSome = true ∧
    (Json.hexDigit (at0 m (so + 2))).isSome = false then [at0 m so, at0 m (so + 1)] else []

section

variable {input : Bytes} {nul : Byte} {rest : Bytes}

theorem at0_input {i : ℕ} (h : i < input.length) : at0 (input ++ nul :: rest) i = at0 input i := by
  unfold at0
  rw [List.getD_eq_getElem?_getD, List.getD_eq_getElem?_getD, List.getElem?_append_left h]

theorem drop_input {i : ℕ} (h : i < input.length) :
    input.drop i = at0 (input ++ nul :: rest) i :: input.drop (i + 1) := by
  rw [at0_input h, List.drop_eq_getElem_cons h]
  simp [at0, h]

theorem hexDigit_input {i : ℕ} (h : Json.hexDigit (at0 (input ++ nul :: rest) i) = none) :
    Json.hexDigit (at0 input i) = none := by
  by_cases hi : i < input.length
  · rw [← at0_input hi]
    exact h
  · rw [at0_of_le (Nat.not_lt.mp hi)]
    rfl

theorem at0_drop (s : Bytes) (i j : ℕ) : at0 (s.drop i) j = at0 s (i + j) := by
  unfold at0
  rw [List.getD_eq_getElem?_getD, List.getD_eq_getElem?_getD, List.getElem?_drop]

theorem unescape_drop {so : ℕ} (hso : so < input.length) : unescape (input.drop so) =
    match escaped (at0 (input ++ nul :: rest) so) (at0 input (so + 1)) (at0 input (so + 2)) with
    | some x => x :: unescape (input.drop (so + 3))
    | none => at0 (input ++ nul :: rest) so :: unescape (input.drop (so + 1)) := by
  rw [drop_input hso, unescape_cons, at0_drop, at0_drop, List.drop_drop]

/-- A piece of the input in its decoded text. -/
theorem unescape_piece {so : ℕ} (hso : so < input.length)
    (hin : so + (piece (input ++ nul :: rest) so).2 ≤ input.length) :
    unescape (input.drop so) = lost (input ++ nul :: rest) so ++ (piece (input ++ nul :: rest) so).1 ++
      unescape (input.drop (so + (piece (input ++ nul :: rest) so).2)) := by
  rw [@unescape_drop input nul rest _ hso]
  unfold piece at hin ⊢
  unfold lost
  by_cases hat : at0 (input ++ nul :: rest) so = chr '%'
  · rw [if_pos hat] at hin ⊢
    rw [hat]
    cases hb : Json.hexDigit (at0 (input ++ nul :: rest) (so + 1)) with
    | none =>
      have hnone : escaped (chr '%') (at0 input (so + 1)) (at0 input (so + 2)) = none := by
        unfold escaped
        rw [if_pos rfl, hexDigit_input hb]
        rfl
      rw [hnone, if_neg (by simp)]
      rfl
    | some x =>
      rw [hb] at hin
      cases hc : Json.hexDigit (at0 (input ++ nul :: rest) (so + 2)) with
      | none =>
        -- both bytes stay in the text, for the digit starts no escape
        rw [hc] at hin
        have hso1 : so + 1 < input.length := hin
        have hnone : escaped (chr '%') (at0 input (so + 1)) (at0 input (so + 2)) = none := by
          unfold escaped
          rw [if_pos rfl, hexDigit_input hc, ← @at0_input input nul rest _ hso1, hb]
          rfl
        have hnone' : escaped (at0 (input ++ nul :: rest) (so + 1)) (at0 input (so + 1 + 1))
            (at0 input (so + 1 + 2)) = none := if_neg (not_percent hb)
        rw [hnone, if_pos (by simp), @unescape_drop input nul rest _ hso1, hnone']
        rfl
      | some y =>
        rw [hc] at hin
        have hin : so + 3 ≤ input.length := hin
        have hsome : escaped (chr '%') (at0 input (so + 1)) (at0 input (so + 2)) =
            some (UInt8.ofNat (x * 16 + y)) := by
          unfold escaped
          rw [if_pos rfl, ← @at0_input input nul rest (so + 1) (by omega),
            ← @at0_input input nul rest (so + 2) (by omega), hb, hc]
          rfl
        rw [hsome, if_neg (by simp)]
        rfl
  · have hnone : escaped (at0 (input ++ nul :: rest) so) (at0 input (so + 1)) (at0 input (so + 2)) = none :=
      if_neg hat
    rw [if_neg hat, hnone, if_neg fun h => hat h.1]
    rfl

/-! ## Which escapes are decoded -/

/-- What is asked of the escape at `so`. -/
theorem escapes_at {m : Bytes} {so len : ℕ} (hso : so < len) :
    (at0 m so = chr '%' → (Json.hexDigit (at0 m (so + 1))).isSome = true →
      so + 2 < len ∧ (Json.hexDigit (at0 m (so + 2))).isSome = true) ↔
    so + (piece m so).2 ≤ len ∧ lost m so = [] := by
  unfold piece lost
  by_cases hat : at0 m so = chr '%'
  · rw [if_pos hat]
    cases hb : Json.hexDigit (at0 m (so + 1)) with
    | none =>
      simp [hat]
      omega
    | some x =>
      cases hc : Json.hexDigit (at0 m (so + 2)) with
      | none => simp [hat]
      | some y =>
        simp [hat]
        omega
  · rw [if_neg hat]
    simp [hat]
    omega

theorem escapes_encoding {b e : Bytes} (h : PercentEncoding b e) (nul : Byte) (rest : Bytes) :
    Escapes (e ++ nul :: rest) e.length := by
  induction h with
  | nil => exact fun i hi => absurd hi (Nat.not_lt_zero i)
  | plain hc _ ih =>
    intro i hi hat hdigit
    cases i with
    | zero => exact absurd hat hc
    | succ i =>
      obtain ⟨hlt, hsome⟩ := ih i (Nat.lt_of_succ_lt_succ hi) hat hdigit
      exact ⟨Nat.succ_lt_succ hlt, hsome⟩
  | escape hx hy _ ih =>
    intro i hi hat hdigit
    match i with
    | 0 =>
      exact ⟨by simp, Option.isSome_of_eq_some hy⟩
    | 1 => exact absurd hat (not_percent hx)
    | 2 => exact absurd hat (not_percent hy)
    | i + 3 =>
      obtain ⟨hlt, hsome⟩ := ih i (by simpa using hi) hat hdigit
      refine ⟨?_, hsome⟩
      rw [List.length_cons, List.length_cons, List.length_cons]
      omega

theorem length_lt (input : Bytes) (nul : Byte) (rest : Bytes) : input.length < (input ++ nul :: rest).length := by
  rw [List.length_append, List.length_cons]
  omega

/-- Between two turns: what is written, followed by what is still to be decoded, is the decoded text. -/
theorem turns_clean (h : Escapes (input ++ nul :: rest) input.length) (k : ℕ) :
    (turns (input ++ nul :: rest) input.length k).so ≤ input.length ∧
      ∃ out, turns (input ++ nul :: rest) input.length k =
          shape (input ++ nul :: rest) out (turns (input ++ nul :: rest) input.length k).so ∧
        out.length ≤ (turns (input ++ nul :: rest) input.length k).so ∧
        out ++ unescape (input.drop (turns (input ++ nul :: rest) input.length k).so) = unescape input := by
  have hlt := length_lt input nul rest
  induction k with
  | zero => exact ⟨Nat.zero_le _, [], rfl, le_rfl, rfl⟩
  | succ k ih =>
    obtain ⟨hle, out, hshape, hlen, hout⟩ := ih
    by_cases hso : (turns (input ++ nul :: rest) input.length k).so < input.length
    · have hturn := (turns_piece hlt hso).2
      have hpos := piece_pos (input ++ nul :: rest) (turns (input ++ nul :: rest) input.length k).so
      have hone := piece_length_le (input ++ nul :: rest) (turns (input ++ nul :: rest) input.length k).so
      have hnext := @turns_succ (input ++ nul :: rest) input.length k
      rw [hshape, decodeStep_shape hlen hso hlt] at hnext
      obtain ⟨hin, hlost⟩ := (escapes_at hso).mp (h _ hso)
      rw [unescape_piece hso hin, hlost, List.nil_append, ← List.append_assoc] at hout
      rw [hturn]
      refine ⟨hin, _, hnext, ?_, hout⟩
      rw [List.length_append]
      omega
    · rw [turns_succ, decodeStep_done (Nat.not_lt.mp hso)]
      exact ⟨hle, out, hshape, hlen, hout⟩

/-- What the turns up to the end still owe to the text. -/
def owed (input : Bytes) (d : Decode) : ℕ := d.sn + (unescape (input.drop d.so)).length

theorem owed_succ {k : ℕ} (hin : ∀ k, (turns (input ++ nul :: rest) input.length k).so ≤ input.length) :
    owed input (turns (input ++ nul :: rest) input.length (k + 1)) ≤
        owed input (turns (input ++ nul :: rest) input.length k) ∧
      ((turns (input ++ nul :: rest) input.length k).so < input.length →
        owed input (turns (input ++ nul :: rest) input.length k) =
          owed input (turns (input ++ nul :: rest) input.length (k + 1)) +
            (lost (input ++ nul :: rest) (turns (input ++ nul :: rest) input.length k).so).length) := by
  have hlt := length_lt input nul rest
  by_cases hso : (turns (input ++ nul :: rest) input.length k).so < input.length
  · obtain ⟨hsn, hturn⟩ := turns_piece hlt hso
    have hnext := hin (k + 1)
    rw [hturn] at hnext
    have hpiece := congrArg List.length (unescape_piece hso hnext)
    rw [List.length_append, List.length_append] at hpiece
    unfold owed
    rw [hsn, hturn]
    omega
  · rw [turns_succ, decodeStep_done (Nat.not_lt.mp hso)]
    exact ⟨le_rfl, fun h => absurd h hso⟩

theorem owed_antitone (hin : ∀ k, (turns (input ++ nul :: rest) input.length k).so ≤ input.length) :
    Antitone fun k => owed input (turns (input ++ nul :: rest) input.length k) :=
  antitone_nat_of_succ_le fun _ => (owed_succ hin).1

theorem decodesWell_iff : DecodesWell input nul rest ↔ Escapes (input ++ nul :: rest) input.length := by
  have hlt := length_lt input nul rest
  constructor
  · intro hwell i hi hat hdigit
    obtain ⟨k, rfl⟩ := turns_percent hlt hi hat
    refine (escapes_at hi).mpr ⟨?_, ?_⟩ hat hdigit
    · rw [← (turns_piece hlt hi).2]
      exact hwell.inside (k + 1)
    · have hend :
          owed input (turns (input ++ nul :: rest) input.length input.length) = (unescape input).length := by
        obtain ⟨out, -, hshape, hdecode⟩ := decode_shape hlt
        have hlen : out.length = (unescape input).length := congrArg Prod.snd (hdecode.symm.trans hwell.kept)
        have hsn : (turns (input ++ nul :: rest) input.length input.length).sn = out.length :=
          congrArg Decode.sn hshape
        have hdrop : input.drop (turns (input ++ nul :: rest) input.length input.length).so = [] :=
          List.drop_of_length_le (turns_done hlt)
        unfold owed
        rw [hdrop, hsn, hlen]
        rfl
      have hk : k < input.length := by
        by_contra hge
        obtain ⟨out, so, h, -, -, hso⟩ := turns_shape hlt k
        rw [h] at hi
        change so < input.length at hi
        omega
      have hstart : owed input (turns (input ++ nul :: rest) input.length 0) = (unescape input).length :=
        Nat.zero_add _
      have h0 := owed_antitone hwell.inside (Nat.zero_le k)
      have h1 := owed_antitone hwell.inside (show k + 1 ≤ input.length from hk)
      have hstep := (owed_succ (k := k) hwell.inside).2 hi
      dsimp only at h0 h1
      refine List.eq_nil_of_length_eq_zero ?_
      omega
  · intro h
    have hkept : agooReqQueryDecode (input ++ nul :: rest) input.length = (unescape input ++
        0 :: (input ++ nul :: rest).drop ((unescape input).length + 1), (unescape input).length) := by
      obtain ⟨out, -, hshape, hdecode⟩ := decode_shape hlt
      obtain ⟨-, out', hshape', -, hout⟩ := turns_clean h input.length
      rw [List.drop_of_length_le (turns_done hlt)] at hout
      have heq : out' = unescape input := by
        rw [← hout]
        exact (List.append_nil out').symm
      have hlen : out.length = out'.length := congrArg Decode.sn (hshape.symm.trans hshape')
      have hbuf : out ++ _ = out' ++ _ := congrArg Decode.buf (hshape.symm.trans hshape')
      rw [hdecode, (List.append_inj hbuf hlen).1, heq]
    refine ⟨fun b hb => ?_, turns_behind hlt, ?_, fun k => (turns_clean h k).1, hkept⟩
    · rw [hkept, unescape_encoding hb]
    · refine ⟨(decode_bounded hlt).1, (decode_bounded hlt).2.trans ?_⟩
      rw [List.drop_append, List.drop_of_length_le (by omega), List.nil_append, Nat.add_sub_cancel_left]
      rfl

/-- Parameters are decoded as they should be if and only if each `%` before a digit starts an escape that
ends among the bytes that are decoded, as in every encoding. -/
theorem query_decode_iff (input : Bytes) (nul : Byte) (rest : Bytes) :
    (∀ b, PercentEncoding b input → DecodesWell input nul rest) ∧
      (DecodesWell input nul rest ↔ Escapes (input ++ nul :: rest) input.length) := by
  have hiff : DecodesWell input nul rest ↔ Escapes (input ++ nul :: rest) input.length := decodesWell_iff
  exact ⟨fun b hb => hiff.mpr (escapes_encoding hb nul rest), hiff⟩

/-- `%4z` is decoded to `z`. -/
theorem percent_digit_dropped : ¬ DecodesWell (bytes "%4z") 0 [] := fun h =>
  absurd h.kept (by decide)

end

end Query

end Agoo
