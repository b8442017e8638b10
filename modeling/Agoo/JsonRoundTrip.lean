import Agoo.GqlText
import Agoo.Json

/-!
# What the JSON reader makes of printed values

A value printed without indentation is read again. What comes back is the value, but for three kinds
of values in it: an empty string, the lowest Int and the lowest I64. The string is read to the end of
the text, the Int comes back as an I64 and the I64 as a string.
-/

namespace Agoo

variable {τ α β : Type} {text : Bytes}

namespace Json

/-! ## Runs that read a value -/

/-- From `i` on the reader reads `a`, and the cursor ends at `j`. -/
def Reads (p : JsonReader α) (i : ℕ) (a : α) (j : ℕ) : Prop := p.run i = some (.ok (a, j))

theorem reads_pure (a : α) (i : ℕ) : Reads (pure a) i a i := rfl

theorem Reads.bind {p : JsonReader α} {f : α → JsonReader β} {i j k : ℕ} {a : α} {b : β}
    (h : Reads p i a j) (hf : Reads (f a) j b k) : Reads (p >>= f) i b k := by
  unfold Reads at *
  rw [StateT.run_bind, h]
  exact hf

theorem reads_bind_iff {p : JsonReader α} {f : α → JsonReader β} {i k : ℕ} {b : β} :
    Reads (p >>= f) i b k ↔ ∃ a j, Reads p i a j ∧ Reads (f a) j b k := by
  constructor
  · intro h
    unfold Reads at *
    rw [StateT.run_bind] at h
    cases hp : p.run i with
    | none =>
      rw [hp] at h
      cases h
    | some r =>
      rw [hp] at h
      cases r with
      | error e => cases h
      | ok q => exact ⟨q.1, q.2, rfl, h⟩
  · rintro ⟨a, j, hp, hf⟩
    exact hp.bind hf

/-- A reader reads one value at most. -/
theorem Reads.unique {p : JsonReader α} {i j j' : ℕ} {a a' : α} (h : Reads p i a j)
    (h' : Reads p i a' j') : a = a' ∧ j = j' := by
  unfold Reads at *
  rw [h] at h'
  exact Prod.mk.inj (Except.ok.inj (Option.some.inj h'))

theorem Reads.bind_iff {p : JsonReader α} {f : α → JsonReader β} {i j k : ℕ} {a : α} {b : β}
    (h : Reads p i a j) : Reads (p >>= f) i b k ↔ Reads (f a) j b k := by
  constructor
  · intro hb
    obtain ⟨a', j', hp, hf⟩ := reads_bind_iff.mp hb
    obtain ⟨rfl, rfl⟩ := h.unique hp
    exact hf
  · exact h.bind

theorem reads_get (i : ℕ) : Reads (get : JsonReader ℕ) i i i := rfl

theorem reads_peek (i : ℕ) : Reads (peek text) i (at0 text i) i := rfl

theorem reads_forward (n i : ℕ) : Reads (forward n) i () (i + n) := rfl

theorem reads_set (i j : ℕ) : Reads (set j : JsonReader Unit) i () j := rfl

theorem reads_require {c : Prop} [Decidable c] (h : c) (msg : Bytes) (i : ℕ) :
    Reads (require text c msg) i () i := by
  unfold require
  rw [if_pos h]
  exact reads_pure () i

theorem not_reads_jsonErr {msg : Bytes} {i j : ℕ} {a : α} :
    ¬ Reads (jsonErr text msg : JsonReader α) i a j := by
  intro h
  cases h

/-- `span` stops where the run of bytes ends. -/
theorem reads_span {p : Byte → Bool} {i : ℕ} {run rest : Bytes} (h : text.drop i = run ++ rest)
    (hrun : ∀ b ∈ run, p b = true) (hrest : ∀ b ∈ rest.head?, p b = false) :
    Reads (span text p) i run (i + run.length) := by
  have htake : (text.drop i).takeWhile p = run := by
    rw [h, List.takeWhile_append_of_pos hrun]
    cases rest with
    | nil => simp
    | cons b rest => simp [hrest b rfl]
  refine (reads_get i).bind ?_
  rw [htake]
  exact (reads_forward run.length i).bind (reads_pure run _)

/-- Nothing is skipped at a byte that is not white. -/
theorem reads_skipJwhite {i : ℕ} {rest : Bytes} (h : text.drop i = rest)
    (hrest : ∀ b ∈ rest.head?, isJwhite b = false) : Reads (skipJwhite text) i () i :=
  (reads_span (show text.drop i = [] ++ rest from h) (by simp) hrest).bind (reads_pure () i)

/-! ## Numbers -/

theorem wrap64_of_fits {z : ℤ} (h : GqlValue.FitsI64 z) : wrap64 z = z := by
  unfold GqlValue.FitsI64 at h
  unfold wrap64
  rw [Int.bmod_eq_of_le]
  · omega
  · omega

/-- Digits are added up as long as the sum fits. -/
theorem foldl_wholeDigit (ds : Bytes) {s : NumState} {a : ℕ} (ha : s.i = a) (hbig : s.big = false)
    (hfit : ds.foldl (fun a c => 10 * a + digitVal c) a ≤ 0x7FFFFFFFFFFFFFFF) :
    (ds.foldl wholeDigit s).i = (ds.foldl (fun a c => 10 * a + digitVal c) a : ℕ) ∧
      (ds.foldl wholeDigit s).div = s.div ∧ (ds.foldl wholeDigit s).big = false := by
  induction ds generalizing s a with
  | nil => exact ⟨ha, rfl, hbig⟩
  | cons c ds ih =>
    rw [List.foldl_cons] at hfit
    have hle := foldl_digits_le ds (10 * a + digitVal c)
    have hd : (c - chr '0').toNat = digitVal c := rfl
    have hprod : wrap64 (s.i * 10) = s.i * 10 :=
      wrap64_of_fits (by unfold GqlValue.FitsI64; omega)
    have hsum : wrap64 (s.i * 10 + digitVal c) = s.i * 10 + digitVal c :=
      wrap64_of_fits (by unfold GqlValue.FitsI64; omega)
    have hroom : wrap64 (i64Max - s.i * 10) = i64Max - s.i * 10 :=
      wrap64_of_fits (by unfold GqlValue.FitsI64 i64Max; omega)
    have hstep : (wholeDigit s c).i = (10 * a + digitVal c : ℕ) ∧
        (wholeDigit s c).div = s.div ∧ (wholeDigit s c).big = false := by
      unfold wholeDigit countZero
      dsimp only
      rw [if_neg (by simp [hbig]), hd, hprod, hroom, hsum, if_neg (by unfold i64Max; omega)]
      exact ⟨by push_cast; omega, rfl, hbig⟩
    obtain ⟨hi, hdiv, hb⟩ := ih hstep.1 hstep.2.2 hfit
    exact ⟨hi, hdiv.trans hstep.2.1, hb⟩

/-- The sum of the digits of a number that fits. -/
theorem wholeDigit_decimal {n : ℕ} (h : n ≤ 0x7FFFFFFFFFFFFFFF) :
    ((decimal n).foldl wholeDigit numInit).i = n ∧
      ((decimal n).foldl wholeDigit numInit).div = 1 ∧
      ((decimal n).foldl wholeDigit numInit).big = false := by
  have hsum := foldl_decimal n
  have := foldl_wholeDigit (decimal n) (s := numInit) (a := 0) rfl rfl (by rw [hsum]; exact h)
  rwa [hsum] at this

/-- One more than the highest I64 is too big. -/
theorem wholeDigit_lowest :
    ((decimal 0x8000000000000000).foldl wholeDigit numInit).big = true := by decide +kernel

/-- The sign that `intText` prints. -/
theorem reads_sign {z : ℤ} {i : ℕ} {rest : Bytes} (h : text.drop i = intText z ++ rest) :
    ∃ j, Reads (readSign text) i (decide (z < 0)) j ∧
      text.drop j = decimal z.natAbs ++ rest ∧ j + (decimal z.natAbs).length = i + (intText z).length := by
  unfold intText at h ⊢
  by_cases hz : z < 0
  · rw [if_pos hz] at h ⊢
    have hcons : text.drop i = chr '-' :: (decimal z.natAbs ++ rest) := h
    obtain ⟨hat, hrest⟩ := drop_succ_of_drop hcons
    refine ⟨i + 1, ?_, hrest, ?_⟩
    · refine (reads_peek i).bind ?_
      rw [hat, if_pos rfl, decide_eq_true hz]
      exact (reads_forward 1 i).bind (reads_pure true _)
    · simp [bytes]
      omega
  · rw [if_neg hz] at h ⊢
    obtain ⟨d, ds, hds⟩ := List.exists_cons_of_ne_nil (decimal_ne_nil z.natAbs)
    have hat : at0 text i = d := (drop_succ_of_drop (by rw [h, hds]; rfl)).1
    have hd : isDigit d = true := isDigit_decimal (by rw [hds]; exact .head _)
    have hm : d ≠ chr '-' ∧ d ≠ chr '+' := by
      constructor
      · rintro rfl
        exact absurd hd (by decide)
      · rintro rfl
        exact absurd hd (by decide)
    refine ⟨i, ?_, h, rfl⟩
    refine (reads_peek i).bind ?_
    rw [hat, if_neg hm.1, if_neg hm.2, decide_eq_false hz, decide_eq_false hm.1]
    exact reads_pure false i

/-- What `parse_num` reads where an integer was printed. -/
theorem parseNum_iff {z : ℤ} {i : ℕ} {rest : Bytes} (h : text.drop i = intText z ++ rest)
    (hrest : Follow rest) {w : GqlValue τ} {k : ℕ} :
    Reads (parseNum text) i w k ↔ k = i + (intText z).length ∧
      w = if ((decimal z.natAbs).foldl wholeDigit numInit).big then
          .string (stringCreate (text.drop i) (intText z).length)
        else numValue (decide (z < 0)) ((decimal z.natAbs).foldl wholeDigit numInit) 0 := by
  obtain ⟨j, hsign, hj, hlen⟩ := reads_sign h
  have hspan : Reads (span text isDigit) j (decimal z.natAbs) (i + (intText z).length) := by
    rw [← hlen]
    exact reads_span hj (fun b => isDigit_decimal) (hrest.head rfl rfl rfl)
  have hend : text.drop (i + (intText z).length) = rest := drop_add_of_drop h
  have hat := hrest.at0 hend
  have hfrac : ∀ s, Reads (readFrac text s) (i + (intText z).length) s (i + (intText z).length) := by
    intro s
    refine (reads_peek _).bind ?_
    rw [if_neg]
    · exact reads_pure s _
    · rcases hat with e | e | e | e <;> rw [e] <;> decide
  have hexp : Reads (readExp text) (i + (intText z).length) (0, false) (i + (intText z).length) := by
    refine (reads_peek _).bind ?_
    rw [if_neg]
    · exact reads_pure _ _
    · rcases hat with e | e | e | e <;> rw [e] <;> decide
  unfold parseNum
  rw [(reads_get i).bind_iff, hsign.bind_iff, hspan.bind_iff, (hfrac _).bind_iff, hexp.bind_iff]
  dsimp only
  rw [Bool.or_false]
  generalize (decimal z.natAbs).foldl wholeDigit numInit = s
  have hdiff : i + (intText z).length - i = (intText z).length := by omega
  have hpure : ∀ v : GqlValue τ, Reads (pure v) (i + (intText z).length) w k ↔
      k = i + (intText z).length ∧ w = v := by
    intro v
    constructor
    · intro hv
      obtain ⟨rfl, rfl⟩ := hv.unique (reads_pure v _)
      exact ⟨rfl, rfl⟩
    · rintro ⟨rfl, rfl⟩
      exact reads_pure _ _
  split_ifs with hs
  · rw [(reads_get _).bind_iff, hdiff]
    exact hpure _
  · exact hpure _

/-- An integer that `numValue` takes for an Int or an I64. -/
theorem numValue_int {s : NumState} {n : ℕ} (neg : Bool) (hi : s.i = n) (hdiv : s.div = 1) :
    (numValue neg s 0 : GqlValue τ) =
      if 0x7FFFFFFF < n then .i64 (if neg then -n else n) else .int (if neg then -n else n) := by
  unfold numValue
  rw [if_pos ⟨hdiv, rfl⟩, hi]
  split_ifs <;> first | rfl | omega

/-- An integer above the lowest I64 is read as an Int or an I64, by its size. -/
theorem parseNum_reads {z : ℤ} {i : ℕ} {rest : Bytes} (h : text.drop i = intText z ++ rest)
    (hrest : Follow rest) (hz : z.natAbs ≤ 0x7FFFFFFFFFFFFFFF) :
    Reads (parseNum text : JsonReader (GqlValue τ)) i
      (if -0x80000000 < z ∧ z ≤ 0x7FFFFFFF then .int z else .i64 z) (i + (intText z).length) := by
  obtain ⟨hi, hdiv, hbig⟩ := wholeDigit_decimal hz
  rw [parseNum_iff h hrest]
  refine ⟨rfl, ?_⟩
  rw [hbig, numValue_int _ hi hdiv]
  have habs : (if decide (z < 0) = true then -(z.natAbs : ℤ) else z.natAbs) = z := by
    split
    · next hneg =>
      have := of_decide_eq_true hneg
      omega
    · next hneg =>
      have := of_decide_eq_false (Bool.not_eq_true _ ▸ hneg)
      omega
  rw [habs, if_neg Bool.false_ne_true]
  by_cases hlarge : 0x7FFFFFFF < z.natAbs
  · rw [if_pos hlarge, if_neg (by omega)]
  · rw [if_neg hlarge, if_pos (by omega)]

/-- The lowest I64 is read as a string. -/
theorem parseNum_lowest {i j : ℕ} {rest : Bytes} {w : GqlValue τ}
    (h : text.drop i = intText (-0x8000000000000000) ++ rest) (hrest : Follow rest)
    (hw : Reads (parseNum text) i w j) : ∃ s, w = .string s := by
  obtain ⟨-, e⟩ := (parseNum_iff h hrest).mp hw
  have hbig := wholeDigit_lowest
  rw [show (-0x8000000000000000 : ℤ).natAbs = 0x8000000000000000 from rfl, hbig, if_pos rfl] at e
  exact ⟨_, e⟩

/-! ## Strings -/

/-- The reader undoes the short escapes. -/
theorem plainEscape_shortEscape {b e : Byte} (h : shortEscape b = some e) :
    plainEscape e = some b := by
  unfold shortEscape at h
  split_ifs at h with h1 h2 h3 h4 h5 h6
  all_goals obtain rfl := Option.some.inj h
  · rcases h1 with rfl | rfl <;> rfl
  all_goals subst b; rfl

/-- The two digits of a control byte. -/
theorem hexDigit_dumpHex {b : Byte} (hb : b < 0x20) :
    hexDigit (at0 hexChars (b >>> 4 &&& 15).toNat) = some (b.toNat / 16) ∧
      hexDigit (at0 hexChars (b &&& 15).toNat) = some (b.toNat % 16) := by
  have hall : ∀ k < 32, hexDigit (at0 hexChars (UInt8.ofNat k >>> 4 &&& 15).toNat) = some (k / 16) ∧
      hexDigit (at0 hexChars (UInt8.ofNat k &&& 15).toNat) = some (k % 16) := by decide
  have := hall b.toNat (UInt8.lt_iff_toNat_lt.mp hb)
  rwa [UInt8.ofNat_toNat] at this

/-- One more digit of `read_hex`. -/
theorem reads_hexLoop {c : Byte} {d hex k i j v : ℕ} {rest : Bytes}
    (h : text.drop i = c :: rest) (hd : hexDigit c = some d)
    (hrest : Reads (hexLoop text k (hex * 16 + d)) (i + 1) v j) :
    Reads (hexLoop text (k + 1) hex) i v j := by
  unfold hexLoop
  refine (reads_peek i).bind ?_
  rw [(drop_succ_of_drop h).1, hd]
  exact (reads_forward 1 i).bind hrest

/-- The escape of a control byte, from the `u` on. -/
theorem reads_unicode {b : Byte} {i : ℕ} {rest : Bytes} (hb : b < 0x20)
    (h : text.drop i = bytes "u00" ++ dumpHex b ++ rest) :
    Reads (readUnicode text) i [b] (i + 5) := by
  have hlt : b.toNat < 32 := UInt8.lt_iff_toNat_lt.mp hb
  obtain ⟨hx, hy⟩ := hexDigit_dumpHex hb
  have h0 : text.drop i = chr 'u' :: chr '0' :: chr '0' ::
    at0 hexChars (b >>> 4 &&& 15).toNat :: at0 hexChars (b &&& 15).toNat :: rest := h
  have h1 := (drop_succ_of_drop h0).2
  have h2 := (drop_succ_of_drop h1).2
  have h3 := (drop_succ_of_drop h2).2
  have h4 := (drop_succ_of_drop h3).2
  have hlen : i + 1 + 4 ≤ text.length := by
    have := congrArg List.length h1
    rw [List.length_drop] at this
    simp only [List.length_cons] at this
    omega
  have hhex : Reads (readHex text) (i + 1) b.toNat (i + 5) := by
    refine (reads_get _).bind ((reads_require hlen _ _).bind ?_)
    refine reads_hexLoop h1 (d := 0) rfl (reads_hexLoop h2 (d := 0) rfl ?_)
    refine reads_hexLoop h3 hx (reads_hexLoop h4 hy ?_)
    have hsum : (((0 * 16 + 0) * 16 + 0) * 16 + b.toNat / 16) * 16 + b.toNat % 16 = b.toNat := by
      omega
    unfold hexLoop
    rw [hsum]
    exact reads_pure _ _
  refine (reads_forward 1 i).bind (hhex.bind ?_)
  rw [if_neg (by omega)]
  unfold unicodeToChars
  rw [if_pos (by omega), UInt8.ofNat_toNat]
  exact reads_pure _ _

/-- The reader undoes what is printed for a byte. -/
theorem readChar_reads {b : Byte} {i : ℕ} {rest : Bytes} (h : text.drop i = jsonByte b ++ rest) :
    Reads (readChar text) i [b] (i + (jsonByte b).length) := by
  unfold jsonByte at h ⊢
  cases hs : shortEscape b with
  | some e =>
    rw [hs] at h
    have h0 : text.drop i = chr '\\' :: e :: rest := h
    obtain ⟨hat, h1⟩ := drop_succ_of_drop h0
    refine (reads_peek i).bind ((reads_forward 1 i).bind ?_)
    rw [hat, if_pos rfl]
    refine (reads_peek (i + 1)).bind ?_
    rw [(drop_succ_of_drop h1).1, plainEscape_shortEscape hs]
    exact (reads_forward 1 (i + 1)).bind (reads_pure [b] _)
  | none =>
    rw [hs] at h
    by_cases hb : b < 0x20
    · simp only [if_pos hb] at h ⊢
      have h0 : text.drop i = chr '\\' :: (bytes "u00" ++ dumpHex b ++ rest) := h
      obtain ⟨hat, h1⟩ := drop_succ_of_drop h0
      have hu : at0 text (i + 1) = chr 'u' := (drop_succ_of_drop h1).1
      refine (reads_peek i).bind ((reads_forward 1 i).bind ?_)
      rw [hat, if_pos rfl]
      refine (reads_peek (i + 1)).bind ?_
      rw [hu, show plainEscape (chr 'u') = none from rfl]
      refine (reads_require rfl _ _).bind ?_
      have hend : i + (bytes "\\u00" ++ dumpHex b).length = i + 1 + 5 := by simp [bytes, dumpHex]
      rw [hend]
      exact reads_unicode hb h1
    · have hplain : b ≠ chr '\\' := by
        rintro rfl
        cases hs
      simp only [if_neg hb] at h ⊢
      have h0 : text.drop i = b :: rest := h
      obtain ⟨hat, -⟩ := drop_succ_of_drop h0
      refine (reads_peek i).bind ((reads_forward 1 i).bind ?_)
      rw [hat, if_neg hplain]
      exact reads_pure [b] _

/-- The loop of `parse_escaped` undoes `agoo_text_append_json`. -/
theorem escapedLoop_reads {s t : Bytes} {i fuel : ℕ} {rest : Bytes}
    (h : text.drop i = s.flatMap jsonByte ++ chr '"' :: rest) (hfuel : s.length < fuel) :
    Reads (escapedLoop text fuel t) i (t ++ s) (i + (s.flatMap jsonByte).length) := by
  induction s generalizing i t fuel with
  | nil =>
    obtain ⟨k, rfl⟩ : ∃ k, fuel = k + 1 := ⟨fuel - 1, by omega⟩
    have h0 : text.drop i = chr '"' :: rest := h
    obtain ⟨hat, -⟩ := drop_succ_of_drop h0
    unfold escapedLoop
    refine (reads_get i).bind ((reads_peek i).bind ?_)
    rw [hat, if_neg (by simp), List.append_nil]
    exact reads_pure t i
  | cons b s ih =>
    obtain ⟨k, rfl⟩ : ∃ k, fuel = k + 1 := ⟨fuel - 1, by omega⟩
    rw [List.flatMap_cons, List.append_assoc] at h
    obtain ⟨c, more, hc, hquote, -⟩ := jsonByte_head b
    have hat : at0 text i = c := by
      rw [hc] at h
      exact (drop_succ_of_drop h).1
    have hlt : i < text.length := by
      by_contra hge
      rw [List.drop_eq_nil_iff.mpr (by omega), hc] at h
      cases h
    have hnext : Reads (escapedLoop text k (t ++ [b])) (i + (jsonByte b).length) (t ++ [b] ++ s)
        (i + (jsonByte b).length + (s.flatMap jsonByte).length) :=
      ih (drop_add_of_drop h) (Nat.lt_of_succ_lt_succ hfuel)
    unfold escapedLoop
    refine (reads_get i).bind ((reads_peek i).bind ?_)
    rw [hat, if_pos ⟨hlt, hquote⟩]
    refine (readChar_reads h).bind ?_
    rw [List.flatMap_cons, List.length_append, ← Nat.add_assoc]
    rwa [List.append_assoc, List.singleton_append] at hnext

/-- Where a byte was escaped, a backslash comes before the first quote. -/
theorem backslash_before_quote {s : Bytes} (h : ∃ b ∈ s, jsonByte b ≠ [b]) (rest : Bytes) :
    chr '\\' ∈ (s.flatMap jsonByte ++ rest).takeWhile (· ≠ chr '"') := by
  induction s with
  | nil => simp at h
  | cons b s ih =>
    obtain ⟨c, more, hc, hquote, hplain⟩ := jsonByte_head b
    rw [List.flatMap_cons, hc, List.append_assoc, List.cons_append,
      List.takeWhile_cons_of_pos (by simpa using hquote)]
    rcases hplain with rfl | hb
    · exact .head _
    · obtain ⟨d, hd, hne⟩ := h
      rcases List.mem_cons.mp hd with rfl | hd
      · exact absurd hb hne
      · rw [hb] at hc
        obtain rfl := (List.cons.inj hc).2
        exact .tail _ (ih ⟨d, hd, hne⟩)

/-- A string that is not empty is read as printed. -/
theorem parseString_reads {s : Bytes} {i fuel : ℕ} {rest : Bytes}
    (h : text.drop i = quoted s ++ rest) (hs : 0 ∉ s) (hne : s ≠ []) (hfuel : s.length < fuel) :
    Reads (parseString text fuel : JsonReader (GqlValue τ)) i (.string s)
      (i + (quoted s).length) := by
  have h0 : text.drop i = chr '"' :: (s.flatMap jsonByte ++ chr '"' :: rest) := by
    rw [h, quoted, appendJson, cstr_of_not_mem hs]
    simp [bytes, chr]
  obtain ⟨hat, h1⟩ := drop_succ_of_drop h0
  have hend : i + (quoted s).length = i + 1 + (s.flatMap jsonByte).length + 1 := by
    rw [quoted, appendJson, cstr_of_not_mem hs]
    simp [bytes]
    omega
  refine (reads_peek i).bind ((reads_require (by rw [hat]) _ _).bind ?_)
  refine (reads_forward 1 i).bind ((reads_get (i + 1)).bind ?_)
  rw [hend]
  by_cases hesc : ∃ b ∈ s, jsonByte b ≠ [b]
  · have hspan : ∃ j, Reads (span text (· ≠ chr '"')) (i + 1)
        ((text.drop (i + 1)).takeWhile (· ≠ chr '"')) j := ⟨_, rfl⟩
    obtain ⟨j, hspan⟩ := hspan
    refine hspan.bind ?_
    rw [if_pos (by rw [h1]; exact backslash_before_quote hesc _)]
    refine (reads_set j (i + 1)).bind ((escapedLoop_reads h1 hfuel).bind ?_)
    refine (reads_forward 1 _).bind ?_
    rw [List.nil_append, cstr_of_not_mem hs]
    exact reads_pure _ _
  · push Not at hesc
    rw [flatMap_jsonByte_plain hesc] at h1 ⊢
    have hquote : ∀ b ∈ s, decide (b ≠ chr '"') = true := by
      intro b hb
      obtain ⟨c, more, hc, hq, -⟩ := jsonByte_head b
      rw [hesc b hb] at hc
      rw [(List.cons.inj hc).1]
      exact decide_eq_true hq
    have hback : chr '\\' ∉ s := by
      intro hb
      exact absurd (hesc _ hb) (by decide)
    refine (reads_span h1 hquote (by simp)).bind ?_
    rw [if_neg hback]
    refine (reads_forward 1 _).bind ?_
    rw [h1, stringCreate, if_neg (by simpa using hne), List.take_left, cstr_of_not_mem hs]
    exact reads_pure _ _

/-- An empty string is read as a string that begins with its closing quote. -/
theorem parseString_empty {i j fuel : ℕ} {rest : Bytes} {w : GqlValue τ}
    (h : text.drop i = quoted [] ++ rest) (hw : Reads (parseString text fuel) i w j) :
    ∃ s, w = .string (chr '"' :: s) := by
  have h0 : text.drop i = chr '"' :: chr '"' :: rest := h
  obtain ⟨hat, h1⟩ := drop_succ_of_drop h0
  have hspan : Reads (span text (· ≠ chr '"')) (i + 1) [] (i + 1) :=
    reads_span (show text.drop (i + 1) = [] ++ chr '"' :: rest from h1) (by simp) (by simp)
  unfold parseString at hw
  rw [(reads_peek i).bind_iff, (reads_require (by rw [hat]) _ _).bind_iff,
    (reads_forward 1 i).bind_iff, (reads_get (i + 1)).bind_iff, hspan.bind_iff,
    if_neg List.not_mem_nil, (reads_forward 1 _).bind_iff] at hw
  obtain ⟨rfl, -⟩ := hw.unique (reads_pure _ _)
  rw [h1]
  exact ⟨cstr rest, rfl⟩

/-! ## Members -/

/-- How printed things of type `β` are read by `read`: the good ones come back as `back` says, and
the others not as what they were. -/
structure Undoes (text : Bytes) (txt : β → Bytes) (good : β → Prop) (back : β → α)
    (same : β → α → Prop) (read : JsonReader α) (b : β) : Prop where
  reads : ∀ {i rest}, text.drop i = txt b ++ rest → Follow rest → good b →
    Reads read i (back b) (i + (txt b).length)
  good : ∀ {i rest a j}, text.drop i = txt b ++ rest → Follow rest → Reads read i a j → same b a →
    good b

section

variable {txt : β → Bytes} {good : β → Prop} {back : β → α} {same : β → α → Prop}
  {read : JsonReader α} {close : Byte}

/-- One round of the loop over members, up to what follows the member. -/
theorem members_step {i j k fuel : ℕ} {a : α} {c : Byte} {rest : Bytes} {ms as : List α}
    (hi : i < text.length) (hread : Reads read i a j) (hj : text.drop j = c :: rest)
    (hc : isJwhite c = false) :
    Reads (members text close read (fuel + 1) ms) i as k ↔
      if c = close then as = ms ++ [a] ∧ k = j
      else c = chr ',' ∧ Reads (members text close read fuel (ms ++ [a])) (j + 1) as k := by
  have hskip : Reads (skipJwhite text) j () j := reads_skipJwhite hj (by simpa using hc)
  conv_lhs => unfold members
  rw [(reads_get i).bind_iff, if_pos hi, hread.bind_iff, hskip.bind_iff, (reads_peek j).bind_iff,
    (drop_succ_of_drop hj).1]
  split_ifs with hclose
  · constructor
    · intro h
      obtain ⟨rfl, rfl⟩ := h.unique (reads_pure (ms ++ [a]) j)
      exact ⟨rfl, rfl⟩
    · rintro ⟨rfl, rfl⟩
      exact reads_pure _ _
  · by_cases hcomma : c = chr ','
    · rw [(reads_require hcomma _ _).bind_iff, (reads_forward 1 j).bind_iff]
      exact (and_iff_right hcomma).symm
    · constructor
      · intro h
        obtain ⟨u, j', hu, -⟩ := reads_bind_iff.mp h
        unfold require at hu
        rw [if_neg hcomma] at hu
        exact absurd hu not_reads_jsonErr
      · rintro ⟨h, -⟩
        exact absurd h hcomma

theorem members_reads {i fuel : ℕ} {bs : List β} {rest : Bytes} {ms : List α}
    (hclose : close = chr ']' ∨ close = chr '}') (hbs : bs ≠ [])
    (hund : ∀ b ∈ bs, Undoes text txt good back same read b) (hgood : ∀ b ∈ bs, good b)
    (h : text.drop i = sepBy txt bs ++ close :: rest) (hfuel : bs.length ≤ fuel) :
    Reads (members text close read fuel ms) i (ms ++ bs.map back)
      (i + (sepBy txt bs).length) := by
  induction bs generalizing i fuel ms with
  | nil => exact absurd rfl hbs
  | cons b bs ih =>
    obtain ⟨k, rfl⟩ : ∃ k, fuel = k + 1 := ⟨fuel - 1, by rw [List.length_cons] at hfuel; omega⟩
    have hlt := lt_of_drop h
    rw [sepBy, List.append_assoc, List.append_assoc, ← List.append_assoc (comma bs)] at h
    have hread := (hund b (.head _)).reads h (follow_comma txt bs hclose rest) (hgood b (.head _))
    have hj := drop_add_of_drop h
    cases bs with
    | nil =>
      rw [members_step hlt hread hj (by rcases hclose with rfl | rfl <;> rfl), if_pos rfl]
      exact ⟨rfl, by simp [sepBy, comma]⟩
    | cons b' bs =>
      have hj' : text.drop (i + (txt b).length) =
        chr ',' :: (sepBy txt (b' :: bs) ++ close :: rest) := hj
      rw [members_step hlt hread hj' rfl, if_neg (by rcases hclose with rfl | rfl <;> decide)]
      refine ⟨rfl, ?_⟩
      have : Reads (members text close read k (ms ++ [back b])) (i + (txt b).length + 1)
          (ms ++ [back b] ++ (b' :: bs).map back) _ :=
        ih (List.cons_ne_nil _ _) (fun c hc => hund c (.tail _ hc))
          (fun c hc => hgood c (.tail _ hc)) (drop_succ_of_drop hj').2 (Nat.le_of_succ_le_succ hfuel)
      rw [List.append_assoc, List.singleton_append, ← List.map_cons] at this
      rwa [length_sepBy_cons, ← Nat.add_assoc, ← Nat.add_assoc]

/-- The loop only adds to the members it has. -/
theorem members_more {i j fuel : ℕ} {ms as : List α}
    (h : Reads (members text close read fuel ms) i as j) : ∃ more, as = ms ++ more := by
  induction fuel generalizing i ms with
  | zero => cases h
  | succ k ih =>
    unfold members at h
    rw [(reads_get i).bind_iff] at h
    split_ifs at h
    · obtain ⟨a, i1, -, h⟩ := reads_bind_iff.mp h
      obtain ⟨u, i2, -, h⟩ := reads_bind_iff.mp h
      obtain ⟨c, i3, -, h⟩ := reads_bind_iff.mp h
      split_ifs at h
      · obtain ⟨rfl, -⟩ := h.unique (reads_pure (ms ++ [a]) i3)
        exact ⟨[a], rfl⟩
      · obtain ⟨u, i4, -, h⟩ := reads_bind_iff.mp h
        obtain ⟨u, i5, -, h⟩ := reads_bind_iff.mp h
        obtain ⟨more, rfl⟩ := ih h
        exact ⟨a :: more, by rw [List.append_assoc, List.singleton_append]⟩
    · obtain ⟨rfl, -⟩ := h.unique (reads_pure ms i)
      exact ⟨[], by rw [List.append_nil]⟩

/-- The first member was read, and comes first in what is read. -/
theorem members_first {i j fuel : ℕ} {ms as : List α} (hi : i < text.length)
    (h : Reads (members text close read fuel ms) i as j) :
    ∃ a k more, Reads read i a k ∧ as = ms ++ a :: more := by
  cases fuel with
  | zero => cases h
  | succ fuel =>
    unfold members at h
    rw [(reads_get i).bind_iff, if_pos hi] at h
    obtain ⟨a, i1, hread, h⟩ := reads_bind_iff.mp h
    obtain ⟨u, i2, -, h⟩ := reads_bind_iff.mp h
    obtain ⟨c, i3, -, h⟩ := reads_bind_iff.mp h
    refine ⟨a, i1, ?_⟩
    split_ifs at h
    · obtain ⟨rfl, -⟩ := h.unique (reads_pure (ms ++ [a]) i3)
      exact ⟨[], hread, rfl⟩
    · obtain ⟨u, i4, -, h⟩ := reads_bind_iff.mp h
      obtain ⟨u, i5, -, h⟩ := reads_bind_iff.mp h
      obtain ⟨more, rfl⟩ := members_more h
      exact ⟨more, hread, by rw [List.append_assoc, List.singleton_append]⟩

/-- Members that come back as they were are good ones. -/
theorem members_good {i j fuel : ℕ} {bs : List β} {rest : Bytes} (ms : List α) {as : List α}
    (hclose : close = chr ']' ∨ close = chr '}')
    (hund : ∀ b ∈ bs, Undoes text txt good back same read b)
    (h : text.drop i = sepBy txt bs ++ close :: rest)
    (hread : Reads (members text close read fuel ms) i (ms ++ as) j)
    (hsame : List.Forall₂ same bs as) : ∀ b ∈ bs, good b := by
  induction bs generalizing i fuel ms as with
  | nil => simp
  | cons b bs ih =>
    obtain ⟨k, rfl⟩ : ∃ k, fuel = k + 1 := by
      cases fuel with
      | zero => cases hread
      | succ k => exact ⟨k, rfl⟩
    have hlt := lt_of_drop h
    rw [sepBy, List.append_assoc, List.append_assoc, ← List.append_assoc (comma bs)] at h
    have hfollow := follow_comma txt bs hclose rest
    obtain ⟨a, i1, more, hfirst, has⟩ := members_first hlt hread
    obtain rfl := List.append_cancel_left has
    obtain ⟨hab, hmore⟩ := List.forall₂_cons.mp hsame
    have hb := (hund b (.head _)).good h hfollow hfirst hab
    have hback := (hund b (.head _)).reads h hfollow hb
    obtain ⟨rfl, rfl⟩ := hfirst.unique hback
    intro c hc
    rcases List.mem_cons.mp hc with rfl | hc
    · exact hb
    · cases bs with
      | nil => cases hc
      | cons b' bs =>
        have hj : text.drop (i + (txt b).length) =
          chr ',' :: (sepBy txt (b' :: bs) ++ close :: rest) := drop_add_of_drop h
        rw [members_step hlt hback hj rfl, if_neg (by rcases hclose with rfl | rfl <;> decide)]
          at hread
        have hrest := hread.2
        rw [show ms ++ back b :: more = (ms ++ [back b]) ++ more by simp] at hrest
        exact ih _ (fun d hd => hund d (.tail _ hd)) (drop_succ_of_drop hj).2 hrest hmore c hc

/-- What is printed between an opening and a closing byte. -/
theorem enclosed_undoes {i fuel : ℕ} {bs : List β} {rest : Bytes} {opening : Byte} (msg : Bytes)
    (hclose : close = chr ']' ∨ close = chr '}')
    (hund : ∀ b ∈ bs, Undoes text txt good back same read b)
    (hhead : ∀ b ∈ bs, ∃ c more, txt b = c :: more ∧ c ≠ close ∧ isJwhite c = false)
    (h : text.drop i = opening :: (sepBy txt bs ++ close :: rest)) (hfuel : bs.length ≤ fuel) :
    ((∀ b ∈ bs, good b) → Reads (enclosed text close read fuel msg) i (bs.map back)
      (i + 1 + (sepBy txt bs).length + 1)) ∧
    ∀ as j, Reads (enclosed text close read fuel msg) i as j → List.Forall₂ same bs as →
      ∀ b ∈ bs, good b := by
  have h1 := (drop_succ_of_drop h).2
  have hcw : isJwhite close = false := by rcases hclose with rfl | rfl <;> rfl
  unfold enclosed
  cases bs with
  | nil =>
    refine ⟨fun _ => ?_, by simp⟩
    have h2 : text.drop (i + 1) = close :: rest := h1
    have hat : at0 text (i + 1) = close := (drop_succ_of_drop h2).1
    refine (reads_forward 1 i).bind ?_
    refine (reads_skipJwhite h1 (by simpa [sepBy] using hcw)).bind ((reads_peek _).bind ?_)
    rw [if_pos hat]
    refine (reads_pure [] _).bind ((reads_peek _).bind ?_)
    exact (reads_require hat _ _).bind ((reads_forward 1 _).bind (reads_pure [] _))
  | cons b bs =>
    obtain ⟨c, more, hc, hne, hw⟩ := hhead b (.head _)
    have h2 : text.drop (i + 1) = c :: (more ++ comma bs ++ sepBy txt bs ++ close :: rest) := by
      rw [h1, sepBy, hc]
      simp
    have hskip : Reads (skipJwhite text) (i + 1) () (i + 1) := reads_skipJwhite h2 (by simpa using hw)
    have hat := (drop_succ_of_drop h2).1
    constructor
    · intro hgood
      have hmem : Reads (members text close read fuel []) (i + 1) ([] ++ (b :: bs).map back) _ :=
        members_reads hclose (List.cons_ne_nil b bs) hund hgood h1 hfuel
      have hend := (drop_succ_of_drop (drop_add_of_drop h1)).1
      refine (reads_forward 1 i).bind (hskip.bind ((reads_peek _).bind ?_))
      rw [hat, if_neg hne]
      refine hmem.bind ((reads_peek _).bind ((reads_require hend _ _).bind ?_))
      exact (reads_forward 1 _).bind (reads_pure _ _)
    · intro as j hread hsame
      rw [(reads_forward 1 i).bind_iff, hskip.bind_iff, (reads_peek _).bind_iff, hat, if_neg hne]
        at hread
      obtain ⟨as', k, hmem, hread⟩ := reads_bind_iff.mp hread
      obtain ⟨u, i1, -, hread⟩ := reads_bind_iff.mp hread
      obtain ⟨u, i2, -, hread⟩ := reads_bind_iff.mp hread
      obtain ⟨u, i3, -, hread⟩ := reads_bind_iff.mp hread
      obtain ⟨rfl, -⟩ := hread.unique (reads_pure as' _)
      exact members_good [] hclose hund h1 hmem hsame

end

/-! ## Values -/

/-- A key of an object free of quotes, backslashes and control bytes. -/
def CleanKey (key : Bytes) : Prop :=
  key.length < 256 ∧ ∀ b ∈ key, b ≠ chr '"' ∧ b ≠ chr '\\' ∧ 0x20 ≤ b

/-- The values that JSON trees are built from. -/
def JsonNode : GqlValue τ → Prop
  | .null => True
  | .bool _ => True
  | .int i => GqlValue.FitsInt i
  | .i64 i => GqlValue.FitsI64 i
  | .string s => 0 ∉ s
  | .list _ _ => True
  | .object ms => ∀ m ∈ ms, CleanKey m.1
  | _ => False

/-- What no other value comes back for: not the empty string, the lowest Int or the lowest I64. -/
def JsonSafe : GqlValue τ → Prop
  | .string s => s ≠ []
  | .int i => i ≠ -0x80000000
  | .i64 i => i ≠ -0x8000000000000000
  | _ => True

variable {fmt : FloatLit → Bytes}

theorem listJson_eq (d : ℤ) (ms : List (GqlValue τ)) :
    listJson fmt 0 d ms = sepBy (valueJson fmt 0 (d + 1)) ms := by
  induction ms with
  | nil => rfl
  | cons m ms ih => rw [listJson, sepBy, memberPad_zero, List.nil_append, ih]

/-- A member of an object as it is printed. -/
def memberText (fmt : FloatLit → Bytes) (d : ℤ) (m : Bytes × GqlValue τ) : Bytes :=
  bytes "\"" ++ cstr m.1 ++ bytes "\":" ++ valueJson fmt 0 (d + 1) m.2

theorem membersJson_eq (d : ℤ) (ms : List (Bytes × GqlValue τ)) :
    membersJson fmt 0 d ms = sepBy (memberText fmt d) ms := by
  induction ms with
  | nil => rfl
  | cons m ms ih =>
    obtain ⟨key, m⟩ := m
    rw [membersJson, sepBy, memberPad_zero, List.nil_append, ih, memberText]

/-- The bytes that a printed value can begin with. -/
def IsStart (c : Byte) : Prop := c ∈ bytes "ntf\"-[\x7b" ∨ isDigit c = true

theorem isStart_not {c : Byte} (h : IsStart c) {p : Byte → Prop}
    (hp : ∀ b ∈ bytes "ntf\"-[\x7b0123456789", p b) : p c := by
  rcases h with h | h
  · exact hp c (List.mem_append_left (bytes "0123456789") h)
  · refine hp c ?_
    have hall : ∀ k < 256, isDigit (UInt8.ofNat k) = true →
        UInt8.ofNat k ∈ bytes "ntf\"-[\x7b0123456789" := by decide +kernel
    have := hall c.toNat c.toNat_lt
    rw [UInt8.ofNat_toNat] at this
    exact this h

/-- A JSON tree is printed with something to begin with. -/
theorem valueJson_head (fmt : FloatLit → Bytes) {v : GqlValue τ} (hv : JsonNode v) (d : ℤ) :
    ∃ c more, valueJson fmt 0 d v = c :: more ∧ IsStart c := by
  have hlit : ∀ c ∈ bytes "ntf\"-[\x7b", IsStart c := fun c hc => Or.inl hc
  cases v with
  | null => exact ⟨_, _, rfl, hlit _ (by decide)⟩
  | bool b => cases b <;> exact ⟨_, _, rfl, hlit _ (by decide)⟩
  | int i =>
    obtain ⟨c, more, hc, h | h⟩ := intText_head i
    · exact ⟨c, more, hc, h ▸ hlit _ (by decide)⟩
    · exact ⟨c, more, hc, Or.inr h⟩
  | i64 i =>
    obtain ⟨c, more, hc, h | h⟩ := intText_head i
    · exact ⟨c, more, hc, h ▸ hlit _ (by decide)⟩
    · exact ⟨c, more, hc, Or.inr h⟩
  | string s => exact ⟨_, _, rfl, hlit _ (by decide)⟩
  | list item ms => exact ⟨_, _, rfl, hlit _ (by decide)⟩
  | object ms => exact ⟨_, _, rfl, hlit _ (by decide)⟩
  | float f => exact absurd hv not_false
  | token s e => exact absurd hv not_false
  | var s => exact absurd hv not_false

/-- `parse_value` at a byte that is not white. -/
theorem parseValue_at {i k fuel : ℕ} {c : Byte} {rest : Bytes} {w : GqlValue τ}
    (h : text.drop i = c :: rest) (hc : isJwhite c = false) :
    Reads (parseValue text (fuel + 1)) i w k ↔
      Reads (if c = chr '\x7b' then parseObject text (parseValue text fuel) fuel
        else if c = chr '[' then parseArray text (parseValue text fuel) fuel
        else if c = chr '"' then parseString text (fuel + 1)
        else if c = chr '+' ∨ c = chr '-' ∨ isDigit c then parseNum text
        else if c = chr 't' then word text (bytes "true") (.bool true)
        else if c = chr 'f' then word text (bytes "false") (.bool false)
        else if c = chr 'n' then word text (bytes "null") .null
        else if c = 0 then jsonErr text (bytes "embedded null character")
        else jsonErr text (bytes "invalid token character")) i w k := by
  conv_lhs => unfold parseValue
  rw [(reads_skipJwhite h (by simpa using hc)).bind_iff, (reads_peek i).bind_iff,
    (drop_succ_of_drop h).1]

theorem word_reads {i : ℕ} {lit rest : Bytes} {v : GqlValue τ} (h : text.drop i = lit ++ rest) :
    Reads (word text lit v) i v (i + lit.length) := by
  refine (reads_get i).bind ((reads_require ?_ _ _).bind ?_)
  · rw [h]
    exact List.prefix_append lit rest
  · exact (reads_forward _ i).bind (reads_pure v _)

/-- A printed number is read as a number. -/
theorem parseValue_int {z : ℤ} {i k fuel : ℕ} {rest : Bytes} {w : GqlValue τ}
    (h : text.drop i = intText z ++ rest) :
    Reads (parseValue text (fuel + 1)) i w k ↔ Reads (parseNum text) i w k := by
  obtain ⟨c, more, hc, hz⟩ := intText_head z
  have hcons : text.drop i = c :: (more ++ rest) := by rw [h, hc, List.cons_append]
  have hstart : IsStart c := hz.elim (fun e => Or.inl (by rw [e]; decide)) Or.inr
  rw [parseValue_at hcons (isStart_not hstart (p := fun c => isJwhite c = false) (by decide +kernel))]
  have hnot : c ≠ chr '\x7b' ∧ c ≠ chr '[' ∧ c ≠ chr '"' := by
    refine ⟨?_, ?_, ?_⟩
    all_goals
      rintro rfl
      exact absurd hz (by decide)
  rw [if_neg hnot.1, if_neg hnot.2.1, if_neg hnot.2.2, if_pos (Or.inr hz)]

/-- A member of an object is read as its value is. -/
theorem parseMember_undoes {read : JsonReader (GqlValue τ)} {d : ℤ} {m : Bytes × GqlValue τ}
    (hkey : CleanKey m.1) (hnode : JsonNode m.2)
    (h : Undoes text (valueJson fmt 0 (d + 1)) (GqlValue.All JsonSafe) GqlValue.narrow
      GqlValue.ReadsAs read m.2) :
    Undoes text (memberText fmt d) (fun m => m.2.All JsonSafe) (fun m => (m.1, m.2.narrow))
      (fun m n => m.1 = n.1 ∧ m.2.ReadsAs n.2) (parseMember text read) m := by
  have hzero : cstr m.1 = m.1 := cstr_of_not_mem fun h0 => absurd (hkey.2 0 h0).2.2 (by decide)
  have hquote : ∀ b ∈ m.1, decide (b ≠ chr '"') = true := fun b hb => decide_eq_true (hkey.2 b hb).1
  obtain ⟨c, more, hc, hstart⟩ := valueJson_head fmt hnode (d + 1)
  have hhead : ∀ {i rest}, text.drop i = memberText fmt d m ++ rest →
      text.drop i = chr '"' :: (m.1 ++ chr '"' :: chr ':' :: (valueJson fmt 0 (d + 1) m.2 ++ rest)) := by
    intro i rest hi
    rw [hi, memberText, hzero]
    simp [bytes, chr]
  have hlen : (memberText fmt d m).length =
      1 + m.1.length + 2 + (valueJson fmt 0 (d + 1) m.2).length := by
    rw [memberText, hzero]
    simp [bytes]
    omega
  -- up to the value the reader does not depend on it
  have hiff : ∀ {i rest n k}, text.drop i = memberText fmt d m ++ rest →
      (Reads (parseMember text read) i n k ↔
        Reads (read >>= fun v => pure (m.1, v)) (i + 1 + m.1.length + 2) n k) ∧
      text.drop (i + 1 + m.1.length + 2) = valueJson fmt 0 (d + 1) m.2 ++ rest := by
    intro i rest n k hi
    have h0 := hhead hi
    obtain ⟨hat, h1⟩ := drop_succ_of_drop h0
    have h2 := drop_add_of_drop h1
    have h3 := (drop_succ_of_drop h2).2
    have h4 := (drop_succ_of_drop h3).2
    refine ⟨?_, h4⟩
    unfold parseMember
    rw [(reads_skipJwhite h0 (by simp; decide)).bind_iff, (reads_peek i).bind_iff,
      (reads_require hat _ _).bind_iff, (reads_forward 1 i).bind_iff,
      (reads_span h1 hquote (by simp)).bind_iff, (reads_require hkey.1 _ _).bind_iff,
      (reads_forward 1 _).bind_iff, (reads_skipJwhite h3 (by simp; decide)).bind_iff,
      (reads_peek _).bind_iff, (reads_require (drop_succ_of_drop h3).1 _ _).bind_iff,
      (reads_forward 1 _).bind_iff]
    have hw : Reads (skipJwhite text) (i + 1 + m.1.length + 1 + 1) ()
        (i + 1 + m.1.length + 1 + 1) := by
      have h5 : text.drop (i + 1 + m.1.length + 2) = c :: (more ++ rest) := by
        rw [h4, hc, List.cons_append]
      refine reads_skipJwhite h5 ?_
      simpa using isStart_not hstart (p := fun c => isJwhite c = false) (by decide +kernel)
    rw [hw.bind_iff, hzero]
  constructor
  · intro i rest hi hfollow hgood
    obtain ⟨hread, h4⟩ := hiff (n := (m.1, m.2.narrow)) (k := i + (memberText fmt d m).length) hi
    rw [hread, hlen]
    have hend : i + (1 + m.1.length + 2 + (valueJson fmt 0 (d + 1) m.2).length) =
        i + 1 + m.1.length + 2 + (valueJson fmt 0 (d + 1) m.2).length := by omega
    rw [hend]
    exact Reads.bind (h.reads h4 hfollow hgood) (reads_pure _ _)
  · intro i rest n k hi hfollow hread hsame
    obtain ⟨hval, h4⟩ := hiff (n := n) (k := k) hi
    obtain ⟨v, j, hv, hn⟩ := reads_bind_iff.mp (hval.mp hread)
    obtain ⟨rfl, -⟩ := hn.unique (reads_pure (m.1, v) j)
    exact h.good h4 hfollow hv hsame.2

theorem valueJson_list (d : ℤ) (item : Option τ) (ms : List (GqlValue τ)) :
    valueJson fmt 0 d (.list item ms) =
      chr '[' :: (sepBy (valueJson fmt 0 (d + 1)) ms ++ [chr ']']) := by
  rw [valueJson, endPad_zero, List.append_nil, listJson_eq]
  rfl

theorem valueJson_object (d : ℤ) (ms : List (Bytes × GqlValue τ)) :
    valueJson fmt 0 d (.object ms) = chr '\x7b' :: (sepBy (memberText fmt d) ms ++ [chr '\x7d']) := by
  rw [valueJson, endPad_zero, List.append_nil, membersJson_eq]
  rfl

/-- A word is read as its value. -/
theorem word_undoes {v : GqlValue τ} {lit : Bytes} {d : ℤ} {fuel : ℕ}
    (htxt : valueJson fmt 0 d v = lit) (hback : v.narrow = v) (hgood : v.All JsonSafe)
    (h : ∀ {i rest w k}, text.drop i = lit ++ rest →
      (Reads (parseValue text fuel) i w k ↔ Reads (word text lit v) i w k)) :
    Undoes text (valueJson fmt 0 d) (GqlValue.All JsonSafe) GqlValue.narrow GqlValue.ReadsAs
      (parseValue text fuel) v where
  reads hi _ _ := by
    rw [htxt] at hi ⊢
    rw [h hi, hback]
    exact word_reads hi
  good _ _ _ _ := hgood

/-- A list or an object is read as its members are. -/
theorem enclosed_value_undoes {v : GqlValue τ} {d : ℤ} {k : ℕ} {txt : β → Bytes} {good : β → Prop}
    {back : β → α} {same : β → α → Prop} {read : JsonReader α} (wrap : List α → GqlValue τ)
    {bs : List β} {opening close : Byte} {msg : Bytes}
    (htxt : valueJson fmt 0 d v = opening :: (sepBy txt bs ++ [close]))
    (hback : v.narrow = wrap (bs.map back)) (hgood : v.All JsonSafe ↔ ∀ b ∈ bs, good b)
    (hsame : ∀ as, v.ReadsAs (wrap as) → List.Forall₂ same bs as)
    (hread : ∀ {i rest w j}, text.drop i = opening :: rest →
      (Reads (parseValue text (k + 1)) i w j ↔
        Reads (enclosed text close read k msg >>= fun as => pure (wrap as)) i w j))
    (hclose : close = chr ']' ∨ close = chr '}')
    (hund : ∀ b ∈ bs, Undoes text txt good back same read b)
    (hhead : ∀ b ∈ bs, ∃ c more, txt b = c :: more ∧ c ≠ close ∧ isJwhite c = false)
    (hfuel : bs.length ≤ k) :
    Undoes text (valueJson fmt 0 d) (GqlValue.All JsonSafe) GqlValue.narrow GqlValue.ReadsAs
      (parseValue text (k + 1)) v := by
  have hdrop : ∀ {i rest}, text.drop i = valueJson fmt 0 d v ++ rest →
      text.drop i = opening :: (sepBy txt bs ++ close :: rest) := by
    intro i rest hi
    rw [hi, htxt]
    simp
  constructor
  · intro i rest hi _ hv
    have hend : i + (valueJson fmt 0 d v).length = i + 1 + (sepBy txt bs).length + 1 := by
      rw [htxt]
      simp
      omega
    rw [hread (hdrop hi), hback, hend]
    have henc := (enclosed_undoes msg hclose hund hhead (hdrop hi) hfuel).1 (hgood.mp hv)
    exact Reads.bind henc (reads_pure _ _)
  · intro i rest a j hi _ hr hs
    obtain ⟨as, i1, henc, hpure⟩ := reads_bind_iff.mp ((hread (hdrop hi)).mp hr)
    obtain ⟨rfl, -⟩ := hpure.unique (reads_pure (wrap as) i1)
    have hall := (enclosed_undoes msg hclose hund hhead (hdrop hi) hfuel).2 as i1 henc
    exact hgood.mpr (hall (hsame as hs))

/-- **Printed JSON trees are read as they were exactly when all values in them are safe.** -/
theorem parseValue_undoes {v : GqlValue τ} (hv : v.All JsonNode) {d : ℤ} {fuel : ℕ}
    (hfuel : (valueJson fmt 0 d v).length < fuel) :
    Undoes text (valueJson fmt 0 d) (GqlValue.All JsonSafe) GqlValue.narrow GqlValue.ReadsAs
      (parseValue text fuel) v := by
  obtain ⟨k, rfl⟩ : ∃ k, fuel = k + 1 := ⟨fuel - 1, by omega⟩
  induction v using GqlValue.tree generalizing d k with
  | null =>
    refine word_undoes rfl rfl ((GqlValue.all_of_nodes rfl).mpr trivial) fun hi => ?_
    exact parseValue_at hi rfl
  | bool b =>
    cases b with
    | true =>
      refine word_undoes rfl rfl ((GqlValue.all_of_nodes rfl).mpr trivial) fun hi => ?_
      exact parseValue_at hi rfl
    | false =>
      refine word_undoes rfl rfl ((GqlValue.all_of_nodes rfl).mpr trivial) fun hi => ?_
      exact parseValue_at hi rfl
  | int z =>
    have hz : GqlValue.FitsInt z := (GqlValue.all_of_nodes rfl).mp hv
    unfold GqlValue.FitsInt at hz
    have hnum : ∀ {i rest}, text.drop i = intText z ++ rest → Follow rest →
        Reads (parseNum text : JsonReader (GqlValue τ)) i
          (if -0x80000000 < z ∧ z ≤ 0x7FFFFFFF then .int z else .i64 z)
          (i + (intText z).length) := fun hi hf => parseNum_reads hi hf (by omega)
    constructor
    · intro i rest hi hf hgood
      have hne : z ≠ -0x80000000 := (GqlValue.all_of_nodes rfl).mp hgood
      have := hnum hi hf
      rw [if_pos (by omega)] at this
      exact (parseValue_int hi).mpr this
    · intro i rest a j hi hf hread hsame
      refine (GqlValue.all_of_nodes rfl).mpr ?_
      obtain ⟨rfl, -⟩ := ((parseValue_int hi).mp hread).unique (hnum hi hf)
      rintro rfl
      exact hsame
  | i64 z =>
    have hz : GqlValue.FitsI64 z := (GqlValue.all_of_nodes rfl).mp hv
    unfold GqlValue.FitsI64 at hz
    constructor
    · intro i rest hi hf hgood
      have hne : z ≠ -0x8000000000000000 := (GqlValue.all_of_nodes rfl).mp hgood
      exact (parseValue_int hi).mpr (parseNum_reads hi hf (by omega))
    · intro i rest a j hi hf hread hsame
      refine (GqlValue.all_of_nodes rfl).mpr ?_
      rintro rfl
      obtain ⟨s, rfl⟩ := parseNum_lowest hi hf ((parseValue_int hi).mp hread)
      exact hsame
  | string s =>
    have hs : 0 ∉ s := (GqlValue.all_of_nodes rfl).mp hv
    have hstr : ∀ {i rest j} {w : GqlValue τ}, text.drop i = quoted s ++ rest →
        (Reads (parseValue text (k + 1)) i w j ↔ Reads (parseString text (k + 1)) i w j) :=
      fun hi => parseValue_at (c := chr '"') hi rfl
    constructor
    · intro i rest hi _ hgood
      refine (hstr hi).mpr (parseString_reads hi hs ((GqlValue.all_of_nodes rfl).mp hgood) ?_)
      exact Nat.lt_of_le_of_lt (length_le_quoted hs) hfuel
    · intro i rest a j hi _ hread hsame
      refine (GqlValue.all_of_nodes rfl).mpr ?_
      rintro rfl
      obtain ⟨t, rfl⟩ := parseString_empty hi ((hstr hi).mp hread)
      cases hsame
  | list item ms ih =>
    obtain ⟨-, hms⟩ := GqlValue.all_list.mp hv
    have hcount := length_le_sepBy (valueJson fmt 0 (d + 1)) ms
    rw [valueJson_list, List.length_cons, List.length_append, List.length_singleton] at hfuel
    obtain ⟨k, rfl⟩ : ∃ k', k = k' + 1 := ⟨k - 1, by omega⟩
    refine enclosed_value_undoes (.list none) (valueJson_list d item ms)
      (by rw [GqlValue.narrow, GqlValue.listNarrow_eq]) (by simp [GqlValue.all_list, JsonSafe])
      (fun as h => GqlValue.forall₂_listReadsAs.mp h) (fun hi => parseValue_at hi rfl) (Or.inl rfl)
      (fun m hm => ih m hm (hms m hm) k ?_) (fun m hm => ?_) (by omega)
    · have := length_le_sepBy_of_mem (valueJson fmt 0 (d + 1)) hm
      omega
    · obtain ⟨c, more, hc, hstart⟩ :=
        valueJson_head fmt (hms m hm m (GqlValue.mem_nodes m)) (d + 1)
      exact ⟨c, more, hc, isStart_not hstart (p := fun c => c ≠ chr ']' ∧ isJwhite c = false)
        (by decide +kernel)⟩
  | object ms ih =>
    obtain ⟨hkeys, hms⟩ := GqlValue.all_object.mp hv
    have hcount := length_le_sepBy (memberText fmt d) ms
    rw [valueJson_object, List.length_cons, List.length_append, List.length_singleton] at hfuel
    obtain ⟨k, rfl⟩ : ∃ k', k = k' + 1 := ⟨k - 1, by omega⟩
    refine enclosed_value_undoes .object (valueJson_object d ms)
      (by rw [GqlValue.narrow, GqlValue.membersNarrow_eq]) (by simp [GqlValue.all_object, JsonSafe])
      (fun as h => GqlValue.forall₂_membersReadAs.mp h) (fun hi => parseValue_at hi rfl) (Or.inr rfl)
      (fun m hm => parseMember_undoes (hkeys m hm) (hms m hm _ (GqlValue.mem_nodes m.2))
        (ih m hm (hms m hm) k ?_))
      (fun m _ => ⟨chr '"', _, rfl, by decide, rfl⟩) (by omega)
    have := length_le_sepBy_of_mem (memberText fmt d) hm
    have : (valueJson fmt 0 (d + 1) m.2).length ≤ (memberText fmt d m).length := by
      rw [memberText, List.length_append]
      omega
    omega
  | float f => exact absurd ((GqlValue.all_of_nodes rfl).mp hv) not_false
  | token s e => exact absurd ((GqlValue.all_of_nodes rfl).mp hv) not_false
  | var s => exact absurd ((GqlValue.all_of_nodes rfl).mp hv) not_false

/-! ## Whole texts -/

/-- A tree of values that JSON can hold. -/
structure JsonTree (τ : Type) where
  value : GqlValue τ
  plain : value.All JsonNode

theorem gqlJsonParse_iff {w : GqlValue τ} : gqlJsonParse text = some (.ok w) ↔
    ∃ j, Reads (parseValue text (text.length + 1)) (jsonStart text) w j := by
  unfold gqlJsonParse Reads
  rw [StateT.run'_eq]
  generalize (parseValue text (text.length + 1)).run (jsonStart text) = r
  cases r with
  | none =>
    constructor
    · intro h
      cases h
    · rintro ⟨j, h⟩
      cases h
  | some r =>
    cases r with
    | error e =>
      constructor
      · intro h
        cases h
      · rintro ⟨j, h⟩
        cases h
    | ok p =>
      constructor
      · intro h
        cases h
        exact ⟨p.2, rfl⟩
      · rintro ⟨j, h⟩
        cases h
        rfl

/-- **Decoding undoes encoding exactly for the trees without an empty string, the lowest Int and the
lowest I64.** -/
theorem decode_encode_iff (fmt : FloatLit → Bytes) (t : JsonTree τ) :
    (∃ w, gqlJsonParse (valueJson fmt 0 0 t.value) = some (.ok w) ∧ t.value.ReadsAs w) ↔
      t.value.All JsonSafe := by
  have hund : Undoes (valueJson fmt 0 0 t.value) (valueJson fmt 0 0) (GqlValue.All JsonSafe)
      GqlValue.narrow GqlValue.ReadsAs (parseValue _ ((valueJson fmt 0 0 t.value).length + 1)) t.value :=
    parseValue_undoes t.plain (Nat.lt_succ_self _)
  obtain ⟨c, more, hc, hstart⟩ := valueJson_head fmt (t.plain _ (GqlValue.mem_nodes t.value)) 0
  have hbom : jsonStart (valueJson fmt 0 0 t.value) = 0 := by
    unfold jsonStart
    rw [if_neg]
    rw [hc]
    intro hpre
    have hne := isStart_not hstart (p := fun c => (0xEF : Byte) ≠ c) (by decide +kernel)
    exact hne (List.cons_prefix_cons.mp hpre).1
  have hdrop : (valueJson fmt 0 0 t.value).drop 0 = valueJson fmt 0 0 t.value ++ [] := by simp
  constructor
  · rintro ⟨w, hw, hsame⟩
    obtain ⟨j, hread⟩ := gqlJsonParse_iff.mp hw
    rw [hbom] at hread
    exact hund.good hdrop (by simp [Follow]) hread hsame
  · intro hgood
    refine ⟨t.value.narrow, gqlJsonParse_iff.mpr ?_, t.value.readsAs_narrow⟩
    rw [hbom]
    exact ⟨_, hund.reads hdrop (by simp [Follow]) hgood⟩

/-- The list of one empty string comes back with a string in it that is not empty. -/
theorem empty_string_not_decoded : ¬ ∃ w : GqlValue Unit,
    gqlJsonParse (valueJson (fun _ => []) 0 0 (.list none [.string []] : GqlValue Unit)) =
      some (.ok w) ∧ (GqlValue.list none [.string []]).ReadsAs w := by
  rintro ⟨w, hw, hsame⟩
  have hparse : gqlJsonParse (valueJson (fun _ => []) 0 0 (.list none [.string []] : GqlValue Unit)) =
      some (.ok (.list none [.string (bytes "\"]")] : GqlValue Unit)) := rfl
  rw [hparse] at hw
  obtain rfl := Except.ok.inj (Option.some.inj hw)
  exact absurd hsame.1 (by simp [GqlValue.ReadsAs, bytes])

end Json

end Agoo
