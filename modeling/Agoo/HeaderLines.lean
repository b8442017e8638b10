import Agoo.HttpHeader
import Mathlib.Data.List.GetD

/-!
# Header lines

A header as the lines it is made of. `headerValue_lines`: `agoo_con_header_value` finds the value of the
first line with that name, and the memory at that value goes on with the lines behind and the body.
-/

namespace Agoo

/-! ## Lines in memory -/

/-- A line as it is in memory: a line end is behind it and none is in it. -/
structure RawLine where
  text : Bytes
  zero_not_mem : 0 ∉ text
  ne_nil : text ≠ []
  inner : ∀ i < text.length, ¬ (at0 (text ++ crlf) i = chr '\r' ∧ at0 (text ++ crlf) (i + 1) = chr '\n')

/-- The lines, and what is in memory behind them. -/
def rawMem : List RawLine → Bytes → Bytes
  | [], t => t
  | u :: us, t => u.text ++ (crlf ++ rawMem us t)

/-- How many bytes the lines are; the last line end does not count. -/
def rawLen (us : List RawLine) : ℕ := (rawMem us []).length - 2

/-- Where the value is behind the first line that begins with the key and a colon. -/
def firstAt (key t : Bytes) : List RawLine → Option (ℕ × ℕ)
  | [] => none
  | u :: us =>
    if keyMatches key (rawMem (u :: us) t) then some (valueAfter key.length (rawMem (u :: us) t))
    else (firstAt key t us).map fun v => (u.text.length + 2 + v.1, v.2)

theorem rawLen_nil : rawLen [] = 0 := rfl

theorem rawLen_single (u : RawLine) : rawLen [u] = u.text.length := by
  unfold rawLen rawMem rawMem
  rw [List.append_nil, List.length_append]
  show u.text.length + 2 - 2 = _
  omega

theorem rawLen_cons (u : RawLine) {us : List RawLine} (h : us ≠ []) :
    rawLen (u :: us) = u.text.length + 2 + rawLen us := by
  obtain ⟨k, ks, rfl⟩ := List.exists_cons_of_ne_nil h
  unfold rawLen
  rw [rawMem, List.length_append, List.length_append]
  have hpos : 2 ≤ (rawMem (k :: ks) []).length := by
    rw [rawMem, List.length_append, List.length_append]
    show 2 ≤ _ + (2 + _)
    omega
  show u.text.length + (2 + _) - 2 = _
  omega

theorem RawLine.length_pos (u : RawLine) : 0 < u.text.length := List.length_pos_iff.mpr u.ne_nil

theorem RawLine.le_rawLen (u : RawLine) (us : List RawLine) : u.text.length ≤ rawLen (u :: us) := by
  by_cases hus : us = []
  · rw [hus, rawLen_single]
  · rw [rawLen_cons u hus]
    omega

/-- A search moves on behind the first line end. -/
theorem lineLen_inner {s : Bytes}
    (hs : ∀ i < s.length, ¬ (at0 (s ++ crlf) i = chr '\r' ∧ at0 (s ++ crlf) (i + 1) = chr '\n')) (x : Bytes)
    (n : ℕ) : lineLen n (s ++ (crlf ++ x)) = if n ≤ s.length then n else s.length + 2 := by
  induction s generalizing n with
  | nil =>
    cases n with
    | zero => rfl
    | succ n => rw [if_neg (by simp)]; rfl
  | cons c s ih =>
    cases n with
    | zero => rfl
    | succ n =>
      have hone : at0 (c :: s ++ (crlf ++ x)) 1 = at0 (c :: s ++ crlf) 1 := by
        cases s with
        | nil => rfl
        | cons d s => rfl
      have hc : ¬ (at0 (c :: s ++ (crlf ++ x)) 0 = chr '\r' ∧ at0 (c :: s ++ (crlf ++ x)) 1 = chr '\n') := by
        rw [hone]
        exact hs 0 (Nat.succ_pos _)
      have htail : ∀ i < s.length, ¬ (at0 (s ++ crlf) i = chr '\r' ∧ at0 (s ++ crlf) (i + 1) = chr '\n') :=
        fun i hi => hs (i + 1) (Nat.succ_lt_succ hi)
      rw [lineLen, if_neg hc]
      show 1 + lineLen n (s ++ (crlf ++ x)) = _
      rw [ih htail, List.length_cons]
      split_ifs <;> omega

theorem headerValueFrom_step {key m : Bytes} {hlen fuel h : ℕ} (hlt : h < hlen)
    (hkey : keyMatches key (m.drop h) = false) :
    headerValueFrom key m hlen (fuel + 1) h =
      headerValueFrom key m hlen fuel (h + lineLen (hlen - h) (m.drop h)) := by
  rw [headerValueFrom, if_neg (by omega), hkey]
  rfl

theorem headerValueFrom_end (key m : Bytes) (hlen fuel : ℕ) : headerValueFrom key m hlen fuel hlen = none := by
  cases fuel with
  | zero => rfl
  | succ fuel => rw [headerValueFrom, if_pos le_rfl]

theorem headerValueFrom_raw {key m t : Bytes} {n : ℕ} :
    ∀ (us : List RawLine) (fuel h : ℕ), m.drop h = rawMem us t → n = h + rawLen us → n ≤ h + fuel →
      headerValueFrom key m n fuel h = (firstAt key t us).map fun v => (h + v.1, v.2) := by
  intro us
  induction us with
  | nil =>
    intro fuel h _ hlen _
    rw [rawLen_nil, Nat.add_zero] at hlen
    rw [hlen]
    exact headerValueFrom_end key m h fuel
  | cons u us ih =>
    intro fuel h hmem hlen hfuel
    have hpos := u.length_pos
    have hle := u.le_rawLen us
    obtain ⟨fuel, rfl⟩ : ∃ k, fuel = k + 1 := ⟨fuel - 1, by omega⟩
    unfold firstAt
    by_cases hkey : keyMatches key (rawMem (u :: us) t) = true
    · rw [if_pos hkey, headerValueFrom, if_neg (by omega), hmem, if_pos hkey]
      rfl
    · have hbehind : m.drop (h + (u.text.length + 2)) = rawMem us t := by
        rw [← List.drop_drop, hmem, rawMem, ← List.drop_drop, List.drop_left]
        rfl
      rw [if_neg hkey, headerValueFrom_step (by omega) (hmem ▸ Bool.not_eq_true _ ▸ hkey), hmem, rawMem,
        lineLen_inner u.inner]
      by_cases hus : us = []
      · rw [hus, rawLen_single] at hlen
        rw [hus, if_pos (by omega), show h + (n - h) = n by omega]
        exact headerValueFrom_end key m n fuel
      · rw [rawLen_cons u hus] at hlen
        rw [if_neg (by omega), ih fuel _ hbehind (by omega) (by omega), Option.map_map]
        refine congrArg (fun f => Option.map f _) (funext fun v => ?_)
        show (_, _) = (_, _)
        rw [Nat.add_assoc]

/-- **`agoo_con_header_value` finds the first line that begins with the key and a colon.** -/
theorem conHeaderValue_raw (key t : Bytes) (us : List RawLine) :
    conHeaderValue (rawMem us t) (rawLen us) key = firstAt key t us := by
  unfold conHeaderValue
  rw [headerValueFrom_raw us _ 0 rfl (Nat.zero_add _).symm (Nat.le_add_left _ _)]
  simp

/-! ## Lines with a name and a value -/

/-- A name, a colon, blanks and a value. -/
structure HeaderLine where
  name : Bytes
  pad : ℕ
  value : Bytes
  name_plain : ∀ c ∈ name, c ≠ 0 ∧ c ≠ chr '\r' ∧ c ≠ chr ':'
  value_plain : ∀ c ∈ value, c ≠ 0 ∧ c ≠ chr '\r'
  value_head : value.head? ≠ some (chr ' ')

def HeaderLine.text (l : HeaderLine) : Bytes :=
  l.name ++ chr ':' :: (List.replicate l.pad (chr ' ') ++ l.value)

/-- The lines, and what is in memory behind them. -/
def headerMem : List HeaderLine → Bytes → Bytes
  | [], t => t
  | l :: ls, t => l.text ++ (crlf ++ headerMem ls t)

/-- `header.len`: the last line end does not count. -/
def headerLen (lines : List HeaderLine) : ℕ := (headerMem lines []).length - 2

/-- The same text but for the letter case. -/
def sameText (a b : Bytes) : Bool := a.map tolower == b.map tolower

/-- The first line with that name, with the lines behind it. -/
def firstLine (key : Bytes) : List HeaderLine → Option (HeaderLine × List HeaderLine)
  | [] => none
  | l :: ls => if sameText l.name key then some (l, ls) else firstLine key ls

/-- What a key has to be for the search: no NUL and no colon. -/
def PlainKey (key : Bytes) : Prop := ∀ c ∈ key, c ≠ 0 ∧ tolower c ≠ chr ':'

theorem plainName_of_all {name : Bytes} (h : name.all (fun c => c != 0 && (c != chr '\r' && c != chr ':')) = true) :
    ∀ c ∈ name, c ≠ 0 ∧ c ≠ chr '\r' ∧ c ≠ chr ':' := fun c hc => by
  simpa using List.all_eq_true.mp h c hc

theorem plainValue_of_all {value : Bytes} (h : value.all (fun c => c != 0 && c != chr '\r') = true) :
    ∀ c ∈ value, c ≠ 0 ∧ c ≠ chr '\r' := fun c hc => by
  simpa using List.all_eq_true.mp h c hc

theorem plainKey_of_all {key : Bytes} (h : key.all (fun c => c != 0 && tolower c != chr ':') = true) :
    PlainKey key := fun c hc => by simpa using List.all_eq_true.mp h c hc

theorem PlainKey.zero_not_mem {key : Bytes} (h : PlainKey key) : 0 ∉ key := fun hmem => (h 0 hmem).1 rfl

theorem headerLen_single (l : HeaderLine) : headerLen [l] = l.text.length := by
  unfold headerLen headerMem headerMem
  rw [List.append_nil, List.length_append]
  show l.text.length + 2 - 2 = _
  omega

theorem headerLen_cons (l : HeaderLine) {ls : List HeaderLine} (h : ls ≠ []) :
    headerLen (l :: ls) = l.text.length + 2 + headerLen ls := by
  obtain ⟨k, ks, rfl⟩ := List.exists_cons_of_ne_nil h
  unfold headerLen
  rw [headerMem, List.length_append, List.length_append]
  have hpos : 2 ≤ (headerMem (k :: ks) []).length := by
    rw [headerMem, List.length_append, List.length_append]
    show 2 ≤ _ + (2 + _)
    omega
  show l.text.length + (2 + _) - 2 = _
  omega

theorem HeaderLine.text_plain (l : HeaderLine) : ∀ c ∈ l.text, c ≠ 0 ∧ c ≠ chr '\r' := by
  intro c hc
  unfold HeaderLine.text at hc
  simp only [List.mem_append, List.mem_cons, List.mem_replicate] at hc
  rcases hc with hc | rfl | ⟨-, rfl⟩ | hc
  · exact ⟨(l.name_plain c hc).1, (l.name_plain c hc).2.1⟩
  · decide
  · decide
  · exact l.value_plain c hc

theorem HeaderLine.text_ne_nil (l : HeaderLine) : l.text ≠ [] := by
  unfold HeaderLine.text
  simp

/-! ## One line -/

/-- The key's line is known by its name. -/
theorem keyMatches_line {key name x : Bytes} (hkey : PlainKey key)
    (hname : ∀ c ∈ name, c ≠ 0 ∧ c ≠ chr '\r' ∧ c ≠ chr ':') :
    keyMatches key (name ++ chr ':' :: x) = sameText name key := by
  have hzero := hkey.zero_not_mem
  have hnameZero : 0 ∉ name := fun hmem => (hname 0 hmem).1 rfl
  have hcstr : cstr (name ++ chr ':' :: x) = name ++ chr ':' :: cstr x := by
    rw [cstr_append hnameZero, cstr, List.takeWhile_cons_of_pos (by decide)]
    rfl
  unfold keyMatches strncasecmp sameText
  rw [cstr_of_not_mem hzero, List.take_length, hcstr, Bool.eq_iff_iff, Bool.and_eq_true, beq_iff_eq,
    beq_iff_eq, beq_iff_eq]
  constructor
  · rintro ⟨htake, hcolon⟩
    rcases lt_trichotomy key.length name.length with hlt | heq | hgt
    · refine absurd hcolon ?_
      unfold at0
      rw [List.getD_append _ _ _ _ hlt, List.getD_eq_getElem _ _ hlt]
      exact (hname _ (List.getElem_mem hlt)).2.2
    · rw [heq, List.take_left] at htake
      exact htake.symm
    · have hmem : chr ':' ∈ (name ++ chr ':' :: cstr x).take key.length := by
        obtain ⟨k, hk⟩ := Nat.exists_eq_add_of_lt hgt
        rw [hk, Nat.add_assoc, List.take_length_add_append, List.take_succ_cons]
        exact List.mem_append_right _ List.mem_cons_self
      have hlower := List.mem_map_of_mem (f := tolower) hmem
      rw [← htake] at hlower
      obtain ⟨c, hc, hcolon⟩ := List.mem_map.mp hlower
      exact absurd hcolon (hkey c hc).2
  · intro hsame
    have hlen : name.length = key.length := by simpa using congrArg List.length hsame
    rw [← hlen, List.take_left, at0_append]
    exact ⟨hsame.symm, rfl⟩

theorem takeWhile_blanks (n : ℕ) {s : Bytes} (h : s.head? ≠ some (chr ' ')) :
    (List.replicate n (chr ' ') ++ s).takeWhile (· == chr ' ') = List.replicate n (chr ' ') := by
  rw [List.takeWhile_append_of_pos (by simp)]
  cases s with
  | nil => exact List.append_nil _
  | cons c s =>
    have hc : ¬ ((c == chr ' ') = true) := fun hc => h (congrArg some (beq_iff_eq.mp hc))
    rw [List.takeWhile_cons_of_neg (p := (· == chr ' ')) hc, List.append_nil]

theorem value_head_append (l : HeaderLine) (x : Bytes) : (l.value ++ (crlf ++ x)).head? ≠ some (chr ' ') := by
  have hhead := l.value_head
  cases hvalue : l.value with
  | nil =>
    show some (chr '\r') ≠ some (chr ' ')
    decide
  | cons c v =>
    rw [hvalue] at hhead
    exact hhead

/-- A value ends at the return. -/
theorem value_end {v : Bytes} (hv : ∀ c ∈ v, c ≠ 0 ∧ c ≠ chr '\r') (x : Bytes) :
    (cstr (v ++ (crlf ++ x))).takeWhile (· != chr '\r') = v := by
  rw [cstr_append fun hmem => (hv 0 hmem).1 rfl,
    List.takeWhile_append_of_pos fun c hc => by simpa using (hv c hc).2]
  have hnil : (cstr (crlf ++ x)).takeWhile (· != chr '\r') = [] := rfl
  rw [hnil, List.append_nil]

theorem HeaderLine.behind_colon (l : HeaderLine) (x : Bytes) :
    (l.text ++ x).drop (l.name.length + 1) = List.replicate l.pad (chr ' ') ++ (l.value ++ x) := by
  have htext : l.text ++ x = l.name ++ chr ':' :: (List.replicate l.pad (chr ' ') ++ (l.value ++ x)) := by
    unfold HeaderLine.text
    simp only [List.append_assoc, List.cons_append]
  rw [htext, ← List.drop_drop, List.drop_left]
  rfl

theorem HeaderLine.from_value (l : HeaderLine) (x : Bytes) :
    (l.text ++ x).drop (l.name.length + 1 + l.pad) = l.value ++ x := by
  rw [← List.drop_drop, l.behind_colon, List.drop_left' List.length_replicate]

/-- The blanks behind the colon are not part of the value, and a return ends it. -/
theorem valueAfter_line (l : HeaderLine) (x : Bytes) :
    valueAfter l.name.length (l.text ++ (crlf ++ x)) = (l.name.length + 1 + l.pad, l.value.length) := by
  have hblanks : ((l.text ++ (crlf ++ x)).drop (l.name.length + 1)).takeWhile (· == chr ' ') =
      List.replicate l.pad (chr ' ') := by
    rw [l.behind_colon, takeWhile_blanks l.pad (value_head_append l x)]
  unfold valueAfter
  dsimp only
  rw [hblanks, List.length_replicate, l.from_value, value_end l.value_plain]

/-! ## All lines -/

/-- The line in memory. -/
def HeaderLine.raw (l : HeaderLine) : RawLine where
  text := l.text
  zero_not_mem h := (l.text_plain 0 h).1 rfl
  ne_nil := l.text_ne_nil
  inner i hi h := by
    refine (l.text_plain l.text[i] (List.getElem_mem hi)).2 ?_
    rw [← h.1, at0, List.getD_append _ _ _ _ hi, List.getD_eq_getElem _ _ hi]

theorem rawMem_lines (ls : List HeaderLine) (t : Bytes) : rawMem (ls.map HeaderLine.raw) t = headerMem ls t := by
  induction ls with
  | nil => rfl
  | cons l ls ih =>
    show l.text ++ (crlf ++ rawMem (ls.map HeaderLine.raw) t) = _
    rw [ih]
    rfl

theorem rawLen_lines (ls : List HeaderLine) : rawLen (ls.map HeaderLine.raw) = headerLen ls := by
  unfold rawLen headerLen
  rw [rawMem_lines]

/-- What the search is to find. -/
def Finds (m t : Bytes) (found : Option (ℕ × ℕ)) : Option (HeaderLine × List HeaderLine) → Prop
  | none => found = none
  | some (l, ls) => ∃ off, found = some (off, l.value.length) ∧ m.drop off = l.value ++ (crlf ++ headerMem ls t)

/-- Something found behind `u`. -/
theorem Finds.behind {m t u : Bytes} {found : Option (ℕ × ℕ)} {line : Option (HeaderLine × List HeaderLine)}
    (h : Finds m t found line) : Finds (u ++ m) t (found.map fun v => (u.length + v.1, v.2)) line := by
  cases line with
  | none => exact (congrArg _ h).trans rfl
  | some l =>
    obtain ⟨off, hfound, hmem⟩ := h
    refine ⟨u.length + off, by rw [hfound]; rfl, ?_⟩
    rw [← List.drop_drop, List.drop_left, hmem]

theorem firstAt_lines {key : Bytes} (hkey : PlainKey key) (lines : List HeaderLine) (t : Bytes) :
    Finds (headerMem lines t) t (firstAt key t (lines.map HeaderLine.raw)) (firstLine key lines) := by
  induction lines with
  | nil => rfl
  | cons l ls ih =>
    have hmem : rawMem (l.raw :: ls.map HeaderLine.raw) t = headerMem (l :: ls) t := rawMem_lines (l :: ls) t
    have hmatch : keyMatches key (headerMem (l :: ls) t) = sameText l.name key := by
      rw [headerMem, HeaderLine.text, List.append_assoc, List.cons_append]
      exact keyMatches_line hkey l.name_plain
    rw [List.map_cons, firstAt, firstLine, hmem, hmatch]
    by_cases hsame : sameText l.name key = true
    · have hklen : key.length = l.name.length := by
        have hmap := congrArg List.length (beq_iff_eq.mp hsame)
        simpa using hmap.symm
      rw [if_pos hsame, if_pos hsame, hklen, headerMem, valueAfter_line]
      exact ⟨_, rfl, l.from_value _⟩
    · rw [if_neg hsame, if_neg hsame]
      have hbehind := ih.behind (u := l.text ++ crlf)
      rw [List.append_assoc, List.length_append] at hbehind
      exact hbehind

/-- **The value of the first line with that name is found, and memory goes on behind it as written.** -/
theorem headerValue_lines {key : Bytes} (hkey : PlainKey key) (lines : List HeaderLine) (t : Bytes) :
    Finds (headerMem lines t) t (conHeaderValue (headerMem lines t) (headerLen lines) key)
      (firstLine key lines) := by
  rw [← rawMem_lines, ← rawLen_lines, conHeaderValue_raw, rawMem_lines]
  exact firstAt_lines hkey lines t

end Agoo
