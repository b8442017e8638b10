import Agoo.ConHeader

/-!
# The request line (`con_header_read`)

The request line is what is before the first line end; it is split at blanks into method, target and
protocol, and the target at its first question mark. `con_header_read` looks for blanks and for the last
question mark, and takes the protocol up to a return.

`split_iff`: it splits the line as written exactly when the line has three words, no return or newline in
it and no blank at its end, and the target has at most one question mark.
-/

namespace Agoo

/-! ## The law -/

/-- No blank. -/
def notBlank (c : Byte) : Bool := c != chr ' '

def isBlank (c : Byte) : Bool := c == chr ' '

/-- What is before the first line end of the C string. -/
def requestLine (m : Bytes) : Bytes := m.take ((strstr m crlf).getD 0)

/-- A byte before the first word. -/
def consWord (c : Byte) : List Bytes → List Bytes
  | [] => [[c]]
  | w :: ws => (c :: w) :: ws

/-- The words between blanks. -/
def words : Bytes → List Bytes
  | [] => []
  | c :: s =>
    if c = chr ' ' then words s
    else if s.head?.all isBlank then [c] :: words s
    else consWord c (words s)

/-- The bytes of the buffer that it is about. -/
def Slice.text (s : Slice) (m : Bytes) : Bytes := (m.drop s.off).take s.len

/-- The request line is split into the method, the target `t` and the protocol `p`. -/
structure SplitAsWritten (m : Bytes) (r : HeadReq) (t p : Bytes) : Prop where
  words : words (requestLine m) = [r.method.text, t, p]
  path : r.path.text m = t.takeWhile (· != chr '?')
  query : r.query.text m = (t.dropWhile (· != chr '?')).drop 1
  protocol : r.protocol.text m = p
  plain : ∀ s ∈ [r.path, r.query, r.protocol], ∀ c ∈ s.text m, c ≠ chr '\r' ∧ c ≠ chr '\n'
  within : ∀ s ∈ [r.path, r.query, r.protocol], s.off + s.len ≤ (requestLine m).length

/-- Three words, no return or newline, no blank at the end, and at most one question mark in the target. -/
structure PlainLine (line : Bytes) : Prop where
  plain : ∀ c ∈ line, c ≠ chr '\r' ∧ c ≠ chr '\n'
  last : line.getLast? ≠ some (chr ' ')
  words : ∃ w t p, words line = [w, t, p] ∧ t.count (chr '?') ≤ 1

/-! ## Words -/

theorem words_blanks {a : Bytes} (h : ∀ c ∈ a, isBlank c = true) (s : Bytes) : words (a ++ s) = words s := by
  induction a with
  | nil => rfl
  | cons c a ih =>
    rw [List.cons_append, words, if_pos (beq_iff_eq.mp (h c List.mem_cons_self))]
    exact ih fun c hc => h c (List.mem_cons_of_mem _ hc)

theorem words_word {w s : Bytes} (hw : w ≠ []) (h : ∀ c ∈ w, notBlank c = true)
    (hs : s.head?.all isBlank = true) : words (w ++ s) = w :: words s := by
  induction w with
  | nil => exact absurd rfl hw
  | cons c w ih =>
    have hc : c ≠ chr ' ' := by simpa [notBlank] using h c List.mem_cons_self
    rw [List.cons_append, words, if_neg hc]
    cases w with
    | nil => rw [List.nil_append, if_pos hs]
    | cons d w =>
      have hd : notBlank d = true := h d (List.mem_cons_of_mem _ List.mem_cons_self)
      have hhead : ¬ ((d :: w ++ s).head?.all isBlank = true) := by
        simpa [isBlank, notBlank] using hd
      rw [if_neg hhead, ih (List.cons_ne_nil _ _) fun c hc => h c (List.mem_cons_of_mem _ hc)]
      rfl

/-- The blanks before it do not count. -/
theorem words_dropWhile (s : Bytes) : words s = words (s.dropWhile isBlank) := by
  conv_lhs => rw [← List.takeWhile_append_dropWhile (p := isBlank) (l := s)]
  exact words_blanks (fun c hc => List.mem_takeWhile_imp hc) _

theorem head_dropWhile_notBlank (s : Bytes) : (s.dropWhile notBlank).head?.all isBlank = true := by
  have h := List.head?_dropWhile_not notBlank s
  cases hd : (s.dropWhile notBlank).head? with
  | none => rfl
  | some c =>
    rw [hd] at h
    have h : notBlank c = false := h
    simpa [isBlank, notBlank] using h

/-- What does not begin with a blank begins with its first word. -/
theorem words_first {s : Bytes} (hs : s ≠ []) (h : ∀ c ∈ s.head?, notBlank c = true) :
    words s = s.takeWhile notBlank :: words (s.dropWhile notBlank) := by
  conv_lhs => rw [← List.takeWhile_append_dropWhile (p := notBlank) (l := s)]
  refine words_word ?_ (fun c hc => List.mem_takeWhile_imp hc) (head_dropWhile_notBlank s)
  obtain ⟨c, rest, rfl⟩ := List.exists_cons_of_ne_nil hs
  rw [List.takeWhile_cons_of_pos (h c rfl)]
  exact List.cons_ne_nil _ _

theorem head_dropWhile_isBlank (s : Bytes) : ∀ c ∈ (s.dropWhile isBlank).head?, notBlank c = true := by
  intro c hc
  have h := List.head?_dropWhile_not isBlank s
  rw [hc] at h
  have h : isBlank c = false := h
  simpa [isBlank, notBlank] using h

theorem words_eq_nil {s : Bytes} (h : words s = []) : s.dropWhile isBlank = [] := by
  by_contra hne
  rw [words_dropWhile, words_first hne (head_dropWhile_isBlank s)] at h
  cases h

/-! ## The scans -/

theorem wordLen_split {m : Bytes} {n : ℕ} (h : wordLen m = some n) :
    ∃ u v, m = u ++ chr ' ' :: v ∧ u.length = n ∧ ∀ c ∈ u, notBlank c = true := by
  unfold wordLen at h
  dsimp only at h
  split_ifs at h with hblank
  obtain rfl := Option.some.inj h
  obtain ⟨v, hv⟩ := (List.takeWhile_prefix (l := cstr m) notBlank).trans (cstr_isPre m)
  have hword : (cstr m).takeWhile (· != chr ' ') = (cstr m).takeWhile notBlank := rfl
  have hplain : ∀ c ∈ (cstr m).takeWhile notBlank, notBlank c = true := fun c hc => List.mem_takeWhile_imp hc
  rw [hword] at hblank ⊢
  generalize (cstr m).takeWhile notBlank = u at *
  have hhead : at0 v 0 = chr ' ' := by
    rw [← hv, at0, List.getD_append_right _ _ _ _ (Nat.le_refl _), Nat.sub_self] at hblank
    exact hblank
  cases v with
  | nil => cases hhead
  | cons c v =>
    have hc : c = chr ' ' := hhead
    exact ⟨u, v, by rw [← hv, hc], rfl, hplain⟩

/-- A line's blank comes first, or the line ends before it. -/
theorem split_first {line rest u v : Bytes} (h : line ++ chr '\r' :: rest = u ++ chr ' ' :: v) :
    (∃ s, line = u ++ chr ' ' :: s ∧ v = s ++ chr '\r' :: rest) ∨ ∃ s, u = line ++ chr '\r' :: s := by
  rcases List.append_eq_append_iff.mp h with ⟨c, hu, hc⟩ | ⟨c, hline, hc⟩
  · cases c with
    | nil => cases (List.cons.inj hc).1
    | cons x c =>
      obtain rfl := (List.cons.inj hc).1
      exact Or.inr ⟨c, hu⟩
  · cases c with
    | nil => cases (List.cons.inj hc).1
    | cons x c =>
      obtain ⟨rfl, hv⟩ := List.cons.inj hc
      exact Or.inl ⟨c, hline, hv⟩

theorem takeWhile_isBlank (s rest : Bytes) :
    (s ++ chr '\r' :: rest).takeWhile isBlank = s.takeWhile isBlank := by
  rw [List.takeWhile_append]
  split_ifs with hall
  · rw [List.takeWhile_cons_of_neg (by decide), List.append_nil]
    exact (List.takeWhile_prefix _).eq_of_length hall |>.symm
  · rfl

/-- Behind the blanks of a line is what is behind its blanks. -/
theorem drop_blanks (s rest : Bytes) : blanks (s ++ chr '\r' :: rest) = (s.takeWhile isBlank).length ∧
    (s ++ chr '\r' :: rest).drop (blanks (s ++ chr '\r' :: rest)) =
      s.dropWhile isBlank ++ chr '\r' :: rest := by
  have hblanks : blanks (s ++ chr '\r' :: rest) = (s.takeWhile isBlank).length :=
    congrArg List.length (takeWhile_isBlank s rest)
  refine ⟨hblanks, ?_⟩
  rw [hblanks, List.drop_append_of_le_length (List.takeWhile_prefix _).length_le]
  have hs := List.takeWhile_append_dropWhile (p := isBlank) (l := s)
  have hdrop : s.drop (s.takeWhile isBlank).length = s.dropWhile isBlank := by
    conv_lhs => arg 2; rw [← hs]
    exact List.drop_left
  rw [hdrop]

/-- The request line ends at a line end, before any NUL. -/
theorem requestLine_split {m : Bytes} {e : ℕ} (h : strstr m (crlf ++ crlf) = some e) :
    ∃ rest, m = requestLine m ++ chr '\r' :: rest := by
  obtain ⟨he, hpre, -⟩ := find_eq_some_iff.mp h
  cases hline : strstr m crlf with
  | none =>
    exact absurd ((List.prefix_append _ _).trans hpre) (find_eq_none_iff.mp hline e he)
  | some j =>
    obtain ⟨hj, ⟨t, ht⟩, -⟩ := find_eq_some_iff.mp hline
    obtain ⟨rest, hrest⟩ := cstr_isPre m
    refine ⟨chr '\n' :: (t ++ rest), ?_⟩
    have htake : requestLine m = (cstr m).take j := by
      unfold requestLine
      rw [hline, Option.getD_some]
      conv_lhs => rw [← hrest]
      exact List.take_append_of_le_length hj
    calc m = (cstr m).take j ++ (cstr m).drop j ++ rest := by rw [List.take_append_drop, hrest]
      _ = requestLine m ++ chr '\r' :: chr '\n' :: (t ++ rest) := by
        rw [← ht, htake, List.append_assoc]
        rfl

theorem isMethod_prefix {m : Bytes} {n : ℕ} {method : Method} (h : isMethod m n method = true) :
    n = method.text.length ∧ method.text <+: m := by
  unfold isMethod at h
  rw [Bool.and_eq_true, beq_iff_eq] at h
  refine ⟨h.1, ?_⟩
  have hcstr : cstr method.text = method.text := by cases method <;> rfl
  have htake : method.text = (cstr m).take method.text.length := by
    have hcmp := beq_iff_eq.mp h.2
    rwa [hcstr, List.take_length] at hcmp
  rw [htake]
  exact (List.take_prefix _ _).trans (cstr_isPre m)

theorem headMethod_isMethod {m : Bytes} {n : ℕ} {method : Method} (h : headMethod m n = some method) :
    isMethod m n method = true ∧ method ≠ .all := by
  unfold headMethod at h
  dsimp only at h
  split_ifs at h with h1 h2 h3 h4 h5 h6 h7 h8 h9 h10 h11 h12 h13 h14 <;>
    (obtain rfl := Option.some.inj h; exact ⟨by assumption, by decide⟩)

/-- The name of a method is a word. -/
theorem method_text_plain {method : Method} (h : method ≠ .all) : method.text ≠ [] ∧
    ∀ c ∈ method.text, notBlank c = true ∧ c ≠ chr '\r' ∧ c ≠ chr '\n' := by
  have hall : method.text ≠ [] ∧
      method.text.all (fun c => notBlank c && (c != chr '\r' && c != chr '\n')) = true := by
    cases method with
    | all => exact absurd rfl h
    | _ => exact ⟨List.cons_ne_nil _ _, rfl⟩
  refine ⟨hall.1, fun c hc => ?_⟩
  simpa using List.all_eq_true.mp hall.2 c hc

/-! ## The line that was accepted -/

/-- The parts of an accepted line: blanks, the target `t`, blanks and the rest `s`. -/
structure Parts (m : Bytes) (method : Method) (b1 t b2 s rest : Bytes) : Prop where
  line : requestLine m = method.text ++ b1 ++ t ++ b2 ++ s
  mem : m = method.text ++ b1 ++ t ++ b2 ++ s ++ chr '\r' :: rest
  known : method ≠ .all
  blank1 : ∀ c ∈ b1, isBlank c = true
  target : ∀ c ∈ t, notBlank c = true
  blank2 : ∀ c ∈ b2, isBlank c = true
  head : ∀ c ∈ s.head?, notBlank c = true
  words : words (requestLine m) = method.text :: t :: words s
  start : targetStart m = (method.text ++ b1).length
  stop : targetEnd m = (method.text ++ b1 ++ t).length
  proto : protoStart m (targetEnd m) = (method.text ++ b1 ++ t ++ b2).length

/-- An accepted line has two words at most, or a target that ends in it. -/
theorem line_parts {b : HeadBuf} {r : HeadReq} {clen n k : ℕ} (h : Accepted b r clen n k) :
    (words (requestLine b.mem)).length ≤ 2 ∨
      ∃ b1 t b2 s rest, Parts b.mem r.method b1 t b2 s rest := by
  obtain ⟨rest, hmem⟩ := requestLine_split h.hend
  obtain ⟨hmethod, hall⟩ := headMethod_isMethod h.method
  obtain ⟨hne, hplain⟩ := method_text_plain hall
  obtain ⟨hn, hpre⟩ := isMethod_prefix hmethod
  -- the first blank is in the line, since the method has no return
  obtain ⟨u, v, hu, hlen, -⟩ := wordLen_split h.word
  obtain rfl : u = r.method.text := by
    refine (List.prefix_of_prefix_length_le ⟨_, hu.symm⟩ hpre ?_).eq_of_length ?_ <;> omega
  obtain ⟨s1, hline, rfl⟩ | ⟨s1, hs1⟩ := split_first (hmem.symm.trans hu)
  swap
  · exact absurd rfl (hplain (chr '\r') (by rw [hs1]; simp)).2.1
  have hfirst : words (requestLine b.mem) =
      r.method.text :: words ((chr ' ' :: s1).dropWhile isBlank) := by
    rw [hline, words_word hne (fun c hc => (hplain c hc).1) rfl, ← words_dropWhile]
  obtain ⟨hblanks, hdrop⟩ := drop_blanks (chr ' ' :: s1) rest
  have hafter : b.mem.drop n = chr ' ' :: s1 ++ chr '\r' :: rest := by
    rw [hu, ← hlen, List.drop_left]
    rfl
  have hstart : targetStart b.mem = (r.method.text ++ (chr ' ' :: s1).takeWhile isBlank).length := by
    rw [h.start, hafter, hblanks, List.length_append, hlen]
  have htarget : b.mem.drop (targetStart b.mem) =
      (chr ' ' :: s1).dropWhile isBlank ++ chr '\r' :: rest := by
    rw [h.start, ← List.drop_drop, hafter, hdrop]
  have hsplit1 := List.takeWhile_append_dropWhile (p := isBlank) (l := chr ' ' :: s1)
  have hhead1 := head_dropWhile_isBlank (chr ' ' :: s1)
  have hblank1 : ∀ c ∈ (chr ' ' :: s1).takeWhile isBlank, isBlank c = true := fun c hc =>
    List.mem_takeWhile_imp hc
  generalize (chr ' ' :: s1).takeWhile isBlank = b1 at *
  generalize hs2 : (chr ' ' :: s1).dropWhile isBlank = s2 at *
  obtain ⟨t, v2, ht, hk, hword⟩ := wordLen_split h.target
  obtain ⟨s3, rfl, rfl⟩ | ⟨s3, hs3⟩ := split_first (htarget.symm.trans ht)
  · right
    obtain ⟨hblanks', hdrop'⟩ := drop_blanks (chr ' ' :: s3) rest
    have hstop : targetEnd b.mem = (r.method.text ++ b1 ++ t).length := by
      rw [h.stop, hstart, ← hk, ← List.length_append]
    have hend : b.mem.drop (targetEnd b.mem) = chr ' ' :: s3 ++ chr '\r' :: rest := by
      rw [h.stop, ← List.drop_drop, htarget, ← hk, List.append_assoc, List.drop_left]
    have hproto : protoStart b.mem (targetEnd b.mem) =
        (r.method.text ++ b1 ++ t ++ (chr ' ' :: s3).takeWhile isBlank).length := by
      unfold protoStart
      rw [hend, hblanks', hstop, ← List.length_append]
    have hsplit2 := List.takeWhile_append_dropWhile (p := isBlank) (l := chr ' ' :: s3)
    have hne2 : t ≠ [] := by
      rintro rfl
      exact absurd (hhead1 (chr ' ') rfl) (by decide)
    have hsecond : words (t ++ chr ' ' :: s3) = t :: words ((chr ' ' :: s3).dropWhile isBlank) := by
      rw [words_word hne2 hword rfl, ← words_dropWhile]
    have hwhole : requestLine b.mem = r.method.text ++ b1 ++ t ++ (chr ' ' :: s3).takeWhile isBlank ++
        (chr ' ' :: s3).dropWhile isBlank := by
      rw [hline, ← hsplit1, List.append_assoc _ _ ((chr ' ' :: s3).dropWhile isBlank), hsplit2]
      simp only [List.append_assoc]
    exact ⟨b1, t, _, _, rest, {
      line := hwhole
      mem := by rw [← hwhole]; exact hmem
      known := hall
      blank1 := hblank1
      target := hword
      blank2 := fun c hc => List.mem_takeWhile_imp hc
      head := head_dropWhile_isBlank _
      words := by rw [hfirst, hsecond]
      start := hstart
      stop := hstop
      proto := hproto }⟩
  · left
    -- the rest of the line is one word, or nothing
    rw [hfirst]
    cases s2 with
    | nil => exact Nat.le_succ _
    | cons c s2 =>
      have hall : ∀ x ∈ c :: s2, notBlank x = true := fun x hx =>
        hword x (by rw [hs3]; exact List.mem_append_left _ hx)
      have hone := words_word (List.cons_ne_nil c s2) hall (s := []) rfl
      rw [List.append_nil] at hone
      rw [hone]
      exact Nat.le_refl _

/-! ## The slices -/

variable {m : Bytes} {method : Method} {b1 t b2 s rest : Bytes}

theorem drop_mark (a z : Bytes) (c : Byte) : (a ++ c :: z).drop (a.length + 1) = z := by
  rw [← List.drop_drop, List.drop_left]
  rfl

/-- Where the code cuts the target. -/
def cutPath (t : Bytes) : Bytes := t.take ((lastIndex (chr '?') t).getD t.length)

def cutQuery (t : Bytes) : Bytes := ((lastIndex (chr '?') t).map fun i => t.drop (i + 1)).getD []

theorem takeWhile_notMark {a : Bytes} (h : chr '?' ∉ a) (z : Bytes) :
    (a ++ z).takeWhile (· != chr '?') = a ++ z.takeWhile (· != chr '?') := by
  refine List.takeWhile_append_of_pos fun x hx => ?_
  have hne : x ≠ chr '?' := fun he => h (he ▸ hx)
  simpa using hne

/-- The last question mark is the first one exactly when there is one at most; then the query is right
too. -/
theorem cut_iff (t : Bytes) : cutPath t = t.takeWhile (· != chr '?') ↔ t.count (chr '?') ≤ 1 := by
  unfold cutPath
  cases h : lastIndex (chr '?') t with
  | none =>
    have hno := lastIndex_none h
    have hall := takeWhile_notMark hno []
    rw [List.append_nil] at hall
    rw [hall]
    simp [List.count_eq_zero_of_not_mem hno]
  | some i =>
    obtain ⟨a, z, rfl, rfl, hz⟩ := lastIndex_some h
    have hcount : (a ++ chr '?' :: z).count (chr '?') = a.count (chr '?') + 1 := by
      rw [List.count_append, List.count_cons_self, List.count_eq_zero_of_not_mem hz]
    rw [hcount, Option.getD_some, List.take_left]
    constructor
    · intro heq
      have hno : chr '?' ∉ a := by
        rw [heq]
        intro hmem
        simpa using List.mem_takeWhile_imp hmem
      rw [List.count_eq_zero_of_not_mem hno]
    · intro hle
      have hno : chr '?' ∉ a := List.count_eq_zero.mp (by omega)
      rw [takeWhile_notMark hno, List.takeWhile_cons_of_neg (by decide), List.append_nil]

theorem cutQuery_eq {t : Bytes} (h : t.count (chr '?') ≤ 1) :
    cutQuery t = (t.dropWhile (· != chr '?')).drop 1 := by
  have hsplit := List.takeWhile_append_dropWhile (p := (· != chr '?')) (l := t)
  have hpath := (cut_iff t).mpr h
  unfold cutPath at hpath
  unfold cutQuery
  cases hlast : lastIndex (chr '?') t with
  | none =>
    rw [hlast, Option.getD_none, List.take_length] at hpath
    rw [← hpath] at hsplit
    have hnil : t.dropWhile (· != chr '?') = [] := List.append_right_eq_self.mp hsplit
    rw [hnil]
    rfl
  | some i =>
    obtain ⟨a, z, rfl, rfl, hz⟩ := lastIndex_some hlast
    rw [hlast, Option.getD_some, List.take_left] at hpath
    rw [← hpath] at hsplit
    have hrest := List.append_cancel_left hsplit
    rw [hrest, Option.map_some, Option.getD_some, drop_mark]
    rfl

theorem mem_of_mem_cutQuery {t : Bytes} {c : Byte} (h : c ∈ cutQuery t) : c ∈ t := by
  unfold cutQuery at h
  cases hlast : lastIndex (chr '?') t with
  | none =>
    rw [hlast] at h
    cases h
  | some i =>
    rw [hlast] at h
    exact List.mem_of_mem_drop h

/-- Every byte of the target is in one of the parts, or a question mark. -/
theorem mem_cut {t : Bytes} {c : Byte} (h : c ∈ t) : c ∈ cutPath t ∨ c ∈ cutQuery t ∨ c = chr '?' := by
  unfold cutPath cutQuery
  cases hlast : lastIndex (chr '?') t with
  | none =>
    rw [Option.getD_none, List.take_length]
    exact Or.inl h
  | some i =>
    obtain ⟨a, z, rfl, rfl, -⟩ := lastIndex_some hlast
    rw [Option.getD_some, List.take_left, Option.map_some, Option.getD_some, drop_mark]
    rcases List.mem_append.mp h with h | h
    · exact Or.inl h
    · rcases List.mem_cons.mp h with h | h
      · exact Or.inr (Or.inr h)
      · exact Or.inr (Or.inl h)

variable {m : Bytes} {method : Method} {b1 t b2 s rest : Bytes}

theorem Parts.drop_start (h : Parts m method b1 t b2 s rest) :
    m.drop (targetStart m) = t ++ (b2 ++ s ++ chr '\r' :: rest) := by
  conv_lhs => arg 2; rw [h.mem]
  rw [h.start]
  simp only [List.append_assoc]
  rw [← List.append_assoc method.text, List.drop_left]

theorem Parts.drop_proto (h : Parts m method b1 t b2 s rest) :
    m.drop (protoStart m (targetEnd m)) = s ++ chr '\r' :: rest := by
  conv_lhs => arg 2; rw [h.mem]
  rw [h.proto, List.append_assoc (method.text ++ b1 ++ t ++ b2), List.drop_left]

theorem Parts.path_text (h : Parts m method b1 t b2 s rest) :
    (⟨.msg, targetStart m, pathLen m (targetStart m) t.length⟩ : Slice).text m = cutPath t := by
  unfold Slice.text pathLen cutPath
  rw [h.drop_start, List.take_left]
  refine List.take_append_of_le_length ?_
  cases hlast : lastIndex (chr '?') t with
  | none => exact Nat.le_refl _
  | some i =>
    obtain ⟨a, z, rfl, rfl, -⟩ := lastIndex_some hlast
    simp

theorem Parts.query_text (h : Parts m method b1 t b2 s rest) :
    (⟨.msg, queryStart m (targetStart m) t.length,
      targetStart m + t.length - queryStart m (targetStart m) t.length⟩ : Slice).text m = cutQuery t := by
  unfold Slice.text queryStart cutQuery
  rw [h.drop_start, List.take_left]
  cases hlast : lastIndex (chr '?') t with
  | none =>
    rw [Option.map_none, Option.getD_none, Nat.sub_self]
    exact List.take_zero
  | some i =>
    have hlt : i < t.length := by
      obtain ⟨a, z, rfl, rfl, -⟩ := lastIndex_some hlast
      simp
    rw [Option.map_some, Option.getD_some]
    dsimp only
    rw [Nat.add_assoc, ← List.drop_drop, h.drop_start, List.drop_append_of_le_length (by omega),
      List.take_append_of_le_length (by rw [List.length_drop]; omega), List.take_of_length_le]
    · rfl
    · rw [List.length_drop]
      omega

theorem Parts.protocol_len (h : Parts m method b1 t b2 s rest) :
    protoLen m (targetEnd m) = (s.takeWhile (· != chr '\r')).length := by
  unfold protoLen
  rw [h.drop_proto, List.takeWhile_append]
  split_ifs with hall
  · rw [List.takeWhile_cons_of_neg (by decide), List.append_nil, hall]
  · rfl

theorem Parts.protocol_text (h : Parts m method b1 t b2 s rest) :
    (⟨.buf, protoStart m (targetEnd m), protoLen m (targetEnd m)⟩ : Slice).text m =
      s.takeWhile (· != chr '\r') := by
  unfold Slice.text
  dsimp only
  rw [h.drop_proto, h.protocol_len, List.take_append_of_le_length (List.takeWhile_prefix _).length_le]
  exact (List.prefix_iff_eq_take.mp (List.takeWhile_prefix _)).symm

/-! ## The split -/

/-- The last word of a line, with what is behind it. -/
theorem words_single {s p : Bytes} (h : words s = [p]) (hs : ∀ c ∈ s.head?, notBlank c = true) :
    ∃ d, s = p ++ d ∧ p ≠ [] ∧ (∀ c ∈ p, notBlank c = true) ∧ ∀ c ∈ d, isBlank c = true := by
  have hne : s ≠ [] := by
    rintro rfl
    cases h
  rw [words_first hne hs] at h
  obtain ⟨rfl, hrest⟩ := List.cons.inj h
  refine ⟨s.dropWhile notBlank, List.takeWhile_append_dropWhile.symm, ?_, fun c hc => List.mem_takeWhile_imp hc, ?_⟩
  · obtain ⟨c, rest, rfl⟩ := List.exists_cons_of_ne_nil hne
    rw [List.takeWhile_cons_of_pos (hs c rfl)]
    exact List.cons_ne_nil _ _
  · exact List.dropWhile_eq_nil_iff.mp (words_eq_nil hrest)

/-- A protocol that is the last word has nothing behind it. -/
theorem protocol_word {p d : Bytes} (hp : ∀ c ∈ p, c ≠ chr '\r') (hd : ∀ c ∈ d, isBlank c = true)
    (h : (p ++ d).takeWhile (· != chr '\r') = p) : d = [] := by
  rw [List.takeWhile_append_of_pos fun c hc => by simpa using hp c hc] at h
  have hnil := List.append_right_eq_self.mp h
  cases d with
  | nil => rfl
  | cons c d =>
    have hc : c = chr ' ' := by simpa [isBlank] using hd c List.mem_cons_self
    rw [List.takeWhile_cons_of_pos (by rw [hc]; decide)] at hnil
    cases hnil

/-- **The request line is split as written exactly when it has three words, no return or newline in it and
no blank at its end, and at most one question mark in its target.** -/
theorem split_iff {env : HeadEnv} {b : HeadBuf} {r : HeadReq} (h : conHeaderRead env b = .ok r) :
    (∃ t p, SplitAsWritten b.mem r t p) ↔ PlainLine (requestLine b.mem) := by
  obtain ⟨clen, n, k, hacc⟩ := conHeaderRead_ok h
  rcases line_parts hacc with htwo | ⟨b1, t, b2, s, rest, hparts⟩
  · constructor
    · rintro ⟨t, p, hsplit⟩
      rw [hsplit.words] at htwo
      exact absurd htwo (Nat.not_succ_le_self 2)
    · rintro ⟨-, -, w, t, p, hwords, -⟩
      rw [hwords] at htwo
      exact absurd htwo (Nat.not_succ_le_self 2)
  obtain rfl : k = t.length := by
    have hstop := hparts.stop
    have hstart := hparts.start
    rw [hacc.stop, hstart, @List.length_append _ _ t] at hstop
    exact Nat.add_left_cancel hstop
  have hpath : r.path = ⟨.msg, targetStart b.mem, pathLen b.mem (targetStart b.mem) t.length⟩ :=
    congrArg HeadReq.path hacc.made
  have hquery : r.query = ⟨.msg, queryStart b.mem (targetStart b.mem) t.length,
      targetStart b.mem + t.length - queryStart b.mem (targetStart b.mem) t.length⟩ :=
    congrArg HeadReq.query hacc.made
  have hprotocol : r.protocol = ⟨.buf, protoStart b.mem (targetEnd b.mem), protoLen b.mem (targetEnd b.mem)⟩ := by
    rw [hacc.stop]
    exact congrArg HeadReq.protocol hacc.made
  have hpathText : r.path.text b.mem = cutPath t := by rw [hpath, hparts.path_text]
  have hqueryText : r.query.text b.mem = cutQuery t := by rw [hquery, hparts.query_text]
  have hprotocolText : r.protocol.text b.mem = s.takeWhile (· != chr '\r') := by
    rw [hprotocol, hparts.protocol_text]
  have htext := method_text_plain hparts.known
  have hblank : ∀ c, isBlank c = true → c ≠ chr '\r' ∧ c ≠ chr '\n' := by
    intro c hc
    obtain rfl : c = chr ' ' := by simpa [isBlank] using hc
    decide
  constructor
  · rintro ⟨t', p, hsplit⟩
    have hwords := hparts.words.symm.trans hsplit.words
    obtain ⟨rfl, hs⟩ := List.cons.inj (List.cons.inj hwords).2
    obtain ⟨d, rfl, hne, hword, hd⟩ := words_single hs hparts.head
    have hprot := hprotocolText.symm.trans hsplit.protocol
    have hplainText : ∀ c ∈ p, c ≠ chr '\r' ∧ c ≠ chr '\n' := by
      intro c hc
      exact hsplit.plain r.protocol (by simp) c (by rw [hsplit.protocol]; exact hc)
    obtain rfl := protocol_word (fun c hc => (hplainText c hc).1) hd hprot
    refine ⟨fun c hc => ?_, ?_, _, _, _, hsplit.words, (cut_iff t).mp (hpathText.symm.trans hsplit.path)⟩
    · rw [hparts.line, List.append_nil] at hc
      simp only [List.mem_append] at hc
      rcases hc with (((hc | hc) | hc) | hc) | hc
      · exact (htext.2 c hc).2
      · exact hblank c (hparts.blank1 c hc)
      · rcases mem_cut hc with hc | hc | rfl
        · exact hsplit.plain r.path (by simp) c (by rw [hpathText]; exact hc)
        · exact hsplit.plain r.query (by simp) c (by rw [hqueryText]; exact hc)
        · decide
      · exact hblank c (hparts.blank2 c hc)
      · exact hplainText c hc
    · rw [hparts.line, List.append_nil, List.getLast?_append_of_ne_nil _ hne]
      intro hlast
      exact absurd (hword _ (List.mem_of_getLast? hlast)) (by decide)
  · rintro ⟨hplain, hlast, w, t', p, hwords, hcount⟩
    have hwords := hparts.words.symm.trans hwords
    obtain ⟨rfl, hs⟩ := List.cons.inj (List.cons.inj hwords).2
    obtain ⟨d, rfl, hne, hword, hd⟩ := words_single hs hparts.head
    obtain rfl : d = [] := by
      by_contra hnil
      rw [hparts.line, ← List.append_assoc, List.getLast?_append_of_ne_nil _ hnil,
        List.getLast?_eq_some_getLast hnil] at hlast
      have hb := hd _ (List.getLast_mem hnil)
      exact hlast (congrArg some (by simpa [isBlank] using hb))
    rw [List.append_nil] at hparts hprotocolText hs
    have hmem : ∀ c, c ∈ t ∨ c ∈ p → c ∈ requestLine b.mem := by
      intro c hc
      rw [hparts.line]
      rcases hc with hc | hc
      · exact List.mem_append_left _ (List.mem_append_left _ (List.mem_append_right _ hc))
      · exact List.mem_append_right _ hc
    have hlen : (requestLine b.mem).length = protoStart b.mem (targetEnd b.mem) + p.length := by
      rw [hparts.line, hparts.proto, ← List.length_append]
    have hprot : p.takeWhile (· != chr '\r') = p := by
      refine List.takeWhile_eq_self_iff.mpr fun c hc => ?_
      simpa using (hplain c (hmem c (Or.inr hc))).1
    rw [hprot] at hprotocolText
    have hstop : targetEnd b.mem = targetStart b.mem + t.length := hacc.stop
    have hproto : targetEnd b.mem ≤ protoStart b.mem (targetEnd b.mem) := Nat.le_add_right _ _
    refine ⟨t, p, hparts.words.trans (by rw [hs]), hpathText.trans ((cut_iff t).mpr hcount),
      hqueryText.trans (cutQuery_eq hcount), hprotocolText, ?_, ?_⟩
    · intro x hx c hc
      simp only [List.mem_cons, List.not_mem_nil, or_false] at hx
      refine hplain c (hmem c ?_)
      rcases hx with rfl | rfl | rfl
      · rw [hpathText] at hc
        exact Or.inl (List.mem_of_mem_take hc)
      · rw [hqueryText] at hc
        exact Or.inl (mem_of_mem_cutQuery hc)
      · rw [hprotocolText] at hc
        exact Or.inr hc
    · intro x hx
      simp only [List.mem_cons, List.not_mem_nil, or_false] at hx
      obtain ⟨hpathLen, hqueryLen⟩ := target_parts b.mem (targetStart b.mem) t.length
      rcases hx with rfl | rfl | rfl
      · rw [hpath]
        dsimp only
        omega
      · rw [hquery]
        dsimp only
        omega
      · rw [hprotocol]
        dsimp only
        rw [hlen, hparts.protocol_len, hprot]

def getText : Bytes := bytes "GET /a?b HTTP/1.1\r\n\r\n"

theorem getText_length : getText.length ≤ 8191 := by decide

def getBuf : HeadBuf := .ofText getText getText_length

theorem getBuf_read : ∃ r, conHeaderRead openEnv getBuf = .ok r := ⟨_, rfl⟩

theorem getBuf_line : requestLine getBuf.mem = bytes "GET /a?b HTTP/1.1" := by decide

theorem getLine_plain : PlainLine (bytes "GET /a?b HTTP/1.1") := by
  have hall : (bytes "GET /a?b HTTP/1.1").all (fun c => c != chr '\r' && c != chr '\n') = true := rfl
  refine ⟨fun c hc => ?_, by decide, bytes "GET", bytes "/a?b", bytes "HTTP/1.1", by decide, by decide⟩
  simpa using List.all_eq_true.mp hall c hc

/-- A target with one question mark. -/
theorem get_split : ∃ r, conHeaderRead openEnv getBuf = .ok r ∧ ∃ t p, SplitAsWritten getBuf.mem r t p := by
  obtain ⟨r, hread⟩ := getBuf_read
  refine ⟨r, hread, (split_iff hread).mpr ?_⟩
  rw [getBuf_line]
  exact getLine_plain

def marksText : Bytes := bytes "GET /a?b?c HTTP/1.1\r\n\r\n"

theorem marksText_length : marksText.length ≤ 8191 := by decide

def marksBuf : HeadBuf := .ofText marksText marksText_length

theorem marksBuf_read : ∃ r, conHeaderRead openEnv marksBuf = .ok r ∧ r.method = .get ∧
    r.path.text marksBuf.mem = bytes "/a?b" := ⟨_, rfl, rfl, rfl⟩

theorem marksBuf_line : words (requestLine marksBuf.mem) = [bytes "GET", bytes "/a?b?c", bytes "HTTP/1.1"] := by
  decide

/-- The path is cut at the last of two question marks. -/
theorem marks_missplit : ¬ ∀ env b r, conHeaderRead env b = .ok r → ∃ t p, SplitAsWritten b.mem r t p := by
  intro h
  obtain ⟨r, hread, -, hpath⟩ := marksBuf_read
  obtain ⟨t, p, hsplit⟩ := h _ _ _ hread
  have hwords := hsplit.words.symm.trans marksBuf_line
  obtain ⟨rfl, -⟩ := List.cons.inj (List.cons.inj hwords).2
  have hcut := hpath.symm.trans hsplit.path
  exact absurd hcut (by decide)

end Agoo
