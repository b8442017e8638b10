import Agoo.Bytes
import Mathlib.Tactic.Common

/-!
# Subjects (`subject.c`, `subject_check` of `server.c`)

A pattern is matched against a subject by a scan of both. The documented rule goes by tokens between
dots: `*` stands for one token, a last `>` for all that remain.

`subjectCheck_iff`: the two scans are the same; they follow the rule on all subjects exactly for
patterns without wildcards, and on subjects of proper tokens exactly where the only wildcard is the last
token, or no such subject begins like the pattern.
-/

namespace Agoo

namespace Subject

def dot : Byte := chr '.'

/-- `*`. -/
def star : Byte := chr '*'

/-- `>`. -/
def more : Byte := chr '>'

/-! ## The scan -/

/-- The loop of `agoo_subject_check` and `subject_check`. What a `*` skips ends before a dot, and the
step of the loop goes past it. -/
def scan : Bytes → Bytes → Bool
  | [], subject => subject.isEmpty
  | _ :: _, [] => false
  | p :: pat, c :: subject =>
    if c = p then scan pat subject
    else if p = star then
      match (c :: subject).dropWhile (· ≠ dot) with
      | [] => true
      | _ :: rest => scan pat rest
    else decide (p = more)

/-- `agoo_subject_check`, on the pattern of the subject. -/
def agooSubjectCheck (pattern subject : Bytes) : Bool := scan (cstr pattern) (cstr subject)

/-- `subject_check`. -/
def subjectCheck (pattern subject : Bytes) : Bool := scan (cstr pattern) (cstr subject)

/-! ## The rule -/

/-- Tokens of a pattern against tokens of a subject. -/
def tokensMatch : List Bytes → List Bytes → Bool
  | [], [] => true
  | t :: ts, u :: us =>
    (t = [more] && ts.isEmpty) || ((t = [star] || t = u) && tokensMatch ts us)
  | _, _ => false

/-- The pattern matches the subject, token by token. -/
def ruleMatches (pattern subject : Bytes) : Bool :=
  tokensMatch (pattern.splitOn dot) (subject.splitOn dot)

/-- A wildcard character. -/
def isWild (c : Byte) : Bool := c = star || c = more

/-- Tokens that are not empty, without wildcard characters. -/
def Plain (subject : Bytes) : Prop := [] ∉ subject.splitOn dot ∧ ∀ c ∈ subject, isWild c = false

/-- The part of a pattern before its first wildcard character. -/
def stem (pattern : Bytes) : Bytes := pattern.takeWhile (!isWild ·)

/-- The part from its first wildcard character on. -/
def wilds (pattern : Bytes) : Bytes := pattern.dropWhile (!isWild ·)

/-- There is no wildcard character, or it is the last token, or there is an empty token before it. -/
def LastOnly (pattern : Bytes) : Prop :=
  wilds pattern = [] ∨
    ((wilds pattern).length = 1 ∧ (stem pattern = [] ∨ (stem pattern).getLast? = some dot)) ∨
      [] ∈ ((stem pattern).splitOn dot).dropLast

/-! ## Scans behind a stem -/

/-- Without wildcard characters. -/
def Literal (p : Bytes) : Prop := ∀ c ∈ p, isWild c = false

theorem Literal.ne {p : Bytes} (h : Literal p) {c : Byte} (hc : c ∈ p) : c ≠ star ∧ c ≠ more := by
  have hwild := h c hc
  unfold isWild at hwild
  rw [Bool.or_eq_false_iff, decide_eq_false_iff_not, decide_eq_false_iff_not] at hwild
  exact hwild

theorem literal_stem (p : Bytes) : Literal (stem p) := by
  intro c hc
  have h := List.mem_takeWhile_imp hc
  simpa using h

theorem stem_append (p : Bytes) : stem p ++ wilds p = p := List.takeWhile_append_dropWhile

theorem isWild_of_wilds {p : Bytes} {w : Byte} {rest : Bytes} (h : wilds p = w :: rest) :
    isWild w = true := by
  induction p with
  | nil => cases h
  | cons c p ih =>
    unfold wilds at h
    rw [List.dropWhile_cons] at h
    split_ifs at h with hc
    · exact ih h
    · obtain ⟨rfl, -⟩ := List.cons.inj h
      simpa using hc

theorem literal_iff (p : Bytes) : Literal p ↔ wilds p = [] := by
  unfold Literal wilds
  rw [List.dropWhile_eq_nil_iff]
  simp

/-- A subject matches a literal beginning only by having it. -/
theorem scan_append {q : Bytes} (hq : Literal q) (p s : Bytes) :
    scan (q ++ p) s = true ↔ ∃ s', s = q ++ s' ∧ scan p s' = true := by
  induction q generalizing s with
  | nil => exact ⟨fun h => ⟨s, rfl, h⟩, fun ⟨s', hs, h⟩ => hs ▸ h⟩
  | cons c q ih =>
    obtain ⟨hstar, hmore⟩ := hq.ne List.mem_cons_self
    have ih := ih (fun d hd => hq d (List.mem_cons_of_mem c hd))
    cases s with
    | nil => simp [scan]
    | cons d s =>
      by_cases hd : d = c
      · subst hd
        simp [scan, ih]
      · have hscan : scan (c :: q ++ p) (d :: s) = false := by
          simp [scan, hd, hstar, hmore]
        rw [hscan]
        simp [hd]

theorem scan_nil (s : Bytes) : scan [] s = true ↔ s = [] := by
  simp [scan]

/-- A wildcard at the end of the scan takes a token without wildcard characters. -/
theorem scan_wild_token {w : Byte} (hw : isWild w = true) (p : Bytes) {u : Bytes} (hu : u ≠ [])
    (hliteral : Literal u) (hdot : dot ∉ u) : scan (w :: p) u = true := by
  cases u with
  | nil => exact absurd rfl hu
  | cons c u =>
    obtain ⟨hstar, hmore⟩ := hliteral.ne List.mem_cons_self
    unfold isWild at hw
    rw [Bool.or_eq_true, decide_eq_true_eq, decide_eq_true_eq] at hw
    rcases hw with rfl | rfl
    · have hskip : (c :: u).dropWhile (· ≠ dot) = [] := by
        rw [List.dropWhile_eq_nil_iff]
        intro d hd
        simpa using fun h : d = dot => hdot (h ▸ hd)
      unfold scan
      rw [if_neg hstar, if_pos rfl, hskip]
    · have hne : more ≠ star := by decide
      simp [scan, hmore, hne]

/-! ## Tokens -/

/-- A token has no dot, and only characters of the string. -/
theorem token_spec (s : Bytes) : ∀ t ∈ s.splitOn dot, dot ∉ t ∧ t ⊆ s := by
  induction s with
  | nil => simp
  | cons c s ih =>
    rw [List.splitOn_cons_eq_if_modifyHead]
    by_cases hc : c = dot
    · subst hc
      intro t ht
      rw [if_pos (beq_self_eq_true dot), List.mem_cons] at ht
      rcases ht with rfl | ht
      · exact ⟨List.not_mem_nil, List.nil_subset _⟩
      · exact ⟨(ih t ht).1, List.subset_cons_of_subset dot (ih t ht).2⟩
    · rw [if_neg (by simpa using hc)]
      cases hs : s.splitOn dot with
      | nil => exact absurd hs (List.splitOn_ne_nil dot s)
      | cons t ts =>
        rw [hs] at ih
        intro u hu
        rw [List.modifyHead_cons, List.mem_cons] at hu
        rcases hu with rfl | hu
        · obtain ⟨hdot, hsub⟩ := ih t List.mem_cons_self
          refine ⟨?_, List.cons_subset_cons c hsub⟩
          rw [List.mem_cons, not_or]
          exact ⟨fun h => hc h.symm, hdot⟩
        · obtain ⟨hdot, hsub⟩ := ih u (List.mem_cons_of_mem t hu)
          exact ⟨hdot, List.subset_cons_of_subset c hsub⟩

theorem splitOn_injective {s t : Bytes} (h : s.splitOn dot = t.splitOn dot) : s = t := by
  have hs : [dot].intercalate (s.splitOn dot) = s := List.intercalate_splitOn dot
  rw [← hs, h, List.intercalate_splitOn]

/-- Tokens of a string that begin like those of another. -/
theorem splitOn_eq_append {s a : Bytes} {ts : List Bytes} (hts : ts ≠ [])
    (h : s.splitOn dot = a.splitOn dot ++ ts) : ∃ s', s = a ++ dot :: s' ∧ s'.splitOn dot = ts := by
  have hdots : ∀ t ∈ ts, dot ∉ t := fun t ht =>
    (token_spec s t (h ▸ List.mem_append_right _ ht)).1
  refine ⟨[dot].intercalate ts, splitOn_injective ?_, List.splitOn_intercalate dot hdots hts⟩
  rw [List.splitOn_append_cons_self, List.splitOn_intercalate dot hdots hts, h]

/-- A string is its tokens with dots behind them, and a last token. -/
theorem last_token (q : Bytes) :
    dot ∉ q ∨ ∃ a l, q = a ++ dot :: l ∧ dot ∉ l := by
  by_cases h : dot ∈ q
  · obtain ⟨l, a, hla, hl⟩ := List.eq_append_cons_of_mem (List.mem_reverse.mpr h)
    refine .inr ⟨a.reverse, l.reverse, ?_, by simpa using hl⟩
    have hrev := congrArg List.reverse hla
    simpa using hrev
  · exact .inl h

/-- Literal tokens match only themselves. -/
theorem tokensMatch_append {ts : List Bytes} (hts : ∀ t ∈ ts, Literal t) (us : List Bytes)
    (S : List Bytes) :
    tokensMatch (ts ++ us) S = true ↔ ∃ S', S = ts ++ S' ∧ tokensMatch us S' = true := by
  induction ts generalizing S with
  | nil => exact ⟨fun h => ⟨S, rfl, h⟩, fun ⟨S', hS, h⟩ => hS ▸ h⟩
  | cons t ts ih =>
    have ih := ih fun u hu => hts u (List.mem_cons_of_mem t hu)
    have ht := hts t List.mem_cons_self
    have hstar : t ≠ [star] := by
      rintro rfl
      exact (ht.ne List.mem_cons_self).1 rfl
    have hmore : t ≠ [more] := by
      rintro rfl
      exact (ht.ne List.mem_cons_self).2 rfl
    cases S with
    | nil => simp [tokensMatch]
    | cons u S =>
      by_cases hu : t = u
      · subst hu
        simp [tokensMatch, hstar, hmore, ih]
      · have hmatch : tokensMatch (t :: ts ++ us) (u :: S) = false := by
          simp [tokensMatch, hstar, hmore, hu]
        rw [hmatch]
        simp [Ne.symm hu]

theorem literal_tokens {p : Bytes} (h : Literal p) : ∀ t ∈ p.splitOn dot, Literal t :=
  fun t ht c hc => h c ((token_spec p t ht).2 hc)

/-! ## Patterns and the rule -/

/-- The tokens of a pattern that goes on behind a literal beginning `a.`. -/
theorem rule_append {a : Bytes} (ha : Literal a) (p s : Bytes) :
    ruleMatches (a ++ dot :: p) s = true ↔ ∃ s', s = a ++ dot :: s' ∧ ruleMatches p s' = true := by
  unfold ruleMatches
  rw [List.splitOn_append_cons_self, tokensMatch_append (literal_tokens ha)]
  constructor
  · rintro ⟨S', hS, hmatch⟩
    have hne : S' ≠ [] := by
      rintro rfl
      cases hp : p.splitOn dot with
      | nil => exact List.splitOn_ne_nil dot p hp
      | cons t ts =>
        rw [hp] at hmatch
        cases hmatch
    obtain ⟨s', rfl, hs'⟩ := splitOn_eq_append hne hS
    exact ⟨s', rfl, hs' ▸ hmatch⟩
  · rintro ⟨s', rfl, hmatch⟩
    exact ⟨s'.splitOn dot, List.splitOn_append_cons_self a s', hmatch⟩

/-- A literal pattern matches itself. -/
theorem rule_literal {p : Bytes} (hp : Literal p) (s : Bytes) : ruleMatches p s = true ↔ s = p := by
  unfold ruleMatches
  rw [← List.append_nil (p.splitOn dot), tokensMatch_append (literal_tokens hp)]
  constructor
  · rintro ⟨S', hS, hmatch⟩
    obtain rfl : S' = [] := by
      cases S' with
      | nil => rfl
      | cons u us => cases hmatch
    rw [List.append_nil] at hS
    exact splitOn_injective hS
  · rintro rfl
    exact ⟨[], (List.append_nil _).symm, rfl⟩

theorem scan_literal {p : Bytes} (hp : Literal p) (s : Bytes) : scan p s = true ↔ s = p := by
  have h := scan_append hp [] s
  rw [List.append_nil] at h
  rw [h]
  constructor
  · rintro ⟨s', rfl, hs'⟩
    rw [(scan_nil s').mp hs', List.append_nil]
  · rintro rfl
    exact ⟨[], (List.append_nil s).symm, rfl⟩

/-- A token with a wildcard character beside others does not match a literal token. -/
theorem rule_wild_token {l : Bytes} {w : Byte} (hw : isWild w = true) {rest u : Bytes} (hu : Literal u)
    (hdot : dot ∉ l ++ u) (hmore : ¬ (l = [] ∧ rest = [])) :
    ruleMatches (l ++ w :: rest) (l ++ u) = false := by
  have hwdot : w ≠ dot := by
    rintro rfl
    revert hw
    decide
  have hl : dot ∉ l := fun h => hdot (List.mem_append_left u h)
  unfold ruleMatches
  rw [List.splitOn_eq_singleton hdot]
  by_cases hrest : dot ∈ rest
  · obtain ⟨r, r', rfl, hr⟩ := List.eq_append_cons_of_mem hrest
    have hsplit : (l ++ w :: (r ++ dot :: r')).splitOn dot = (l ++ w :: r) :: r'.splitOn dot := by
      have hassoc : l ++ w :: (r ++ dot :: r') = (l ++ w :: r) ++ dot :: r' := by simp
      rw [hassoc, List.splitOn_append_cons_self_of_not_mem]
      simp [hl, hr, hwdot.symm]
    rw [hsplit]
    -- There are tokens left in the pattern and none in the subject.
    cases hr' : r'.splitOn dot with
    | nil => exact absurd hr' (List.splitOn_ne_nil dot r')
    | cons t ts => simp [tokensMatch]
  · have hsplit : (l ++ w :: rest).splitOn dot = [l ++ w :: rest] := by
      apply List.splitOn_eq_singleton
      simp [hl, hrest, hwdot.symm]
    rw [hsplit]
    have hsingle : ∀ c, l ++ w :: rest ≠ [c] := by
      intro c hc
      have hlen := congrArg List.length hc
      rw [List.length_append, List.length_cons, List.length_singleton] at hlen
      exact hmore ⟨List.length_eq_zero_iff.mp (by omega), List.length_eq_zero_iff.mp (by omega)⟩
    have hne : l ++ w :: rest ≠ l ++ u := by
      intro h
      have hwu : w ∈ u := by
        rw [← List.append_cancel_left h]
        exact List.mem_cons_self
      rw [hu w hwu] at hw
      cases hw
    simp [tokensMatch, hsingle, hne]

theorem literal_x : Literal (bytes "x") := List.forall_mem_singleton.mpr (by decide)

/-- What is wrong with a wildcard that is not the last token: the scan takes a literal token for all
that is left. -/
theorem scan_ne_rule {p : Bytes} {w : Byte} {rest : Bytes} (h : wilds p = w :: rest)
    (hlast : ¬ (rest = [] ∧ (stem p = [] ∨ (stem p).getLast? = some dot))) :
    scan p (stem p ++ bytes "x") = true ∧ ruleMatches p (stem p ++ bytes "x") = false := by
  have hw := isWild_of_wilds h
  have hx : Literal (bytes "x") := literal_x
  have hdot : dot ∉ bytes "x" := by decide
  have hp : p = stem p ++ w :: rest := by rw [← h, stem_append]
  have hstem := literal_stem p
  generalize stem p = q at *
  subst hp
  constructor
  · rw [scan_append hstem]
    exact ⟨bytes "x", rfl, scan_wild_token hw rest (by decide) hx hdot⟩
  · rcases last_token q with hq | ⟨a, l, rfl, hl⟩
    · refine rule_wild_token hw hx (by simp [hq, hdot]) fun hnil => hlast ⟨hnil.2, .inl hnil.1⟩
    · rw [Bool.eq_false_iff]
      intro hmatch
      rw [List.append_assoc, List.append_assoc, List.cons_append, List.cons_append,
        rule_append fun c hc => hstem c (List.mem_append_left _ hc)] at hmatch
      obtain ⟨s', hs', hrule⟩ := hmatch
      obtain ⟨-, rfl⟩ := List.cons.inj (List.append_cancel_left hs')
      rw [rule_wild_token hw hx (by simp [hl, hdot]) ?_] at hrule
      · cases hrule
      · rintro ⟨rfl, rfl⟩
        exact hlast ⟨rfl, .inr (by simp)⟩

/-! ## Where the scan follows the rule -/

/-- Nothing, or with a dot at its end: what follows begins with a new token. -/
def Aligned (q : Bytes) : Prop := q = [] ∨ q.getLast? = some dot

/-- Behind an aligned literal beginning the rule goes on with what is left. -/
theorem rule_aligned {q : Bytes} (hq : Literal q) (haligned : Aligned q) (p s : Bytes) :
    ruleMatches (q ++ p) s = true ↔ ∃ s', s = q ++ s' ∧ ruleMatches p s' = true := by
  rcases haligned with rfl | hlast
  · exact ⟨fun h => ⟨s, rfl, h⟩, fun ⟨s', hs, h⟩ => hs ▸ h⟩
  · obtain ⟨a, rfl⟩ := List.getLast?_eq_some_iff.mp hlast
    have ha : Literal a := fun c hc => hq c (List.mem_append_left _ hc)
    simpa using rule_append ha p s

/-- The tokens before the last one. -/
theorem dropLast_tokens (a : Bytes) {l : Bytes} (hl : dot ∉ l) :
    ((a ++ dot :: l).splitOn dot).dropLast = a.splitOn dot := by
  rw [List.splitOn_append_cons_self, List.splitOn_eq_singleton hl, List.dropLast_concat]

/-- A last wildcard stands for a token that begins with it, where the scan takes it for a literal. -/
theorem scan_ne_rule_last {q : Bytes} (hq : Literal q) (haligned : Aligned q) {w : Byte}
    (hw : isWild w = true) :
    scan (q ++ [w]) (q ++ w :: bytes "x") = false ∧ ruleMatches (q ++ [w]) (q ++ w :: bytes "x") = true := by
  constructor
  · rw [Bool.eq_false_iff, Ne, scan_append hq]
    rintro ⟨s', hs', hscan⟩
    obtain rfl := List.append_cancel_left hs'
    unfold scan at hscan
    rw [if_pos rfl, scan_nil] at hscan
    cases hscan
  · rw [rule_aligned hq haligned]
    refine ⟨_, rfl, ?_⟩
    unfold isWild at hw
    rw [Bool.or_eq_true, decide_eq_true_eq, decide_eq_true_eq] at hw
    rcases hw with rfl | rfl
    · decide +kernel
    · decide +kernel

/-- The scan and the rule agree on all subjects exactly for literal patterns. -/
theorem scan_eq_rule_iff {p : Bytes} (hp : 0 ∉ p) :
    (∀ s, 0 ∉ s → scan p s = ruleMatches p s) ↔ Literal p := by
  constructor
  · intro h
    rw [literal_iff]
    cases hw : wilds p with
    | nil => rfl
    | cons w rest =>
      have hsplit : p = stem p ++ w :: rest := by rw [← hw, stem_append]
      have hstem := literal_stem p
      by_cases hlast : rest = [] ∧ Aligned (stem p)
      · obtain ⟨rfl, haligned⟩ := hlast
        obtain ⟨hscan, hrule⟩ := scan_ne_rule_last hstem haligned (isWild_of_wilds hw)
        rw [← hsplit] at hscan hrule
        have hzero : 0 ∉ stem p ++ w :: bytes "x" := by
          have hx : (0 : Byte) ∉ bytes "x" := by decide
          rw [hsplit] at hp
          simpa [hx] using hp
        rw [h _ hzero, hrule] at hscan
        cases hscan
      · obtain ⟨hscan, hrule⟩ := scan_ne_rule hw hlast
        have hzero : 0 ∉ stem p ++ bytes "x" := by
          have hx : (0 : Byte) ∉ bytes "x" := by decide
          rw [hsplit, List.mem_append, not_or] at hp
          simp [hx, hp.1]
        rw [h _ hzero, hrule] at hscan
        cases hscan
  · intro h s _
    rw [Bool.eq_iff_iff, scan_literal h, rule_literal h]

/-- A last wildcard takes what the rule says of tokens that are not empty. -/
theorem scan_last {w : Byte} (hw : isWild w = true) {s : Bytes} (hs : Plain s) :
    scan [w] s = ruleMatches [w] s := by
  obtain ⟨hempty, hliteral⟩ := hs
  cases s with
  | nil => exact absurd (List.mem_singleton_self []) hempty
  | cons c s =>
    obtain ⟨hstar, hmore⟩ := Literal.ne hliteral List.mem_cons_self
    have hsingle : [w].splitOn dot = [[w]] := by
      apply List.splitOn_eq_singleton
      intro h
      rw [← List.mem_singleton.mp h] at hw
      revert hw
      decide
    unfold isWild at hw
    rw [Bool.or_eq_true, decide_eq_true_eq, decide_eq_true_eq] at hw
    rcases hw with rfl | rfl
    · by_cases hdot : dot ∈ c :: s
      · -- More than one token is too much for the one of the pattern.
        obtain ⟨u, v, huv, hu⟩ := List.eq_append_cons_of_mem hdot
        have htokens : (c :: s).splitOn dot = u :: v.splitOn dot := by
          rw [huv, List.splitOn_append_cons_self_of_not_mem hu]
        have hskip : (c :: s).dropWhile (· ≠ dot) = dot :: v := by
          rw [huv, List.dropWhile_append_of_pos]
          · simp
          · intro d hd
            simpa using fun h : d = dot => hu (h ▸ hd)
        have hv : v ≠ [] := by
          rintro rfl
          rw [htokens] at hempty
          exact hempty (List.mem_cons_of_mem u List.mem_cons_self)
        unfold ruleMatches scan
        rw [if_neg hstar, if_pos rfl, hskip, htokens, hsingle]
        cases hts : v.splitOn dot with
        | nil => exact absurd hts (List.splitOn_ne_nil dot v)
        | cons t ts =>
          have hne : star ≠ more := by decide
          simp [scan, tokensMatch, hv, hne]
      · rw [scan_wild_token (by decide) [] (List.cons_ne_nil c s) hliteral hdot]
        unfold ruleMatches
        rw [List.splitOn_eq_singleton hdot, hsingle]
        simp [tokensMatch]
    · have hne : more ≠ star := by decide
      unfold ruleMatches
      rw [hsingle]
      cases hts : (c :: s).splitOn dot with
      | nil => exact absurd hts (List.splitOn_ne_nil dot (c :: s))
      | cons t ts => simp [scan, tokensMatch, hmore, hne]

theorem plain_behind {q s : Bytes} (haligned : Aligned q) (h : Plain (q ++ s)) : Plain s := by
  refine ⟨fun hempty => h.1 ?_, fun c hc => h.2 c (List.mem_append_right q hc)⟩
  rcases haligned with rfl | hlast
  · exact hempty
  · obtain ⟨a, rfl⟩ := List.getLast?_eq_some_iff.mp hlast
    rw [List.append_assoc, List.singleton_append, List.splitOn_append_cons_self]
    exact List.mem_append_right _ hempty

/-- Where a complete token of the beginning is empty, no plain subject matches. -/
theorem not_plain_of_empty {q : Bytes} (hempty : [] ∈ (q.splitOn dot).dropLast) :
    ∃ a l, q = a ++ dot :: l ∧ dot ∉ l ∧ [] ∈ a.splitOn dot := by
  rcases last_token q with hq | ⟨a, l, rfl, hl⟩
  · rw [List.splitOn_eq_singleton hq] at hempty
    cases hempty
  · rw [dropLast_tokens a hl] at hempty
    exact ⟨a, l, rfl, hl, hempty⟩

/-- The scan and the rule agree on plain subjects exactly where a wildcard is the last token, or no
plain subject begins like the pattern. -/
theorem scan_eq_rule_plain_iff {p : Bytes} (hp : 0 ∉ p) :
    (∀ s, 0 ∉ s → Plain s → scan p s = ruleMatches p s) ↔ LastOnly p := by
  have hstem := literal_stem p
  constructor
  · intro h
    by_contra hlast
    unfold LastOnly at hlast
    rw [not_or, not_or] at hlast
    obtain ⟨hne, hlast, hempty⟩ := hlast
    cases hw : wilds p with
    | nil => exact hne hw
    | cons w rest =>
      have hsplit : p = stem p ++ w :: rest := by rw [← hw, stem_append]
      rw [hw] at hlast
      have hx : (0 : Byte) ∉ bytes "x" ∧ dot ∉ bytes "x" ∧ ∀ c ∈ bytes "x", isWild c = false :=
        ⟨by decide, by decide, literal_x⟩
      obtain ⟨hscan, hrule⟩ := scan_ne_rule hw fun hrest => hlast ⟨by rw [hrest.1]; rfl, hrest.2⟩
      have hzero : 0 ∉ stem p ++ bytes "x" := by
        rw [hsplit, List.mem_append, not_or] at hp
        simp [hx, hp.1]
      have hplain : Plain (stem p ++ bytes "x") := by
        refine ⟨?_, fun c hc => (List.mem_append.mp hc).elim (hstem c) (hx.2.2 c)⟩
        rcases last_token (stem p) with hq | ⟨a, l, hal, hl⟩
        · rw [List.splitOn_eq_singleton (by simp [hq, hx])]
          simp [bytes]
        · rw [hal, dropLast_tokens a hl] at hempty
          rw [hal, List.append_assoc, List.cons_append, List.splitOn_append_cons_self,
            List.splitOn_eq_singleton (show dot ∉ l ++ bytes "x" by simp [hl, hx])]
          simp [hempty, bytes]
      rw [h _ hzero hplain, hrule] at hscan
      cases hscan
  · rintro (hliteral | ⟨hone, haligned⟩ | hempty) s _ hs
    · have hp' := (literal_iff p).mpr hliteral
      rw [Bool.eq_iff_iff, scan_literal hp', rule_literal hp']
    · obtain ⟨w, hw⟩ := List.length_eq_one_iff.mp hone
      have hsplit : p = stem p ++ [w] := by rw [← hw, stem_append]
      rw [hsplit, Bool.eq_iff_iff, scan_append hstem, rule_aligned hstem haligned]
      constructor
      · rintro ⟨s', rfl, h⟩
        exact ⟨s', rfl, by rw [← scan_last (isWild_of_wilds hw) (plain_behind haligned hs), h]⟩
      · rintro ⟨s', rfl, h⟩
        exact ⟨s', rfl, by rw [scan_last (isWild_of_wilds hw) (plain_behind haligned hs), h]⟩
    · obtain ⟨a, l, hal, hl, hmem⟩ := not_plain_of_empty hempty
      have hnot : ∀ s', s ≠ a ++ dot :: s' := by
        rintro s' rfl
        apply hs.1
        rw [List.splitOn_append_cons_self]
        exact List.mem_append_left _ hmem
      have ha : Literal a := fun c hc => hstem c (hal ▸ List.mem_append_left _ hc)
      have hscan : scan p s = false := by
        rw [Bool.eq_false_iff, ← stem_append p, Ne, scan_append hstem]
        rintro ⟨s', rfl, -⟩
        exact hnot (l ++ s') (by rw [hal]; simp)
      have hrule : ruleMatches p s = false := by
        rw [Bool.eq_false_iff, ← stem_append p, hal, List.append_assoc, List.cons_append, Ne, rule_append ha]
        rintro ⟨s', rfl, -⟩
        exact hnot s' rfl
      rw [hscan, hrule]

/-- **The two checks are the same. They follow the rule on every subject exactly for patterns without
wildcard characters, and on every subject of proper tokens exactly where a wildcard is the last token,
or no such subject begins like the pattern.** -/
theorem subjectCheck_iff (pattern : Bytes) :
    (∀ subject, agooSubjectCheck pattern subject = subjectCheck pattern subject) ∧
    ((∀ subject, subjectCheck pattern subject = ruleMatches (cstr pattern) (cstr subject)) ↔
      Literal (cstr pattern)) ∧
    ((∀ subject, Plain (cstr subject) →
      subjectCheck pattern subject = ruleMatches (cstr pattern) (cstr subject)) ↔
        LastOnly (cstr pattern)) := by
  refine ⟨fun _ => rfl, ?_, ?_⟩
  · rw [← scan_eq_rule_iff (zero_not_mem_cstr pattern)]
    constructor
    · intro h s hs
      have hcheck := h s
      unfold subjectCheck at hcheck
      rw [cstr_of_not_mem hs] at hcheck
      exact hcheck
    · exact fun h s => h (cstr s) (zero_not_mem_cstr s)
  · rw [← scan_eq_rule_plain_iff (zero_not_mem_cstr pattern)]
    constructor
    · intro h s hs hplain
      have hcheck := h s
      unfold subjectCheck at hcheck
      rw [cstr_of_not_mem hs] at hcheck
      exact hcheck hplain
    · exact fun h s hplain => h (cstr s) (zero_not_mem_cstr s) hplain

/-- `people.*.log` is the documented example of a wildcard token. -/
theorem starInside_misses :
    subjectCheck (bytes "people.*.log") (bytes "people.fred.log") = false ∧
      ruleMatches (bytes "people.*.log") (bytes "people.fred.log") = true := by
  decide +kernel

end Subject

end Agoo
