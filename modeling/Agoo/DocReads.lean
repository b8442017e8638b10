import Agoo.DocValue
import Agoo.GqlText

/-!
# What the readers of a document read

`Reads p i u a j` says that from place `i` the reader `p` reads `a` and leaves the cursor at `j`, and
the caller's state stays `u`. `Ends` says that some run of `p` did. A reader that reads one value from
a place ends with no other, so a known reader at the front of a run can be taken off it.
-/

namespace Agoo

open Agoo.Parser

variable {text : Bytes} {σ τ δ φ α β : Type}

namespace Parser

/-- Every run of `p` from place `i` with the caller's state `u` ends with `a` at place `j`, and leaves
that state. -/
def Reads (p : Parser text σ α) (i : ℕ) (u : DocUser σ) (a : α) (j : ℕ) : Prop :=
  ∀ s, s.cur = i → s.user = u → ∃ s', p.run s = (.ok a, s') ∧ s'.cur = j ∧ s'.user = u

/-- Some run of `p` from place `i` ended with `a` at place `j`. -/
def Ends (p : Parser text σ α) (i : ℕ) (u : DocUser σ) (a : α) (j : ℕ) (u' : DocUser σ) : Prop :=
  ∃ s s', s.cur = i ∧ s.user = u ∧ p.run s = (.ok a, s') ∧ s'.cur = j ∧ s'.user = u'

theorem reads_pure (a : α) (i : ℕ) (u : DocUser σ) :
    Reads (pure a : Parser text σ α) i u a i := fun s hi hu => ⟨s, rfl, hi, hu⟩

theorem Reads.bind {p : Parser text σ α} {f : α → Parser text σ β} {i j k : ℕ} {u : DocUser σ}
    {a : α} {b : β} (h : Reads p i u a j) (hf : Reads (f a) j u b k) : Reads (p >>= f) i u b k := by
  intro s hi hu
  obtain ⟨s1, hp, hi1, hu1⟩ := h s hi hu
  obtain ⟨s2, hf2, hk⟩ := hf s1 hi1 hu1
  refine ⟨s2, ?_, hk⟩
  rw [Scanner.run_bind, hp, Scanner.andThen_ok, hf2]

/-- A run that ended ended with the value that every run reads. -/
theorem Reads.unique {p : Parser text σ α} {i j j' : ℕ} {u u' : DocUser σ} {a a' : α}
    (h : Reads p i u a j) (h' : Ends p i u a' j' u') : a' = a ∧ j' = j ∧ u' = u := by
  obtain ⟨s, s', hi, hu, hrun, rfl, rfl⟩ := h'
  obtain ⟨s1, hp, hj, hu1⟩ := h s hi hu
  rw [hrun] at hp
  injection hp with ho hs
  obtain rfl := Outcome.ok.inj ho
  subst hs
  exact ⟨rfl, hj, hu1⟩

/-- A run of two readers is a run of each. -/
theorem Ends.split {p : Parser text σ α} {f : α → Parser text σ β} {i k : ℕ} {u u' : DocUser σ}
    {b : β} (h : Ends (p >>= f) i u b k u') :
    ∃ a j u1, Ends p i u a j u1 ∧ Ends (f a) j u1 b k u' := by
  obtain ⟨s, s', hi, hu, hrun, hk, hu'⟩ := h
  obtain ⟨a, s1, hp, hf⟩ := Scanner.run_bind_ok hrun
  exact ⟨a, s1.cur, s1.user, ⟨s, s1, hi, hu, hp, rfl, rfl⟩, ⟨s1, s', rfl, rfl, hf, hk, hu'⟩⟩

/-- A known reader is taken off the front of a run. -/
theorem Ends.after {p : Parser text σ α} {f : α → Parser text σ β} {i j k : ℕ} {u u' : DocUser σ}
    {a : α} {b : β} (h : Ends (p >>= f) i u b k u') (hp : Reads p i u a j) :
    Ends (f a) j u b k u' := by
  obtain ⟨a', j', u1, hp', hf⟩ := h.split
  obtain ⟨rfl, rfl, rfl⟩ := hp.unique hp'
  exact hf

theorem not_ends_docErr {msg : Bytes} {i j : ℕ} {u u' : DocUser σ} {a : α} :
    ¬ Ends (docErr msg : Parser text σ α) i u a j u' := by
  rintro ⟨s, s', -, -, h, -⟩
  cases h

/-- What is required of a run that ended holds. -/
theorem Ends.require {c : Prop} [Decidable c] {msg : Bytes} {i j : ℕ} {u u' : DocUser σ} {a : Unit}
    (h : Ends (require c msg : Parser text σ Unit) i u a j u') : c := by
  unfold Agoo.require at h
  split_ifs at h with hc
  · exact hc
  · exact absurd h not_ends_docErr

theorem reads_require {c : Prop} [Decidable c] (h : c) (msg : Bytes) (i : ℕ) (u : DocUser σ) :
    Reads (require c msg : Parser text σ Unit) i u () i := by
  unfold Agoo.require
  rw [if_pos h]
  exact reads_pure () i u

theorem reads_pos {i : ℕ} (h : i ≤ text.length) (u : DocUser σ) :
    Reads (Scanner.pos : Parser text σ (Pos text)) i u ⟨i, h⟩ i := by
  rintro s rfl hu
  exact ⟨s, rfl, rfl, hu⟩

theorem reads_peek (i : ℕ) (u : DocUser σ) :
    Reads (peek : Parser text σ Byte) i u (at0 text i) i := by
  rintro s rfl hu
  exact ⟨s, rfl, rfl, hu⟩

theorem reads_advance {f : Bytes → α × ℕ} {h : ∀ rest, (f rest).2 ≤ rest.length} (i : ℕ)
    (u : DocUser σ) :
    Reads (advance f h : Parser text σ α) i u (f (text.drop i)).1 (i + (f (text.drop i)).2) := by
  rintro s rfl hu
  exact ⟨_, rfl, rfl, hu⟩

/-- `accept` of a byte that is there. -/
theorem reads_accept {c : Byte} {lit : Bytes} {i : ℕ} {rest : Bytes} (hlit : lit = [c])
    (h : text.drop i = c :: rest) (u : DocUser σ) :
    Reads (accept lit : Parser text σ Bool) i u true (i + 1) := by
  subst hlit
  have hpre : [c] <+: text.drop i := by
    rw [h]
    exact ⟨rest, rfl⟩
  have : Reads (accept [c] : Parser text σ Bool) i u
      (if [c] <+: text.drop i then (true, [c].length) else (false, 0)).1
      (i + (if [c] <+: text.drop i then (true, [c].length) else (false, 0)).2) := reads_advance i u
  rwa [if_pos hpre] at this

/-- `accept` of a byte that is not there. -/
theorem reads_accept_not {c : Byte} {lit : Bytes} {i : ℕ} (hlit : lit = [c])
    (h : ∀ b ∈ (text.drop i).head?, b ≠ c) (u : DocUser σ) :
    Reads (accept lit : Parser text σ Bool) i u false i := by
  subst hlit
  have hpre : ¬ [c] <+: text.drop i := by
    intro hpre
    obtain ⟨rest, hrest⟩ := hpre
    exact h c (by rw [← hrest]; rfl) rfl
  have : Reads (accept [c] : Parser text σ Bool) i u
      (if [c] <+: text.drop i then (true, [c].length) else (false, 0)).1
      (i + (if [c] <+: text.drop i then (true, [c].length) else (false, 0)).2) := reads_advance i u
  rwa [if_neg hpre] at this

/-- The bytes since a place. -/
theorem reads_since {i : ℕ} {word rest : Bytes} (h : text.drop i = word ++ rest)
    (hi : i ≤ text.length) (u : DocUser σ) :
    Reads (since ⟨i, hi⟩ : Parser text σ Bytes) (i + word.length) u word (i + word.length) := by
  rintro s hs hu
  refine ⟨s, ?_, hs, hu⟩
  have : (text.take s.cur).drop i = word := by
    rw [hs, List.drop_take, h, Nat.add_sub_cancel_left, List.take_left]
  change (Outcome.ok ((text.take s.cur).drop i), s) = _
  rw [this]

/-! ## White space -/

/-- White space that ends before anything else is skipped. -/
theorem reads_skipWhite {i q : ℕ} (h : skipFrom false i (text.drop i) = ([], some q))
    (u : DocUser σ) : Reads (skipWhite : Parser text σ ℕ) i u (q - i) q := by
  rintro s rfl hu
  have hevents : (skipAt s).1 = [] := List.pmap_eq_nil_iff.mpr (by rw [h])
  have hplace : ∃ hq, (skipAt s).2 = some ⟨q, hq⟩ := by
    cases hs : (skipAt s).2 with
    | some c =>
      have hc := skipAt_some hs
      rw [h] at hc
      obtain rfl := Option.some.inj hc
      exact ⟨c.2, rfl⟩
    | none =>
      obtain ⟨e, he, -⟩ := (skipAt_none_iff s).mp hs
      rw [hevents] at he
      cases he
  obtain ⟨hq, hplace⟩ := hplace
  refine ⟨⟨q, hq, s.log, s.user⟩, ?_, rfl, hu⟩
  rw [skipWhite, Scanner.run_bind, Scanner.run_pos, Scanner.andThen_ok, Scanner.run_bind,
    Scanner.sweep]
  dsimp only
  rw [hplace, hevents]
  rfl

/-- Nothing is skipped at the end or at a byte that is neither white nor begins a comment. -/
theorem reads_skipWhite_stay {i : ℕ} {rest : Bytes} (h : text.drop i = rest)
    (hrest : ∀ b ∈ rest.head?, isWhite b = false ∧ b ≠ chr '#') (u : DocUser σ) :
    Reads (skipWhite : Parser text σ ℕ) i u 0 i := by
  have hskip : skipFrom false i (text.drop i) = ([], some i) := by
    rw [h]
    cases rest with
    | nil => rfl
    | cons b rest =>
      obtain ⟨hw, hc⟩ := hrest b rfl
      simp [skipFrom, hw, hc]
  have := reads_skipWhite hskip u
  rwa [Nat.sub_self] at this

/-- A comma is skipped. -/
theorem reads_skipWhite_comma {i : ℕ} {c : Byte} {rest : Bytes}
    (h : text.drop i = chr ',' :: c :: rest) (hw : isWhite c = false) (hc : c ≠ chr '#')
    (u : DocUser σ) : Reads (skipWhite : Parser text σ ℕ) i u 1 (i + 1) := by
  have hskip : skipFrom false i (text.drop i) = ([], some (i + 1)) := by
    rw [h]
    simp [skipFrom, hw, hc, show isWhite (chr ',') = true from rfl]
  have := reads_skipWhite hskip u
  rwa [Nat.add_sub_cancel_left] at this

/-! ## Tokens -/

/-- A name: a letter or an underscore, and letters, digits and underscores after it. -/
def IsName (s : Bytes) : Prop :=
  ∃ c more, s = c :: more ∧ chr '9' < c ∧ ∀ b ∈ s, isToken b = true

theorem reads_readToken {i : ℕ} {name rest : Bytes} (h : text.drop i = name ++ rest)
    (hname : IsName name) (hrest : ∀ b ∈ rest.head?, isToken b = false) (u : DocUser σ) :
    Reads (readToken : Parser text σ Unit) i u () (i + name.length) := by
  obtain ⟨c, more, rfl, hc, htok⟩ := hname
  have hlen : tokenLen (text.drop i) = (c :: more).length := by
    rw [h, List.cons_append, tokenLen, if_pos ⟨htok c (.head _), hc⟩,
      List.takeWhile_append_of_pos fun b hb => htok b (.tail _ hb), List.length_cons]
    cases rest with
    | nil => simp [Nat.add_comm]
    | cons b rest => simp [hrest b rfl, Nat.add_comm]
  have : Reads (readToken : Parser text σ Unit) i u () (i + tokenLen (text.drop i)) :=
    reads_advance i u
  rwa [hlen] at this

/-- No token is read where none begins. -/
theorem reads_readToken_none {i : ℕ} {rest : Bytes} (h : text.drop i = rest)
    (hrest : ∀ b ∈ rest.head?, isToken b = false) (u : DocUser σ) :
    Reads (readToken : Parser text σ Unit) i u () i := by
  have hlen : tokenLen (text.drop i) = 0 := by
    rw [h]
    cases rest with
    | nil => rfl
    | cons b rest => simp [tokenLen, hrest b rfl]
  have : Reads (readToken : Parser text σ Unit) i u () (i + tokenLen (text.drop i)) :=
    reads_advance i u
  rwa [hlen] at this

end Parser

end Agoo
