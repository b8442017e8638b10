import Agoo.SdlPieces

/-!
# Texts that move while they are printed to (`graphql.c`)

A printer is a row of parts: pieces after which it goes on with the old text, then pieces after which it goes on
with the new one. `printers_iff`: for which schemas and documents the bytes that are returned are the same for all
capacities, and for which capacities they are those of all large ones.
-/

namespace Agoo

namespace SdlPrint

/-! ## Room -/

/-- `len` and `alen` of a text. -/
structure Room where
  len : ℕ
  alen : ℕ

def Store.room (st : Store) : Room := ⟨st.bytes.length, st.alen⟩

/-- Some bytes are appended. -/
def Room.add (r : Room) (k : ℕ) : Room :=
  ⟨r.len + k, if r.alen ≤ r.len + k then r.alen + k + r.alen / 2 else r.alen⟩

/-- Pieces are appended. -/
def Room.adds : Room → List Piece → Room
  | r, [] => r
  | r, p :: ps => (r.add (p.getD []).length).adds ps

/-- The text is not moved by pieces. -/
def Holds (r : Room) (ps : List Piece) : Prop := ps = [] ∨ r.len + (said ps).length < r.alen

/-- Pieces after which the old text is used, and pieces after which the new one is. -/
structure Part where
  lost : List Piece
  kept : List Piece

/-- A part needs memory that is not there. -/
def Faulty (parts : List Part) : Prop := ∃ p ∈ parts, none ∈ p.lost ∨ none ∈ p.kept

/-- No part moves a text that is used after it. -/
def Fits : Room → List Part → Prop
  | _, [] => True
  | r, p :: ps => Holds r p.lost ∧ Fits ((r.adds p.lost).adds p.kept) ps

/-- The room behind parts. -/
def Room.after : Room → List Part → Room
  | r, [] => r
  | r, p :: ps => ((r.adds p.lost).adds p.kept).after ps

/-- The bytes in parts. -/
def printed : List Part → Bytes
  | [] => []
  | p :: ps => said p.lost ++ said p.kept ++ printed ps

theorem fits_append (r : Room) (ps qs : List Part) : Fits r (ps ++ qs) ↔ Fits r ps ∧ Fits (r.after ps) qs := by
  induction ps generalizing r with
  | nil => simp [Fits, Room.after]
  | cons p ps ih => simp [Fits, Room.after, ih, and_assoc]

theorem after_append (r : Room) (ps qs : List Part) : r.after (ps ++ qs) = (r.after ps).after qs := by
  induction ps generalizing r with
  | nil => rfl
  | cons p ps ih => exact ih _

theorem printed_append (ps qs : List Part) : printed (ps ++ qs) = printed ps ++ printed qs := by
  induction ps with
  | nil => rfl
  | cons p ps ih => simp [printed, ih]

theorem faulty_append (ps qs : List Part) : Faulty (ps ++ qs) ↔ Faulty ps ∨ Faulty qs := by
  simp only [Faulty, List.mem_append, or_and_right, exists_or]

theorem adds_append (r : Room) (ps qs : List Piece) : r.adds (ps ++ qs) = (r.adds ps).adds qs := by
  induction ps generalizing r with
  | nil => rfl
  | cons p ps ih => exact ih _

/-! ## Pieces that are appended to a text -/

/-- There is no result, or the text of the result was moved. -/
def Stale (r : Option (ℕ × Store)) : Prop := ∀ text st, r = some (text, st) → text ≠ st.live

theorem stale_none : Stale none := fun _ _ h => nomatch h

/-- The result is the text that is allocated now, and it got some bytes. -/
def Grown (st : Store) (r : Option (ℕ × Store)) (bs : Bytes) (room : Room) : Prop :=
  ∃ st', r = some (st'.live, st') ∧ st'.bytes = st.bytes ++ bs ∧ st'.room = room

theorem put_live (st : Store) (bs : Bytes) : ∃ st', put st.live bs st = some (st'.live, st') ∧
    st'.bytes = st.bytes ++ bs ∧ st'.room = st.room.add bs.length ∧ st.live ≤ st'.live ∧
    (st'.live = st.live ↔ st.bytes.length + bs.length < st.alen) := by
  unfold put
  rw [if_neg (fun h => h rfl)]
  by_cases h : st.alen ≤ st.bytes.length + bs.length
  · rw [if_pos h]
    refine ⟨⟨st.live + 1, st.bytes ++ bs, st.alen + bs.length + st.alen / 2⟩, rfl, rfl, ?_, Nat.le_succ _, ?_⟩
    · simp [Store.room, Room.add, h]
    · simp [h]
  · rw [if_neg h]
    refine ⟨{ st with bytes := st.bytes ++ bs }, rfl, rfl, ?_, Nat.le_refl _, ?_⟩
    · simp [Store.room, Room.add, h]
    · simpa using h

/-- Pieces that are all there are appended; the text stays where it is if it has room for them. -/
theorem puts_live (ps : List Piece) (st : Store) (h : none ∉ ps) :
    ∃ st', puts st.live ps st = some (st'.live, st') ∧ st'.bytes = st.bytes ++ said ps ∧
      st'.room = st.room.adds ps ∧ st.live ≤ st'.live ∧ (st'.live = st.live ↔ Holds st.room ps) := by
  induction ps generalizing st with
  | nil => exact ⟨st, rfl, (List.append_nil _).symm, rfl, Nat.le_refl _, by simp [Holds]⟩
  | cons p ps ih =>
    cases p with
    | none => exact absurd (List.Mem.head _) h
    | some bs =>
      obtain ⟨st₁, hrun₁, hbytes₁, hroom₁, hle₁, hlive₁⟩ := put_live st bs
      obtain ⟨st₂, hrun₂, hbytes₂, hroom₂, hle₂, hlive₂⟩ := ih st₁ fun hp => h (.tail _ hp)
      refine ⟨st₂, ?_, ?_, ?_, Nat.le_trans hle₁ hle₂, ?_⟩
      · show (put st.live bs st).bind _ = _
        rw [hrun₁]
        exact hrun₂
      · simp [hbytes₂, hbytes₁, said]
      · rw [hroom₂, hroom₁]
        rfl
      · have hsaid : (said (some bs :: ps)).length = bs.length + (said ps).length := by simp [said]
        by_cases hmove : st.alen ≤ st.bytes.length + bs.length
        · simp only [Holds, Store.room, hsaid, List.cons_ne_nil, false_or]
          omega
        · have hadd : st₁.room = ⟨st.bytes.length + bs.length, st.alen⟩ := by
            rw [hroom₁]
            simp [Room.add, Store.room, hmove]
          rw [hadd] at hlive₂
          simp only [Holds, Store.room, hsaid, List.cons_ne_nil, false_or] at hlive₂ ⊢
          by_cases hps : ps = []
          · subst hps
            simp only [said, List.length_nil] at hlive₂ ⊢
            omega
          · simp only [hps, false_or] at hlive₂
            omega

theorem puts_stale (ps : List Piece) {text : ℕ} {st : Store} (h : text ≠ st.live) : Stale (puts text ps st) := by
  cases ps with
  | nil =>
    intro text' st' he
    cases he
    exact h
  | cons p ps =>
    cases p with
    | none => exact stale_none
    | some bs =>
      have hput : put text bs st = none := if_pos h
      show Stale ((put text bs st).bind _)
      rw [hput]
      exact stale_none

theorem puts_faulty {ps : List Piece} (h : none ∈ ps) (text : ℕ) (st : Store) : puts text ps st = none := by
  induction ps generalizing text st with
  | nil => cases h
  | cons p ps ih =>
    cases p with
    | none => rfl
    | some bs =>
      have hps : none ∈ ps := by simpa using h
      show (put text bs st).bind _ = none
      cases put text bs st with
      | none => rfl
      | some r => exact ih hps r.1 r.2

/-! ## Printers -/

/-- A printer appends parts to a text that has room. Otherwise it ends with a moved text, or not at all. -/
structure Runs (f : ℕ → Print ℕ) (parts : List Part) : Prop where
  stale : ∀ text st, text ≠ st.live → Stale (f text st)
  bad : ∀ st, Faulty parts ∨ ¬ Fits st.room parts → Stale (f st.live st)
  good : ∀ st, ¬ Faulty parts → Fits st.room parts →
    Grown st (f st.live st) (printed parts) (st.room.after parts)

theorem Stale.bind {r : Option (ℕ × Store)} {g : ℕ → Print ℕ} (hr : Stale r)
    (hg : ∀ text st, text ≠ st.live → Stale (g text st)) : Stale (r.bind fun x => g x.1 x.2) := by
  cases r with
  | none => exact stale_none
  | some x => exact hg x.1 x.2 (hr x.1 x.2 rfl)

theorem Runs.bind {f g : ℕ → Print ℕ} {ps qs : List Part} (hf : Runs f ps) (hg : Runs g qs) :
    Runs (fun text => f text >>= g) (ps ++ qs) := by
  refine ⟨fun text st h => (hf.stale text st h).bind hg.stale, ?_, ?_⟩
  · intro st h
    show Stale ((f st.live st).bind _)
    rw [faulty_append, fits_append] at h
    by_cases hps : Faulty ps ∨ ¬ Fits st.room ps
    · exact (hf.bad st hps).bind hg.stale
    · rw [not_or, not_not] at hps
      obtain ⟨st', hrun, -, hroom⟩ := hf.good st hps.1 hps.2
      rw [hrun]
      apply hg.bad
      rw [hroom]
      tauto
  · intro st hfault hfits
    rw [faulty_append, not_or] at hfault
    rw [fits_append] at hfits
    obtain ⟨st₁, hrun₁, hbytes₁, hroom₁⟩ := hf.good st hfault.1 hfits.1
    obtain ⟨st₂, hrun₂, hbytes₂, hroom₂⟩ := hg.good st₁ hfault.2 (hroom₁ ▸ hfits.2)
    refine ⟨st₂, ?_, ?_, ?_⟩
    · show (f st.live st).bind _ = _
      rw [hrun₁]
      exact hrun₂
    · rw [hbytes₂, hbytes₁, printed_append, List.append_assoc]
    · rw [hroom₂, hroom₁, after_append]

/-- What comes back from the first pieces is not kept. -/
theorem runs_lost (lost kept : List Piece) :
    Runs (fun text => do let _ ← puts text lost; puts text kept) [⟨lost, kept⟩] := by
  have hsingle : Faulty [⟨lost, kept⟩] ↔ none ∈ lost ∨ none ∈ kept := by simp [Faulty]
  refine ⟨?_, ?_, ?_⟩
  · intro text st h
    show Stale ((puts text lost st).bind fun x => puts text kept x.2)
    cases lost with
    | nil => exact puts_stale kept h
    | cons p lost =>
      cases p with
      | none => exact stale_none
      | some bs =>
        have hput : put text bs st = none := if_pos h
        show Stale (((put text bs st).bind _).bind _)
        rw [hput]
        exact stale_none
  · intro st h
    show Stale ((puts st.live lost st).bind fun x => puts st.live kept x.2)
    by_cases hlost : none ∈ lost
    · rw [puts_faulty hlost]
      exact stale_none
    · obtain ⟨st', hrun, -, -, -, hlive⟩ := puts_live lost st hlost
      rw [hrun]
      show Stale (puts st.live kept st')
      by_cases hkept : none ∈ kept
      · rw [puts_faulty hkept]
        exact stale_none
      · have hmoved : ¬ Holds st.room lost := by
          simp only [hsingle, hlost, hkept, or_self, false_or, Fits, and_true] at h
          exact h
        exact puts_stale kept fun he => hmoved (hlive.mp he.symm)
  · intro st hfault hfits
    rw [hsingle, not_or] at hfault
    obtain ⟨st₁, hrun₁, hbytes₁, hroom₁, -, hlive₁⟩ := puts_live lost st hfault.1
    obtain ⟨st₂, hrun₂, hbytes₂, hroom₂, -, -⟩ := puts_live kept st₁ hfault.2
    refine ⟨st₂, ?_, ?_, ?_⟩
    · show (puts st.live lost st).bind (fun x => puts st.live kept x.2) = _
      rw [hrun₁, ← hlive₁.mpr hfits.1]
      exact hrun₂
    · simp [hbytes₂, hbytes₁, printed]
    · rw [hroom₂, hroom₁]
      rfl

theorem runs_puts (ps : List Piece) : Runs (fun text => puts text ps) [⟨[], ps⟩] := runs_lost [] ps

theorem runs_pure : Runs pure [] :=
  ⟨fun text st h => puts_stale [] h, fun st h => absurd h (by simp [Faulty, Fits]),
    fun st _ _ => ⟨st, rfl, (List.append_nil _).symm, rfl⟩⟩

variable {α : Type}

/-- The parts of members. -/
def eachParts (g : α → Bool → Part) : List α → List Part
  | [] => []
  | x :: xs => g x xs.isEmpty :: eachParts g xs

theorem runs_each {f : ℕ → α → Bool → Print ℕ} {g : α → Bool → Part}
    (h : ∀ x last, Runs (fun text => f text x last) [g x last]) (xs : List α) :
    Runs (fun text => each f text xs) (eachParts g xs) := by
  induction xs with
  | nil => exact runs_pure
  | cons x xs ih => exact (h x xs.isEmpty).bind ih

/-! ## Capacities -/

/-- `AGOO_TEXT_MIN_SIZE`. -/
def minSize : ℕ := 8

/-- The bytes that come back are the same for all capacities that there are. -/
def Steady (printer : ℕ → Print ℕ) (start : Bytes) : Prop :=
  ∀ cap cap', minSize ≤ cap → minSize ≤ cap' → outcome printer start cap = outcome printer start cap'

/-- The bytes that come back are those of all large capacities. -/
def AsLarge (printer : ℕ → Print ℕ) (start : Bytes) (cap : ℕ) : Prop :=
  ∃ big, ∀ cap', big ≤ cap' → outcome printer start cap' = outcome printer start cap

/-- What is lost ends, behind some bytes, where every text has room. -/
def Early : ℕ → List Part → Prop
  | _, [] => True
  | n, p :: ps =>
    (p.lost = [] ∨ n + (said p.lost).length < minSize) ∧
      Early (n + (said p.lost).length + (said p.kept).length) ps

theorem outcome_stale {printer : ℕ → Print ℕ} {start : Bytes} {cap : ℕ} (h : Stale (printer 0 ⟨0, start, cap⟩)) :
    outcome printer start cap = none := by
  unfold outcome
  cases hrun : printer 0 ⟨0, start, cap⟩ with
  | none => rfl
  | some x => exact if_neg (h x.1 x.2 hrun)

theorem outcome_bad {f : ℕ → Print ℕ} {parts : List Part} (h : Runs f parts) {start : Bytes} {cap : ℕ}
    (hbad : Faulty parts ∨ ¬ Fits ⟨start.length, cap⟩ parts) : outcome f start cap = none :=
  outcome_stale (h.bad ⟨0, start, cap⟩ hbad)

theorem outcome_good {f : ℕ → Print ℕ} {parts : List Part} (h : Runs f parts) {start : Bytes} {cap : ℕ}
    (hfault : ¬ Faulty parts) (hfits : Fits ⟨start.length, cap⟩ parts) :
    outcome f start cap = some (start ++ printed parts) := by
  obtain ⟨st, hrun, hbytes, -⟩ := h.good ⟨0, start, cap⟩ hfault hfits
  unfold outcome
  rw [show f 0 ⟨0, start, cap⟩ = some (st.live, st) from hrun]
  show (if st.live = st.live then some st.bytes else none) = _
  rw [if_pos rfl, hbytes]

/-- A text that is large enough is not moved. -/
theorem adds_large (r : Room) (ps : List Piece) (h : r.len + (said ps).length < r.alen) :
    r.adds ps = ⟨r.len + (said ps).length, r.alen⟩ := by
  induction ps generalizing r with
  | nil => rfl
  | cons p ps ih =>
    simp only [said, List.length_append] at h ⊢
    have hadd : r.add (p.getD []).length = ⟨r.len + (p.getD []).length, r.alen⟩ := by
      unfold Room.add
      rw [if_neg (by omega)]
    rw [Room.adds, hadd, ih _ (by simpa only [Nat.add_assoc] using h), Nat.add_assoc]

theorem fits_large (r : Room) (parts : List Part) (h : r.len + (printed parts).length < r.alen) :
    Fits r parts := by
  induction parts generalizing r with
  | nil => trivial
  | cons p parts ih =>
    simp only [printed, List.length_append] at h
    have hlost := adds_large r p.lost (by omega)
    refine ⟨Or.inr (by omega), ?_⟩
    rw [hlost, adds_large _ p.kept (by dsimp only; omega)]
    exact ih _ (by dsimp only; omega)

theorem adds_le (r : Room) (ps : List Piece) :
    (r.adds ps).len = r.len + (said ps).length ∧ r.alen ≤ (r.adds ps).alen := by
  induction ps generalizing r with
  | nil => exact ⟨rfl, Nat.le_refl _⟩
  | cons p ps ih =>
    obtain ⟨hlen, halen⟩ := ih (r.add (p.getD []).length)
    have hadd : r.alen ≤ (r.add (p.getD []).length).alen := by
      unfold Room.add
      dsimp only
      split
      · omega
      · exact Nat.le_refl _
    refine ⟨?_, Nat.le_trans hadd halen⟩
    rw [Room.adds, hlen, said, List.length_append, ← Nat.add_assoc]
    rfl

/-- Every text has room for what is lost early. -/
theorem fits_of_early (r : Room) {parts : List Part} (h : Early r.len parts) (halen : minSize ≤ r.alen) :
    Fits r parts := by
  induction parts generalizing r with
  | nil => trivial
  | cons p parts ih =>
    obtain ⟨hlost, hmore⟩ := h
    obtain ⟨hlen₁, halen₁⟩ := adds_le r p.lost
    obtain ⟨hlen₂, halen₂⟩ := adds_le (r.adds p.lost) p.kept
    refine ⟨hlost.imp_right fun hroom => by omega, ih _ ?_ (by omega)⟩
    rw [hlen₂, hlen₁]
    exact hmore

/-- What is lost later moves a text of some capacity. -/
theorem exists_not_fits {parts : List Part} (hlost : ∀ p ∈ parts, p.lost ≠ [] → 0 < (said p.lost).length) (n : ℕ)
    (h : ¬ Early n parts) : ∃ cap, minSize ≤ cap ∧ n < cap ∧ ¬ Fits ⟨n, cap⟩ parts := by
  induction parts generalizing n with
  | nil => exact absurd trivial h
  | cons p parts ih =>
    by_cases hp : p.lost = [] ∨ n + (said p.lost).length < minSize
    · have hmore : ¬ Early (n + (said p.lost).length + (said p.kept).length) parts := fun he => h ⟨hp, he⟩
      obtain ⟨cap, hmin, hcap, hnot⟩ := ih (fun q hq => hlost q (.tail _ hq)) _ hmore
      refine ⟨cap, hmin, by omega, fun hfits => hnot ?_⟩
      have hrest := hfits.2
      rw [adds_large _ p.lost (by dsimp only; omega), adds_large _ p.kept (by dsimp only; omega)] at hrest
      exact hrest
    · rw [not_or, Nat.not_lt] at hp
      have hpos := hlost p (.head _) hp.1
      refine ⟨max minSize (n + 1), Nat.le_max_left _ _, by omega, fun hfits => ?_⟩
      rcases hfits.1 with hnil | hroom
      · exact hp.1 hnil
      · dsimp only at hroom
        omega

theorem outcome_large {f : ℕ → Print ℕ} {parts : List Part} (h : Runs f parts) (hfault : ¬ Faulty parts)
    {start : Bytes} {cap : ℕ} (hcap : start.length + (printed parts).length < cap) :
    outcome f start cap = some (start ++ printed parts) :=
  outcome_good h hfault (fits_large ⟨start.length, cap⟩ parts hcap)

/-- The capacity does not matter where nothing is lost but early. -/
theorem steady_iff {f : ℕ → Print ℕ} {parts : List Part} (h : Runs f parts)
    (hlost : ∀ p ∈ parts, p.lost ≠ [] → 0 < (said p.lost).length) (start : Bytes) :
    Steady f start ↔ Faulty parts ∨ Early start.length parts := by
  constructor
  · intro hsteady
    by_contra hcon
    obtain ⟨hfault, hearly⟩ := not_or.mp hcon
    obtain ⟨cap, hmin, -, hnot⟩ := exists_not_fits hlost start.length hearly
    have hsame := hsteady cap (minSize + (start.length + (printed parts).length + 1)) hmin (Nat.le_add_right _ _)
    rw [outcome_bad h (Or.inr hnot), outcome_large h hfault (by omega)] at hsame
    cases hsame
  · intro hcond cap cap' hcap hcap'
    by_cases hfault : Faulty parts
    · rw [outcome_bad h (Or.inl hfault), outcome_bad h (Or.inl hfault)]
    · have hearly := hcond.resolve_left hfault
      rw [outcome_good h hfault (fits_of_early ⟨start.length, cap⟩ hearly hcap),
        outcome_good h hfault (fits_of_early ⟨start.length, cap'⟩ hearly hcap')]

theorem asLarge_iff {f : ℕ → Print ℕ} {parts : List Part} (h : Runs f parts) (start : Bytes) (cap : ℕ) :
    AsLarge f start cap ↔ Faulty parts ∨ Fits ⟨start.length, cap⟩ parts := by
  constructor
  · rintro ⟨big, hbig⟩
    by_contra hcon
    rw [not_or] at hcon
    have hsame := hbig (big + (start.length + (printed parts).length + 1)) (Nat.le_add_right _ _)
    rw [outcome_bad h (Or.inr hcon.2), outcome_large h hcon.1 (by omega)] at hsame
    cases hsame
  · intro hcond
    refine ⟨start.length + (printed parts).length + 1, fun cap' hcap => ?_⟩
    by_cases hfault : Faulty parts
    · rw [outcome_bad h (Or.inl hfault), outcome_bad h (Or.inl hfault)]
    · rw [outcome_large h hfault hcap, outcome_good h hfault (hcond.resolve_left hfault)]

/-! ## Schemas and documents in parts -/

section

variable (fmt : FloatLit → Bytes) (typeName dirName : ℕ → Bytes)

theorem textLen_live (st : Store) : textLen st.live st = some (st.bytes.length, st) := if_neg fun h => h rfl

theorem textLen_stale {text : ℕ} {st : Store} (h : text ≠ st.live) : textLen text st = none := if_pos h

/-- A type: its description is lost. -/
def typeOnly (withDesc : Bool) (type : GqlType) : Part :=
  ⟨piecesIf (withDesc = true) (descPieces type.desc 0), bodyPieces fmt typeName dirName type withDesc⟩

/-- A type of the array, and the newline behind it. -/
def typePart (withDesc : Bool) (type : GqlType) (last : Bool) : Part :=
  ⟨(typeOnly fmt typeName dirName withDesc type).lost, (typeOnly fmt typeName dirName withDesc type).kept ++
    piecesIf (last = false ∧ 0 < (printed [typeOnly fmt typeName dirName withDesc type]).length)
      [some (bytes "\n")]⟩

theorem type_runs (withDesc : Bool) (type : GqlType) :
    Runs (fun text => gqlTypeSdl fmt typeName dirName text type withDesc)
      [typeOnly fmt typeName dirName withDesc type] := by
  simp only [gqlTypeSdl, desc_eq, printIf_eq, body_eq]
  exact runs_lost _ _

theorem gap_stale (c : Prop) [Decidable c] (len : ℕ) {text : ℕ} {st : Store} (h : text ≠ st.live) :
    Stale (printIf c text (fun text => gapSdl len text) st) := by
  unfold printIf
  split
  · show Stale ((textLen text st).bind _)
    rw [textLen_stale h]
    exact stale_none
  · exact puts_stale [] h

/-- The newline is there if the text has grown. -/
theorem gap_live (c : Prop) [Decidable c] (len : ℕ) (st : Store) :
    printIf c st.live (fun text => gapSdl len text) st =
      puts st.live (piecesIf (c ∧ len < st.bytes.length) [some (bytes "\n")]) st := by
  have hgap : gapSdl len st.live st = puts st.live (piecesIf (len < st.bytes.length) [some (bytes "\n")]) st := by
    show (textLen st.live st).bind _ = _
    rw [textLen_live]
    simp only [lit_eq, printIf_eq]
    rfl
  by_cases hc : c
  · simp only [printIf, hc, if_true, true_and, hgap]
  · simp only [printIf, piecesIf, hc, if_false, false_and]
    rfl

theorem piecesIf_congr {c d : Prop} [Decidable c] [Decidable d] (h : c ↔ d) (ps : List Piece) :
    piecesIf c ps = piecesIf d ps := by
  simp only [piecesIf, h]

theorem none_not_mem_gap (c : Prop) [Decidable c] (bs : Bytes) : none ∉ piecesIf c [some bs] := by
  unfold piecesIf
  split
  · simp
  · simp

theorem typeLines_runs (withDesc : Bool) (type : GqlType) (last : Bool) :
    Runs (fun text => typeLinesSdl fmt typeName dirName text type withDesc last)
      [typePart fmt typeName dirName withDesc type last] := by
  have htype := type_runs fmt typeName dirName withDesc type
  -- The newline is kept, so it decides neither whether there is a fault nor whether there is room.
  have hfaulty : Faulty [typePart fmt typeName dirName withDesc type last] ↔
      Faulty [typeOnly fmt typeName dirName withDesc type] := by
    simp only [Faulty, typePart, List.mem_singleton, exists_eq_left, List.mem_append, none_not_mem_gap, or_false]
  have hfits : ∀ r, Fits r [typePart fmt typeName dirName withDesc type last] ↔
      Fits r [typeOnly fmt typeName dirName withDesc type] :=
    fun r => Iff.rfl
  refine ⟨?_, ?_, ?_⟩
  · intro text st h
    show Stale ((textLen text st).bind _)
    rw [textLen_stale h]
    exact stale_none
  · intro st h
    rw [hfaulty, hfits] at h
    show Stale ((textLen st.live st).bind _)
    rw [textLen_live]
    exact (htype.bad st h).bind fun text st h => gap_stale _ _ h
  · intro st hfault hfit
    rw [hfaulty] at hfault
    rw [hfits] at hfit
    obtain ⟨st₁, hrun₁, hbytes₁, hroom₁⟩ := htype.good st hfault hfit
    have hgap : piecesIf (last = false ∧ st.bytes.length < st₁.bytes.length) [some (bytes "\n")] =
        piecesIf (last = false ∧ 0 < (printed [typeOnly fmt typeName dirName withDesc type]).length)
          [some (bytes "\n")] := by
      apply piecesIf_congr
      apply and_congr_right'
      rw [hbytes₁, List.length_append]
      omega
    obtain ⟨st₂, hrun₂, hbytes₂, hroom₂, -, -⟩ := puts_live _ st₁
      (none_not_mem_gap (last = false ∧ st.bytes.length < st₁.bytes.length) (bytes "\n"))
    refine ⟨st₂, ?_, ?_, ?_⟩
    · show (textLen st.live st).bind _ = _
      rw [textLen_live]
      show (gqlTypeSdl fmt typeName dirName st.live type withDesc st).bind _ = _
      rw [hrun₁]
      show printIf (last = false) st₁.live (fun text => gapSdl st.bytes.length text) st₁ = _
      rw [gap_live]
      exact hrun₂
    · rw [hbytes₂, hgap, hbytes₁]
      simp only [printed, typePart, said_append, List.append_assoc, List.append_nil]
    · rw [hroom₂, hgap, hroom₁]
      simp only [Room.after, typePart, adds_append]

/-- The parts of `gql_schema_sdl`. -/
def schemaParts (types : List GqlType) (dirs : List GqlDir) (withDesc all : Bool) : List Part :=
  eachParts (typePart fmt typeName dirName withDesc) (printedTypes types all) ++
    [⟨[], eachPieces (fun d _ => dirLinesPieces fmt typeName dirName d withDesc)
      (dirs.filter fun d => all || !d.core)⟩]

theorem schema_runs (types : List GqlType) (dirs : List GqlDir) (withDesc all : Bool) :
    Runs (gqlSchemaSdl fmt typeName dirName types dirs withDesc all)
      (schemaParts fmt typeName dirName types dirs withDesc all) := by
  have htypes := runs_each (typeLines_runs fmt typeName dirName withDesc) (printedTypes types all)
  unfold gqlSchemaSdl
  simp only [dirLines_eq, each_eq]
  exact htypes.bind (runs_puts _)

/-- The parts of `gql_doc_sdl`: the operations are lost. -/
def docParts (doc : GqlDoc ℕ ℕ) : List Part :=
  eachParts (fun op _ => ⟨opPieces fmt typeName dirName op, []⟩) doc.ops ++
    [⟨[], eachPieces (fun frag _ => fragPieces fmt typeName dirName frag) doc.frags⟩]

theorem opLines_runs (op : GqlOp ℕ ℕ) :
    Runs (fun text => opLinesSdl fmt typeName dirName text op) [⟨opPieces fmt typeName dirName op, []⟩] := by
  simp only [opLinesSdl, op_eq]
  exact runs_lost _ []

theorem doc_runs (doc : GqlDoc ℕ ℕ) :
    Runs (gqlDocSdl fmt typeName dirName doc) (docParts fmt typeName dirName doc) := by
  have hops := runs_each (g := fun op _ => ⟨opPieces fmt typeName dirName op, []⟩)
    (fun op _ => opLines_runs fmt typeName dirName op) doc.ops
  unfold gqlDocSdl
  simp only [frag_eq, each_eq]
  exact hops.bind (runs_puts _)

theorem forall_eachParts {α : Type} {g : α → Bool → Part} {P : Part → Prop} (h : ∀ x last, P (g x last))
    (xs : List α) : ∀ p ∈ eachParts g xs, P p := by
  induction xs with
  | nil => simp [eachParts]
  | cons x xs ih => simpa [eachParts, h] using ih

/-- A description that is printed is not empty. -/
theorem desc_said (desc : Bytes) : 0 < (said (descPieces (some desc) 0)).length := by
  cases hplain : plainDesc desc with
  | true => simp [descPieces, hplain, piecesIf, said, bytes]
  | false => simp [descPieces, hplain, piecesIf, said, bytes]

theorem schema_said (types : List GqlType) (dirs : List GqlDir) (withDesc all : Bool) :
    ∀ p ∈ schemaParts fmt typeName dirName types dirs withDesc all, p.lost ≠ [] → 0 < (said p.lost).length := by
  have htype : ∀ type last, (typePart fmt typeName dirName withDesc type last).lost ≠ [] →
      0 < (said (typePart fmt typeName dirName withDesc type last).lost).length := by
    intro type last
    cases withDesc with
    | false => exact fun h => absurd rfl h
    | true =>
      cases hdesc : type.desc with
      | none => exact fun h => absurd (by simp [typePart, typeOnly, piecesIf, hdesc, descPieces]) h
      | some desc =>
        intro _
        simpa [typePart, typeOnly, piecesIf, hdesc] using desc_said desc
  simp only [schemaParts, List.forall_mem_append, List.forall_mem_singleton]
  exact ⟨forall_eachParts htype _, fun h => absurd rfl h⟩

/-- No operation is so short that every text has room for it. -/
theorem minSize_le_op (op : GqlOp ℕ ℕ) : minSize ≤ (said (opPieces fmt typeName dirName op)).length := by
  have hkind : 5 ≤ op.kind.str.length := by cases op.kind <;> decide
  have hopen : (bytes " \x7b\n").length = 3 := rfl
  simp only [opPieces, selSetPieces, said_append, said, Option.getD_some, List.length_append, hopen, minSize]
  omega

theorem doc_said (doc : GqlDoc ℕ ℕ) :
    ∀ p ∈ docParts fmt typeName dirName doc, p.lost ≠ [] → 0 < (said p.lost).length := by
  have hops := forall_eachParts (g := fun op _ => ⟨opPieces fmt typeName dirName op, []⟩)
    (P := fun p => p.lost ≠ [] → 0 < (said p.lost).length)
    (fun op _ _ => Nat.lt_of_lt_of_le (by decide) (minSize_le_op fmt typeName dirName op)) doc.ops
  simp only [docParts, List.forall_mem_append, List.forall_mem_singleton]
  exact ⟨hops, fun h => absurd rfl h⟩

theorem early_doc (n : ℕ) (doc : GqlDoc ℕ ℕ) : Early n (docParts fmt typeName dirName doc) ↔ doc.ops = [] := by
  unfold docParts
  cases doc.ops with
  | nil => simp [eachParts, Early]
  | cons op ops =>
    have hop := minSize_le_op fmt typeName dirName op
    have hmin : 0 < minSize := by decide
    refine ⟨fun h => ?_, fun h => nomatch h⟩
    rcases h.1 with hnil | hroom
    · rw [show opPieces fmt typeName dirName op = [] from hnil] at hop
      exact absurd hop (Nat.not_le.mpr hmin)
    · dsimp only at hroom
      omega

/-- Documents without operations are printed the same whatever the capacity, and schemas without descriptions of
types that end behind the first bytes. For the others it depends on the capacity: such a description, or an
operation, must not move the text. -/
theorem printers_iff (types : List GqlType) (dirs : List GqlDir) (withDesc all : Bool) (doc : GqlDoc ℕ ℕ)
    (start : Bytes) :
    (Steady (gqlSchemaSdl fmt typeName dirName types dirs withDesc all) start ↔
      Faulty (schemaParts fmt typeName dirName types dirs withDesc all) ∨
        Early start.length (schemaParts fmt typeName dirName types dirs withDesc all)) ∧
    (Steady (gqlDocSdl fmt typeName dirName doc) start ↔
      Faulty (docParts fmt typeName dirName doc) ∨ doc.ops = []) ∧
    ∀ cap,
      (AsLarge (gqlSchemaSdl fmt typeName dirName types dirs withDesc all) start cap ↔
        Faulty (schemaParts fmt typeName dirName types dirs withDesc all) ∨
          Fits ⟨start.length, cap⟩ (schemaParts fmt typeName dirName types dirs withDesc all)) ∧
      (AsLarge (gqlDocSdl fmt typeName dirName doc) start cap ↔
        Faulty (docParts fmt typeName dirName doc) ∨
          Fits ⟨start.length, cap⟩ (docParts fmt typeName dirName doc)) := by
  have hschema := schema_runs fmt typeName dirName types dirs withDesc all
  have hdoc := doc_runs fmt typeName dirName doc
  refine ⟨?_, ?_, fun cap => ⟨asLarge_iff hschema start cap, asLarge_iff hdoc start cap⟩⟩
  · exact steady_iff hschema (schema_said fmt typeName dirName types dirs withDesc all) start
  · rw [steady_iff hdoc (doc_said fmt typeName dirName doc) start, early_doc]

end

/-- The document `{ a }`. -/
def fieldDoc : GqlDoc ℕ ℕ :=
  ⟨[⟨none, [], [], [.mk none (some (bytes "a")) none [] [] [] false none [] []], .query⟩], [], []⟩

/-- In a text of the smallest size it is lost, in one of the usual size it is not. -/
theorem small_text_is_lost :
    outcome (gqlDocSdl (fun _ => []) (fun _ => []) (fun _ => []) fieldDoc) [] 8 = none ∧
      outcome (gqlDocSdl (fun _ => []) (fun _ => []) (fun _ => []) fieldDoc) [] 4096 =
        some (bytes "query \x7b\n  a\n\x7d\n") ∧
      ¬ ∀ doc : GqlDoc ℕ ℕ, Steady (gqlDocSdl (fun _ => []) (fun _ => []) (fun _ => []) doc) [] := by
  have hsmall : outcome (gqlDocSdl (fun _ => []) (fun _ => []) (fun _ => []) fieldDoc) [] 8 = none := by decide
  have hlarge : outcome (gqlDocSdl (fun _ => []) (fun _ => []) (fun _ => []) fieldDoc) [] 4096 =
      some (bytes "query \x7b\n  a\n\x7d\n") := by decide
  refine ⟨hsmall, hlarge, fun hall => ?_⟩
  have hsame := hall fieldDoc 8 4096 (by decide) (by decide)
  rw [hsmall, hlarge] at hsame
  cases hsame

end SdlPrint

end Agoo
