import Agoo.SdlRoundTrip
import Mathlib.Data.List.GetD

/-!
# Indentation (`list_to_json`, `gql_object_to_json`, `list_to_sdl`, `gql_object_to_sdl`)

A newline and blanks are copied from a table before each member and before the closing byte. Only the offset
of the closing byte is compared with the size of the table. `indent_iff`: where the indentation adds nothing
but white space and is taken from the table. A time and a UUID are printed as the string of their text.
-/

namespace Agoo

/-! ## Pieces with white space between them -/

section

variable {β : Type} {blank : β → Prop}

/-- The pieces in their order, with blanks before, between and behind them. -/
inductive Spaced (blank : β → Prop) : List (List β) → List β → Prop
  | done : Spaced blank [] []
  | blank {c : β} {ps : List (List β)} {t : List β} (hc : blank c) (h : Spaced blank ps t) :
      Spaced blank ps (c :: t)
  | piece (p : List β) {ps : List (List β)} {t : List β} (h : Spaced blank ps t) :
      Spaced blank (p :: ps) (p ++ t)

theorem Spaced.flatten : ∀ ps : List (List β), Spaced blank ps ps.flatten
  | [] => .done
  | p :: ps => .piece p (flatten ps)

theorem Spaced.pad {ps : List (List β)} {s t : List β} (hs : ∀ c ∈ s, blank c) (h : Spaced blank ps t) :
    Spaced blank ps (s ++ t) := by
  induction s with
  | nil => exact h
  | cons c s ih =>
    rw [List.forall_mem_cons] at hs
    exact .blank hs.1 (ih hs.2)

theorem Spaced.append {ps qs : List (List β)} {s t : List β} (hs : Spaced blank ps s)
    (ht : Spaced blank qs t) : Spaced blank (ps ++ qs) (s ++ t) := by
  induction hs with
  | done => exact ht
  | blank hc _ ih => exact .blank hc ih
  | piece p _ ih =>
    rw [List.append_assoc]
    exact .piece p ih

/-- What is no blank is in the pieces as often as in the text. -/
theorem Spaced.count_eq [DecidableEq β] {c : β} (hc : ¬ blank c) {ps : List (List β)} {t : List β}
    (h : Spaced blank ps t) : t.count c = ps.flatten.count c := by
  induction h with
  | done => rfl
  | blank hb _ ih =>
    have hne : _ ≠ c := fun he => hc (he ▸ hb)
    rw [List.count_cons_of_ne hne, ih]
  | piece p _ ih => rw [List.flatten_cons, List.count_append, List.count_append, ih]

end

theorem rel_bind {α β : Type} {R : α → α → Prop} {S : β → β → Prop} {a a' : Option α} {f f' : α → Option β}
    (h : Option.Rel R a a') (hf : ∀ x y, R x y → Option.Rel S (f x) (f' y)) :
    Option.Rel S (a >>= f) (a' >>= f') := by
  cases h with
  | some hxy => exact hf _ _ hxy
  | none => exact .none

/-! ## The pieces of a printed value -/

variable {τ : Type} {fmt : FloatLit → Bytes} {indent : ℤ}

mutual

/-- The pieces of a printed value: strings, numbers and words are whole. -/
def pieces (txt : GqlValue τ → Bytes) (name : Bytes → Bytes) : GqlValue τ → List Bytes
  | .list _ ms => bytes "[" :: (listPieces txt name ms ++ [bytes "]"])
  | .object ms => bytes "\x7b" :: (memberPieces txt name ms ++ [bytes "\x7d"])
  | v => [txt v]

def listPieces (txt : GqlValue τ → Bytes) (name : Bytes → Bytes) : List (GqlValue τ) → List Bytes
  | [] => []
  | m :: ms => pieces txt name m ++ comma ms :: listPieces txt name ms

def memberPieces (txt : GqlValue τ → Bytes) (name : Bytes → Bytes) :
    List (Bytes × GqlValue τ) → List Bytes
  | [] => []
  | (key, m) :: ms => name key :: (pieces txt name m ++ comma ms :: memberPieces txt name ms)

end

def jsonName (key : Bytes) : Bytes := bytes "\"" ++ cstr key ++ bytes "\":"

def sdlName (key : Bytes) : Bytes := cstr key ++ bytes ":"

def jsonPieces (fmt : FloatLit → Bytes) : GqlValue τ → List Bytes := pieces (valueJson fmt 0 0) jsonName

def sdlPieces (fmt : FloatLit → Bytes) : GqlValue τ → List Bytes := pieces (SdlText.sdlText fmt) sdlName

/-- The white space of the table. -/
def IsSpaces (c : Byte) : Prop := c = chr '\n' ∨ c = chr ' '

/-- `t` is `s` with more white space between its pieces. -/
structure MoreSpaces (ps : List Bytes) (s t : Bytes) : Prop where
  whole : s = ps.flatten
  spaced : Spaced IsSpaces ps t

theorem moreSpaces_piece (p : Bytes) : MoreSpaces [p] p p := by
  have hp : p = [p].flatten := by simp
  refine ⟨hp, ?_⟩
  conv => arg 3; rw [hp]
  exact .flatten [p]

theorem MoreSpaces.append {ps qs : List Bytes} {s s' t t' : Bytes} (h : MoreSpaces ps s t)
    (h' : MoreSpaces qs s' t') : MoreSpaces (ps ++ qs) (s ++ s') (t ++ t') :=
  ⟨by rw [List.flatten_append, h.whole, h'.whole], h.spaced.append h'.spaced⟩

theorem MoreSpaces.pad {ps : List Bytes} {w s t : Bytes} (hw : ∀ c ∈ w, IsSpaces c)
    (h : MoreSpaces ps s t) : MoreSpaces ps s (w ++ t) :=
  ⟨h.whole, h.spaced.pad hw⟩

/-! ## What is copied from the table -/

/-- How many bytes `agoo_text_append(text, spaces, n)` copies. -/
def copied (n : ℤ) : ℤ := if n ≤ 0 then strlen spaces else n

def memberCopied (indent depth : ℤ) : List ℤ :=
  if 0 < (indents indent depth).2 then [copied (indents indent depth).2] else []

def endCopied (indent depth : ℤ) : List ℤ :=
  if 0 < indent then [copied (indents indent depth).1] else []

mutual

/-- The copies from the table when a value is printed. -/
def copies (indent : ℤ) : ℤ → GqlValue τ → List ℤ
  | depth, .list _ ms => listCopies indent depth ms ++ endCopied indent depth
  | depth, .object ms => memberCopies indent depth ms ++ endCopied indent depth
  | _, _ => []

def listCopies (indent : ℤ) : ℤ → List (GqlValue τ) → List ℤ
  | _, [] => []
  | depth, m :: ms => memberCopied indent depth ++ copies indent (depth + 1) m ++ listCopies indent depth ms

def memberCopies (indent : ℤ) : ℤ → List (Bytes × GqlValue τ) → List ℤ
  | _, [] => []
  | depth, (_, m) :: ms =>
    memberCopied indent depth ++ copies indent (depth + 1) m ++ memberCopies indent depth ms

end

/-- `i` before it is compared with the size of the table. -/
def offset (indent depth : ℤ) : ℤ := toInt (indent * depth + if 0 < indent then 1 else 0)

/-- The offset of the closing byte is within the table and that of the members is not. -/
def Overruns (indent depth : ℤ) : Prop := offset indent depth ≤ 256 ∧ 256 < offset indent (depth + 1)

instance (indent depth : ℤ) : Decidable (Overruns indent depth) := inferInstanceAs (Decidable (_ ∧ _))

/-- A list or object in a value that has a member, so far inside. -/
inductive FilledAt : GqlValue τ → ℕ → Prop
  | list (item : Option τ) (m : GqlValue τ) (ms : List (GqlValue τ)) : FilledAt (.list item (m :: ms)) 0
  | object (m : Bytes × GqlValue τ) (ms : List (Bytes × GqlValue τ)) : FilledAt (.object (m :: ms)) 0
  | item {item : Option τ} {ms : List (GqlValue τ)} {m : GqlValue τ} {n : ℕ} (hm : m ∈ ms)
      (h : FilledAt m n) : FilledAt (.list item ms) (n + 1)
  | member {ms : List (Bytes × GqlValue τ)} {m : Bytes × GqlValue τ} {n : ℕ} (hm : m ∈ ms)
      (h : FilledAt m.2 n) : FilledAt (.object ms) (n + 1)

theorem indents_eq (depth : ℤ) :
    indents indent depth =
      if 257 ≤ offset indent depth then (256 - indent, 256)
      else (offset indent depth, offset indent (depth + 1)) := by
  have hnext : indent * (depth + 1) = indent * depth + indent := by rw [Int.mul_add, Int.mul_one]
  unfold indents offset
  rw [hnext]

theorem end_le (hindent : 0 < indent) (depth : ℤ) : (indents indent depth).1 ≤ 256 := by
  rw [indents_eq]
  split
  · show 256 - indent ≤ 256
    omega
  · show offset indent depth ≤ 256
    omega

theorem member_le {depth : ℤ} : (indents indent depth).2 ≤ 256 ↔ ¬ Overruns indent depth := by
  rw [indents_eq]
  unfold Overruns
  split
  · show (256 : ℤ) ≤ 256 ↔ _
    omega
  · show offset indent (depth + 1) ≤ 256 ↔ _
    omega

theorem length_spaces : spaces.length = 256 := by
  rw [spaces, List.length_cons, List.length_replicate]

theorem mem_spaces {c : Byte} (hc : c ∈ spaces) : IsSpaces c := by
  rcases List.mem_cons.mp hc with rfl | hc
  · exact .inl rfl
  · exact .inr (List.eq_of_mem_replicate hc)

theorem not_isSpaces_zero : ¬ IsSpaces 0 := by
  rintro (h | h)
  · exact absurd h (by decide)
  · exact absurd h (by decide)

theorem pad_spaces {n : ℤ} (hn : n ≤ 256) : ∀ c ∈ pad n, IsSpaces c := by
  intro c hc
  unfold pad at hc
  split at hc
  · exact mem_spaces hc
  · obtain ⟨k, hk, rfl⟩ := List.mem_map.mp hc
    have hlt : k < spaces.length := by
      have := List.mem_range.mp hk
      rw [length_spaces]
      omega
    rw [at0, List.getD_eq_getElem _ _ hlt]
    exact mem_spaces (List.getElem_mem hlt)

/-- A copy of more than the newline and the blanks has the terminator in it. -/
theorem zero_mem_pad {n : ℤ} (hn : 256 < n) : 0 ∈ pad n := by
  unfold pad
  rw [if_neg (by omega)]
  exact List.mem_map.mpr ⟨256, List.mem_range.mpr (by omega), rfl⟩

theorem memberPad_spaces {depth : ℤ} (h : ¬ Overruns indent depth) :
    ∀ c ∈ memberPad indent depth, IsSpaces c := by
  intro c hc
  unfold memberPad at hc
  split at hc
  · exact pad_spaces (member_le.mpr h) c hc
  · cases hc

theorem endPad_spaces (indent depth : ℤ) : ∀ c ∈ endPad indent depth, IsSpaces c := by
  intro c hc
  unfold endPad at hc
  split at hc
  · next hindent => exact pad_spaces (end_le hindent depth) c hc
  · cases hc

theorem zero_mem_memberPad {depth : ℤ} (h : Overruns indent depth) : 0 ∈ memberPad indent depth := by
  have hlt : 256 < (indents indent depth).2 := by
    by_contra hle
    exact member_le.mp (Int.not_lt.mp hle) h
  unfold memberPad
  rw [if_pos (by omega)]
  exact zero_mem_pad hlt

/-- No list or object that has a member is where the members begin behind the table. -/
def StaysInTable (indent depth : ℤ) (v : GqlValue τ) : Prop :=
  ∀ n : ℕ, FilledAt v n → ¬ Overruns indent (depth + n)

theorem StaysInTable.list {item : Option τ} {ms : List (GqlValue τ)} {depth : ℤ}
    (h : StaysInTable indent depth (.list item ms)) :
    (ms ≠ [] → ¬ Overruns indent depth) ∧ ∀ m ∈ ms, StaysInTable indent (depth + 1) m := by
  refine ⟨fun hne => ?_, fun m hm n hn => ?_⟩
  · obtain ⟨m, more, rfl⟩ := List.exists_cons_of_ne_nil hne
    simpa using h 0 (.list item m more)
  · have hdeep := h (n + 1) (.item hm hn)
    rwa [show depth + ((n + 1 : ℕ) : ℤ) = depth + 1 + n by omega] at hdeep

theorem StaysInTable.object {ms : List (Bytes × GqlValue τ)} {depth : ℤ}
    (h : StaysInTable indent depth (.object ms)) :
    (ms ≠ [] → ¬ Overruns indent depth) ∧ ∀ m ∈ ms, StaysInTable indent (depth + 1) m.2 := by
  refine ⟨fun hne => ?_, fun m hm n hn => ?_⟩
  · obtain ⟨m, more, rfl⟩ := List.exists_cons_of_ne_nil hne
    simpa using h 0 (.object m more)
  · have hdeep := h (n + 1) (.member hm hn)
    rwa [show depth + ((n + 1 : ℕ) : ℤ) = depth + 1 + n by omega] at hdeep

/-! ## The printed text -/

theorem listJson_spaces {depth : ℤ} {ms : List (GqlValue τ)}
    (hpad : ms ≠ [] → ¬ Overruns indent depth)
    (ih : ∀ m ∈ ms, MoreSpaces (jsonPieces fmt m) (valueJson fmt 0 (depth + 1) m)
      (valueJson fmt indent (depth + 1) m)) :
    MoreSpaces (listPieces (valueJson fmt 0 0) jsonName ms) (listJson fmt 0 depth ms)
      (listJson fmt indent depth ms) := by
  induction ms with
  | nil => exact ⟨rfl, .done⟩
  | cons m ms ihms =>
    have hmore := ihms (fun _ => hpad (List.cons_ne_nil m ms)) fun u hu => ih u (.tail _ hu)
    have hone := ((ih m (.head _)).append (moreSpaces_piece (comma ms))).append hmore
    rw [listJson, listJson, memberPad_zero, List.nil_append, List.append_assoc (memberPad indent depth),
      List.append_assoc (memberPad indent depth), listPieces]
    rw [List.append_assoc (jsonPieces fmt m)] at hone
    exact hone.pad (memberPad_spaces (hpad (List.cons_ne_nil m ms)))

theorem membersJson_spaces {depth : ℤ} {ms : List (Bytes × GqlValue τ)}
    (hpad : ms ≠ [] → ¬ Overruns indent depth)
    (ih : ∀ m ∈ ms, MoreSpaces (jsonPieces fmt m.2) (valueJson fmt 0 (depth + 1) m.2)
      (valueJson fmt indent (depth + 1) m.2)) :
    MoreSpaces (memberPieces (valueJson fmt 0 0) jsonName ms) (membersJson fmt 0 depth ms)
      (membersJson fmt indent depth ms) := by
  induction ms with
  | nil => exact ⟨rfl, .done⟩
  | cons m ms ihms =>
    obtain ⟨key, m⟩ := m
    have hmore := ihms (fun _ => hpad (List.cons_ne_nil _ ms)) fun u hu => ih u (.tail _ hu)
    have hone := (moreSpaces_piece (jsonName key)).append
      (((ih _ (.head _)).append (moreSpaces_piece (comma ms))).append hmore)
    have hspaces := hone.pad (memberPad_spaces (hpad (List.cons_ne_nil _ ms)))
    simpa only [membersJson, memberPieces, memberPad_zero, jsonName, jsonPieces, List.nil_append,
      List.append_assoc, List.cons_append] using hspaces

/-- Within the table the indentation only adds white space to the JSON text. -/
theorem valueJson_spaces (v : GqlValue τ) {depth : ℤ} (h : StaysInTable indent depth v) :
    MoreSpaces (jsonPieces fmt v) (valueJson fmt 0 depth v) (valueJson fmt indent depth v) := by
  induction v using GqlValue.tree generalizing depth with
  | list item ms ih =>
    have hinside := listJson_spaces h.list.1 fun m hm => ih m hm (h.list.2 m hm)
    have hend := (moreSpaces_piece (bytes "]")).pad (endPad_spaces indent depth)
    have hwhole := (moreSpaces_piece (bytes "[")).append (hinside.append hend)
    simpa only [valueJson, jsonPieces, pieces, endPad_zero, List.append_nil, List.append_assoc,
      List.cons_append, List.nil_append] using hwhole
  | object ms ih =>
    have hinside := membersJson_spaces h.object.1 fun m hm => ih m hm (h.object.2 m hm)
    have hend := (moreSpaces_piece (bytes "\x7d")).pad (endPad_spaces indent depth)
    have hwhole := (moreSpaces_piece (bytes "\x7b")).append (hinside.append hend)
    simpa only [valueJson, jsonPieces, pieces, endPad_zero, List.append_nil, List.append_assoc,
      List.cons_append, List.nil_append] using hwhole
  | _ => exact moreSpaces_piece _

theorem listSdl_spaces {depth : ℤ} {ms : List (GqlValue τ)}
    (hpad : ms ≠ [] → ¬ Overruns indent depth)
    (ih : ∀ m ∈ ms, Option.Rel (MoreSpaces (sdlPieces fmt m)) (valueSdl fmt 0 (depth + 1) m)
      (valueSdl fmt indent (depth + 1) m)) :
    Option.Rel (MoreSpaces (listPieces (SdlText.sdlText fmt) sdlName ms)) (listSdl fmt 0 depth ms)
      (listSdl fmt indent depth ms) := by
  induction ms with
  | nil => exact .some ⟨rfl, .done⟩
  | cons m ms ihms =>
    have hmore := ihms (fun _ => hpad (List.cons_ne_nil m ms)) fun u hu => ih u (.tail _ hu)
    by_cases hm : SdlText.EnumToken m
    · rw [SdlText.listSdl_enum hm, SdlText.listSdl_enum hm]
      exact .none
    · rw [SdlText.listSdl_cons hm, SdlText.listSdl_cons hm]
      refine rel_bind (ih m (.head _)) fun s t hone => rel_bind hmore fun s' t' hmore => .some ?_
      have hwhole := ((hone.append (moreSpaces_piece (comma ms))).append hmore).pad
        (memberPad_spaces (hpad (List.cons_ne_nil m ms)))
      simpa only [listPieces, memberPad_zero, sdlPieces, List.nil_append, List.append_assoc,
        List.cons_append] using hwhole

/-- The colon behind a name, and the blank behind that. -/
theorem colon_spaces (indent : ℤ) (key : Bytes) :
    MoreSpaces [sdlName key] (cstr key ++ bytes ":")
      (cstr key ++ if 0 < indent then bytes ": " else bytes ":") := by
  split
  · have hblank : ∀ c ∈ bytes " ", IsSpaces c := by
      intro c hc
      exact .inr (List.mem_singleton.mp hc)
    have hpiece := (moreSpaces_piece (sdlName key)).append (MoreSpaces.pad hblank ⟨rfl, .done⟩)
    show MoreSpaces _ _ (cstr key ++ (bytes ":" ++ bytes " "))
    simpa only [sdlName, List.append_assoc, List.append_nil, List.flatten_nil] using hpiece
  · exact moreSpaces_piece _

theorem membersSdl_spaces {depth : ℤ} {ms : List (Bytes × GqlValue τ)}
    (hpad : ms ≠ [] → ¬ Overruns indent depth)
    (ih : ∀ m ∈ ms, Option.Rel (MoreSpaces (sdlPieces fmt m.2)) (valueSdl fmt 0 (depth + 1) m.2)
      (valueSdl fmt indent (depth + 1) m.2)) :
    Option.Rel (MoreSpaces (memberPieces (SdlText.sdlText fmt) sdlName ms)) (membersSdl fmt 0 depth ms)
      (membersSdl fmt indent depth ms) := by
  induction ms with
  | nil => exact .some ⟨rfl, .done⟩
  | cons m ms ihms =>
    obtain ⟨key, m⟩ := m
    have hmore := ihms (fun _ => hpad (List.cons_ne_nil _ ms)) fun u hu => ih u (.tail _ hu)
    by_cases hm : SdlText.EnumToken m
    · rw [SdlText.membersSdl_enum hm, SdlText.membersSdl_enum hm]
      exact .none
    · rw [SdlText.membersSdl_cons hm, SdlText.membersSdl_cons hm]
      refine rel_bind (ih _ (.head _)) fun s t hone => rel_bind hmore fun s' t' hmore => .some ?_
      have hvalue := (hone.append (moreSpaces_piece (comma ms))).append hmore
      have hwhole := ((colon_spaces indent key).append hvalue).pad
        (memberPad_spaces (hpad (List.cons_ne_nil _ ms)))
      simpa only [memberPieces, memberPad_zero, sdlPieces, List.nil_append, List.append_assoc,
        List.cons_append, if_neg (Int.lt_irrefl 0)] using hwhole

/-- Within the table it only adds white space to the text in the schema language. -/
theorem valueSdl_spaces (v : GqlValue τ) {depth : ℤ} (h : StaysInTable indent depth v) :
    Option.Rel (MoreSpaces (sdlPieces fmt v)) (valueSdl fmt 0 depth v) (valueSdl fmt indent depth v) := by
  induction v using GqlValue.tree generalizing depth with
  | list item ms ih =>
    have hinside := listSdl_spaces h.list.1 fun m hm => ih m hm (h.list.2 m hm)
    refine rel_bind hinside fun s t hinside => .some ?_
    have hend := (moreSpaces_piece (bytes "]")).pad (endPad_spaces indent depth)
    have hwhole := (moreSpaces_piece (bytes "[")).append (hinside.append hend)
    simpa only [sdlPieces, pieces, endPad_zero, List.append_nil, List.append_assoc,
      List.cons_append, List.nil_append] using hwhole
  | object ms ih =>
    have hinside := membersSdl_spaces h.object.1 fun m hm => ih m hm (h.object.2 m hm)
    refine rel_bind hinside fun s t hinside => .some ?_
    have hend := (moreSpaces_piece (bytes "\x7d")).pad (endPad_spaces indent depth)
    have hwhole := (moreSpaces_piece (bytes "\x7b")).append (hinside.append hend)
    simpa only [sdlPieces, pieces, endPad_zero, List.append_nil, List.append_assoc,
      List.cons_append, List.nil_append] using hwhole
  | _ => exact .some (moreSpaces_piece _)

/-! ## Where the copy is too long -/

theorem copied_le {n : ℤ} (hn : n ≤ 256) : copied n ≤ 257 := by
  have hlen : strlen spaces = 256 := by
    rw [strlen, cstr_of_not_mem fun h => absurd (mem_spaces h) not_isSpaces_zero, length_spaces]
  unfold copied
  rw [hlen]
  split <;> omega

theorem memberCopied_le {depth : ℤ} (h : ¬ Overruns indent depth) : ∀ n ∈ memberCopied indent depth, n ≤ 257 := by
  intro n hn
  unfold memberCopied at hn
  split at hn
  · rw [List.mem_singleton.mp hn]
    exact copied_le (member_le.mpr h)
  · cases hn

theorem endCopied_le (indent depth : ℤ) : ∀ n ∈ endCopied indent depth, n ≤ 257 := by
  intro n hn
  unfold endCopied at hn
  split at hn
  · next hindent =>
    rw [List.mem_singleton.mp hn]
    exact copied_le (end_le hindent depth)
  · cases hn

/-- Within the table no copy is longer than the table. -/
theorem copies_le (v : GqlValue τ) {depth : ℤ} (h : StaysInTable indent depth v) :
    ∀ n ∈ copies indent depth v, n ≤ 257 := by
  induction v using GqlValue.tree generalizing depth with
  | list item ms ih =>
    have hinside : ∀ us, (∀ u ∈ us, u ∈ ms) → ∀ n ∈ listCopies indent depth us, n ≤ 257 := by
      intro us hus
      induction us with
      | nil => exact fun n hn => absurd hn List.not_mem_nil
      | cons u us ihus =>
        obtain ⟨hu, hrest⟩ := List.forall_mem_cons.mp hus
        have hpad := memberCopied_le (h.list.1 (List.ne_nil_of_mem hu))
        simp only [listCopies, List.forall_mem_append]
        exact ⟨⟨hpad, ih u hu (h.list.2 u hu)⟩, ihus hrest⟩
    rw [copies, List.forall_mem_append]
    exact ⟨hinside ms fun _ hu => hu, endCopied_le indent depth⟩
  | object ms ih =>
    have hinside : ∀ us, (∀ u ∈ us, u ∈ ms) → ∀ n ∈ memberCopies indent depth us, n ≤ 257 := by
      intro us hus
      induction us with
      | nil => exact fun n hn => absurd hn List.not_mem_nil
      | cons u us ihus =>
        obtain ⟨hu, hrest⟩ := List.forall_mem_cons.mp hus
        have hpad := memberCopied_le (h.object.1 (List.ne_nil_of_mem hu))
        simp only [memberCopies, List.forall_mem_append]
        exact ⟨⟨hpad, ih u hu (h.object.2 u hu)⟩, ihus hrest⟩
    rw [copies, List.forall_mem_append]
    exact ⟨hinside ms fun _ hu => hu, endCopied_le indent depth⟩
  | _ => exact fun n hn => absurd hn List.not_mem_nil

/-- The terminators that are printed for a list, when there are more of them for a member or before it. -/
theorem listJson_zeros {depth : ℤ} {ms : List (GqlValue τ)} {k : ℕ}
    (ih : ∀ m ∈ ms, (jsonPieces fmt m).flatten.count 0 ≤ (valueJson fmt indent (depth + 1) m).count 0)
    (hk : k = 0 ∨ ms ≠ [] ∧ k ≤ (memberPad indent depth).count 0 ∨ ∃ m ∈ ms,
      (jsonPieces fmt m).flatten.count 0 + k ≤ (valueJson fmt indent (depth + 1) m).count 0) :
    (listPieces (valueJson fmt 0 0) jsonName ms).flatten.count 0 + k ≤
      (listJson fmt indent depth ms).count 0 := by
  induction ms generalizing k with
  | nil =>
    obtain rfl | ⟨hne, -⟩ | ⟨m, hm, -⟩ := hk
    · exact Nat.le_refl 0
    · exact absurd rfl hne
    · exact absurd hm List.not_mem_nil
  | cons m ms ihms =>
    have hone := ih m (.head _)
    have hmore := fun k => @ihms k fun u hu => ih u (.tail _ hu)
    simp only [listPieces, listJson, List.flatten_append, List.flatten_cons, List.count_append]
    unfold jsonPieces at hone hk hmore
    obtain rfl | ⟨-, hk⟩ | ⟨u, hu, hk⟩ := hk
    · have := hmore 0 (.inl rfl)
      omega
    · have := hmore 0 (.inl rfl)
      omega
    · rcases List.mem_cons.mp hu with rfl | hu
      · have := hmore 0 (.inl rfl)
        omega
      · have := hmore k (.inr (.inr ⟨u, hu, hk⟩))
        omega

theorem membersJson_zeros {depth : ℤ} {ms : List (Bytes × GqlValue τ)} {k : ℕ}
    (ih : ∀ m ∈ ms, (jsonPieces fmt m.2).flatten.count 0 ≤ (valueJson fmt indent (depth + 1) m.2).count 0)
    (hk : k = 0 ∨ ms ≠ [] ∧ k ≤ (memberPad indent depth).count 0 ∨ ∃ m ∈ ms,
      (jsonPieces fmt m.2).flatten.count 0 + k ≤ (valueJson fmt indent (depth + 1) m.2).count 0) :
    (memberPieces (valueJson fmt 0 0) jsonName ms).flatten.count 0 + k ≤
      (membersJson fmt indent depth ms).count 0 := by
  induction ms generalizing k with
  | nil =>
    obtain rfl | ⟨hne, -⟩ | ⟨m, hm, -⟩ := hk
    · exact Nat.le_refl 0
    · exact absurd rfl hne
    · exact absurd hm List.not_mem_nil
  | cons m ms ihms =>
    obtain ⟨key, m⟩ := m
    have hone : (jsonPieces fmt m).flatten.count 0 ≤ (valueJson fmt indent (depth + 1) m).count 0 :=
      ih (key, m) (.head _)
    have hmore := fun k => @ihms k fun u hu => ih u (.tail _ hu)
    simp only [memberPieces, membersJson, jsonName, List.flatten_append, List.flatten_cons, List.count_append]
    unfold jsonPieces at hone hk hmore
    obtain rfl | ⟨-, hk⟩ | ⟨u, hu, hk⟩ := hk
    · have := hmore 0 (.inl rfl)
      omega
    · have := hmore 0 (.inl rfl)
      omega
    · rcases List.mem_cons.mp hu with rfl | hu
      · have := hmore 0 (.inl rfl)
        dsimp only at hk
        omega
      · have := hmore k (.inr (.inr ⟨u, hu, hk⟩))
        omega

theorem list_zeros {item : Option τ} {depth : ℤ} {ms : List (GqlValue τ)} {k : ℕ}
    (h : (listPieces (valueJson fmt 0 0) jsonName ms).flatten.count 0 + k ≤
      (listJson fmt indent depth ms).count 0) :
    (jsonPieces fmt (.list item ms)).flatten.count 0 + k ≤
      (valueJson fmt indent depth (.list item ms)).count 0 := by
  simp only [jsonPieces, pieces, valueJson, List.flatten_append, List.flatten_cons, List.flatten_nil,
    List.append_nil, List.count_append]
  omega

theorem object_zeros {depth : ℤ} {ms : List (Bytes × GqlValue τ)} {k : ℕ}
    (h : (memberPieces (valueJson fmt 0 0) jsonName ms).flatten.count 0 + k ≤
      (membersJson fmt indent depth ms).count 0) :
    (jsonPieces fmt (.object ms)).flatten.count 0 + k ≤
      (valueJson fmt indent depth (.object ms)).count 0 := by
  simp only [jsonPieces, pieces, valueJson, List.flatten_append, List.flatten_cons, List.flatten_nil,
    List.append_nil, List.count_append]
  omega

theorem value_zeros (v : GqlValue τ) (depth : ℤ) :
    (jsonPieces fmt v).flatten.count 0 ≤ (valueJson fmt indent depth v).count 0 := by
  induction v using GqlValue.tree generalizing depth with
  | list item ms ih => exact list_zeros (listJson_zeros (fun m hm => ih m hm (depth + 1)) (.inl rfl))
  | object ms ih => exact object_zeros (membersJson_zeros (fun m hm => ih m hm (depth + 1)) (.inl rfl))
  | _ => exact le_of_eq (congrArg (List.count 0) (moreSpaces_piece _).whole.symm)

/-- Behind the table there is a terminator in the text that is in no piece. -/
theorem zeros_lt {v : GqlValue τ} {n : ℕ} (hv : FilledAt v n) {depth : ℤ} (h : Overruns indent (depth + n)) :
    (jsonPieces fmt v).flatten.count 0 < (valueJson fmt indent depth v).count 0 := by
  have hpad {d : ℤ} (hd : Overruns indent d) : 1 ≤ (memberPad indent d).count 0 :=
    List.count_pos_iff.mpr (zero_mem_memberPad hd)
  have hle (d : ℤ) (u : GqlValue τ) := @value_zeros τ fmt indent u d
  induction hv generalizing depth with
  | list item m ms =>
    rw [Int.natCast_zero, Int.add_zero] at h
    exact list_zeros (k := 1) (listJson_zeros (fun u _ => hle _ u) (.inr (.inl ⟨List.cons_ne_nil m ms, hpad h⟩)))
  | object m ms =>
    rw [Int.natCast_zero, Int.add_zero] at h
    exact object_zeros (k := 1)
      (membersJson_zeros (fun u _ => hle _ u.2) (.inr (.inl ⟨List.cons_ne_nil m ms, hpad h⟩)))
  | @item _ ms m n hm _ ih =>
    rw [show depth + ((n + 1 : ℕ) : ℤ) = depth + 1 + n by omega] at h
    exact list_zeros (k := 1) (listJson_zeros (fun u _ => hle _ u) (.inr (.inr ⟨m, hm, ih h⟩)))
  | @member ms m n hm _ ih =>
    rw [show depth + ((n + 1 : ℕ) : ℤ) = depth + 1 + n by omega] at h
    exact object_zeros (k := 1) (membersJson_zeros (fun u _ => hle _ u.2) (.inr (.inr ⟨m, hm, ih h⟩)))

/-! ## The law -/

/-- With indentation both texts have more white space, outside their strings, and nothing else is changed;
what is copied for it is in the table. -/
structure OnlySpaces (fmt : FloatLit → Bytes) (indent depth : ℤ) (v : GqlValue τ) : Prop where
  json : MoreSpaces (jsonPieces fmt v) (valueJson fmt 0 depth v) (valueJson fmt indent depth v)
  sdl : Option.Rel (MoreSpaces (sdlPieces fmt v)) (valueSdl fmt 0 depth v) (valueSdl fmt indent depth v)
  table : ∀ n ∈ copies indent depth v, n ≤ 257

theorem onlySpaces_of_stays (fmt : FloatLit → Bytes) {depth : ℤ} {v : GqlValue τ}
    (h : StaysInTable indent depth v) : OnlySpaces fmt indent depth v :=
  ⟨valueJson_spaces v h, valueSdl_spaces v h, copies_le v h⟩

theorem stays_of_onlySpaces {depth : ℤ} {v : GqlValue τ} (h : OnlySpaces fmt indent depth v) :
    StaysInTable indent depth v := by
  intro n hn hover
  exact (zeros_lt hn hover).ne' (h.json.spaced.count_eq not_isSpaces_zero)

/-- Indentation only adds white space exactly when no list or object with a member lies at a depth where the
closing byte begins in the table and the members behind it. -/
theorem indent_iff (fmt : FloatLit → Bytes) (indent depth : ℤ) (v : GqlValue τ) :
    OnlySpaces fmt indent depth v ↔ StaysInTable indent depth v :=
  ⟨stays_of_onlySpaces, onlySpaces_of_stays fmt⟩

/-- As long as no `int` overflows, the one depth at which the members of a list begin behind the table. -/
theorem overruns_iff {indent depth : ℤ} (hindent : 0 < indent) (hdepth : 0 ≤ depth)
    (hfits : indent * (depth + 1) < 0x7FFFFFFF) : Overruns indent depth ↔ depth = 255 / indent := by
  have hnext : indent * (depth + 1) = indent * depth + indent := by rw [Int.mul_add, Int.mul_one]
  have hpos : 0 ≤ indent * depth := Int.mul_nonneg (Int.le_of_lt hindent) hdepth
  have hthis : offset indent depth = indent * depth + 1 := by
    rw [offset, if_pos hindent]
    exact toInt_of_int (by omega) (by omega)
  have hthat : offset indent (depth + 1) = indent * (depth + 1) + 1 := by
    rw [offset, if_pos hindent]
    exact toInt_of_int (by omega) (by omega)
  unfold Overruns
  rw [hthis, hthat, eq_comm, Int.ediv_eq_iff_of_pos hindent]
  constructor
  · rintro ⟨hle, hlt⟩
    exact ⟨by rw [Int.mul_comm]; omega, by rw [Int.mul_comm]; omega⟩
  · rintro ⟨hle, hlt⟩
    rw [Int.mul_comm] at hle hlt
    exact ⟨by omega, by omega⟩

/-- With an indent of 256 the terminator of the table stands before the first member. -/
theorem terminator_printed : ¬ @OnlySpaces Unit (fun _ => []) 256 0 (.object [(bytes "data", .null)]) := by
  intro h
  exact stays_of_onlySpaces h 0 (.object _ _) (by decide)

end Agoo
