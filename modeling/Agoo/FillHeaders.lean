import Agoo.ConHeader
import Agoo.HeaderLines
import Agoo.Upgrade

/-!
# The headers of the environment (`fill_headers`)

`fill_headers` goes over the bytes of a header, adds each line to a hash and looks for an upgrade. A
Connection value is copied, without its NUL, into a buffer on the stack that was not cleared.

`fillHeaders_lines`: on a header made of lines it does with each line what `fillLine` says.
-/

namespace Agoo

/-! ## The hash -/

/-- A value of the hash: a string, or an array of what was there and a string. -/
inductive HeaderValue
  | str (s : Bytes)
  | ary (v : HeaderValue) (s : Bytes)

/-- The Ruby hash, in the order of its keys. -/
abbrev HeaderHash := List (Bytes × HeaderValue)

/-- `rb_hash_aset`. -/
def hashSet (k : Bytes) (v : HeaderValue) : HeaderHash → HeaderHash
  | [] => [(k, v)]
  | e :: hash => if e.1 = k then (k, v) :: hash else e :: hashSet k v hash

/-- A string is added to what is under the key. -/
def hashAdd (k s : Bytes) (hash : HeaderHash) : HeaderHash :=
  match hash.lookup k with
  | none => hashSet k (.str s) hash
  | some v => hashSet k (.ary v s) hash

/-- `sizeof(key) - 1 == klen && 0 == strncasecmp(name, key, klen)`. -/
def isText (name key : Bytes) : Bool := key.length == name.length && strncasecmp name key key.length

/-- `hkey`: the letters of the name up to a NUL in upper case. -/
def httpKey (name : Bytes) : Bytes :=
  let k := strncpy name (if 1019 ≤ name.length then 1018 else name.length)
  bytes "HTTP_" ++ ((cstr k).map (fun c => if c = chr '-' then chr '_' else toupper c) ++ k.drop (strlen k))

/-- The hash has a Content-Length. -/
def hasLength (hash : HeaderHash) : Bool := (hash.lookup (bytes "CONTENT_LENGTH")).isSome

inductive FillError
  /-- Multiple Content-Length headers. -/
  | raised
  /-- `vend` or `kend` is not set. -/
  | undefined
  deriving DecidableEq

/-- `add_header_value`. -/
def addHeaderValue (hash : HeaderHash) (name value : Bytes) : Except FillError HeaderHash :=
  if isText name (bytes "Content-Type") then .ok (hashAdd (bytes "CONTENT_TYPE") value hash)
  else if isText name (bytes "Content-Length") then
    match hash.lookup (bytes "CONTENT_LENGTH") with
    | none => .ok (hashSet (bytes "CONTENT_LENGTH") (.str value) hash)
    | some _ => .error .raised
  else .ok (hashAdd (httpKey name) value hash)

theorem sameText_ne {a k k' : Bytes} (hne : k.map tolower ≠ k'.map tolower) (h : sameText a k = true) :
    sameText a k' = false := by
  by_contra hsame
  rw [Bool.not_eq_false] at hsame
  exact hne ((beq_iff_eq.mp h).symm.trans (beq_iff_eq.mp hsame))

theorem isText_eq {a key : Bytes} (ha : 0 ∉ a) (hkey : 0 ∉ key) : isText a key = sameText a key := by
  unfold isText strncasecmp sameText
  rw [cstr_of_not_mem ha, cstr_of_not_mem hkey, List.take_length, Bool.eq_iff_iff, Bool.and_eq_true, beq_iff_eq,
    beq_iff_eq, beq_iff_eq]
  constructor
  · rintro ⟨hlen, htake⟩
    rwa [hlen, List.take_length] at htake
  · intro hsame
    have hlen : key.length = a.length := by simpa using (congrArg List.length hsame).symm
    exact ⟨hlen, by rw [hlen, List.take_length, hsame]⟩

theorem lookup_hashSet (k : Bytes) (v : HeaderValue) (hash : HeaderHash) :
    (hashSet k v hash).lookup k = some v := by
  induction hash with
  | nil => simp [hashSet]
  | cons e hash ih =>
    obtain ⟨k', v'⟩ := e
    unfold hashSet
    split_ifs with he
    · exact List.lookup_cons_self
    · have hne : (k == k') = false := beq_eq_false_iff_ne.mpr (Ne.symm he)
      rw [List.lookup_cons, hne]
      exact ih

theorem lookup_hashSet_ne {k k' : Bytes} (hne : k' ≠ k) (v : HeaderValue) (hash : HeaderHash) :
    (hashSet k v hash).lookup k' = hash.lookup k' := by
  have hbeq : (k' == k) = false := by simpa using hne
  induction hash with
  | nil =>
    unfold hashSet
    rw [List.lookup_cons, hbeq]
  | cons e hash ih =>
    obtain ⟨k'', v''⟩ := e
    unfold hashSet
    split_ifs with he
    · obtain rfl : k'' = k := he
      rw [List.lookup_cons, List.lookup_cons, hbeq]
    · rw [List.lookup_cons, List.lookup_cons, ih]

theorem lookup_hashAdd_ne {k k' : Bytes} (hne : k' ≠ k) (s : Bytes) (hash : HeaderHash) :
    (hashAdd k s hash).lookup k' = hash.lookup k' := by
  unfold hashAdd
  cases hash.lookup k with
  | none => exact lookup_hashSet_ne hne _ _
  | some v => exact lookup_hashSet_ne hne _ _

theorem httpKey_ne (name : Bytes) : bytes "CONTENT_LENGTH" ≠ httpKey name := by
  intro h
  have hhead : some (chr 'C') = some (chr 'H') := congrArg List.head? h
  exact absurd hhead (by decide)

/-! ## The loop -/

/-- What `fill_headers` keeps from line to line; `kind` is `r->upgrade`. -/
structure HeaderFill where
  hash : HeaderHash
  upgrade : Bool
  ws : Bool
  kind : UpKind

/-- `buf` holds an Upgrade, after a value was copied to it over what was on the stack. -/
def copyUpgrades (stack value : Bytes) : Bool :=
  (strstr ((strncpy value value.length ++ stack.drop value.length).take 1023) (bytes "Upgrade")).isSome

/-- The end of a line. -/
def fillLine (stack name value : Bytes) (f : HeaderFill) : Except FillError HeaderFill :=
  match addHeaderValue f.hash name value with
  | .error e => .error e
  | .ok hash =>
    if isText name (bytes "Upgrade") then
      .ok { f with hash := hash, ws := f.ws || isText value (bytes "websocket") }
    else if isText name (bytes "Connection") then
      .ok { f with hash := hash, upgrade := f.upgrade || value.length < 1023 && copyUpgrades stack value }
    else if isText name (bytes "Accept") then
      .ok { f with hash := hash, kind := if isText value (bytes "text/event-stream") then .sse else f.kind }
    else .ok { f with hash := hash }

/-- The loop at offset `h`, with `fuel` rounds. The key starts at `key` and its colon, if one was seen, is
at `colon`; `stack h` is what `buf` holds before a copy at `h`. -/
def fillFrom (stack : ℕ → Bytes) (m : Bytes) (stop : ℕ) :
    ℕ → ℕ → ℕ → Option ℕ → HeaderFill → Except FillError HeaderFill
  | 0, _, _, _, f => .ok f
  | fuel + 1, h, key, colon, f =>
    if stop ≤ h then .ok f
    else if at0 m h = chr ':' then fillFrom stack m stop fuel (h + 1) key (colon.or (some h)) f
    else if at0 m h = chr '\r' then
      match colon with
      | none => .error .undefined
      | some kend =>
        let val := kend + 1 + blanks (m.drop (kend + 1))
        let key := key + blanks (m.drop key)
        match fillLine (stack h) ((m.drop key).take (kend - key)) ((m.drop val).take (h - val)) f with
        | .error e => .error e
        | .ok f =>
          let next := if at0 m (h + 1) = chr '\n' then h + 2 else h + 1
          fillFrom stack m stop fuel next next none f
    else fillFrom stack m stop fuel (h + 1) key colon f

/-- The end of `fill_headers`. -/
def HeaderFill.close (f : HeaderFill) : HeaderFill :=
  if f.upgrade && f.ws then { f with kind := .ws } else f

/-- `fill_headers`, for a request as `con_header_read` made it. A round moves at least one byte. -/
def fillHeaders (stack : ℕ → Bytes) (hash : HeaderHash) (m : Bytes) (hlen : ℕ) : Except FillError HeaderFill :=
  (fillFrom stack m (hlen + 1) (hlen + 1) 0 0 none ⟨hash, false, false, .none⟩).map HeaderFill.close

/-! ## One line -/

/-- The name without the blanks before it. -/
def HeaderLine.bare (l : HeaderLine) : Bytes := l.name.dropWhile (· == chr ' ')

theorem at0_drop_zero (m : Bytes) (h : ℕ) : at0 (m.drop h) 0 = at0 m h := by
  simp [at0]

variable {stack : ℕ → Bytes} {m : Bytes} {stop : ℕ}

theorem fillFrom_stop (fuel : ℕ) {h key : ℕ} {colon : Option ℕ} {f : HeaderFill} (hstop : stop ≤ h) :
    fillFrom stack m stop fuel h key colon f = .ok f := by
  cases fuel with
  | zero => rfl
  | succ fuel => exact if_pos hstop

theorem fillFrom_colon {fuel h key : ℕ} {colon : Option ℕ} {f : HeaderFill} (hstop : h < stop)
    (hat : at0 m h = chr ':') : fillFrom stack m stop (fuel + 1) h key colon f =
      fillFrom stack m stop fuel (h + 1) key (colon.or (some h)) f :=
  (if_neg (Nat.not_le.mpr hstop)).trans (if_pos hat)

theorem fillFrom_other {fuel h key : ℕ} {colon : Option ℕ} {f : HeaderFill} (hstop : h < stop)
    (hcolon : at0 m h ≠ chr ':') (hreturn : at0 m h ≠ chr '\r') :
    fillFrom stack m stop (fuel + 1) h key colon f = fillFrom stack m stop fuel (h + 1) key colon f :=
  (if_neg (Nat.not_le.mpr hstop)).trans ((if_neg hcolon).trans (if_neg hreturn))

theorem fillFrom_return {fuel h key kend : ℕ} {f : HeaderFill} (hstop : h < stop) (hat : at0 m h = chr '\r') :
    fillFrom stack m stop (fuel + 1) h key (some kend) f =
      match fillLine (stack h)
          ((m.drop (key + blanks (m.drop key))).take (kend - (key + blanks (m.drop key))))
          ((m.drop (kend + 1 + blanks (m.drop (kend + 1)))).take
            (h - (kend + 1 + blanks (m.drop (kend + 1))))) f with
      | .error e => .error e
      | .ok f => fillFrom stack m stop fuel (if at0 m (h + 1) = chr '\n' then h + 2 else h + 1)
          (if at0 m (h + 1) = chr '\n' then h + 2 else h + 1) none f :=
  (if_neg (Nat.not_le.mpr hstop)).trans ((if_neg (by rw [hat]; decide)).trans (if_pos hat))

/-- Bytes that are no returns and, until a colon was seen, no colons are passed over. -/
theorem fillFrom_skip {v : Bytes} {key : ℕ} {colon : Option ℕ} {f : HeaderFill} {u : Bytes}
    (hu : ∀ c ∈ u, c ≠ chr '\r' ∧ (colon = none → c ≠ chr ':')) :
    ∀ h fuel, m.drop h = u ++ v → h + u.length ≤ stop →
      fillFrom stack m stop (u.length + fuel) h key colon f =
        fillFrom stack m stop fuel (h + u.length) key colon f := by
  induction u with
  | nil =>
    intro h fuel _ _
    rw [List.length_nil, Nat.zero_add, Nat.add_zero]
  | cons c u ih =>
    intro h fuel hmem hstop
    obtain ⟨hreturn, hcolon⟩ := hu c List.mem_cons_self
    have hat : at0 m h = c := by
      rw [← at0_drop_zero, hmem]
      rfl
    have hbehind : m.drop (h + 1) = u ++ v := by
      rw [← List.drop_drop, hmem]
      rfl
    rw [List.length_cons] at hstop ⊢
    have hrest := ih (fun c hc => hu c (List.mem_cons_of_mem _ hc)) (h + 1) fuel hbehind (by omega)
    rw [show u.length + 1 + fuel = u.length + fuel + 1 by omega,
      show h + (u.length + 1) = h + 1 + u.length by omega]
    by_cases hc : c = chr ':'
    · obtain ⟨k, rfl⟩ : ∃ k, colon = some k := by
        cases colon with
        | none => exact absurd hc (hcolon rfl)
        | some k => exact ⟨k, rfl⟩
      rw [fillFrom_colon (by omega) (hat.trans hc)]
      exact hrest
    · rw [fillFrom_other (by omega) (hat ▸ hc) (hat ▸ hreturn)]
      exact hrest

/-- The name and the value of a line with a colon, without the blanks before them. -/
def field (text : Bytes) : Option (Bytes × Bytes) :=
  match text.dropWhile (· != chr ':') with
  | [] => none
  | _ :: rest => some ((text.takeWhile (· != chr ':')).dropWhile (· == chr ' '), rest.dropWhile (· == chr ' '))

theorem field_colon {name rest : Bytes} (hname : ∀ c ∈ name, c ≠ chr ':') :
    field (name ++ chr ':' :: rest) = some (name.dropWhile (· == chr ' '), rest.dropWhile (· == chr ' ')) := by
  have hcolon : ∀ c ∈ name, (c != chr ':') = true := fun c hc => bne_iff_ne.mpr (hname c hc)
  unfold field
  rw [List.dropWhile_append_of_pos hcolon, List.takeWhile_append_of_pos hcolon,
    List.takeWhile_cons_of_neg (by decide), List.append_nil]
  rfl

theorem field_plain {text : Bytes} (htext : ∀ c ∈ text, c ≠ chr ':') : field text = none := by
  unfold field
  rw [List.dropWhile_eq_nil_iff.mpr fun c hc => bne_iff_ne.mpr (htext c hc)]

/-- A line has no colon, or it is split at the first one. -/
theorem colon_split (text : Bytes) : (∀ c ∈ text, c ≠ chr ':') ∨
    ∃ name rest, text = name ++ chr ':' :: rest ∧ ∀ c ∈ name, c ≠ chr ':' := by
  by_cases hcolon : chr ':' ∈ text
  · obtain ⟨name, rest, htext, hname⟩ := List.eq_append_cons_of_mem hcolon
    exact Or.inr ⟨name, rest, htext, fun c hc heq => hname (heq ▸ hc)⟩
  · exact Or.inl fun c hc heq => hcolon (heq ▸ hc)

/-- Blanks are passed over, up to a byte that is none. -/
theorem blanks_stop (u : Bytes) {c : Byte} (hc : c ≠ chr ' ') (x : Bytes) :
    blanks (u ++ c :: x) + (u.dropWhile (· == chr ' ')).length = u.length ∧
      (u ++ c :: x).drop (blanks (u ++ c :: x)) = u.dropWhile (· == chr ' ') ++ c :: x := by
  unfold blanks
  induction u with
  | nil =>
    have hneg : ¬ ((c == chr ' ') = true) := fun h => hc (beq_iff_eq.mp h)
    rw [List.nil_append, List.takeWhile_cons_of_neg (p := (· == chr ' ')) hneg]
    exact ⟨rfl, rfl⟩
  | cons d u ih =>
    by_cases hd : d = chr ' '
    · have hpos : (d == chr ' ') = true := beq_iff_eq.mpr hd
      rw [List.cons_append, List.takeWhile_cons_of_pos (p := (· == chr ' ')) hpos,
        List.dropWhile_cons_of_pos (p := (· == chr ' ')) hpos, List.length_cons, List.length_cons,
        List.drop_succ_cons]
      exact ⟨by omega, ih.2⟩
    · have hneg : ¬ ((d == chr ' ') = true) := fun h => hd (beq_iff_eq.mp h)
      rw [List.cons_append, List.takeWhile_cons_of_neg (p := (· == chr ' ')) hneg,
        List.dropWhile_cons_of_neg (p := (· == chr ' ')) hneg]
      exact ⟨Nat.zero_add _, rfl⟩

/-- Where a line starts that follows a return. -/
def nextLine (m : Bytes) (h : ℕ) : ℕ := if at0 m (h + 1) = chr '\n' then h + 2 else h + 1

/-- What is read between a blank-led text's first byte and its end. -/
theorem slice_bare {u : Bytes} {c : Byte} (hc : c ≠ chr ' ') {x : Bytes} {k : ℕ} (hmem : m.drop k = u ++ c :: x) :
    (m.drop (k + blanks (m.drop k))).take (k + u.length - (k + blanks (m.drop k))) =
      u.dropWhile (· == chr ' ') := by
  obtain ⟨hlen, hdrop⟩ := blanks_stop u hc x
  rw [← List.drop_drop, hmem, hdrop,
    show k + u.length - (k + blanks (u ++ c :: x)) = (u.dropWhile (· == chr ' ')).length by omega, List.take_left]

/-- A line that a return ends, with or without a colon. -/
theorem fillFrom_piece {text x : Bytes} {h fuel : ℕ} {f : HeaderFill} (htext : ∀ c ∈ text, c ≠ chr '\r')
    (hmem : m.drop h = text ++ chr '\r' :: x) (hstop : h + text.length < stop) :
    fillFrom stack m stop (text.length + 1 + fuel) h h none f =
      match field text with
      | none => .error .undefined
      | some (name, value) =>
        match fillLine (stack (h + text.length)) name value f with
        | .error e => .error e
        | .ok f =>
          fillFrom stack m stop fuel (nextLine m (h + text.length)) (nextLine m (h + text.length)) none f := by
  have hreturn : at0 m (h + text.length) = chr '\r' := by
    rw [← at0_drop_zero, ← List.drop_drop, hmem, List.drop_left]
    rfl
  obtain hplain | ⟨name, rest, rfl, hname⟩ := colon_split text
  · rw [Nat.add_assoc, fillFrom_skip (fun c hc => ⟨htext c hc, fun _ => hplain c hc⟩) h _ hmem hstop.le,
      Nat.add_comm 1 fuel, field_plain hplain, fillFrom, if_neg (Nat.not_le.mpr hstop),
      if_neg (by rw [hreturn]; decide), if_pos hreturn]
  · rw [List.length_append, List.length_cons] at hstop hreturn ⊢
    rw [List.append_assoc, List.cons_append] at hmem
    have hcolon : at0 m (h + name.length) = chr ':' := by
      rw [← at0_drop_zero, ← List.drop_drop, hmem, List.drop_left]
      rfl
    have hbehind : m.drop (h + name.length + 1) = rest ++ chr '\r' :: x := by
      rw [← List.drop_drop, ← List.drop_drop, hmem, List.drop_left]
      rfl
    -- the name, with no colon seen
    have hfront : fillFrom stack m stop (name.length + (rest.length + 1) + 1 + fuel) h h none f =
        fillFrom stack m stop (rest.length + 1 + fuel + 1) (h + name.length) h none f := by
      rw [show name.length + (rest.length + 1) + 1 + fuel = name.length + (rest.length + 1 + fuel + 1) by omega]
      refine fillFrom_skip (fun c hc => ⟨?_, fun _ => hname c hc⟩) h _ hmem (by omega)
      exact htext c (List.mem_append_left _ hc)
    -- the value, with the colon seen
    have hback : fillFrom stack m stop (rest.length + 1 + fuel) (h + name.length + 1) h
        (some (h + name.length)) f =
          fillFrom stack m stop (fuel + 1) (h + name.length + 1 + rest.length) h (some (h + name.length)) f := by
      rw [Nat.add_assoc, Nat.add_comm 1 fuel]
      refine fillFrom_skip (u := rest) (fun c hc => ⟨htext c ?_, fun hnone => ?_⟩) _ _ hbehind (by omega)
      · exact List.mem_append_right _ (List.mem_cons_of_mem _ hc)
      · cases hnone
    have hend : h + (name.length + (rest.length + 1)) = h + name.length + 1 + rest.length := by omega
    rw [hfront, fillFrom_colon (by omega) hcolon, Option.none_or, hback, field_colon hname, hend]
    rw [hend] at hreturn hstop
    rw [fillFrom_return hstop hreturn, slice_bare (by decide) hmem, slice_bare (by decide) hbehind]
    rfl

/-- A line is read as its name and its value. -/
theorem fillFrom_line {x : Bytes} {h fuel : ℕ} {f : HeaderFill} (l : HeaderLine)
    (hmem : m.drop h = l.text ++ (crlf ++ x)) (hstop : h + l.text.length < stop) :
    fillFrom stack m stop (l.text.length + 1 + fuel) h h none f =
      match fillLine (stack (h + l.text.length)) l.bare l.value f with
      | .error e => .error e
      | .ok f => fillFrom stack m stop fuel (h + l.text.length + 2) (h + l.text.length + 2) none f := by
  have hnewline : at0 m (h + l.text.length + 1) = chr '\n' := by
    rw [← at0_drop_zero, Nat.add_assoc, ← List.drop_drop, hmem, ← List.drop_drop, List.drop_left]
    rfl
  have hfield : field l.text = some (l.bare, l.value) := by
    have hvalue : (List.replicate l.pad (chr ' ') ++ l.value).dropWhile (· == chr ' ') = l.value := by
      rw [List.dropWhile_append_of_pos (by simp)]
      have hhead := l.value_head
      cases hv : l.value with
      | nil => rfl
      | cons c v =>
        rw [hv] at hhead
        exact List.dropWhile_cons_of_neg fun hc => hhead (congrArg some (beq_iff_eq.mp hc))
    unfold HeaderLine.text
    rw [field_colon fun c hc => (l.name_plain c hc).2.2, hvalue]
    rfl
  have hnext : nextLine m (h + l.text.length) = h + l.text.length + 2 := if_pos hnewline
  rw [fillFrom_piece (fun c hc => (l.text_plain c hc).2) hmem hstop, hfield, hnext]

/-! ## All lines -/

/-- `fill_headers` on lines, the first at offset `h`. -/
def fillLines (stack : ℕ → Bytes) : ℕ → List HeaderLine → HeaderFill → Except FillError HeaderFill
  | _, [], f => .ok f
  | h, l :: ls, f =>
    match fillLine (stack (h + l.text.length)) l.bare l.value f with
    | .error e => .error e
    | .ok f => fillLines stack (h + l.text.length + 2) ls f

theorem fillFrom_lines {t : Bytes} : ∀ (ls : List HeaderLine) (fuel h : ℕ) (f : HeaderFill), ls ≠ [] →
    m.drop h = headerMem ls (crlf ++ t) → stop = h + headerLen ls + 1 → stop ≤ h + fuel →
      fillFrom stack m stop fuel h h none f = fillLines stack h ls f := by
  intro ls
  induction ls with
  | nil => exact fun _ _ _ hls => absurd rfl hls
  | cons l ls ih =>
    intro fuel h f _ hmem hstop hfuel
    have hle : l.text.length ≤ headerLen (l :: ls) := by
      by_cases hls : ls = []
      · rw [hls, headerLen_single]
      · rw [headerLen_cons l hls]
        omega
    obtain ⟨fuel, rfl⟩ : ∃ k, fuel = l.text.length + 1 + k := ⟨fuel - (l.text.length + 1), by omega⟩
    rw [fillFrom_line l hmem (by omega), fillLines]
    cases fillLine (stack (h + l.text.length)) l.bare l.value f with
    | error e => rfl
    | ok f =>
      dsimp only
      by_cases hls : ls = []
      · rw [hls, headerLen_single] at hstop
        rw [hls, fillFrom_stop fuel (by omega)]
        rfl
      · rw [headerLen_cons l hls] at hstop
        refine ih fuel _ f hls ?_ (by omega) (by omega)
        rw [Nat.add_assoc, ← List.drop_drop, hmem, headerMem, ← List.drop_drop, List.drop_left]
        rfl

/-- **`fill_headers` goes over the lines of a header one by one.** -/
theorem fillHeaders_lines (stack : ℕ → Bytes) (hash : HeaderHash) {lines : List HeaderLine} (hlines : lines ≠ [])
    (t : Bytes) : fillHeaders stack hash (headerMem lines (crlf ++ t)) (headerLen lines) =
      (fillLines stack 0 lines ⟨hash, false, false, .none⟩).map HeaderFill.close := by
  unfold fillHeaders
  rw [fillFrom_lines lines _ 0 _ hlines rfl (by omega) (by omega)]

end Agoo
