import Agoo.FillHeaders

/-!
# The headers of a Rack environment

What the hash should hold for a block of header lines. `rack_headers_iff`: `fill_headers` leaves that in it
unless a line has no colon, a name is longer than 1018 bytes or a key comes a third time; it raises for a
second Content-Length and for nothing else.
-/

namespace Agoo

/-! ## What the hash should hold -/

/-- The lines of a block. A return ends a line, with the line feed behind it if there is one (`after`: the byte
before was a return); a block without a byte is one empty line. -/
def splitLines : Bool → Bytes → List Bytes
  | _, [] => [[]]
  | after, c :: s =>
    if after = true ∧ c = chr '\n' then splitLines false s
    else if c = chr '\r' then [] :: splitLines true s
    else (splitLines false s).modifyHead (c :: ·)

/-- What `con_header_read` finds before the line end that is before the blank line: no NUL is in it. -/
structure HeaderBlock where
  text : Bytes
  zero_not_mem : 0 ∉ text

def HeaderBlock.lines (b : HeaderBlock) : List Bytes := splitLines false b.text

/-- The Rack key of a name. -/
def rackKey (name : Bytes) : Bytes :=
  if sameText name (bytes "Content-Type") then bytes "CONTENT_TYPE"
  else if sameText name (bytes "Content-Length") then bytes "CONTENT_LENGTH"
  else bytes "HTTP_" ++ name.map fun c => if c = chr '-' then chr '_' else toupper c

/-- The keys and values of the lines that have a colon. -/
def fieldsBy (key : Bytes → Bytes) (lines : List Bytes) : List (Bytes × Bytes) :=
  (lines.filterMap field).map fun e => (key e.1, e.2)

/-- The values under a key, in order. -/
def valuesAt (k : Bytes) (fields : List (Bytes × Bytes)) : List Bytes := (fields.filter (·.1 == k)).map Prod.snd

/-- A Ruby string or array. -/
inductive RubyValue
  | str (s : Bytes)
  | ary (vs : List RubyValue)

def HeaderValue.ruby : HeaderValue → RubyValue
  | .str s => .str s
  | .ary v s => .ary [v.ruby, .str s]

/-- A single value as it is, more as a flat list. -/
def rackValue : List Bytes → Option RubyValue
  | [] => none
  | [s] => some (.str s)
  | ss => some (.ary (ss.map .str))

/-- What `request_env` sets before the headers. -/
def envKeys : List Bytes :=
  ["REQUEST_METHOD", "SCRIPT_NAME", "PATH_INFO", "QUERY_STRING", "REMOTE_ADDR", "SERVER_PORT", "SERVER_NAME",
    "SERVER_PROTOCOL"].map bytes

/-- The hash that `fill_headers` gets, from `headers` or from `request_env`. -/
structure EnvStart where
  hash : HeaderHash
  keys : ∀ e ∈ hash, e.1 ∈ envKeys

/-- The headers of the block, and nothing else, are added; only a second Content-Length is refused. -/
def AddsHeaders (b : HeaderBlock) (start : EnvStart) : Except FillError HeaderHash → Prop
  | .ok hash => ∀ k, (hash.lookup k).map HeaderValue.ruby =
      (rackValue (valuesAt k (fieldsBy rackKey b.lines))).or ((start.hash.lookup k).map HeaderValue.ruby)
  | .error .raised => 2 ≤ (valuesAt (bytes "CONTENT_LENGTH") (fieldsBy rackKey b.lines)).length
  | .error .undefined => False

/-! ## When it does -/

def isLength (line : Bytes) : Bool := (field line).any fun e => sameText e.1 (bytes "Content-Length")

/-- The lines up to the second Content-Length; `seen` says that there was one before. -/
def reached : Bool → List Bytes → List Bytes
  | _, [] => []
  | seen, l :: ls => if isLength l && seen then [l] else l :: reached (isLength l || seen) ls

/-- Each line that is reached has a colon. Without a second Content-Length, no name is longer than 1018 bytes and
no key has more than two values. -/
structure PlainBlock (b : HeaderBlock) : Prop where
  colons : ∀ l ∈ reached false b.lines, field l ≠ none
  names : b.lines.countP isLength ≤ 1 → ∀ e ∈ b.lines.filterMap field, e.1.length ≤ 1018
  twice : b.lines.countP isLength ≤ 1 → ∀ k, (valuesAt k (fieldsBy rackKey b.lines)).length ≤ 2

/-! ## The lines one by one -/

/-- The hash behind the lines. -/
def addLines (hash : HeaderHash) : List Bytes → Except FillError HeaderHash
  | [] => .ok hash
  | l :: ls =>
    match field l with
    | none => .error .undefined
    | some e =>
      match addHeaderValue hash e.1 e.2 with
      | .error e => .error e
      | .ok hash => addLines hash ls

theorem splitLines_plain {text : Bytes} (htext : ∀ c ∈ text, c ≠ chr '\r') : splitLines false text = [text] := by
  induction text with
  | nil => rfl
  | cons c text ih =>
    rw [splitLines, if_neg (fun h => Bool.noConfusion h.1), if_neg (htext c (List.mem_cons_self ..)),
      ih fun d hd => htext d (List.mem_cons_of_mem c hd)]
    rfl

theorem splitLines_return {text : Bytes} (htext : ∀ c ∈ text, c ≠ chr '\r') (s : Bytes) :
    splitLines false (text ++ chr '\r' :: s) = text :: splitLines true s := by
  induction text with
  | nil => rfl
  | cons c text ih =>
    rw [List.cons_append, splitLines, if_neg (fun h => Bool.noConfusion h.1),
      if_neg (htext c (List.mem_cons_self ..)), ih fun d hd => htext d (List.mem_cons_of_mem c hd)]
    rfl

theorem splitLines_after {s : Bytes} (hs : s.head? ≠ some (chr '\n')) :
    splitLines true s = splitLines false s := by
  cases s with
  | nil => rfl
  | cons c s =>
    have hafter : ¬ (true = true ∧ c = chr '\n') := fun h => hs (congrArg some h.2)
    have hbefore : ¬ (false = true ∧ c = chr '\n') := fun h => Bool.noConfusion h.1
    rw [splitLines, splitLines, if_neg hafter, if_neg hbefore]

theorem mem_splitLines {c : Byte} {s l : Bytes} {after : Bool} (hl : l ∈ splitLines after s) (hc : c ∈ l) :
    c ∈ s := by
  induction s generalizing after l with
  | nil =>
    rw [List.mem_singleton.mp hl] at hc
    exact absurd hc List.not_mem_nil
  | cons d s ih =>
    rw [splitLines] at hl
    split_ifs at hl
    · exact List.mem_cons_of_mem d (ih hl hc)
    · obtain rfl | hl := List.mem_cons.mp hl
      · exact absurd hc List.not_mem_nil
      · exact List.mem_cons_of_mem d (ih hl hc)
    · cases hsplit : splitLines false s with
      | nil =>
        rw [hsplit] at hl
        exact absurd hl List.not_mem_nil
      | cons k ls =>
        rw [hsplit] at hl
        obtain rfl | hl := List.mem_cons.mp hl
        · obtain rfl | hc := List.mem_cons.mp hc
          · exact List.mem_cons_self ..
          · exact List.mem_cons_of_mem d (ih (hsplit ▸ List.mem_cons_self ..) hc)
        · exact List.mem_cons_of_mem d (ih (hsplit ▸ List.mem_cons_of_mem k hl) hc)

/-- A block is one line, or a line, a return and the lines behind it. -/
theorem return_split (s : Bytes) : (∀ c ∈ s, c ≠ chr '\r') ∨
    ∃ text x, s = text ++ chr '\r' :: x ∧ ∀ c ∈ text, c ≠ chr '\r' := by
  by_cases hreturn : chr '\r' ∈ s
  · obtain ⟨text, x, hs, htext⟩ := List.eq_append_cons_of_mem hreturn
    exact Or.inr ⟨text, x, hs, fun c hc heq => htext (heq ▸ hc)⟩
  · exact Or.inl fun c hc heq => hreturn (heq ▸ hc)

/-- The hash behind a line. -/
theorem fillLine_hash (stack name value : Bytes) (f : HeaderFill) :
    (fillLine stack name value f).map HeaderFill.hash = addHeaderValue f.hash name value := by
  unfold fillLine
  cases addHeaderValue f.hash name value with
  | error e => rfl
  | ok hash =>
    dsimp only
    split_ifs <;> rfl

variable {stack : ℕ → Bytes} {m t : Bytes} {stop : ℕ}

/-- The hash behind a line and the lines that follow it. -/
theorem fillFrom_addLines {text x : Bytes} {ls : List Bytes} {h fuel : ℕ} {f : HeaderFill}
    (htext : ∀ c ∈ text, c ≠ chr '\r') (hmem : m.drop h = text ++ chr '\r' :: x) (hstop : h + text.length < stop)
    (hrest : ∀ f : HeaderFill, (fillFrom stack m stop fuel (nextLine m (h + text.length))
      (nextLine m (h + text.length)) none f).map HeaderFill.hash = addLines f.hash ls) :
    (fillFrom stack m stop (text.length + 1 + fuel) h h none f).map HeaderFill.hash =
      addLines f.hash (text :: ls) := by
  rw [fillFrom_piece htext hmem hstop, addLines]
  cases field text with
  | none => rfl
  | some e =>
    dsimp only
    rw [← fillLine_hash (stack (h + text.length)) e.1 e.2 f]
    cases fillLine (stack (h + text.length)) e.1 e.2 f with
    | error e => rfl
    | ok f => exact hrest f

theorem nextLine_newline {h : ℕ} {x : Bytes} (hmem : m.drop h = chr '\r' :: chr '\n' :: x) :
    nextLine m h = h + 2 := by
  refine if_pos ?_
  rw [← at0_drop_zero, ← List.drop_drop, hmem]
  rfl

theorem nextLine_return {h : ℕ} {x : Bytes} (hmem : m.drop h = chr '\r' :: x) (hx : x.head? ≠ some (chr '\n')) :
    nextLine m h = h + 1 := by
  refine if_neg ?_
  rw [← at0_drop_zero, ← List.drop_drop, hmem]
  cases x with
  | nil => decide
  | cons c x => exact fun hc => hx (congrArg some hc)

/-- The loop over a block takes its lines one by one. -/
theorem fillFrom_block (n : ℕ) : ∀ (s : Bytes) (h fuel : ℕ) (f : HeaderFill), s.length < n →
    m.drop h = s ++ (crlf ++ t) → stop = h + s.length + 1 → stop ≤ h + fuel →
      (fillFrom stack m stop fuel h h none f).map HeaderFill.hash = addLines f.hash (splitLines false s) := by
  induction n with
  | zero => exact fun s h fuel f hn => absurd hn (Nat.not_lt_zero _)
  | succ n ih =>
    intro s h fuel f hn hmem hstop hfuel
    obtain hplain | ⟨text, x, rfl, htext⟩ := return_split s
    · obtain ⟨fuel, rfl⟩ : ∃ k, fuel = s.length + 1 + k := ⟨fuel - (s.length + 1), by omega⟩
      have hreturn : m.drop (h + s.length) = chr '\r' :: chr '\n' :: t := by
        rw [← List.drop_drop, hmem, List.drop_left]
        rfl
      rw [splitLines_plain hplain]
      refine fillFrom_addLines hplain hmem (by omega) fun f => ?_
      rw [nextLine_newline hreturn, fillFrom_stop fuel (by omega)]
      rfl
    · rw [List.length_append, List.length_cons] at hn hstop
      rw [List.append_assoc, List.cons_append] at hmem
      obtain ⟨fuel, rfl⟩ : ∃ k, fuel = text.length + 1 + k := ⟨fuel - (text.length + 1), by omega⟩
      have hreturn : m.drop (h + text.length) = chr '\r' :: (x ++ (crlf ++ t)) := by
        rw [← List.drop_drop, hmem, List.drop_left]
      rw [splitLines_return htext]
      refine fillFrom_addLines htext hmem (by omega) fun f => ?_
      by_cases hx : x.head? = some (chr '\n')
      · obtain ⟨y, rfl⟩ := List.head?_eq_some_iff.mp hx
        rw [List.length_cons] at hn hstop
        rw [nextLine_newline hreturn]
        refine ih y _ fuel f (by omega) ?_ (by omega) (by omega)
        rw [← List.drop_drop, hreturn]
        rfl
      · have hhead : (x ++ (crlf ++ t)).head? ≠ some (chr '\n') := by
          cases x with
          | nil => exact fun h => absurd (Option.some.inj h) (by decide)
          | cons c x => exact hx
        rw [nextLine_return hreturn hhead, splitLines_after hx]
        refine ih x _ fuel f (by omega) ?_ (by omega) (by omega)
        rw [← List.drop_drop, hreturn]
        rfl

/-- `fill_headers` on a block. -/
theorem fillHeaders_block (stack : ℕ → Bytes) (hash : HeaderHash) (b : HeaderBlock) (t : Bytes) :
    (fillHeaders stack hash (b.text ++ (crlf ++ t)) b.text.length).map HeaderFill.hash =
      addLines hash b.lines := by
  have hblock : (fillFrom stack (b.text ++ (crlf ++ t)) (b.text.length + 1) (b.text.length + 1) 0 0 none
      ⟨hash, false, false, .none⟩).map HeaderFill.hash = addLines hash b.lines :=
    fillFrom_block (b.text.length + 1) b.text 0 _ _ (Nat.lt_succ_self _) rfl (by omega) (by omega)
  unfold fillHeaders
  rw [← hblock]
  cases fillFrom stack (b.text ++ (crlf ++ t)) (b.text.length + 1) (b.text.length + 1) 0 0 none
    ⟨hash, false, false, .none⟩ with
  | error e => rfl
  | ok f =>
    show Except.ok (HeaderFill.close f).hash = Except.ok f.hash
    unfold HeaderFill.close
    split_ifs <;> rfl

/-! ## The keys -/

/-- The key that `add_header_value` uses. -/
def envKey (name : Bytes) : Bytes :=
  if isText name (bytes "Content-Type") then bytes "CONTENT_TYPE"
  else if isText name (bytes "Content-Length") then bytes "CONTENT_LENGTH"
  else httpKey name

theorem isText_length {name key : Bytes} (h : isText name key = true) : key.length = name.length := by
  unfold isText at h
  rw [Bool.and_eq_true, beq_iff_eq] at h
  exact h.1

theorem sameText_length {name key : Bytes} (h : sameText name key = true) : name.length = key.length := by
  simpa using congrArg List.length (beq_iff_eq.mp h)

theorem httpKey_short {name : Bytes} (hzero : 0 ∉ name) (hlen : name.length ≤ 1018) :
    httpKey name = bytes "HTTP_" ++ name.map fun c => if c = chr '-' then chr '_' else toupper c := by
  have hcopy : strncpy name (if 1019 ≤ name.length then 1018 else name.length) = name := by
    unfold strncpy
    rw [if_neg (by omega), cstr_of_not_mem hzero, List.take_length, Nat.sub_self]
    exact List.append_nil _
  unfold httpKey strlen
  dsimp only
  rw [hcopy, cstr_of_not_mem hzero, List.drop_length, List.append_nil]

theorem length_httpKey (name : Bytes) : (httpKey name).length ≤ 1023 := by
  have hcopy : ∀ n, (strncpy name n).length = n := fun n => by
    unfold strncpy
    rw [List.length_append, List.length_take, List.length_replicate]
    omega
  have hsplit : ∀ k : Bytes, ((cstr k).map fun c => if c = chr '-' then chr '_' else toupper c).length +
      (k.drop (strlen k)).length = k.length := fun k => by
    have hle : (cstr k).length ≤ k.length := (List.takeWhile_prefix _).length_le
    unfold strlen
    rw [List.length_map, List.length_drop]
    omega
  have hhttp : (bytes "HTTP_").length = 5 := rfl
  unfold httpKey
  dsimp only
  rw [List.length_append, List.length_append, hsplit, hcopy, hhttp]
  split_ifs <;> omega

theorem length_envKey (name : Bytes) : (envKey name).length ≤ 1023 := by
  unfold envKey
  split_ifs
  · decide
  · decide
  · exact length_httpKey name

theorem envKey_short {name : Bytes} (hzero : 0 ∉ name) (hlen : name.length ≤ 1018) :
    envKey name = rackKey name := by
  unfold envKey rackKey
  rw [isText_eq hzero (by decide), isText_eq hzero (by decide), httpKey_short hzero hlen]

/-- A name that is too long has a key that is too long. -/
theorem length_rackKey {name : Bytes} (hlen : 1018 < name.length) : 1023 < (rackKey name).length := by
  have hhttp : (bytes "HTTP_").length = 5 := rfl
  have htype : (bytes "Content-Type").length = 12 := rfl
  have hlength : (bytes "Content-Length").length = 14 := rfl
  unfold rackKey
  split_ifs with hsame hsame
  · have := sameText_length hsame
    omega
  · have := sameText_length hsame
    omega
  · rw [List.length_append, List.length_map]
    omega

theorem rackKey_length_iff (name : Bytes) :
    rackKey name = bytes "CONTENT_LENGTH" ↔ sameText name (bytes "Content-Length") = true := by
  unfold rackKey
  split_ifs with htype hlength
  · refine iff_of_false (by decide) ?_
    rw [sameText_ne (by decide) htype]
    decide
  · exact iff_of_true rfl hlength
  · refine iff_of_false (fun h => ?_) hlength
    have hhead : some (chr 'H') = some (chr 'C') := congrArg List.head? h
    exact absurd hhead (by decide)

/-- No key of a header is set before. -/
theorem EnvStart.lookup_rackKey (start : EnvStart) (name : Bytes) : start.hash.lookup (rackKey name) = none := by
  rw [List.lookup_eq_none_iff]
  intro e he
  rw [bne_iff_ne]
  intro heq
  have hmem := start.keys e he
  rw [← heq] at hmem
  unfold rackKey at hmem
  split_ifs at hmem
  · exact absurd hmem (by decide)
  · exact absurd hmem (by decide)
  · have hhead : ∀ k ∈ envKeys, k.head? ≠ some (chr 'H') := by decide
    exact hhead _ hmem rfl

/-! ## The hash -/

/-- What is under a key when a string is added to it. -/
def pushValue : Option HeaderValue → Bytes → Option HeaderValue
  | none, s => some (.str s)
  | some v, s => some (.ary v s)

theorem lookup_hashAdd (k s : Bytes) (hash : HeaderHash) (k' : Bytes) :
    (hashAdd k s hash).lookup k' = if k = k' then pushValue (hash.lookup k') s else hash.lookup k' := by
  by_cases hk : k = k'
  · subst hk
    unfold hashAdd
    rw [if_pos rfl]
    cases hash.lookup k with
    | none => exact lookup_hashSet k _ hash
    | some v => exact lookup_hashSet k _ hash
  · rw [if_neg hk, lookup_hashAdd_ne (Ne.symm hk)]

theorem addHeaderValue_eq (hash : HeaderHash) (name value : Bytes) : addHeaderValue hash name value =
    if isText name (bytes "Content-Length") && hasLength hash then .error .raised
    else .ok (hashAdd (envKey name) value hash) := by
  unfold addHeaderValue envKey hasLength
  by_cases htype : isText name (bytes "Content-Type") = true
  · have hlength : isText name (bytes "Content-Length") = false := by
      rw [Bool.eq_false_iff]
      intro h
      exact absurd ((isText_length htype).trans (isText_length h).symm) (by decide)
    rw [if_pos htype, if_pos htype, hlength]
    rfl
  · rw [if_neg htype, if_neg htype]
    by_cases hlength : isText name (bytes "Content-Length") = true
    · rw [if_pos hlength, if_pos hlength, hlength]
      unfold hashAdd
      cases hash.lookup (bytes "CONTENT_LENGTH") <;> rfl
    · rw [if_neg hlength, if_neg hlength, Bool.eq_false_of_not_eq_true hlength]
      rfl

theorem hasLength_hashAdd (hash : HeaderHash) (name value : Bytes) :
    hasLength (hashAdd (envKey name) value hash) =
      (isText name (bytes "Content-Length") || hasLength hash) := by
  unfold hasLength
  by_cases hkey : envKey name = bytes "CONTENT_LENGTH"
  · rw [lookup_hashAdd, if_pos hkey]
    unfold envKey at hkey
    split_ifs at hkey with htype hlength
    · exact absurd hkey (by decide)
    · rw [hlength]
      cases hash.lookup (bytes "CONTENT_LENGTH") <;> rfl
    · exact absurd hkey.symm (httpKey_ne name)
  · rw [lookup_hashAdd, if_neg hkey]
    have hlength : isText name (bytes "Content-Length") = false := by
      rw [Bool.eq_false_iff]
      intro h
      have htype : ¬ isText name (bytes "Content-Type") = true := fun htype =>
        absurd ((isText_length htype).trans (isText_length h).symm) (by decide)
      exact hkey ((if_neg htype).trans (if_pos h))
    rw [hlength, Bool.false_or]

theorem field_zero {l : Bytes} {e : Bytes × Bytes} (hl : 0 ∉ l) (hfield : field l = some e) : 0 ∉ e.1 := by
  obtain hplain | ⟨name, rest, rfl, hname⟩ := colon_split l
  · rw [field_plain hplain] at hfield
    cases hfield
  · rw [field_colon hname] at hfield
    cases hfield
    exact fun h => hl (List.mem_append_left _ ((List.dropWhile_sublist _).subset h))

theorem isLength_field {l : Bytes} {e : Bytes × Bytes} (hl : 0 ∉ l) (hfield : field l = some e) :
    isText e.1 (bytes "Content-Length") = isLength l := by
  unfold isLength
  rw [hfield, isText_eq (field_zero hl hfield) (by decide)]
  rfl

/-- A line and the lines behind it. -/
theorem addLines_field {hash : HeaderHash} {l : Bytes} {e : Bytes × Bytes} (hl : 0 ∉ l)
    (hfield : field l = some e) (ls : List Bytes) : addLines hash (l :: ls) =
      if isLength l && hasLength hash then .error .raised
      else addLines (hashAdd (envKey e.1) e.2 hash) ls := by
  rw [addLines, hfield]
  dsimp only
  rw [addHeaderValue_eq, isLength_field hl hfield]
  split_ifs <;> rfl

theorem addLines_undefined : ∀ {ls : List Bytes} {hash : HeaderHash}, (∀ l ∈ ls, 0 ∉ l) →
    (∃ l ∈ reached (hasLength hash) ls, field l = none) → addLines hash ls = .error .undefined := by
  intro ls
  induction ls with
  | nil => exact fun _ ⟨l, hl, _⟩ => absurd hl List.not_mem_nil
  | cons k ls ih =>
    rintro hash hzero ⟨l, hl, hnone⟩
    have hk := hzero k (List.mem_cons_self ..)
    rw [reached] at hl
    cases hfield : field k with
    | none => rw [addLines, hfield]
    | some e =>
      rw [addLines_field hk hfield]
      split_ifs at hl ⊢
      · rw [List.mem_singleton.mp hl, hfield] at hnone
        cases hnone
      · obtain rfl | hl := List.mem_cons.mp hl
        · rw [hfield] at hnone
          cases hnone
        · refine ih (fun l hl => hzero l (List.mem_cons_of_mem k hl)) ⟨l, ?_, hnone⟩
          rwa [hasLength_hashAdd, isLength_field hk hfield]

theorem toNat_or {a b : Bool} (h : ¬ (a && b) = true) : (a || b).toNat = a.toNat + b.toNat := by
  revert h
  cases a <;> cases b <;> decide

theorem countP_cons_toNat (p : Bytes → Bool) (l : Bytes) (ls : List Bytes) :
    (l :: ls).countP p = ls.countP p + (p l).toNat := by
  rw [List.countP_cons]
  cases p l <;> rfl

theorem addLines_raised : ∀ {ls : List Bytes} {hash : HeaderHash}, (∀ l ∈ ls, 0 ∉ l) →
    (∀ l ∈ reached (hasLength hash) ls, field l ≠ none) → 2 ≤ (hasLength hash).toNat + ls.countP isLength →
      addLines hash ls = .error .raised := by
  intro ls
  induction ls with
  | nil =>
    intro hash _ _ hcount
    have hle : (hasLength hash).toNat ≤ 1 := Bool.toNat_le _
    rw [List.countP_nil] at hcount
    omega
  | cons k ls ih =>
    intro hash hzero hcolon hcount
    have hk := hzero k (List.mem_cons_self ..)
    rw [reached] at hcolon
    cases hfield : field k with
    | none =>
      split_ifs at hcolon
      · exact absurd hfield (hcolon k (List.mem_cons_self ..))
      · exact absurd hfield (hcolon k (List.mem_cons_self ..))
    | some e =>
      rw [addLines_field hk hfield]
      split_ifs at hcolon ⊢ with hsecond
      · rfl
      · refine ih (fun l hl => hzero l (List.mem_cons_of_mem k hl)) ?_ ?_
        · rw [hasLength_hashAdd, isLength_field hk hfield]
          exact fun l hl => hcolon l (List.mem_cons_of_mem k hl)
        · rw [countP_cons_toNat] at hcount
          rw [hasLength_hashAdd, isLength_field hk hfield, toNat_or hsecond]
          omega

theorem fieldsBy_none {l : Bytes} (hfield : field l = none) (key : Bytes → Bytes) (ls : List Bytes) :
    fieldsBy key (l :: ls) = fieldsBy key ls := by
  unfold fieldsBy
  rw [List.filterMap_cons_none hfield]

theorem valuesAt_cons {l : Bytes} {e : Bytes × Bytes} (hfield : field l = some e) (key : Bytes → Bytes)
    (k : Bytes) (ls : List Bytes) : valuesAt k (fieldsBy key (l :: ls)) =
      if key e.1 = k then e.2 :: valuesAt k (fieldsBy key ls) else valuesAt k (fieldsBy key ls) := by
  unfold fieldsBy valuesAt
  rw [List.filterMap_cons_some hfield, List.map_cons]
  rw [List.filter_cons]
  by_cases hk : key e.1 = k
  · rw [if_pos (beq_iff_eq.mpr hk), if_pos hk]
    rfl
  · rw [if_neg (fun h => hk (beq_iff_eq.mp h)), if_neg hk]

/-- Without a second Content-Length, each value is pushed to what is under its key. -/
theorem addLines_ok : ∀ {ls : List Bytes} {hash : HeaderHash}, (∀ l ∈ ls, 0 ∉ l) →
    (∀ l ∈ reached (hasLength hash) ls, field l ≠ none) → (hasLength hash).toNat + ls.countP isLength ≤ 1 →
      ∃ hash', addLines hash ls = .ok hash' ∧
        ∀ k, hash'.lookup k = (valuesAt k (fieldsBy envKey ls)).foldl pushValue (hash.lookup k) := by
  intro ls
  induction ls with
  | nil => exact fun _ _ _ => ⟨_, rfl, fun _ => rfl⟩
  | cons l ls ih =>
    intro hash hzero hcolon hcount
    have hl := hzero l (List.mem_cons_self ..)
    rw [countP_cons_toNat] at hcount
    have hsecond : ¬ (isLength l && hasLength hash) = true := by
      intro h
      obtain ⟨hlength, hseen⟩ := Bool.and_eq_true_iff.mp h
      rw [hlength, hseen] at hcount
      have htwo : true.toNat + (ls.countP isLength + true.toNat) = ls.countP isLength + 2 := by
        show 1 + (_ + 1) = _
        omega
      omega
    rw [reached, if_neg hsecond] at hcolon
    obtain ⟨e, hfield⟩ := Option.ne_none_iff_exists'.mp (hcolon l (List.mem_cons_self ..))
    have hseen := hasLength_hashAdd hash e.1 e.2
    rw [isLength_field hl hfield] at hseen
    obtain ⟨hash', hok, hlookup⟩ := @ih (hashAdd (envKey e.1) e.2 hash)
      (fun k hk => hzero k (List.mem_cons_of_mem l hk))
      (hseen ▸ fun k hk => hcolon k (List.mem_cons_of_mem l hk))
      (by rw [hseen, toNat_or hsecond]; omega)
    refine ⟨hash', ?_, fun k => ?_⟩
    · rw [addLines_field hl hfield, if_neg hsecond, hok]
    · rw [hlookup, lookup_hashAdd, valuesAt_cons hfield]
      split_ifs <;> rfl

/-- The number of Content-Length lines. -/
theorem length_valuesAt (ls : List Bytes) :
    (valuesAt (bytes "CONTENT_LENGTH") (fieldsBy rackKey ls)).length = ls.countP isLength := by
  induction ls with
  | nil => rfl
  | cons l ls ih =>
    cases hfield : field l with
    | none =>
      have hlength : ¬ isLength l = true := by
        unfold isLength
        rw [hfield]
        decide
      rw [fieldsBy_none hfield, List.countP_cons_of_neg hlength, ih]
    | some e =>
      have hlength : isLength l = true ↔ rackKey e.1 = bytes "CONTENT_LENGTH" := by
        unfold isLength
        rw [hfield, rackKey_length_iff]
        rfl
      rw [valuesAt_cons hfield]
      split_ifs with hk
      · rw [List.length_cons, List.countP_cons_of_pos (hlength.mpr hk), ih]
      · rw [List.countP_cons_of_neg (fun h => hk (hlength.mp h)), ih]

/-! ## The values under a key -/

/-- Up to two values are left as they should be. -/
theorem push_two {vs : List Bytes} (h : vs.length ≤ 2) :
    (vs.foldl pushValue none).map HeaderValue.ruby = rackValue vs := by
  obtain _ | ⟨a, _ | ⟨b, _ | ⟨c, vs⟩⟩⟩ := vs
  · rfl
  · rfl
  · rfl
  · rw [List.length_cons, List.length_cons, List.length_cons] at h
    omega

/-- What a value was pushed to is an array of two. -/
theorem push_pair (v : HeaderValue) {vs : List Bytes} (h : vs ≠ []) :
    ∃ x y, (vs.foldl pushValue (some v)).map HeaderValue.ruby = some (.ary [x, y]) := by
  induction vs generalizing v with
  | nil => exact absurd rfl h
  | cons s vs ih =>
    by_cases hvs : vs = []
    · rw [hvs]
      exact ⟨_, _, rfl⟩
    · exact ih (.ary v s) hvs

/-- A third value is not added to the list. -/
theorem push_three {vs : List Bytes} (h : ¬ vs.length ≤ 2) :
    (vs.foldl pushValue none).map HeaderValue.ruby ≠ rackValue vs := by
  obtain _ | ⟨a, _ | ⟨b, _ | ⟨c, vs⟩⟩⟩ := vs
  · exact absurd (by decide) h
  · exact absurd (Nat.le_succ 1) h
  · exact absurd (Nat.le_refl 2) h
  · obtain ⟨x, y, hpair⟩ := push_pair (.str a) (List.cons_ne_nil b (c :: vs))
    intro heq
    have hflat : rackValue (a :: b :: c :: vs) = some (.ary ((a :: b :: c :: vs).map .str)) := rfl
    have hary := hpair.symm.trans (heq.trans hflat)
    rw [Option.some.injEq, RubyValue.ary.injEq] at hary
    have hlen := congrArg List.length hary
    rw [List.length_map] at hlen
    exact absurd hlen (by simp)

/-! ## All headers -/

theorem HeaderBlock.zero_not_mem_line (b : HeaderBlock) : ∀ l ∈ b.lines, 0 ∉ l :=
  fun _ hl hmem => b.zero_not_mem (mem_splitLines hl hmem)

theorem valuesAt_ne_nil {key : Bytes → Bytes} {ls : List Bytes} {k : Bytes} :
    valuesAt k (fieldsBy key ls) ≠ [] ↔ ∃ e ∈ ls.filterMap field, key e.1 = k := by
  unfold valuesAt fieldsBy
  rw [Ne, List.map_eq_nil_iff, List.filter_eq_nil_iff]
  push Not
  constructor
  · rintro ⟨e, he, hk⟩
    obtain ⟨e', he', rfl⟩ := List.mem_map.mp he
    exact ⟨e', he', beq_iff_eq.mp hk⟩
  · rintro ⟨e, he, hk⟩
    exact ⟨_, List.mem_map_of_mem he, beq_iff_eq.mpr hk⟩

theorem rackValue_ne_none {vs : List Bytes} (h : vs ≠ []) : rackValue vs ≠ none := by
  obtain _ | ⟨a, _ | ⟨b, vs⟩⟩ := vs
  · exact absurd rfl h
  · exact Option.some_ne_none _
  · exact Option.some_ne_none _

/-- Short names have the keys that they should have. -/
theorem fieldsBy_short {ls : List Bytes} (hzero : ∀ l ∈ ls, 0 ∉ l)
    (hnames : ∀ e ∈ ls.filterMap field, e.1.length ≤ 1018) : fieldsBy envKey ls = fieldsBy rackKey ls := by
  refine List.map_congr_left fun e he => ?_
  obtain ⟨l, hl, hfield⟩ := List.mem_filterMap.mp he
  rw [envKey_short (field_zero (hzero l hl) hfield) (hnames e he)]

/-- What one Content-Length or none leaves in the hash. -/
theorem adds_ok {b : HeaderBlock} {start : EnvStart} {hash : HeaderHash}
    (hlookup : ∀ k, hash.lookup k =
      (valuesAt k (fieldsBy envKey b.lines)).foldl pushValue (start.hash.lookup k)) :
    AddsHeaders b start (.ok hash) ↔ (∀ e ∈ b.lines.filterMap field, e.1.length ≤ 1018) ∧
      ∀ k, (valuesAt k (fieldsBy rackKey b.lines)).length ≤ 2 := by
  have hstart : ∀ k, valuesAt k (fieldsBy rackKey b.lines) ≠ [] → start.hash.lookup k = none := by
    intro k hk
    obtain ⟨e, -, rfl⟩ := valuesAt_ne_nil.mp hk
    exact start.lookup_rackKey e.1
  constructor
  · intro hadds
    have hnames : ∀ e ∈ b.lines.filterMap field, e.1.length ≤ 1018 := by
      intro e he
      by_contra hlong
      have hkey := length_rackKey (Nat.lt_of_not_le hlong)
      have hnil : valuesAt (rackKey e.1) (fieldsBy envKey b.lines) = [] := by
        by_contra hne
        obtain ⟨e', -, hkey'⟩ := valuesAt_ne_nil.mp hne
        have hshort := length_envKey e'.1
        rw [hkey'] at hshort
        omega
      have hvalues : valuesAt (rackKey e.1) (fieldsBy rackKey b.lines) ≠ [] := valuesAt_ne_nil.mpr ⟨e, he, rfl⟩
      have hwrong := hadds (rackKey e.1)
      rw [hlookup, hnil, List.foldl_nil, hstart _ hvalues] at hwrong
      exact rackValue_ne_none hvalues (by simpa using hwrong.symm)
    refine ⟨hnames, fun k => ?_⟩
    by_contra hthree
    have hvalues : valuesAt k (fieldsBy rackKey b.lines) ≠ [] := by
      intro hnil
      rw [hnil] at hthree
      exact hthree (Nat.zero_le 2)
    have hwrong := hadds k
    rw [hlookup, fieldsBy_short b.zero_not_mem_line hnames, hstart k hvalues] at hwrong
    exact push_three hthree (hwrong.trans Option.or_none)
  · rintro ⟨hnames, htwice⟩ k
    rw [hlookup, fieldsBy_short b.zero_not_mem_line hnames]
    by_cases hvalues : valuesAt k (fieldsBy rackKey b.lines) = []
    · rw [hvalues]
      rfl
    · rw [hstart k hvalues, push_two (htwice k)]
      exact Option.or_none.symm

/-- **`fill_headers` adds the headers of a block, and nothing else, just when the block is plain.** -/
theorem rack_headers_iff (stack : ℕ → Bytes) (b : HeaderBlock) (start : EnvStart) (t : Bytes) :
    AddsHeaders b start
      ((fillHeaders stack start.hash (b.text ++ (crlf ++ t)) b.text.length).map HeaderFill.hash) ↔
        PlainBlock b := by
  have hseen : hasLength start.hash = false := by
    have hnone := start.lookup_rackKey (bytes "Content-Length")
    unfold hasLength
    rw [show bytes "CONTENT_LENGTH" = rackKey (bytes "Content-Length") from rfl, hnone]
    rfl
  rw [fillHeaders_block]
  by_cases hcolons : ∀ l ∈ reached false b.lines, field l ≠ none
  · rw [← hseen] at hcolons
    by_cases hcount : b.lines.countP isLength ≤ 1
    · obtain ⟨hash, hok, hlookup⟩ :=
        addLines_ok b.zero_not_mem_line hcolons (by rw [hseen, Bool.toNat_false]; omega)
      rw [hok, adds_ok hlookup]
      rw [hseen] at hcolons
      exact ⟨fun h => ⟨hcolons, fun _ => h.1, fun _ => h.2⟩, fun h => ⟨h.names hcount, h.twice hcount⟩⟩
    · rw [addLines_raised b.zero_not_mem_line hcolons (by omega)]
      rw [hseen] at hcolons
      have htwo : 2 ≤ (valuesAt (bytes "CONTENT_LENGTH") (fieldsBy rackKey b.lines)).length := by
        rw [length_valuesAt]
        omega
      exact iff_of_true htwo ⟨hcolons, fun h => absurd h hcount, fun h => absurd h hcount⟩
  · refine iff_of_false ?_ fun h => hcolons h.colons
    push Not at hcolons
    rw [addLines_undefined b.zero_not_mem_line (hseen ▸ hcolons)]
    exact id

def noKeys : EnvStart := ⟨[], fun _ h => absurd h List.not_mem_nil⟩

/-- A header that comes three times. -/
def threeTimes : HeaderBlock := ⟨bytes "X-A: 1\r\nX-A: 2\r\nX-A: 3", by decide⟩

/-- Three values are nested, and the empty block is read as a line without an end. -/
theorem three_times_nested :
    ¬ AddsHeaders threeTimes noKeys ((fillHeaders (fun _ => []) [] (threeTimes.text ++ (crlf ++ crlf))
      threeTimes.text.length).map HeaderFill.hash) ∧
    ¬ AddsHeaders ⟨[], List.not_mem_nil⟩ noKeys ((fillHeaders (fun _ => []) [] crlf 0).map HeaderFill.hash) := by
  constructor
  · obtain ⟨hash, hok, hlookup⟩ : ∃ hash, addLines [] threeTimes.lines = .ok hash ∧ ∀ k, hash.lookup k =
        (valuesAt k (fieldsBy envKey threeTimes.lines)).foldl pushValue (noKeys.hash.lookup k) :=
      addLines_ok threeTimes.zero_not_mem_line (by decide +kernel) (by decide +kernel)
    rw [fillHeaders_block, hok, adds_ok hlookup]
    exact fun h => absurd (h.2 (bytes "HTTP_X_A")) (by decide +kernel)
  · exact id

end Agoo
