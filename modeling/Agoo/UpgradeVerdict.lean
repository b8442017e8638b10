import Agoo.FillHeaders

/-!
# The two upgrade detectors (`check_upgrade`, `fill_headers`)

`check_upgrade` gives the response its kind, `fill_headers` tells the handler of the upgrade. The first
takes the first line of a name, searches from its value on to the end of the message, and takes the start
of a word for the word. The second takes any line, with blanks before its name, compares whole values, and
searches a copy that has no end of its own.

`verdicts_agree_iff`: when the two agree, and are right.
-/

namespace Agoo

/-! ## The law -/

/-- A Connection value contains Upgrade, and an Upgrade value is websocket. -/
structure AsksWebSocket (lines : List HeaderLine) : Prop where
  connection : ∃ l ∈ lines, sameText l.name (bytes "Connection") = true ∧ bytes "Upgrade" <:+: l.value
  upgrade : ∃ l ∈ lines, sameText l.name (bytes "Upgrade") = true ∧ sameText l.value (bytes "websocket") = true

/-- The verdict that a kind stands for. -/
def kindVerdict : Option ConKind → UpKind
  | some .ws => .ws
  | some .sse => .sse
  | _ => .none

/-- The message from the header on. -/
def headerMsg (lines : List HeaderLine) (body : Bytes) : Bytes := headerMem lines (crlf ++ body)

/-- Both reach a verdict, the same one, and it is WebSocket when the header asks for that. -/
structure VerdictsAgree (stack : ℕ → Bytes) (hash : HeaderHash) (lines : List HeaderLine) (body : Bytes) :
    Prop where
  same : ∃ f, fillHeaders stack hash (headerMsg lines body) (headerLen lines) = .ok f ∧
    f.kind = kindVerdict (checkUpgrade (headerMsg lines body) (headerLen lines))
  ws : checkUpgrade (headerMsg lines body) (headerLen lines) = some .ws ↔ AsksWebSocket lines

/-! ## What the detectors look at -/

/-- It is the text, or the start of it. -/
def StartsText (v text : Bytes) : Prop := v.map tolower <+: text.map tolower

/-- How many Content-Lengths there will be. -/
def contentLengths (hash : HeaderHash) (lines : List HeaderLine) : ℕ :=
  (if hasLength hash then 1 else 0) +
    lines.countP fun l => sameText l.bare (bytes "Content-Length")

/-- A line has that name behind blanks, and exactly that value. -/
def hasLine (name value : Bytes) (lines : List HeaderLine) : Bool :=
  lines.any fun l => sameText l.bare name && sameText l.value value

/-- A Connection value that fits in the buffer has an Upgrade in its copy; the first line is at offset `h`. -/
def copiesUpgrade (stack : ℕ → Bytes) : ℕ → List HeaderLine → Bool
  | _, [] => false
  | h, l :: ls =>
    sameText l.bare (bytes "Connection") &&
        (l.value.length < 1023 && copyUpgrades (stack (h + l.text.length)) l.value)
      || copiesUpgrade stack (h + l.text.length + 2) ls

/-- An Upgrade is found from the first Connection value on, and the first Upgrade value is a start of
websocket. -/
def ReachesWebSocket (lines : List HeaderLine) (body : Bytes) : Prop :=
  ∃ c cs u us, firstLine (bytes "Connection") lines = some (c, cs) ∧
    (strstr (c.value ++ (crlf ++ headerMsg cs body)) (bytes "Upgrade")).isSome = true ∧
    firstLine (bytes "Upgrade") lines = some (u, us) ∧ StartsText u.value (bytes "websocket")

/-- The first Accept value is a start of text/event-stream. -/
def ReachesEventStream (lines : List HeaderLine) : Prop :=
  ∃ l ls, firstLine (bytes "Accept") lines = some (l, ls) ∧ StartsText l.value (bytes "text/event-stream")

/-- There is a line and at most one Content-Length. When the header asks for a WebSocket, the first Upgrade
value is a start of websocket and some copy has the Upgrade. What is found elsewhere, behind a value or on
the stack, adds up to no WebSocket that nobody asked for. Without one, the first Accept value is a start of
text/event-stream exactly when some Accept value is all of it. -/
structure PlainUpgrade (stack : ℕ → Bytes) (hash : HeaderHash) (lines : List HeaderLine) (body : Bytes) :
    Prop where
  line : lines ≠ []
  once : contentLengths hash lines ≤ 1
  first : AsksWebSocket lines → ∀ u us, firstLine (bytes "Upgrade") lines = some (u, us) →
    StartsText u.value (bytes "websocket")
  copied : AsksWebSocket lines → copiesUpgrade stack 0 lines = true
  reach : ReachesWebSocket lines body → AsksWebSocket lines
  junk : copiesUpgrade stack 0 lines = true → hasLine (bytes "Upgrade") (bytes "websocket") lines = true →
    AsksWebSocket lines
  accept : ¬ AsksWebSocket lines →
    (ReachesEventStream lines ↔ hasLine (bytes "Accept") (bytes "text/event-stream") lines = true)

/-! ## Texts -/

theorem HeaderLine.zero_not_mem_bare (l : HeaderLine) : 0 ∉ l.bare := fun hmem =>
  (l.name_plain 0 ((List.dropWhile_sublist _).subset hmem)).1 rfl

theorem HeaderLine.zero_not_mem_value (l : HeaderLine) : 0 ∉ l.value := fun hmem => (l.value_plain 0 hmem).1 rfl

/-- Compared up to the length of a value, it is a start of the text. -/
theorem strncasecmp_value {text v : Bytes} (htext : 0 ∉ text) (hv : 0 ∉ v) (x : Bytes) :
    strncasecmp text (v ++ x) v.length = true ↔ StartsText v text := by
  unfold strncasecmp StartsText
  rw [cstr_of_not_mem htext, cstr_append hv, List.take_left, beq_iff_eq, List.prefix_iff_eq_take, List.length_map,
    List.map_take]
  exact eq_comm

/-! ## `check_upgrade` on lines -/

theorem plainKey_connection : PlainKey (bytes "Connection") := plainKey_of_all rfl

theorem plainKey_upgrade : PlainKey (bytes "Upgrade") := plainKey_of_all rfl

theorem plainKey_accept : PlainKey (bytes "Accept") := plainKey_of_all rfl

theorem zero_not_mem_webSocket : 0 ∉ bytes "WebSocket" := (plainKey_of_all rfl : PlainKey _).zero_not_mem

theorem startsText_webSocket {v : Bytes} : StartsText v (bytes "WebSocket") ↔ StartsText v (bytes "websocket") := by
  unfold StartsText
  rw [show (bytes "WebSocket").map tolower = (bytes "websocket").map tolower by decide]

theorem zero_not_mem_eventStream : 0 ∉ bytes "text/event-stream" :=
  (plainKey_of_all rfl : PlainKey _).zero_not_mem

/-- What a search of the message finds. -/
theorem headerValue_cases {key : Bytes} (hkey : PlainKey key) (lines : List HeaderLine) (body : Bytes) :
    (firstLine key lines = none ∧ conHeaderValue (headerMsg lines body) (headerLen lines) key = none) ∨
      ∃ l ls off, firstLine key lines = some (l, ls) ∧
        conHeaderValue (headerMsg lines body) (headerLen lines) key = some (off, l.value.length) ∧
        (headerMsg lines body).drop off = l.value ++ (crlf ++ headerMsg ls body) := by
  have hfinds := headerValue_lines hkey lines (crlf ++ body)
  cases hfirst : firstLine key lines with
  | none =>
    rw [hfirst] at hfinds
    exact Or.inl ⟨rfl, hfinds⟩
  | some e =>
    obtain ⟨l, ls⟩ := e
    rw [hfirst] at hfinds
    obtain ⟨off, hsome, hdrop⟩ := hfinds
    exact Or.inr ⟨l, ls, off, rfl, hsome, hdrop⟩

theorem wantsWebSocket_iff (lines : List HeaderLine) (body : Bytes) :
    checkUpgrade.wantsWebSocket (headerMsg lines body) (headerLen lines) = true ↔ ReachesWebSocket lines body := by
  unfold checkUpgrade.wantsWebSocket ReachesWebSocket
  rcases headerValue_cases plainKey_connection lines body with ⟨hfirst, hfound⟩ | ⟨c, cs, off, hfirst, hfound, hdrop⟩
  · rw [hfirst, hfound]
    simp
  rw [hfirst, hfound]
  dsimp only
  rw [hdrop]
  rcases headerValue_cases plainKey_upgrade lines body with ⟨hup, hnone⟩ | ⟨u, us, off', hup, hsome, hbehind⟩
  · rw [hup, hnone]
    simp
  rw [hup, hsome]
  dsimp only
  rw [hbehind, Bool.and_eq_true, strncasecmp_value zero_not_mem_webSocket u.zero_not_mem_value,
    startsText_webSocket]
  constructor
  · exact fun ⟨hreach, hstarts⟩ => ⟨c, cs, u, us, rfl, hreach, rfl, hstarts⟩
  · rintro ⟨c', cs', u', us', hc, hreach, hu, hstarts⟩
    cases hc
    cases hu
    exact ⟨hreach, hstarts⟩

theorem checkUpgrade_ws (lines : List HeaderLine) (body : Bytes) :
    checkUpgrade (headerMsg lines body) (headerLen lines) = some .ws ↔ ReachesWebSocket lines body := by
  rw [← wantsWebSocket_iff]
  unfold checkUpgrade
  by_cases hws : checkUpgrade.wantsWebSocket (headerMsg lines body) (headerLen lines) = true
  · rw [if_pos hws]
    exact iff_of_true rfl hws
  · rw [if_neg hws]
    refine iff_of_false (fun h => ?_) hws
    split at h
    · split_ifs at h
      cases h
    · cases h

theorem checkUpgrade_else {lines : List HeaderLine} {body : Bytes} (hws : ¬ ReachesWebSocket lines body) :
    (ReachesEventStream lines → checkUpgrade (headerMsg lines body) (headerLen lines) = some .sse) ∧
      (¬ ReachesEventStream lines → checkUpgrade (headerMsg lines body) (headerLen lines) = none) := by
  unfold checkUpgrade ReachesEventStream
  rw [if_neg ((wantsWebSocket_iff lines body).not.mpr hws)]
  rcases headerValue_cases plainKey_accept lines body with ⟨hfirst, hfound⟩ | ⟨l, ls, off, hfirst, hfound, hdrop⟩
  · rw [hfirst, hfound]
    exact ⟨fun ⟨l, ls, h, _⟩ => (by cases h), fun _ => rfl⟩
  rw [hfirst, hfound]
  dsimp only
  rw [hdrop]
  have hiff := strncasecmp_value zero_not_mem_eventStream l.zero_not_mem_value (crlf ++ headerMsg ls body)
  constructor
  · rintro ⟨l', ls', hl, hstarts⟩
    cases hl
    exact if_pos (hiff.mpr hstarts)
  · intro hstarts
    exact if_neg fun h => hstarts ⟨l, ls, rfl, hiff.mp h⟩

/-! ## What the header asks for is reached -/

theorem firstLine_of_mem {key : Bytes} {l : HeaderLine} {lines : List HeaderLine} (hl : l ∈ lines)
    (hname : sameText l.name key = true) :
    ∃ c cs, firstLine key lines = some (c, cs) ∧ (l = c ∨ l ∈ cs) := by
  induction lines with
  | nil => cases hl
  | cons k ks ih =>
    unfold firstLine
    by_cases hk : sameText k.name key = true
    · rw [if_pos hk]
      exact ⟨k, ks, rfl, List.mem_cons.mp hl⟩
    · rw [if_neg hk]
      rcases List.mem_cons.mp hl with rfl | hl
      · exact absurd hname hk
      · exact ih hl

theorem headerMem_append (lines : List HeaderLine) (t : Bytes) : headerMem lines t = headerMem lines [] ++ t := by
  induction lines with
  | nil => rfl
  | cons l ls ih =>
    rw [headerMem, headerMem, ih]
    simp only [List.append_assoc]

theorem zero_not_mem_headerMem (lines : List HeaderLine) : 0 ∉ headerMem lines [] := by
  induction lines with
  | nil => exact List.not_mem_nil
  | cons l ls ih =>
    rw [headerMem]
    intro hmem
    rcases List.mem_append.mp hmem with hmem | hmem
    · exact (l.text_plain 0 hmem).1 rfl
    · rcases List.mem_append.mp hmem with hmem | hmem
      · revert hmem
        decide
      · exact ih hmem

theorem value_infix_headerMem {l : HeaderLine} {lines : List HeaderLine} (hl : l ∈ lines) :
    l.value <:+: headerMem lines [] := by
  induction lines with
  | nil => cases hl
  | cons k ks ih =>
    rw [headerMem]
    rcases List.mem_cons.mp hl with rfl | hl
    · refine List.IsInfix.trans ?_ (List.prefix_append _ _).isInfix
      unfold HeaderLine.text
      exact ((List.suffix_append _ _).trans (List.suffix_cons _ _)).trans (List.suffix_append _ _) |>.isInfix
    · exact (ih hl).trans ((List.suffix_append _ _).trans (List.suffix_append _ _)).isInfix

/-- A pattern inside a text without NULs is found in memory that starts with the text. -/
theorem strstr_of_infix {pat a : Bytes} (hpat : pat <:+: a) (ha : 0 ∉ a) (b : Bytes) :
    (strstr (a ++ b) pat).isSome = true := by
  unfold strstr
  rw [cstr_append ha]
  obtain ⟨s, t, rfl⟩ := hpat
  rw [Option.isSome_iff_ne_none]
  intro hnone
  refine find_eq_none_iff.mp hnone s.length (by simp) ?_
  rw [List.append_assoc, List.append_assoc, List.drop_left]
  exact List.prefix_append _ _

/-- The later lines are searched too. -/
theorem AsksWebSocket.reaches {lines : List HeaderLine} (h : AsksWebSocket lines) (body : Bytes) :
    ReachesWebSocket lines body ↔
      ∀ u us, firstLine (bytes "Upgrade") lines = some (u, us) → StartsText u.value (bytes "websocket") := by
  obtain ⟨l, hl, hname, hvalue⟩ := h.connection
  obtain ⟨k, hk, hkey, -⟩ := h.upgrade
  obtain ⟨c, cs, hfirst, hmem⟩ := firstLine_of_mem hl hname
  obtain ⟨u, us, hup, -⟩ := firstLine_of_mem hk hkey
  constructor
  · rintro ⟨c', cs', u', us', -, -, hu, hstarts⟩ v vs hv
    rw [hu] at hv
    cases hv
    exact hstarts
  · intro hstarts
    refine ⟨c, cs, u, us, hfirst, ?_, hup, hstarts u us hup⟩
    unfold headerMsg
    rw [headerMem_append, ← List.append_assoc, ← List.append_assoc]
    refine strstr_of_infix ?_ ?_ _
    · rcases hmem with rfl | hmem
      · exact hvalue.trans ((List.prefix_append _ _).trans (List.prefix_append _ _)).isInfix
      · exact hvalue.trans ((value_infix_headerMem hmem).trans (List.suffix_append _ _).isInfix)
    · simp only [List.mem_append, not_or]
      exact ⟨⟨c.zero_not_mem_value, by decide⟩, zero_not_mem_headerMem cs⟩

/-! ## `fill_headers` on lines -/

theorem plainKey_contentType : PlainKey (bytes "Content-Type") := plainKey_of_all rfl

theorem plainKey_contentLength : PlainKey (bytes "Content-Length") := plainKey_of_all rfl

theorem HeaderLine.isText_bare (l : HeaderLine) {key : Bytes} (hkey : PlainKey key) :
    isText l.bare key = sameText l.bare key := isText_eq l.zero_not_mem_bare hkey.zero_not_mem

theorem addHeaderValue_length {hash : HeaderHash} {l : HeaderLine}
    (hl : sameText l.bare (bytes "Content-Length") = true) (hhash : hasLength hash = true) (value : Bytes) :
    addHeaderValue hash l.bare value = .error .raised := by
  unfold addHeaderValue
  have htype : sameText l.bare (bytes "Content-Type") = false := sameText_ne (by decide) hl
  obtain ⟨v, hv⟩ := Option.isSome_iff_exists.mp hhash
  rw [l.isText_bare plainKey_contentType, l.isText_bare plainKey_contentLength, htype, hl, hv]
  rfl

theorem addHeaderValue_ok {hash : HeaderHash} {l : HeaderLine}
    (h : ¬ (sameText l.bare (bytes "Content-Length") = true ∧ hasLength hash = true)) (value : Bytes) :
    ∃ hash', addHeaderValue hash l.bare value = .ok hash' ∧
      hasLength hash' = (hasLength hash || sameText l.bare (bytes "Content-Length")) := by
  unfold addHeaderValue
  rw [l.isText_bare plainKey_contentType, l.isText_bare plainKey_contentLength]
  by_cases htype : sameText l.bare (bytes "Content-Type") = true
  · have hlength : sameText l.bare (bytes "Content-Length") = false := sameText_ne (by decide) htype
    refine ⟨_, if_pos htype, ?_⟩
    unfold hasLength
    rw [lookup_hashAdd_ne (by decide), hlength, Bool.or_false]
  rw [if_neg htype]
  by_cases hlength : sameText l.bare (bytes "Content-Length") = true
  · have hnone : hash.lookup (bytes "CONTENT_LENGTH") = none := by
      rw [← Option.not_isSome_iff_eq_none]
      exact fun hsome => h ⟨hlength, hsome⟩
    rw [if_pos hlength, hnone]
    refine ⟨_, rfl, ?_⟩
    unfold hasLength
    rw [lookup_hashSet, hlength, Bool.or_true]
    rfl
  · refine ⟨_, if_neg hlength, ?_⟩
    unfold hasLength
    rw [lookup_hashAdd_ne (httpKey_ne _), Bool.eq_false_of_not_eq_true hlength, Bool.or_false]

/-- What a line changes. -/
structure LineRead (stack : Bytes) (l : HeaderLine) (f f' : HeaderFill) : Prop where
  length : hasLength f'.hash = (hasLength f.hash || sameText l.bare (bytes "Content-Length"))
  upgrade : f'.upgrade = (f.upgrade ||
    sameText l.bare (bytes "Connection") && (l.value.length < 1023 && copyUpgrades stack l.value))
  ws : f'.ws = (f.ws || sameText l.bare (bytes "Upgrade") && sameText l.value (bytes "websocket"))
  kind : f'.kind =
    if (sameText l.bare (bytes "Accept") && sameText l.value (bytes "text/event-stream")) = true then .sse
    else f.kind

theorem fillLine_length {stack : Bytes} {l : HeaderLine} {f : HeaderFill}
    (hl : sameText l.bare (bytes "Content-Length") = true) (hhash : hasLength f.hash = true) :
    fillLine stack l.bare l.value f = .error .raised := by
  unfold fillLine
  rw [addHeaderValue_length hl hhash]

theorem fillLine_ok {l : HeaderLine} {f : HeaderFill}
    (h : ¬ (sameText l.bare (bytes "Content-Length") = true ∧ hasLength f.hash = true)) (stack : Bytes) :
    ∃ f', fillLine stack l.bare l.value f = .ok f' ∧ LineRead stack l f f' := by
  obtain ⟨hash', hadd, hlength⟩ := addHeaderValue_ok h l.value
  have hwebsocket : isText l.value (bytes "websocket") = sameText l.value (bytes "websocket") :=
    isText_eq l.zero_not_mem_value (plainKey_of_all rfl : PlainKey _).zero_not_mem
  have hstream : isText l.value (bytes "text/event-stream") = sameText l.value (bytes "text/event-stream") :=
    isText_eq l.zero_not_mem_value zero_not_mem_eventStream
  unfold fillLine
  rw [hadd]
  dsimp only
  rw [l.isText_bare plainKey_upgrade, l.isText_bare plainKey_connection, l.isText_bare plainKey_accept, hwebsocket,
    hstream]
  by_cases hup : sameText l.bare (bytes "Upgrade") = true
  · have hcon : sameText l.bare (bytes "Connection") = false := sameText_ne (by decide) hup
    have hacc : sameText l.bare (bytes "Accept") = false := sameText_ne (by decide) hup
    refine ⟨_, if_pos hup, hlength, ?_, ?_, ?_⟩
    · rw [hcon]; simp
    · rw [hup]; simp
    · rw [hacc]; simp
  rw [if_neg hup]
  have hup := Bool.eq_false_of_not_eq_true hup
  by_cases hcon : sameText l.bare (bytes "Connection") = true
  · have hacc : sameText l.bare (bytes "Accept") = false := sameText_ne (by decide) hcon
    refine ⟨_, if_pos hcon, hlength, ?_, ?_, ?_⟩
    · rw [hcon]; simp
    · rw [hup]; simp
    · rw [hacc]; simp
  rw [if_neg hcon]
  have hcon := Bool.eq_false_of_not_eq_true hcon
  by_cases hacc : sameText l.bare (bytes "Accept") = true
  · refine ⟨_, if_pos hacc, hlength, ?_, ?_, ?_⟩
    · rw [hcon]; simp
    · rw [hup]; simp
    · rw [hacc]; simp
  have hacc' := Bool.eq_false_of_not_eq_true hacc
  refine ⟨_, if_neg hacc, hlength, ?_, ?_, ?_⟩
  · rw [hcon]; simp
  · rw [hup]; simp
  · rw [hacc']; simp

/-- What a list of lines changes. -/
structure LinesRead (stack : ℕ → Bytes) (h : ℕ) (ls : List HeaderLine) (f f' : HeaderFill) : Prop where
  upgrade : f'.upgrade = (f.upgrade || copiesUpgrade stack h ls)
  ws : f'.ws = (f.ws || hasLine (bytes "Upgrade") (bytes "websocket") ls)
  kind : f'.kind = if hasLine (bytes "Accept") (bytes "text/event-stream") ls = true then .sse else f.kind

/-- A second Content-Length is refused; otherwise all lines are read. -/
theorem fillLines_spec (stack : ℕ → Bytes) : ∀ (ls : List HeaderLine) (h : ℕ) (f : HeaderFill),
    (contentLengths f.hash ls ≤ 1 → ∃ f', fillLines stack h ls f = .ok f' ∧ LinesRead stack h ls f f') ∧
      (1 < contentLengths f.hash ls → fillLines stack h ls f = .error .raised) := by
  intro ls
  induction ls with
  | nil =>
    intro h f
    refine ⟨fun _ => ⟨f, rfl, ?_, ?_, rfl⟩, fun hlt => ?_⟩
    · exact (Bool.or_false _).symm
    · exact (Bool.or_false _).symm
    · unfold contentLengths at hlt
      rw [List.countP_nil] at hlt
      split_ifs at hlt <;> omega
  | cons l ls ih =>
    intro h f
    rw [fillLines]
    by_cases hbad : sameText l.bare (bytes "Content-Length") = true ∧ hasLength f.hash = true
    · rw [fillLine_length hbad.1 hbad.2]
      refine ⟨fun hle => ?_, fun _ => rfl⟩
      unfold contentLengths at hle
      rw [List.countP_cons, hbad.1, hbad.2] at hle
      simp at hle
    obtain ⟨f', hline, hread⟩ := fillLine_ok hbad (stack (h + l.text.length))
    obtain ⟨hok, herror⟩ := ih (h + l.text.length + 2) f'
    have hcount : contentLengths f'.hash ls = contentLengths f.hash (l :: ls) := by
      unfold contentLengths
      rw [List.countP_cons, hread.length]
      cases hname : sameText l.bare (bytes "Content-Length") with
      | false => simp
      | true =>
        cases hhash : hasLength f.hash with
        | false =>
          simp
          omega
        | true => exact absurd ⟨hname, hhash⟩ hbad
    rw [hcount] at hok herror
    rw [hline]
    refine ⟨fun hle => ?_, herror⟩
    obtain ⟨f'', hlines, hreads⟩ := hok hle
    refine ⟨f'', hlines, ?_, ?_, ?_⟩
    · rw [hreads.upgrade, hread.upgrade, Bool.or_assoc]
      rfl
    · rw [hreads.ws, hread.ws, Bool.or_assoc]
      rfl
    · rw [hreads.kind, hread.kind]
      unfold hasLine
      rw [List.any_cons]
      cases sameText l.bare (bytes "Accept") && sameText l.value (bytes "text/event-stream") with
      | false => rfl
      | true => exact ite_self _

/-- The upgrade that `fill_headers` comes to. -/
theorem fillHeaders_spec (stack : ℕ → Bytes) (hash : HeaderHash) (lines : List HeaderLine) (body : Bytes) :
    (lines ≠ [] ∧ contentLengths hash lines ≤ 1 →
      ∃ f, fillHeaders stack hash (headerMsg lines body) (headerLen lines) = .ok f ∧
        f.kind =
          if (copiesUpgrade stack 0 lines && hasLine (bytes "Upgrade") (bytes "websocket") lines) = true then .ws
          else if hasLine (bytes "Accept") (bytes "text/event-stream") lines = true then .sse else .none) ∧
      (¬ (lines ≠ [] ∧ contentLengths hash lines ≤ 1) →
        ∃ e, fillHeaders stack hash (headerMsg lines body) (headerLen lines) = .error e) := by
  by_cases hlines : lines = []
  · rw [hlines]
    exact ⟨fun h => absurd rfl h.1, fun _ => ⟨_, rfl⟩⟩
  obtain ⟨hok, herror⟩ := fillLines_spec stack lines 0 ⟨hash, false, false, .none⟩
  unfold headerMsg
  rw [fillHeaders_lines stack hash hlines]
  refine ⟨fun ⟨_, hle⟩ => ?_, fun hnot => ?_⟩
  · obtain ⟨f, hf, hread⟩ := hok hle
    rw [hf]
    refine ⟨f.close, rfl, ?_⟩
    have hup : f.upgrade = copiesUpgrade stack 0 lines := hread.upgrade.trans (Bool.false_or _)
    have hws : f.ws = hasLine (bytes "Upgrade") (bytes "websocket") lines := hread.ws.trans (Bool.false_or _)
    unfold HeaderFill.close
    rw [hup, hws]
    split_ifs with hboth haccept
    · rfl
    · rw [hread.kind, if_pos haccept]
    · rw [hread.kind, if_neg haccept]
  · have hlt : 1 < contentLengths hash lines := by
      by_contra hle
      exact hnot ⟨hlines, by omega⟩
    rw [herror hlt]
    exact ⟨_, rfl⟩

/-! ## The two together -/

/-- The verdict of `check_upgrade`. -/
theorem kindVerdict_check (lines : List HeaderLine) (body : Bytes) :
    (ReachesWebSocket lines body → kindVerdict (checkUpgrade (headerMsg lines body) (headerLen lines)) = .ws) ∧
      (¬ ReachesWebSocket lines body → ReachesEventStream lines →
        kindVerdict (checkUpgrade (headerMsg lines body) (headerLen lines)) = .sse) ∧
      (¬ ReachesWebSocket lines body → ¬ ReachesEventStream lines →
        kindVerdict (checkUpgrade (headerMsg lines body) (headerLen lines)) = .none) := by
  refine ⟨fun hws => ?_, fun hws hsse => ?_, fun hws hsse => ?_⟩
  · rw [(checkUpgrade_ws lines body).mpr hws]
    rfl
  · rw [(checkUpgrade_else hws).1 hsse]
    rfl
  · rw [(checkUpgrade_else hws).2 hsse]
    rfl

/-- Only a blank is a blank in lower case. -/
theorem blank_of_tolower {c : Byte} (h : tolower c = tolower (chr ' ')) : c = chr ' ' := by
  have hblank : tolower (chr ' ') = chr ' ' := by decide
  rw [hblank] at h
  unfold tolower at h
  split_ifs at h with hupper
  · have hsum : c + 32 = 0 + 32 := h
    have hzero : c = 0 := (UInt8.add_left_inj 32).mp hsum
    rw [hzero] at hupper
    exact absurd hupper.1 (by decide)
  · exact h

/-- A name that is the text has no blanks before it. -/
theorem HeaderLine.bare_of_name {l : HeaderLine} {key : Bytes} (hkey : key.head? ≠ some (chr ' ')) (hne : key ≠ [])
    (h : sameText l.name key = true) : l.bare = l.name := by
  obtain ⟨k, ks, rfl⟩ := List.exists_cons_of_ne_nil hne
  unfold HeaderLine.bare
  have hsame := beq_iff_eq.mp h
  cases hname : l.name with
  | nil => rfl
  | cons c cs =>
    rw [hname] at hsame
    have hlower : tolower c = tolower k := (List.cons.inj hsame).1
    have hc : ¬ ((c == chr ' ') = true) := by
      rw [beq_iff_eq]
      rintro rfl
      exact hkey (congrArg some (blank_of_tolower hlower.symm))
    exact List.dropWhile_cons_of_neg (p := (· == chr ' ')) hc

theorem AsksWebSocket.hasLine {lines : List HeaderLine} (h : AsksWebSocket lines) :
    hasLine (bytes "Upgrade") (bytes "websocket") lines = true := by
  obtain ⟨l, hl, hname, hvalue⟩ := h.upgrade
  refine List.any_eq_true.mpr ⟨l, hl, ?_⟩
  rw [HeaderLine.bare_of_name (by decide) (by decide) hname, hname, hvalue]
  rfl

/-- **The two detectors agree on a header, and are right, exactly when it is plain.** -/
theorem verdicts_agree_iff (stack : ℕ → Bytes) (hash : HeaderHash) (lines : List HeaderLine) (body : Bytes) :
    VerdictsAgree stack hash lines body ↔ PlainUpgrade stack hash lines body := by
  obtain ⟨hok, herror⟩ := fillHeaders_spec stack hash lines body
  obtain ⟨hcheckWs, hcheckSse, hcheckNone⟩ := kindVerdict_check lines body
  constructor
  · intro h
    obtain ⟨f, hf, hkind⟩ := h.same
    have hasks : ReachesWebSocket lines body ↔ AsksWebSocket lines := (checkUpgrade_ws lines body).symm.trans h.ws
    have hplain : lines ≠ [] ∧ contentLengths hash lines ≤ 1 := by
      by_contra hnot
      obtain ⟨e, he⟩ := herror hnot
      rw [he] at hf
      cases hf
    obtain ⟨f', hf', hfill⟩ := hok hplain
    obtain rfl : f = f' := Except.ok.inj (hf.symm.trans hf')
    rw [hkind] at hfill
    have hboth : (copiesUpgrade stack 0 lines && Agoo.hasLine (bytes "Upgrade") (bytes "websocket") lines) = true →
        AsksWebSocket lines := by
      intro hboth
      rw [if_pos hboth] at hfill
      by_contra hask
      by_cases hsse : ReachesEventStream lines
      · rw [hcheckSse (hasks.not.mpr hask) hsse] at hfill
        cases hfill
      · rw [hcheckNone (hasks.not.mpr hask) hsse] at hfill
        cases hfill
    refine ⟨hplain.1, hplain.2, fun hask => (hask.reaches body).mp (hasks.mpr hask), fun hask => ?_, hasks.mp,
      fun hcopy hline => hboth (by rw [hcopy, hline]; rfl), fun hask => ?_⟩
    · rw [hcheckWs (hasks.mpr hask)] at hfill
      by_contra hcopy
      rw [Bool.eq_false_of_not_eq_true hcopy, Bool.false_and, if_neg Bool.false_ne_true] at hfill
      split_ifs at hfill
    · rw [if_neg fun h => hask (hboth h)] at hfill
      by_cases hsse : ReachesEventStream lines
      · rw [hcheckSse (hasks.not.mpr hask) hsse] at hfill
        refine iff_of_true hsse ?_
        by_contra hnone
        rw [if_neg hnone] at hfill
        cases hfill
      · rw [hcheckNone (hasks.not.mpr hask) hsse] at hfill
        refine iff_of_false hsse fun hsome => ?_
        rw [if_pos hsome] at hfill
        cases hfill
  · intro h
    obtain ⟨f, hf, hfill⟩ := hok ⟨h.line, h.once⟩
    have hasks : ReachesWebSocket lines body ↔ AsksWebSocket lines :=
      ⟨h.reach, fun hask => (hask.reaches body).mpr (h.first hask)⟩
    refine ⟨⟨f, hf, ?_⟩, (checkUpgrade_ws lines body).trans hasks⟩
    by_cases hask : AsksWebSocket lines
    · rw [hfill, h.copied hask, hask.hasLine, hcheckWs (hasks.mpr hask)]
      rfl
    · have hnot : ¬ (copiesUpgrade stack 0 lines &&
          Agoo.hasLine (bytes "Upgrade") (bytes "websocket") lines) = true := by
        rw [Bool.and_eq_true]
        exact fun hboth => hask (h.junk hboth.1 hboth.2)
      rw [hfill, if_neg hnot]
      by_cases hsse : ReachesEventStream lines
      · rw [hcheckSse (hasks.not.mpr hask) hsse, if_pos ((h.accept hask).mp hsse)]
      · rw [hcheckNone (hasks.not.mpr hask) hsse, if_neg ((h.accept hask).not.mp hsse)]

def connectionLine : HeaderLine :=
  ⟨bytes "Connection", 1, bytes "Upgrade", plainName_of_all rfl, plainValue_of_all rfl, by decide⟩

/-- The value is the start of websocket only. -/
def webLine : HeaderLine :=
  ⟨bytes "Upgrade", 1, bytes "web", plainName_of_all rfl, plainValue_of_all rfl, by decide⟩

theorem web_checked : checkUpgrade (headerMsg [connectionLine, webLine] []) (headerLen [connectionLine, webLine]) =
    some .ws := by
  decide

/-- The start of the word is taken for the word. -/
theorem web_disagrees : ¬ ∀ stack hash lines body, VerdictsAgree stack hash lines body := by
  intro h
  obtain ⟨-, l, hl, hname, hvalue⟩ := (h (fun _ => []) [] [connectionLine, webLine] []).ws.mp web_checked
  rcases List.mem_cons.mp hl with rfl | hl
  · exact absurd hname (by decide)
  · obtain rfl := List.mem_singleton.mp hl
    exact absurd hvalue (by decide)

end Agoo
