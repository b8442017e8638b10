import Agoo.CrlfLines
import Agoo.GqlText
import Agoo.HeaderLines
import Agoo.Page
import Mathlib.Algebra.Order.Ring.Nat

/-!
# The texts of pages (`update_contents`, `agoo_page_immutable`)

Both allocate a text for a head and a content and write to it without a bound. `page_text_iff`: when what is
written fits, and the text is a head of lines with one Content-Type and the length of the content behind it.
-/

namespace Agoo

/-! ## The code -/

/-- `agoo_text_allocate`: the bytes from `text` on, which is 29 bytes into a struct of 40 bytes. -/
def textAllocate (len : ℤ) : ℕ := (40 + (if 8 ≤ len then len else 8) + 1 - 29).toNat

/-- `sizeof(page_fmt) + 60`. -/
def pageFmtSize : ℕ := 59 + 60

/-- A text that is allocated, and what is written to it: `cnt` is how long the head is, `used` how many bytes are
written, and `text` is what the page answers with. -/
structure PageText where
  room : ℕ
  cnt : ℕ
  used : ℕ
  text : Option Bytes

/-- What `update_contents` makes a text of. -/
structure PageInput where
  rules : List HeadRule
  mime : Bytes
  size : ℕ
  data : Bytes

/-- The first part of `update_contents`, up to the allocation. -/
def pageInput (fs : Fs) (w : World) (p : Page) : Option PageInput :=
  match (openPage fs (pathMime w.cache p.path) p.path).1 with
  | none => none
  | some (f, name, mime) =>
    match f.size with
    | none => none
    | some size =>
      some ⟨w.headRules.filter fun hr => headRuleMatch hr (relPath w.root name) mime, mime, size, f.data⟩

/-- What `fread` gets. -/
def PageInput.content (i : PageInput) : Bytes := i.data.take i.size

/-- The text of `update_contents`. A text that `fread` does not fill is released. -/
def PageInput.text (i : PageInput) : PageText :=
  let head := pageHead i.rules i.mime i.size
  let got := i.content.length
  { room := textAllocate (toInt (pageFmtSize + i.size + headLen i.rules))
    cnt := head.length
    used := head.length + if got = i.size then i.size + 1 else max 1 got
    text := if got = i.size then some (head ++ i.content) else none }

/-- The header rules that match in `agoo_page_immutable`, and the mime type. -/
def immutableMime (w : World) (path : Bytes) : Bytes := (pathMime w.cache path).getD (bytes "text/html")

def immutableRules (w : World) (path : Bytes) : List HeadRule :=
  w.headRules.filter fun hr => headRuleMatch hr (relPath w.root path) (immutableMime w path)

/-- `clen`. -/
def contentLen (content : Bytes) (clen : ℤ) : ℤ := if clen = 0 then toInt (strlen content) else clen

/-- The text of `agoo_page_immutable` for the content at `content`; `junk` is what is in `has_ct`. A length below
zero is a very large one in `memcpy`. -/
def immutableText (junk : Bool) (w : World) (path content : Bytes) (clen : ℤ) : PageText :=
  let rules := immutableRules w path
  let clen := contentLen content clen
  let head := headText (junk || hasCt rules) rules (immutableMime w path) clen.toNat
  { room := textAllocate (toInt (pageFmtSize + clen))
    cnt := head.length
    used := head.length + (clen % 0x10000000000000000).toNat + 1
    text := if clen < 0 then none else some (head ++ content.take clen.toNat) }

/-- `agoo_page_immutable`. The page that was under the path is not destroyed. -/
def pageImmutable (junk : Bool) (w : World) (path content : Bytes) (clen : ℤ) : PageId × World :=
  (w.next, { w with
    pages := Function.update w.pages w.next ⟨(immutableText junk w path content clen).text, cstr path, 0, 0, true⟩
    cache := (cacheSet w.cache (cstr path) w.next).2
    next := w.next + 1 })

/-! ## What a text should be -/

def lineName (l : Bytes) : Bytes := l.takeWhile (· != chr ':')

/-- What is behind the colon and the blanks. -/
def lineValue (l : Bytes) : Bytes := ((l.dropWhile (· != chr ':')).tail).dropWhile (· == chr ' ')

def isContentType (l : Bytes) : Bool := sameText (lineName l) (bytes "Content-Type")

def isContentLength (l : Bytes) : Bool := sameText (lineName l) (bytes "Content-Length")

/-- Header lines with one Content-Type, and with no length but that of the content. -/
structure LinesOk (size : ℕ) (lines : List Bytes) : Prop where
  named : ∀ l ∈ lines, chr ':' ∈ l
  typed : lines.countP isContentType = 1
  sized : ∀ l ∈ lines, isContentLength l → lineValue l = decimal size

def statusLine : Bytes := bytes "HTTP/1.1 200 OK"

/-- A status line, header lines, an empty line and the content. -/
def Framed (text content : Bytes) : Prop :=
  ∃ lines : List Bytes, (∀ l ∈ lines, OneLine l) ∧ LinesOk content.length lines ∧
    (∃ l ∈ lines, isContentLength l) ∧
    text = statusLine ++ (crlf ++ (joinLines lines ++ (crlf ++ content)))

/-- What is written is in the block, and the text is framed. -/
structure PageText.Ok (t : PageText) (content : Bytes) : Prop where
  cnt : t.cnt < 0x80000000
  used : t.used ≤ t.room
  framed : ∀ text, t.text = some text → Framed text content

/-! ## When it is -/

def ruleLine (hr : HeadRule) : Bytes := cstr hr.key ++ (bytes ": " ++ cstr hr.value)

def typeLine (mime : Bytes) : Bytes := bytes "Content-Type: " ++ mime

def sizeLine (size : ℕ) : Bytes := bytes "Content-Length: " ++ decimal size

/-- What is printed of the header rules and the mime type. -/
def headTexts (ct : Bool) (rules : List HeadRule) (mime : Bytes) : List Bytes :=
  if 0 < headLen rules then rules.map ruleLine ++ if ct then [] else [typeLine mime] else [typeLine mime]

/-- The lines of that. -/
def headLines (ct : Bool) (rules : List HeadRule) (mime : Bytes) : List Bytes :=
  (headTexts ct rules mime).flatMap crlfLines

def ruleBytes (rules : List HeadRule) : ℕ := (rules.map fun hr => strlen hr.key + strlen hr.value + 4).sum

/-- How long a head is. -/
def headNeed (ct : Bool) (rules : List HeadRule) (mime : Bytes) (size : ℕ) : ℕ :=
  if 0 < headLen rules then 35 + (decimal size).length + ruleBytes rules + if ct then 2 else 18 + mime.length
  else 53 + mime.length + (decimal size).length

/-- The text of `update_contents` is right: its head is not too long for an `int`, there is room for the head
and for what is read, and the lines of the header rules and the mime type are what they should be. -/
structure PageInput.Good (i : PageInput) : Prop where
  cnt : headNeed (hasCt i.rules) i.rules i.mime i.size < 0x80000000
  room : headNeed (hasCt i.rules) i.rules i.mime i.size +
    (if i.content.length = i.size then i.size + 1 else max 1 i.content.length) ≤
      textAllocate (toInt (pageFmtSize + i.size + headLen i.rules))
  lines : i.content.length = i.size → LinesOk i.size (headLines (hasCt i.rules) i.rules i.mime)

/-- The text of `agoo_page_immutable` is right. Where rules match, one has to be a Content-Type, and the head has
to be short. -/
structure ImmutableGood (rules : List HeadRule) (mime content : Bytes) : Prop where
  ct : 0 < headLen rules → hasCt rules = true
  size : content.length + pageFmtSize < 0x80000000
  room : if 0 < headLen rules then (decimal content.length).length + ruleBytes rules ≤ 93
    else mime.length + (decimal content.length).length ≤ 77
  lines : LinesOk content.length (headLines (hasCt rules) rules mime)

/-! ## Heads -/

/-- A head as the texts that are printed, each with its CR LF. -/
def allTexts (ct : Bool) (rules : List HeadRule) (mime : Bytes) (size : ℕ) : List Bytes :=
  if 0 < headLen rules then sizeLine size :: headTexts ct rules mime
  else headTexts ct rules mime ++ [sizeLine size]

theorem joinLines_rules (rules : List HeadRule) :
    (rules.flatMap fun hr => cstr hr.key ++ bytes ": " ++ cstr hr.value ++ crlf) =
      joinLines (rules.map ruleLine) := by
  unfold joinLines
  rw [List.flatMap_map]
  refine List.flatMap_congr fun hr _ => ?_
  unfold ruleLine
  rw [List.append_assoc (cstr hr.key)]

theorem headText_eq (ct : Bool) (rules : List HeadRule) (mime : Bytes) (size : ℕ) :
    headText ct rules mime size = statusLine ++ (crlf ++ (joinLines (allTexts ct rules mime size) ++ crlf)) := by
  have hmin : bytes "HTTP/1.1 200 OK\r\nContent-Length: " = statusLine ++ (crlf ++ bytes "Content-Length: ") :=
    rfl
  have hfmt : bytes "HTTP/1.1 200 OK\r\nContent-Type: " = statusLine ++ (crlf ++ bytes "Content-Type: ") := rfl
  have hmid : bytes "\r\nContent-Length: " = crlf ++ bytes "Content-Length: " := rfl
  unfold headText allTexts headTexts
  by_cases hlen : 0 < headLen rules
  · rw [if_pos hlen, if_pos hlen, if_pos hlen, joinLines_rules, hmin, joinLines_cons, joinLines_append]
    unfold sizeLine
    cases ct
    · simp [typeLine]
    · simp
  · rw [if_neg hlen, if_neg hlen, if_neg hlen, hfmt, hmid]
    simp [typeLine, sizeLine]

theorem length_joinLines_rules (rules : List HeadRule) :
    (joinLines (rules.map ruleLine)).length = ruleBytes rules := by
  induction rules with
  | nil => rfl
  | cons hr rules ih =>
    have hsep : (bytes ": ").length = 2 := rfl
    have hend : crlf.length = 2 := rfl
    unfold ruleBytes at ih ⊢
    rw [List.map_cons, List.map_cons, List.sum_cons, joinLines_cons, List.length_append, List.length_append, ih]
    unfold ruleLine strlen
    rw [List.length_append, List.length_append, hsep, hend]
    omega

theorem length_headText (ct : Bool) (rules : List HeadRule) (mime : Bytes) (size : ℕ) :
    (headText ct rules mime size).length = headNeed ct rules mime size := by
  have hmin : (bytes "HTTP/1.1 200 OK\r\nContent-Length: ").length = 33 := rfl
  have hfmt : (bytes "HTTP/1.1 200 OK\r\nContent-Type: ").length = 31 := rfl
  have hmid : (bytes "\r\nContent-Length: ").length = 18 := rfl
  have htype : (bytes "Content-Type: ").length = 14 := rfl
  have hend : crlf.length = 2 := rfl
  unfold headText headNeed
  split_ifs
  · rw [joinLines_rules, List.length_append, List.length_append, List.length_append, List.length_append,
      length_joinLines_rules, hmin, hend]
    omega
  · rw [joinLines_rules]
    simp only [List.length_append, length_joinLines_rules, hmin, hend, htype]
    omega
  · simp only [List.length_append, hfmt, hmid, hend]
    omega

/-! ## Lines -/

theorem joinLines_flatMap (ts : List Bytes) : joinLines (ts.flatMap crlfLines) = joinLines ts := by
  induction ts with
  | nil => rfl
  | cons t ts ih =>
    rw [List.flatMap_cons, joinLines_append, joinLines_crlfLines, ih, joinLines_cons, List.append_assoc]

theorem oneLine_of_mem_flatMap {ts : List Bytes} {l : Bytes} (hl : l ∈ ts.flatMap crlfLines) : OneLine l := by
  obtain ⟨t, -, hl⟩ := List.mem_flatMap.mp hl
  exact oneLine_of_mem hl

/-- A text is framed when the lines it is made of are right. -/
theorem framed_iff {ts : List Bytes} {content : Bytes} :
    Framed (statusLine ++ (crlf ++ (joinLines ts ++ (crlf ++ content)))) content ↔
      LinesOk content.length (ts.flatMap crlfLines) ∧ ∃ l ∈ ts.flatMap crlfLines, isContentLength l := by
  constructor
  · rintro ⟨lines, hone, hok, hsized, htext⟩
    have hjoin : joinLines ts = joinLines lines :=
      List.append_cancel_right (List.append_cancel_left (List.append_cancel_left htext))
    -- the lines are read back from the text
    have hback := crlfLines_joinLines hone []
    have hpieces : ∀ l ∈ ts.flatMap crlfLines, OneLine l := fun l hl => oneLine_of_mem_flatMap hl
    have hown := crlfLines_joinLines hpieces []
    rw [joinLines_flatMap, hjoin, hback] at hown
    rw [← List.append_cancel_right hown]
    exact ⟨hok, hsized⟩
  · rintro ⟨hok, hsized⟩
    exact ⟨ts.flatMap crlfLines, fun l hl => oneLine_of_mem_flatMap hl, hok, hsized, by rw [joinLines_flatMap]⟩

theorem Framed.length_le {text content : Bytes} (h : Framed text content) : content.length ≤ text.length := by
  obtain ⟨lines, -, -, -, htext⟩ := h
  rw [htext]
  simp only [List.length_append]
  omega

theorem decimal_plain {n : ℕ} {c : Byte} (hc : isDigit c = false) : c ∉ decimal n := by
  intro h
  rw [isDigit_decimal h] at hc
  exact Bool.noConfusion hc

theorem sizeLine_parts (n : ℕ) :
    lineName (sizeLine n) = bytes "Content-Length" ∧ lineValue (sizeLine n) = decimal n := by
  have hblank : (decimal n).dropWhile (· == chr ' ') = decimal n := by
    cases hn : decimal n with
    | nil => rfl
    | cons c t =>
      have hc : c ≠ chr ' ' := fun h => decimal_plain (n := n) (c := chr ' ') rfl (hn ▸ h ▸ List.mem_cons_self ..)
      exact List.dropWhile_cons_of_neg (by simpa using hc)
  refine ⟨rfl, ?_⟩
  show (decimal n).dropWhile (· == chr ' ') = decimal n
  exact hblank

theorem isContentLength_sizeLine (n : ℕ) : isContentLength (sizeLine n) = true := by
  unfold isContentLength
  rw [(sizeLine_parts n).1]
  rfl

theorem isContentType_sizeLine (n : ℕ) : isContentType (sizeLine n) = false := by
  unfold isContentType
  rw [(sizeLine_parts n).1]
  decide

theorem oneLine_sizeLine (n : ℕ) : crlfLines (sizeLine n) = [sizeLine n] := by
  refine oneLine_of_plain fun h => ?_
  rcases List.mem_append.mp h with h | h
  · exact absurd h (by decide)
  · exact decimal_plain rfl h

/-- The line with the length changes nothing. -/
theorem linesOk_insert {n : ℕ} (ls ks : List Bytes) :
    LinesOk n (ls ++ sizeLine n :: ks) ↔ LinesOk n (ls ++ ks) := by
  have hmem : ∀ l, l ∈ ls ++ sizeLine n :: ks ↔ l = sizeLine n ∨ l ∈ ls ++ ks := fun l => by
    simp only [List.mem_append, List.mem_cons]
    tauto
  have hcount : (ls ++ sizeLine n :: ks).countP isContentType = (ls ++ ks).countP isContentType := by
    rw [List.countP_append, List.countP_append, List.countP_cons_of_neg]
    rw [isContentType_sizeLine]
    exact Bool.false_ne_true
  constructor
  · rintro ⟨hnamed, htyped, hsized⟩
    exact ⟨fun l hl => hnamed l ((hmem l).mpr (.inr hl)), hcount ▸ htyped,
      fun l hl => hsized l ((hmem l).mpr (.inr hl))⟩
  · rintro ⟨hnamed, htyped, hsized⟩
    refine ⟨fun l hl => ?_, hcount.trans htyped, fun l hl hlen => ?_⟩
    · rcases (hmem l).mp hl with rfl | hl
      · exact List.mem_append_left _ (by decide)
      · exact hnamed l hl
    · rcases (hmem l).mp hl with rfl | hl
      · exact (sizeLine_parts n).2
      · exact hsized l hl hlen

/-- The head of a content of its own length is right when the lines of the rules and the mime type are. -/
theorem framed_head {ct : Bool} {rules : List HeadRule} {mime content : Bytes} :
    Framed (headText ct rules mime content.length ++ content) content ↔
      LinesOk content.length (headLines ct rules mime) := by
  have hsplit : ∃ ls ks, (allTexts ct rules mime content.length).flatMap crlfLines =
      ls ++ sizeLine content.length :: ks ∧ headLines ct rules mime = ls ++ ks := by
    unfold allTexts headLines
    split_ifs
    · refine ⟨[], (headTexts ct rules mime).flatMap crlfLines, ?_, rfl⟩
      rw [List.flatMap_cons, oneLine_sizeLine]
      rfl
    · refine ⟨(headTexts ct rules mime).flatMap crlfLines, [], ?_, (List.append_nil _).symm⟩
      rw [List.flatMap_append, List.flatMap_singleton, oneLine_sizeLine]
  obtain ⟨ls, ks, hall, hown⟩ := hsplit
  have htext : headText ct rules mime content.length ++ content = statusLine ++ (crlf ++
      (joinLines (allTexts ct rules mime content.length) ++ (crlf ++ content))) := by
    rw [headText_eq]
    simp only [List.append_assoc]
  rw [htext, framed_iff, hall, hown, linesOk_insert]
  exact and_iff_left ⟨_, List.mem_append_right _ (List.mem_cons_self ..), isContentLength_sizeLine _⟩

/-- A Content-Type that is printed is one, whatever the mime type. -/
theorem typeLine_counts (mime : Bytes) : 1 ≤ (crlfLines (typeLine mime)).countP isContentType := by
  obtain ⟨l, ls, hlines⟩ := List.exists_cons_of_ne_nil (crlfLines_ne_nil mime)
  have htype : crlfLines (typeLine mime) = (bytes "Content-Type: " ++ l) :: ls := by
    unfold typeLine
    rw [crlfLines_plain_append (by decide), hlines]
    rfl
  rw [htype, List.countP_cons_of_pos rfl]
  exact Nat.le_add_left 1 _

/-! ## `update_contents` -/

theorem PageInput.text_whole {i : PageInput} (h : i.content.length = i.size) :
    i.text.text = some (pageHead i.rules i.mime i.size ++ i.content) := if_pos h

theorem PageInput.text_short {i : PageInput} (h : i.content.length ≠ i.size) : i.text.text = none := if_neg h

theorem PageInput.ok_iff (i : PageInput) : i.text.Ok i.content ↔ i.Good := by
  have hlen := length_headText (hasCt i.rules) i.rules i.mime i.size
  have hframed : (∀ text, i.text.text = some text → Framed text i.content) ↔
      (i.content.length = i.size → LinesOk i.size (headLines (hasCt i.rules) i.rules i.mime)) := by
    by_cases hgot : i.content.length = i.size
    · have hhead : Framed (pageHead i.rules i.mime i.content.length ++ i.content) i.content ↔ _ := framed_head
      rw [hgot] at hhead
      rw [text_whole hgot, imp_iff_right hgot]
      simp only [Option.some.injEq, forall_eq']
      exact hhead
    · rw [text_short hgot]
      exact iff_of_true (fun _ h => nomatch h) fun h => absurd h hgot
  constructor
  · rintro ⟨hcnt, hused, htext⟩
    exact ⟨hlen ▸ hcnt, hlen ▸ hused, hframed.mp htext⟩
  · rintro ⟨hcnt, hroom, hlines⟩
    exact ⟨hlen.trans_lt hcnt, (congrArg (· + _) hlen).trans_le hroom, hframed.mpr hlines⟩

/-- The text is what the page answers with; where there is none, it answers as before. -/
theorem updateContents_text (fs : Fs) (w : World) (p : Page) :
    (updateContents fs w p).2.1.resp = ((pageInput fs w p).bind fun i => i.text.text).or p.resp := by
  unfold updateContents pageInput
  dsimp only
  generalize openPage fs (pathMime w.cache p.path) p.path = o
  obtain ⟨_ | ⟨f, name, mime⟩, names⟩ := o
  · rfl
  · cases hsize : f.size with
    | none => simp only [hsize, Option.bind_none, Option.none_or]
    | some size =>
      simp only [hsize, Option.bind_some]
      generalize hi : PageInput.mk _ mime size f.data = i
      have hcontent : f.data.take size = i.content := hi ▸ rfl
      have hwhole : size = i.size := hi ▸ rfl
      by_cases hgot : i.content.length = i.size
      · rw [PageInput.text_whole hgot, hcontent, hwhole, if_neg (not_not.mpr hgot), ← hi]
        rfl
      · rw [PageInput.text_short hgot, hcontent, hwhole, if_pos hgot]
        rfl

/-! ## `agoo_page_immutable` -/

/-- How the function is called: with the length as an `int`, or with no length and a C string. -/
def Passed (content : Bytes) (clen : ℤ) : Prop := clen = toInt content.length ∨ clen = 0 ∧ 0 ∉ content

theorem toInt_le_sub {x : ℤ} (h : 0x80000000 ≤ x) : toInt x + 0x100000000 ≤ x := by
  have hrange := toInt_range x
  have hdvd := toInt_dvd x
  omega

theorem strlen_terminated (s : Bytes) : strlen (s ++ [0]) = strlen s :=
  congrArg List.length (cstr_append_nul s)

/-- The length that is used is the length of the content, or is far too small. -/
theorem contentLen_passed {content : Bytes} {clen : ℤ} (h : Passed content clen) :
    ∃ n : ℕ, contentLen (content ++ [0]) clen = toInt n ∧
      (n = content.length ∨ n ≤ content.length ∧ 0x100000000 ≤ content.length) := by
  unfold contentLen
  rw [strlen_terminated]
  rcases h with hclen | ⟨hclen, hzero⟩
  · rw [hclen]
    by_cases hwrap : toInt content.length = 0
    · rw [if_pos hwrap]
      refine ⟨strlen content, rfl, ?_⟩
      have hle : strlen content ≤ content.length := cstr_length_le content
      have hdvd := toInt_dvd content.length
      omega
    · rw [if_neg hwrap]
      exact ⟨content.length, rfl, .inl rfl⟩
  · rw [if_pos hclen]
    exact ⟨content.length, by unfold strlen; rw [cstr_of_not_mem hzero], .inl rfl⟩

theorem textAllocate_le (x : ℤ) : textAllocate (toInt x) ≤ 0x80000000 + 12 := by
  have hrange := toInt_range x
  unfold textAllocate
  split_ifs <;> omega

section Immutable

variable {junk : Bool} {w : World} {path content mime : Bytes} {rules : List HeadRule} {clen : ℤ} {n : ℕ}

/-- A content that an `int` can count. -/
theorem immutableText_ok (hrules : immutableRules w path = rules) (hmime : immutableMime w path = mime)
    (hlt : content.length < 0x80000000) (hlen : contentLen (content ++ [0]) clen = content.length) :
    (immutableText junk w path (content ++ [0]) clen).Ok content ↔
      (headNeed (junk || hasCt rules) rules mime content.length < 0x80000000 ∧
        headNeed (junk || hasCt rules) rules mime content.length + content.length + 1 ≤
          textAllocate (toInt (pageFmtSize + content.length))) ∧
      LinesOk content.length (headLines (junk || hasCt rules) rules mime) := by
  have hhead := length_headText (junk || hasCt rules) rules mime content.length
  have hmod : ((content.length : ℤ) % 0x10000000000000000).toNat = content.length := by omega
  have htake : (content ++ [0]).take content.length = content := List.take_left
  have htext : immutableText junk w path (content ++ [0]) clen =
      { room := textAllocate (toInt (pageFmtSize + content.length))
        cnt := headNeed (junk || hasCt rules) rules mime content.length
        used := headNeed (junk || hasCt rules) rules mime content.length + content.length + 1
        text := some (headText (junk || hasCt rules) rules mime content.length ++ content) } := by
    unfold immutableText
    simp only [hrules, hmime, hlen, Int.toNat_natCast, hhead, hmod, htake,
      if_neg (Int.not_lt.mpr (Int.natCast_nonneg _))]
  rw [htext]
  constructor
  · rintro ⟨hcnt, hused, hframed⟩
    dsimp only at hcnt hused hframed
    exact ⟨⟨hcnt, hused⟩, framed_head.mp (hframed _ rfl)⟩
  · rintro ⟨⟨hcnt, hused⟩, hlines⟩
    refine ⟨hcnt, ?_, fun text h => Option.some.inj h ▸ framed_head.mpr hlines⟩
    dsimp only
    exact hused

/-- The padding is all the room there is for the head. -/
theorem immutable_room {need : ℕ} (hneed : 37 ≤ need) (hlt : n < 0x80000000) :
    need < 0x80000000 ∧ need + n + 1 ≤ textAllocate (toInt (pageFmtSize + n)) ↔
      n + pageFmtSize < 0x80000000 ∧ need ≤ 130 := by
  have hfmt : pageFmtSize = 119 := rfl
  unfold textAllocate
  by_cases hsize : n + 119 < 0x80000000
  · have hint : toInt (pageFmtSize + n) = n + 119 := by
      have hval : (pageFmtSize + n : ℤ) = n + 119 := by omega
      rw [hval]
      exact toInt_of_int (by omega) (by omega)
    rw [hint, if_pos (by omega)]
    omega
  · have hneg : toInt (pageFmtSize + n) < 8 := by
      have hle := toInt_le_sub (x := pageFmtSize + n) (by omega)
      omega
    rw [if_neg (by omega)]
    omega

theorem headLines_false (hrules : 0 < headLen rules) :
    headLines false rules mime = headLines true rules mime ++ crlfLines (typeLine mime) := by
  unfold headLines headTexts
  rw [if_pos hrules, if_pos hrules, List.flatMap_append, List.flatMap_append]
  simp

/-- One of the two values in `has_ct` is wrong when the rules do not set it. -/
theorem hasCt_of_linesOk (hok : ∀ junk : Bool, LinesOk n (headLines (junk || hasCt rules) rules mime))
    (hrules : 0 < headLen rules) : hasCt rules = true := by
  by_contra hct
  rw [Bool.not_eq_true] at hct
  have htrue := (hok true).typed
  have hfalse := (hok false).typed
  have hmore := typeLine_counts mime
  rw [hct, Bool.or_false] at htrue hfalse
  rw [headLines_false hrules, List.countP_append] at hfalse
  omega

theorem headNeed_bound (hct : 0 < headLen rules → hasCt rules = true) :
    37 ≤ headNeed (hasCt rules) rules mime n ∧ (headNeed (hasCt rules) rules mime n ≤ 130 ↔
      if 0 < headLen rules then (decimal n).length + ruleBytes rules ≤ 93
      else mime.length + (decimal n).length ≤ 77) := by
  unfold headNeed
  by_cases hrules : 0 < headLen rules
  · rw [if_pos hrules, if_pos hrules, hct hrules, if_pos rfl]
    omega
  · rw [if_neg hrules, if_neg hrules]
    omega

theorem headLines_junk (hct : 0 < headLen rules → hasCt rules = true) :
    headLines (junk || hasCt rules) rules mime = headLines (hasCt rules) rules mime ∧
      headNeed (junk || hasCt rules) rules mime n = headNeed (hasCt rules) rules mime n := by
  by_cases hrules : 0 < headLen rules
  · rw [hct hrules, Bool.or_true]
    exact ⟨rfl, rfl⟩
  · unfold headLines headTexts headNeed
    rw [if_neg hrules, if_neg hrules, if_neg hrules, if_neg hrules]
    exact ⟨rfl, rfl⟩

/-- A content that no `int` can count is cut, or more is written than there is room for. -/
theorem immutable_long (h : Passed content clen) (hlong : 0x80000000 ≤ content.length) :
    ¬ (immutableText junk w path (content ++ [0]) clen).Ok content := by
  obtain ⟨k, hk, hkle⟩ := contentLen_passed h
  have hrange := toInt_range k
  have hsmall : contentLen (content ++ [0]) clen + 0x80000000 ≤ content.length := by
    rw [hk]
    rcases hkle with hsame | ⟨-, hwrap⟩
    · have hle := toInt_le_sub (x := k) (by omega)
      omega
    · omega
  rw [← hk] at hrange
  unfold immutableText
  generalize contentLen (content ++ [0]) clen = c at hsmall hrange
  rintro ⟨hcnt, hused, hframed⟩
  dsimp only at hcnt hused hframed
  have hroom := textAllocate_le (pageFmtSize + c)
  by_cases hneg : c < 0
  · -- `memcpy` is given nearly all of the memory
    omega
  · rw [if_neg hneg] at hframed
    have hle := (hframed _ rfl).length_le
    rw [List.length_append, List.length_take] at hle
    omega

theorem immutable_iff (h : Passed content clen) :
    (∀ junk, (immutableText junk w path (content ++ [0]) clen).Ok content) ↔
      ImmutableGood (immutableRules w path) (immutableMime w path) content := by
  by_cases hlt : content.length < 0x80000000
  · have hlen : contentLen (content ++ [0]) clen = content.length := by
      obtain ⟨k, hk, hkle⟩ := contentLen_passed h
      obtain rfl : k = content.length := by omega
      rw [hk, toInt_of_int (by omega) (by omega)]
    generalize hrules : immutableRules w path = rules
    generalize hmime : immutableMime w path = mime
    simp only [immutableText_ok hrules hmime hlt hlen]
    constructor
    · intro hok
      have hct := hasCt_of_linesOk fun junk => (hok junk).2
      obtain ⟨hroom, hlines⟩ := hok (hasCt rules)
      rw [Bool.or_self] at hroom hlines
      have hneed := @headNeed_bound mime rules content.length hct
      obtain ⟨hsize, hroom⟩ := (immutable_room hneed.1 hlt).mp hroom
      exact ⟨hct, hsize, hneed.2.mp hroom, hlines⟩
    · rintro ⟨hct, hsize, hroom, hlines⟩ junk
      have hneed := @headNeed_bound mime rules content.length hct
      obtain ⟨hsame, hlength⟩ := @headLines_junk junk mime rules content.length hct
      rw [hsame, hlength]
      exact ⟨(immutable_room hneed.1 hlt).mpr ⟨hsize, hneed.2.mpr hroom⟩, hlines⟩
  · refine iff_of_false (fun hok => immutable_long h (Nat.not_lt.mp hlt) (hok true)) ?_
    rintro ⟨-, hsize, -, -⟩
    exact hlt (by omega)

end Immutable

/-! ## Header rules of plain texts -/

/-- A header rule whose key and value are one line, as `agoo_header_rule` takes them but for the line ends. -/
structure HeadRule.Plain (hr : HeadRule) : Prop where
  key : chr ':' ∉ cstr hr.key ∧ chr '\r' ∉ cstr hr.key
  value : chr '\r' ∉ cstr hr.value
  length : strcasecmp (bytes "Content-Length") hr.key = false

/-- The rule is a Content-Type. -/
def HeadRule.isType (hr : HeadRule) : Bool := strcasecmp (bytes "Content-Type") hr.key

theorem lineName_append {k x : Bytes} (hk : chr ':' ∉ k) : lineName (k ++ (bytes ": " ++ x)) = k := by
  have hpass : ∀ c ∈ k, (c != chr ':') = true := fun c hc => by
    have : c ≠ chr ':' := fun h => hk (h ▸ hc)
    simpa using this
  unfold lineName
  rw [List.takeWhile_append_of_pos hpass]
  exact List.append_nil k

theorem sameText_cstr {key : Bytes} (hkey : 0 ∉ key) (s : Bytes) : sameText (cstr s) key = strcasecmp key s := by
  unfold sameText strcasecmp
  rw [cstr_of_not_mem hkey, Bool.eq_iff_iff, beq_iff_eq, beq_iff_eq]
  exact eq_comm

section Plain

variable {hr : HeadRule} {rules : List HeadRule} {mime : Bytes} {n : ℕ}

theorem HeadRule.Plain.line (h : hr.Plain) : crlfLines (ruleLine hr) = [ruleLine hr] ∧
    isContentType (ruleLine hr) = hr.isType ∧ isContentLength (ruleLine hr) = false := by
  have hname : lineName (ruleLine hr) = cstr hr.key := lineName_append h.key.1
  unfold isContentType isContentLength
  rw [hname, sameText_cstr (by decide), sameText_cstr (by decide)]
  refine ⟨oneLine_of_plain fun hmem => ?_, rfl, h.length⟩
  rcases List.mem_append.mp hmem with hmem | hmem
  · exact h.key.2 hmem
  · rcases List.mem_append.mp hmem with hmem | hmem
    · exact absurd hmem (by decide)
    · exact h.value hmem

theorem typeLine_line (hmime : chr '\r' ∉ mime) : crlfLines (typeLine mime) = [typeLine mime] := by
  refine oneLine_of_plain fun hmem => ?_
  rcases List.mem_append.mp hmem with hmem | hmem
  · exact absurd hmem (by decide)
  · exact hmime hmem

theorem headLines_plain (hrules : ∀ hr ∈ rules, hr.Plain) (hmime : chr '\r' ∉ mime) (ct : Bool) :
    headLines ct rules mime = headTexts ct rules mime := by
  have hflat : (rules.map ruleLine).flatMap crlfLines = rules.map ruleLine := by
    rw [List.flatMap_map]
    induction rules with
    | nil => rfl
    | cons hr rules ih =>
      obtain ⟨hhr, hrules⟩ := List.forall_mem_cons.mp hrules
      rw [List.flatMap_cons, ih hrules, hhr.line.1]
      rfl
  unfold headLines headTexts
  split_ifs
  · rw [List.append_nil, hflat]
  · rw [List.flatMap_append, hflat, List.flatMap_singleton, typeLine_line hmime]
  · rw [List.flatMap_singleton, typeLine_line hmime]

theorem headTexts_plain (hrules : ∀ hr ∈ rules, hr.Plain) {ct : Bool} {l : Bytes}
    (hl : l ∈ headTexts ct rules mime) : chr ':' ∈ l ∧ isContentLength l = false := by
  have hcases : l ∈ rules.map ruleLine ∨ l = typeLine mime := by
    unfold headTexts at hl
    split_ifs at hl
    · rw [List.append_nil] at hl
      exact .inl hl
    · exact (List.mem_append.mp hl).imp id List.mem_singleton.mp
    · exact .inr (List.mem_singleton.mp hl)
  rcases hcases with hl | rfl
  · obtain ⟨hr, hhr, rfl⟩ := List.mem_map.mp hl
    exact ⟨List.mem_append_right _ (List.mem_append_left _ (by decide)), (hrules hr hhr).line.2.2⟩
  · exact ⟨List.mem_append_left _ (by decide), rfl⟩

/-- A Content-Type is added where no rule is one. -/
theorem countP_headTexts (hrules : ∀ hr ∈ rules, hr.Plain) :
    (headTexts (hasCt rules) rules mime).countP isContentType =
      if 0 < headLen rules then max 1 (rules.countP HeadRule.isType) else 1 := by
  have hcount : (rules.map ruleLine).countP isContentType = rules.countP HeadRule.isType := by
    rw [List.countP_map]
    exact List.countP_congr fun hr hhr => by rw [Function.comp_apply, (hrules hr hhr).line.2.1]
  unfold headTexts
  by_cases hlen : 0 < headLen rules
  · rw [if_pos hlen, if_pos hlen, List.countP_append, hcount]
    by_cases hct : hasCt rules = true
    · have hpos : 0 < rules.countP HeadRule.isType := by
        obtain ⟨hr, hhr, htype⟩ := List.any_eq_true.mp hct
        exact List.countP_pos_iff.mpr ⟨hr, hhr, htype⟩
      rw [if_pos hct, List.countP_nil]
      omega
    · have hzero : rules.countP HeadRule.isType = 0 :=
        List.countP_eq_zero.mpr fun hr hhr htype => hct (List.any_eq_true.mpr ⟨hr, hhr, htype⟩)
      rw [if_neg hct, hzero]
      rfl
  · rw [if_neg hlen, if_neg hlen]
    rfl

/-- With plain texts the lines are wrong only where two rules are a Content-Type. -/
theorem linesOk_plain (hrules : ∀ hr ∈ rules, hr.Plain) (hmime : chr '\r' ∉ mime) :
    LinesOk n (headLines (hasCt rules) rules mime) ↔ (0 < headLen rules → rules.countP HeadRule.isType ≤ 1) := by
  have hcount := @countP_headTexts rules mime hrules
  rw [headLines_plain hrules hmime]
  constructor
  · rintro ⟨-, htyped, -⟩ hlen
    rw [hcount, if_pos hlen] at htyped
    omega
  · intro htypes
    refine ⟨fun l hl => (headTexts_plain hrules hl).1, ?_, fun l hl hsize => ?_⟩
    · rw [hcount]
      split_ifs with hlen
      · exact max_eq_left (htypes hlen)
      · rfl
    · rw [(headTexts_plain hrules hl).2] at hsize
      exact absurd hsize Bool.false_ne_true

end Plain

/-! ## Sizes that an `int` counts -/

theorem headLen_eq {rules : List HeadRule} (h : ruleBytes rules < 0x80000000) :
    headLen rules = ruleBytes rules := by
  induction rules with
  | nil => rfl
  | cons hr rules ih =>
    unfold ruleBytes at ih h ⊢
    unfold headLen at ih ⊢
    rw [List.map_cons, List.sum_cons] at h
    have hlen : hr.len = strlen hr.key + strlen hr.value + 4 := by
      unfold HeadRule.len
      rw [toInt_of_int (x := strlen hr.key) (by omega) (by omega),
        toInt_of_int (x := strlen hr.value) (by omega) (by omega)]
      exact toInt_of_int (by omega) (by omega)
    rw [List.map_cons, List.map_cons, List.sum_cons, List.sum_cons, ih (by omega), hlen]
    omega

/-- There the head of `update_contents` fits where the mime type is short or is not printed. -/
theorem PageInput.good_iff {i : PageInput} (hint : pageFmtSize + i.size + ruleBytes i.rules + 12 ≤ 0x80000000)
    (hwhole : i.content.length = i.size) :
    i.Good ↔ (if 0 < headLen i.rules ∧ hasCt i.rules then (decimal i.size).length ≤ 93
        else i.mime.length + (decimal i.size).length ≤ 77) ∧
      LinesOk i.size (headLines (hasCt i.rules) i.rules i.mime) := by
  have hlen : headLen i.rules = ruleBytes i.rules := headLen_eq (by omega)
  have hfmt : pageFmtSize = 119 := rfl
  have hroom :
      textAllocate (toInt (pageFmtSize + i.size + headLen i.rules)) = i.size + ruleBytes i.rules + 131 := by
    rw [hlen, toInt_of_int (by omega) (by omega)]
    unfold textAllocate
    rw [if_pos (by omega)]
    omega
  have hneed : headNeed (hasCt i.rules) i.rules i.mime i.size < 0x80000000 ∧
      headNeed (hasCt i.rules) i.rules i.mime i.size + (i.size + 1) ≤ i.size + ruleBytes i.rules + 131 ↔
      if 0 < headLen i.rules ∧ hasCt i.rules then (decimal i.size).length ≤ 93
        else i.mime.length + (decimal i.size).length ≤ 77 := by
    unfold headNeed
    by_cases hrules : 0 < headLen i.rules
    · by_cases hct : hasCt i.rules = true
      · rw [if_pos hrules, if_pos hct, if_pos ⟨hrules, hct⟩]
        omega
      · rw [if_pos hrules, if_neg hct, if_neg fun h => hct h.2]
        omega
    · rw [if_neg hrules, if_neg fun h => hrules h.1]
      omega
  rw [← hneed]
  constructor
  · rintro ⟨hcnt, hfits, hlines⟩
    rw [if_pos hwhole, hroom] at hfits
    exact ⟨⟨hcnt, hfits⟩, hlines hwhole⟩
  · rintro ⟨⟨hcnt, hfits⟩, hlines⟩
    exact ⟨hcnt, by rw [if_pos hwhole, hroom]; exact hfits, fun _ => hlines⟩

/-! ## Both functions -/

/-- **When the text of a page fits and is framed.** -/
theorem page_text_iff (w : World) :
    (∀ (fs : Fs) (p : Page),
      (updateContents fs w p).2.1.resp = ((pageInput fs w p).bind fun i => i.text.text).or p.resp ∧
        ∀ i, pageInput fs w p = some i → (i.text.Ok i.content ↔ i.Good)) ∧
    ∀ (path content : Bytes) (clen : ℤ), Passed content clen →
      (∀ junk, ((pageImmutable junk w path (content ++ [0]) clen).2.pages w.next).resp =
        (immutableText junk w path (content ++ [0]) clen).text) ∧
      ((∀ junk, (immutableText junk w path (content ++ [0]) clen).Ok content) ↔
        ImmutableGood (immutableRules w path) (immutableMime w path) content) := by
  refine ⟨fun fs p => ⟨updateContents_text fs w p, fun i _ => i.ok_iff⟩, fun path content clen h =>
    ⟨fun junk => ?_, immutable_iff h⟩⟩
  unfold pageImmutable
  dsimp only
  rw [Function.update_self]

/-- One file can be opened. -/
def oneFile (name data : Bytes) : Fs where
  fopen path := if path = name then some ⟨some true, some data.length, data⟩ else none
  stat _ := none
  restat _ := none
  access _ := false
  dtime := 0
  below := 0

def newPage (path : Bytes) : Page := ⟨none, path, 0, 0, false⟩

/-- A page with two bytes. -/
theorem short_page_ok :
    (PageInput.mk [] (bytes "text/html") 2 (bytes "hi")).text.Ok (bytes "hi") ∧
    ∀ junk, (immutableText junk (World.init [] none [] []) (bytes "/x") (bytes "hi" ++ [0]) 2).Ok (bytes "hi") :=
  ⟨(((page_text_iff (World.init [] none [] [])).1 (oneFile (bytes "/x") (bytes "hi")) (newPage (bytes "/x"))).2
      ⟨[], bytes "text/html", 2, bytes "hi"⟩ rfl).mpr
      ⟨by decide, by decide, fun _ => ⟨by decide, by decide, by decide⟩⟩,
    ((page_text_iff (World.init [] none [] [])).2 (bytes "/x") (bytes "hi") 2 (.inl (by decide))).2.mpr
      ⟨by decide, by decide, by decide, by decide, by decide, by decide⟩⟩

def longRule : HeadRule := ⟨bytes "**", none, bytes "Content-Type", List.replicate 80 (chr 'v')⟩

/-- A mime type of 77 bytes is written over the end, and so is the value of a header rule in a page that does not
change. -/
theorem page_text_overflows :
    (∃ i, pageInput (oneFile (bytes "/x.y") (bytes "hi"))
        (World.init [(bytes "y", List.replicate 77 (chr 'm'))] none [] []) (newPage (bytes "/x.y")) = some i ∧
      ¬ i.text.Ok i.content) ∧
    ¬ (immutableText false (World.init [] none [] [longRule]) (bytes "/x") (bytes "hi" ++ [0]) 2).Ok
      (bytes "hi") :=
  ⟨⟨⟨[], List.replicate 77 (chr 'm'), 2, bytes "hi"⟩, rfl,
      fun h => absurd ((PageInput.ok_iff _).mp h).room (by decide)⟩,
    fun h => by
      have hrules : immutableRules (World.init [] none [] [longRule]) (bytes "/x") = [longRule] := rfl
      exact absurd ((immutableText_ok hrules rfl (by decide) (by decide)).mp h).1.2 (by decide)⟩

end Agoo
