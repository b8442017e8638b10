import Agoo.ErrResp
import Agoo.HeaderKeys
import Agoo.HeaderLines
import Agoo.Hook
import Agoo.Numbers
import Agoo.Text

/-!
# Responses to Rack (`handle_rack_inner`)

A Rack result becomes one text: the status, the Content-Length, the headers, an empty line and the body.
`handle_rack_iff`: when that text is the one that a client can read.
-/

namespace Agoo

namespace Rack

open ErrResp (agooHttpCodeMessage)

/-! ## The code -/

/-- Why no text is pushed: an exception, or a size that no `int` holds. -/
inductive Stop
  | raised
  | undefined
  deriving DecidableEq

def intMax : ℕ := 0x7FFFFFFF

/-- A Ruby string in memory: a NUL is behind it. -/
def rstr (s : Bytes) : Bytes := s ++ [0]

/-- `index(vs, '\n')`, as an offset. -/
def newlineAt (vs : Bytes) : Option ℕ :=
  if chr '\n' ∈ cstr vs then some ((cstr vs).takeWhile (· != chr '\n')).length else none

/-- The loop of `header_cb`. A round that is not the last moves over a newline. -/
def headerLoop (key : Bytes) : ℕ → Bytes → Bytes → ℤ → Bytes
  | 0, t, _, _ => t
  | fuel + 1, t, vs, vlen =>
    let t := textAppend (textAppend t (rstr key) key.length) (bytes ": ") 2
    match newlineAt vs with
    | none => textAppend (if 0 < vlen then textAppend t vs vlen else t) crlf 2
    | some n =>
      let t := textAppend (if 0 < n then textAppend t vs n else t) crlf 2
      let vlen := vlen - (n + 1)
      if 0 < vlen then headerLoop key fuel t (vs.drop (n + 1)) vlen else t

/-- `agoo_http_header_ok` refuses a header in pedantic mode. -/
def refuses (pedantic : Bool) (e : Bytes × Bytes) : Bool := pedantic && !(Http.headerOk e.1 e.2).isOk

/-- `header_cb`. -/
def headerCb (pedantic : Bool) (t : Bytes) (e : Bytes × Bytes) : Except Stop Bytes :=
  if intMax < e.1.length ∨ intMax < e.2.length then .error .undefined
  else if refuses pedantic e then .error .raised
  else if strcasecmp (bytes "Content-Length") (rstr e.1) then .ok t
  else .ok (headerLoop e.1 (e.2.length + 1) t (rstr e.2) e.2.length)

/-- `rb_hash_foreach` or `each`, over the headers. -/
def headerEach (pedantic : Bool) : Bytes → List (Bytes × Bytes) → Except Stop Bytes
  | t, [] => .ok t
  | t, e :: es =>
    match headerCb pedantic t e with
    | .error stop => .error stop
    | .ok t => headerEach pedantic t es

/-- `body_len_cb`, over the strings. -/
def bodyLen : ℕ → List Bytes → Except Stop ℕ
  | size, [] => .ok size
  | size, s :: ss =>
    if intMax < s.length ∨ intMax < size + s.length then .error .undefined else bodyLen (size + s.length) ss

/-- `body_append_cb`. -/
def bodyAppend (t s : Bytes) : Bytes := textAppend t (rstr s) s.length

/-- The body: an array, something else with an `each`, or a `Rack::BodyProxy` with the strings of what is behind
its two `@body`. -/
inductive RackBody
  | array (ss : List Bytes)
  | each (ss : List Bytes)
  | proxy (ss wrapped : List Bytes)

def RackBody.strings : RackBody → List Bytes
  | .array ss => ss
  | .each ss => ss
  | .proxy ss _ => ss

/-- The strings that are counted. -/
def RackBody.counted (method : Method) : RackBody → List Bytes
  | .array ss => ss
  | .each ss => ss
  | .proxy ss wrapped => if method = .head then wrapped else ss

/-- Codes with a Content-Length. -/
def announces (code : ℤ) : Bool := !(code ∈ [100, 101, 102, 204, 205, 304])

def statusText (code : ℤ) : Bytes :=
  bytes "HTTP/1.1 " ++ intText code ++ bytes " " ++ agooHttpCodeMessage code ++ crlf

def lengthText (size : ℕ) : Bytes := bytes "Content-Length: " ++ decimal size ++ crlf

/-- `handle_rack_inner` behind the call, for a request without an upgrade: the text that is pushed. -/
def handleRack (pedantic : Bool) (method : Method) (code : ℤ) (headers : List (Bytes × Bytes)) (body : RackBody) :
    Except Stop Bytes :=
  if agooHttpCodeMessage code = [] then .error .raised
  else
    match bodyLen 0 (body.counted method) with
    | .error stop => .error stop
    | .ok bsize =>
      let t := statusText code ++ if announces code then lengthText bsize else []
      if method = .head then .ok (textAppend t crlf 2)
      else
        match headerEach pedantic t headers with
        | .error stop => .error stop
        | .ok t =>
          let t := textAppend t crlf 2
          .ok (if 0 < bsize then body.strings.foldl bodyAppend t else t)

/-! ## What the text should be -/

/-- The lines of a value. A newline ends a line; behind the last one there is no line. -/
def valueLines : Bytes → List Bytes
  | [] => [[]]
  | c :: v =>
    if c = chr '\n' then [] :: if v = [] then [] else valueLines v
    else (valueLines v).modifyHead (c :: ·)

def lineText (key line : Bytes) : Bytes := key ++ (bytes ": " ++ (line ++ crlf))

/-- The lines of a header; the app's Content-Length is left out. -/
def headerText (e : Bytes × Bytes) : Bytes :=
  if sameText e.1 (bytes "Content-Length") then [] else (valueLines e.2).flatMap (lineText e.1)

def totalLen (ss : List Bytes) : ℕ := (ss.map List.length).sum

/-- What a client is to get. -/
def rackText (method : Method) (code : ℤ) (headers : List (Bytes × Bytes)) (body : RackBody) : Bytes :=
  statusText code ++ (if announces code then lengthText (totalLen body.strings) else []) ++
    (headers.flatMap headerText ++ (crlf ++
      if method = .head ∨ announces code = false then [] else body.strings.flatten))

/-- What is pushed is that text. An exception pushes nothing. -/
def Framed (method : Method) (code : ℤ) (headers : List (Bytes × Bytes)) (body : RackBody) :
    Except Stop Bytes → Prop
  | .ok text => text = rackText method code headers body
  | .error .raised => True
  | .error .undefined => False

/-! ## When it is -/

/-- The headers up to the one that is refused. -/
def taken (pedantic : Bool) : List (Bytes × Bytes) → List (Bytes × Bytes)
  | [] => []
  | e :: es => e :: if refuses pedantic e then [] else taken pedantic es

/-- A Content-Length, or a header that C does not take for one and whose value has no newline behind a NUL. -/
def PlainHeader (e : Bytes × Bytes) : Prop :=
  sameText e.1 (bytes "Content-Length") = true ∨
    strcasecmp (bytes "Content-Length") (rstr e.1) = false ∧ chr '\n' ∉ e.2.dropWhile (· != 0)

/-- The body's size is counted and fits. A HEAD has no headers to send. Else the headers that are reached fit;
and if none is refused, all are plain, and a code without a Content-Length has an empty body. -/
structure Frames (pedantic : Bool) (method : Method) (code : ℤ) (headers : List (Bytes × Bytes))
    (body : RackBody) : Prop where
  fits : totalLen (body.counted method) ≤ intMax
  counted : announces code = true → totalLen (body.counted method) = totalLen body.strings
  head : method = .head → ∀ e ∈ headers, sameText e.1 (bytes "Content-Length") = true
  taken : method ≠ .head → ∀ e ∈ taken pedantic headers, e.1.length ≤ intMax ∧ e.2.length ≤ intMax
  plain : method ≠ .head → (∀ e ∈ headers, refuses pedantic e = false) → ∀ e ∈ headers, PlainHeader e
  empty : method ≠ .head → (∀ e ∈ headers, refuses pedantic e = false) → announces code = false →
    totalLen body.strings = 0

/-! ## Pieces -/

@[simp] theorem rstr_append (t s : Bytes) : textAppend t (rstr s) s.length = t ++ s := by
  by_cases hs : s = []
  · subst hs
    exact textAppend_empty t [0]
  · exact textAppend_pos t hs

theorem textAppend_ends (t : Bytes) : textAppend t crlf 2 = t ++ crlf := rfl

@[simp] theorem cstr_rstr (s : Bytes) : cstr (rstr s) = cstr s := cstr_append_nul s

theorem bodyLen_eq {size : ℕ} (hsize : size ≤ intMax) (ss : List Bytes) : bodyLen size ss =
    if size + totalLen ss ≤ intMax then .ok (size + totalLen ss) else .error .undefined := by
  induction ss generalizing size with
  | nil => exact (if_pos hsize).symm
  | cons s ss ih =>
    have htotal : totalLen (s :: ss) = s.length + totalLen ss := List.sum_cons
    rw [bodyLen, htotal, ← Nat.add_assoc]
    by_cases hfits : size + s.length ≤ intMax
    · rw [if_neg (by omega), ih hfits]
    · rw [if_pos (by omega), if_neg (by omega)]

theorem bodyAppend_all (ss : List Bytes) (t : Bytes) : ss.foldl bodyAppend t = t ++ ss.flatten := by
  induction ss generalizing t with
  | nil => exact (List.append_nil t).symm
  | cons s ss ih =>
    rw [List.foldl_cons, ih, bodyAppend, rstr_append, List.flatten_cons, List.append_assoc]

theorem length_flatten_strings (ss : List Bytes) : ss.flatten.length = totalLen ss := List.length_flatten ..

/-! ## The lines of a value -/

theorem valueLines_plain {v : Bytes} (hv : chr '\n' ∉ v) : valueLines v = [v] := by
  induction v with
  | nil => rfl
  | cons c v ih =>
    have hc : c ≠ chr '\n' := fun h => hv (h ▸ List.mem_cons_self ..)
    rw [valueLines, if_neg hc, ih fun h => hv (List.mem_cons_of_mem c h)]
    rfl

theorem valueLines_ne_nil (v : Bytes) : valueLines v ≠ [] := by
  induction v with
  | nil => exact List.cons_ne_nil _ _
  | cons c v ih =>
    by_cases hc : c = chr '\n'
    · rw [valueLines, if_pos hc]
      exact List.cons_ne_nil _ _
    · obtain ⟨l, ls, hlines⟩ := List.exists_cons_of_ne_nil ih
      rw [valueLines, if_neg hc, hlines]
      exact List.cons_ne_nil (c :: l) ls

theorem valueLines_newline {l : Bytes} (hl : chr '\n' ∉ l) (w : Bytes) :
    valueLines (l ++ chr '\n' :: w) = l :: if w = [] then [] else valueLines w := by
  induction l with
  | nil => exact if_pos rfl
  | cons c l ih =>
    have hc : c ≠ chr '\n' := fun h => hl (h ▸ List.mem_cons_self ..)
    rw [List.cons_append, valueLines, if_neg hc, ih fun h => hl (List.mem_cons_of_mem c h)]
    rfl

/-- A value has no newline before its first NUL, or it is split at the first one. -/
theorem newline_split (v : Bytes) : chr '\n' ∉ cstr v ∨
    ∃ l w, v = l ++ chr '\n' :: w ∧ chr '\n' ∉ l ∧ 0 ∉ l := by
  by_cases hmem : chr '\n' ∈ cstr v
  · obtain ⟨l, w, hsplit, hl⟩ := List.eq_append_cons_of_mem hmem
    have hzero : 0 ∉ cstr v := zero_not_mem_cstr v
    refine Or.inr ⟨l, w ++ v.dropWhile (· != 0), ?_, hl, fun h => hzero ?_⟩
    · rw [← List.cons_append, ← List.append_assoc, ← hsplit]
      exact List.takeWhile_append_dropWhile.symm
    · rw [hsplit]
      exact List.mem_append_left _ h
  · exact Or.inl hmem

theorem textAppend_colon (t : Bytes) : textAppend t (bytes ": ") 2 = t ++ bytes ": " := rfl

/-- The last line. -/
theorem headerLoop_last (key t : Bytes) (fuel : ℕ) {v : Bytes} (hv : chr '\n' ∉ cstr v) :
    headerLoop key (fuel + 1) t (rstr v) v.length = t ++ lineText key v := by
  have hnone : newlineAt (rstr v) = none := by
    unfold newlineAt
    rw [cstr_rstr, if_neg hv]
  have hpiece : ∀ t : Bytes, (if 0 < (v.length : ℤ) then textAppend t (rstr v) v.length else t) = t ++ v := by
    intro t
    split_ifs with hpos
    · exact rstr_append t v
    · obtain rfl : v = [] := List.eq_nil_of_length_eq_zero (by omega)
      exact (List.append_nil t).symm
  rw [headerLoop, hnone]
  dsimp only
  rw [hpiece, rstr_append, textAppend_colon, textAppend_ends]
  unfold lineText
  simp only [List.append_assoc]

/-- A line and the lines behind it. -/
theorem headerLoop_next (key t : Bytes) (fuel : ℕ) {l w : Bytes} (hl : chr '\n' ∉ l) (hzero : 0 ∉ l) :
    headerLoop key (fuel + 1) t (rstr (l ++ chr '\n' :: w)) (l ++ chr '\n' :: w).length =
      if w = [] then t ++ lineText key l else headerLoop key fuel (t ++ lineText key l) (rstr w) w.length := by
  have hmem : rstr (l ++ chr '\n' :: w) = l ++ chr '\n' :: rstr w := by
    unfold rstr
    rw [List.append_assoc, List.cons_append]
  have hsome : newlineAt (rstr (l ++ chr '\n' :: w)) = some l.length := by
    have hcstr : cstr (l ++ chr '\n' :: w) = l ++ chr '\n' :: cstr w := cstr_append hzero _
    unfold newlineAt
    rw [cstr_rstr, hcstr, if_pos (List.mem_append_right l (List.mem_cons_self ..)), List.takeWhile_append_of_pos,
      List.takeWhile_cons_of_neg (by decide), List.append_nil]
    exact fun c hc => bne_iff_ne.mpr fun h => hl (h ▸ hc)
  have hpiece : ∀ t : Bytes,
      (if 0 < l.length then textAppend t (l ++ chr '\n' :: rstr w) l.length else t) = t ++ l := by
    intro t
    split_ifs with hpos
    · exact textAppend_pos t (List.length_pos_iff.mp hpos)
    · obtain rfl : l = [] := List.eq_nil_of_length_eq_zero (by omega)
      exact (List.append_nil t).symm
  have hlen : ((l ++ chr '\n' :: w).length : ℤ) - (l.length + 1) = w.length := by
    rw [List.length_append, List.length_cons]
    omega
  have hdrop : (l ++ chr '\n' :: rstr w).drop (l.length + 1) = rstr w := by
    rw [← List.drop_drop, List.drop_left]
    rfl
  rw [headerLoop, hsome]
  dsimp only
  rw [hlen, hmem, hdrop, hpiece, rstr_append, textAppend_colon, textAppend_ends]
  have htext : t ++ key ++ bytes ": " ++ l ++ crlf = t ++ lineText key l := by
    unfold lineText
    simp only [List.append_assoc]
  rw [htext]
  by_cases hw : w = []
  · rw [hw]
    rfl
  · have hpos := List.length_pos_iff.mpr hw
    rw [if_pos (by omega), if_neg hw]

theorem dropWhile_newline {l : Bytes} (hzero : 0 ∉ l) (w : Bytes) :
    (l ++ chr '\n' :: w).dropWhile (· != 0) = w.dropWhile (· != 0) := by
  have hplain : ∀ c ∈ l, (c != 0) = true := fun c hc => bne_iff_ne.mpr fun h => hzero (h ▸ hc)
  rw [List.dropWhile_append_of_pos hplain]
  exact List.dropWhile_cons_of_pos (by decide)

/-- With no newline behind a NUL, the loop writes the lines of the value. -/
theorem headerLoop_good (key : Bytes) : ∀ (fuel : ℕ) (t v : Bytes), v.length < fuel →
    chr '\n' ∉ v.dropWhile (· != 0) →
      headerLoop key fuel t (rstr v) v.length = t ++ (valueLines v).flatMap (lineText key) := by
  intro fuel
  induction fuel with
  | zero => exact fun t v hlt => absurd hlt (Nat.not_lt_zero _)
  | succ fuel ih =>
    intro t v hlt hgood
    obtain hlast | ⟨l, w, rfl, hl, hzero⟩ := newline_split v
    · have hplain : chr '\n' ∉ v := by
        rw [← List.takeWhile_append_dropWhile (p := (· != (0 : Byte))) (l := v), List.mem_append]
        exact fun h => h.elim hlast hgood
      rw [headerLoop_last key t fuel hlast, valueLines_plain hplain, List.flatMap_singleton]
    · rw [dropWhile_newline hzero] at hgood
      rw [headerLoop_next key t fuel hl hzero, valueLines_newline hl, List.flatMap_cons]
      rw [List.length_append, List.length_cons] at hlt
      split_ifs with hw
      · rw [List.flatMap_nil, List.append_nil]
      · rw [ih _ w (by omega) hgood, List.append_assoc]

/-- Else it writes a newline where the end of a line should be. -/
theorem headerLoop_bad (key : Bytes) : ∀ (fuel : ℕ) (t v : Bytes), v.length < fuel →
    chr '\n' ∈ v.dropWhile (· != 0) →
      ∃ a x y, headerLoop key fuel t (rstr v) v.length = t ++ (a ++ chr '\n' :: x) ∧
        (valueLines v).flatMap (lineText key) = a ++ chr '\r' :: y := by
  intro fuel
  induction fuel with
  | zero => exact fun t v hlt => absurd hlt (Nat.not_lt_zero _)
  | succ fuel ih =>
    intro t v hlt hbad
    obtain hlast | ⟨l, w, rfl, hl, hzero⟩ := newline_split v
    · obtain ⟨l, w, rfl, hl⟩ := List.eq_append_cons_of_mem ((List.dropWhile_sublist _).subset hbad)
      refine ⟨key ++ (bytes ": " ++ l), w ++ crlf, chr '\n' :: (if w = [] then [] else valueLines w).flatMap
        (lineText key), ?_, ?_⟩
      · rw [headerLoop_last key t fuel hlast]
        unfold lineText
        simp only [List.append_assoc, List.cons_append]
      · rw [valueLines_newline hl, List.flatMap_cons]
        unfold lineText
        simp only [List.append_assoc]
        rfl
    · rw [dropWhile_newline hzero] at hbad
      have hw : w ≠ [] := by
        rintro rfl
        exact absurd hbad List.not_mem_nil
      rw [List.length_append, List.length_cons] at hlt
      obtain ⟨a, x, y, hloop, hlines⟩ := ih (t ++ lineText key l) w (by omega) hbad
      refine ⟨lineText key l ++ a, x, y, ?_, ?_⟩
      · rw [headerLoop_next key t fuel hl hzero, if_neg hw, hloop]
        simp only [List.append_assoc]
      · rw [valueLines_newline hl, if_neg hw, List.flatMap_cons, hlines, List.append_assoc]

theorem headerLoop_append (key : Bytes) : ∀ (fuel : ℕ) (t v : Bytes), v.length < fuel →
    headerLoop key fuel t (rstr v) v.length = t ++ headerLoop key fuel [] (rstr v) v.length := by
  intro fuel
  induction fuel with
  | zero => exact fun t v hlt => absurd hlt (Nat.not_lt_zero _)
  | succ fuel ih =>
    intro t v hlt
    obtain hlast | ⟨l, w, rfl, hl, hzero⟩ := newline_split v
    · rw [headerLoop_last key t fuel hlast, headerLoop_last key [] fuel hlast, List.nil_append]
    · rw [List.length_append, List.length_cons] at hlt
      rw [headerLoop_next key t fuel hl hzero, headerLoop_next key [] fuel hl hzero, ih _ w (by omega),
        ih ([] ++ lineText key l) w (by omega)]
      split_ifs
      · rfl
      · simp only [List.append_assoc, List.nil_append]

/-! ## The headers -/

/-- What `header_cb` writes. -/
def codeText (e : Bytes × Bytes) : Bytes :=
  if strcasecmp (bytes "Content-Length") (rstr e.1) then []
  else headerLoop e.1 (e.2.length + 1) [] (rstr e.2) e.2.length

def Fits (e : Bytes × Bytes) : Prop := e.1.length ≤ intMax ∧ e.2.length ≤ intMax

theorem headerCb_ok {pedantic : Bool} {e : Bytes × Bytes} (hfits : Fits e) (hpass : refuses pedantic e = false)
    (t : Bytes) : headerCb pedantic t e = .ok (t ++ codeText e) := by
  unfold headerCb codeText
  rw [if_neg (by have := hfits.1; have := hfits.2; omega), hpass, if_neg Bool.false_ne_true]
  split_ifs
  · rw [List.append_nil]
  · rw [headerLoop_append e.1 _ t e.2 (Nat.lt_succ_self _)]

theorem headerCb_raised {pedantic : Bool} {e : Bytes × Bytes} (hfits : Fits e) (hstop : refuses pedantic e = true)
    (t : Bytes) : headerCb pedantic t e = .error .raised := by
  unfold headerCb
  rw [if_neg (by have := hfits.1; have := hfits.2; omega), if_pos hstop]

theorem headerCb_undefined {e : Bytes × Bytes} (hlong : ¬ Fits e) (pedantic : Bool) (t : Bytes) :
    headerCb pedantic t e = .error .undefined := by
  refine if_pos ?_
  by_contra h
  exact hlong ⟨by omega, by omega⟩

theorem headerEach_undefined {pedantic : Bool} {es : List (Bytes × Bytes)} (t : Bytes)
    (h : ¬ ∀ e ∈ taken pedantic es, Fits e) : headerEach pedantic t es = .error .undefined := by
  induction es generalizing t with
  | nil => exact absurd (fun _ he => absurd he List.not_mem_nil) h
  | cons e es ih =>
    rw [headerEach]
    by_cases hfits : Fits e
    · rw [taken, List.forall_mem_cons] at h
      by_cases hpass : refuses pedantic e = true
      · rw [if_pos hpass] at h
        exact absurd ⟨hfits, fun _ he => absurd he List.not_mem_nil⟩ h
      · rw [if_neg hpass] at h
        rw [headerCb_ok hfits (Bool.eq_false_of_not_eq_true hpass)]
        exact ih _ fun hrest => h ⟨hfits, hrest⟩
    · rw [headerCb_undefined hfits]

theorem headerEach_raised {pedantic : Bool} {es : List (Bytes × Bytes)} (t : Bytes)
    (hfits : ∀ e ∈ taken pedantic es, Fits e) (hstop : ∃ e ∈ es, refuses pedantic e = true) :
    headerEach pedantic t es = .error .raised := by
  induction es generalizing t with
  | nil =>
    obtain ⟨e, he, -⟩ := hstop
    exact absurd he List.not_mem_nil
  | cons e es ih =>
    rw [taken, List.forall_mem_cons] at hfits
    rw [headerEach]
    by_cases hpass : refuses pedantic e = true
    · rw [headerCb_raised hfits.1 hpass]
    · rw [if_neg hpass] at hfits
      rw [headerCb_ok hfits.1 (Bool.eq_false_of_not_eq_true hpass)]
      obtain ⟨e', he', hstop'⟩ := hstop
      obtain rfl | he' := List.mem_cons.mp he'
      · exact absurd hstop' hpass
      · exact ih _ hfits.2 ⟨e', he', hstop'⟩

theorem headerEach_ok {pedantic : Bool} {es : List (Bytes × Bytes)} (t : Bytes)
    (hfits : ∀ e ∈ taken pedantic es, Fits e) (hpass : ∀ e ∈ es, refuses pedantic e = false) :
    headerEach pedantic t es = .ok (t ++ es.flatMap codeText) := by
  induction es generalizing t with
  | nil => rw [headerEach, List.flatMap_nil, List.append_nil]
  | cons e es ih =>
    obtain ⟨hhead, htail⟩ := List.forall_mem_cons.mp hpass
    rw [taken, List.forall_mem_cons, hhead, if_neg Bool.false_ne_true] at hfits
    rw [headerEach, headerCb_ok hfits.1 hhead]
    dsimp only
    rw [ih _ hfits.2 htail, List.flatMap_cons, List.append_assoc]

/-! ## What was written for a header -/

theorem strcasecmp_key (key : Bytes) : strcasecmp (bytes "Content-Length") (rstr key) = true ↔
    (cstr key).map tolower = (bytes "Content-Length").map tolower := by
  have hcl : cstr (bytes "Content-Length") = bytes "Content-Length" := cstr_of_not_mem (by decide)
  unfold strcasecmp
  rw [cstr_rstr, hcl, beq_iff_eq]
  exact eq_comm

theorem sameText_key {key : Bytes} (h : sameText key (bytes "Content-Length") = true) :
    strcasecmp (bytes "Content-Length") (rstr key) = true := by
  have hlower := beq_iff_eq.mp h
  have hzero : 0 ∉ key := by
    intro hmem
    have hzero : (0 : Byte) ∈ (bytes "Content-Length").map tolower := hlower ▸ List.mem_map_of_mem hmem
    exact absurd hzero (by decide)
  rw [strcasecmp_key, cstr_of_not_mem hzero, hlower]

theorem codeText_plain {e : Bytes × Bytes} (h : PlainHeader e) : codeText e = headerText e := by
  unfold codeText headerText
  rcases h with hsame | ⟨hkey, hvalue⟩
  · rw [if_pos (sameText_key hsame), if_pos hsame]
  · have hsame : ¬ sameText e.1 (bytes "Content-Length") = true := fun hsame =>
      Bool.false_ne_true (hkey.symm.trans (sameText_key hsame))
    rw [hkey, if_neg Bool.false_ne_true, if_neg hsame, headerLoop_good e.1 _ [] e.2 (Nat.lt_succ_self _) hvalue,
      List.nil_append]

/-- What is written begins with a return, or with a key that is no Content-Length and a colon. -/
theorem codeText_start (es : List (Bytes × Bytes)) (x : Bytes) :
    (∃ z, es.flatMap codeText ++ (crlf ++ x) = chr '\r' :: z) ∨
      ∃ k z, es.flatMap codeText ++ (crlf ++ x) = k ++ chr ':' :: z ∧
        strcasecmp (bytes "Content-Length") (rstr k) = false := by
  induction es with
  | nil => exact Or.inl ⟨_, rfl⟩
  | cons e es ih =>
    rw [List.flatMap_cons, List.append_assoc]
    by_cases hkey : strcasecmp (bytes "Content-Length") (rstr e.1) = true
    · have hnil : codeText e = [] := if_pos hkey
      rw [hnil]
      exact ih
    · have hline : ∃ l y, codeText e = lineText e.1 l ++ y := by
        unfold codeText
        rw [if_neg hkey]
        obtain hlast | ⟨l, w, hsplit, hl, hzero⟩ := newline_split e.2
        · exact ⟨e.2, [], by rw [headerLoop_last e.1 [] _ hlast, List.nil_append, List.append_nil]⟩
        · have hlen : w.length < e.2.length := by
            rw [hsplit, List.length_append, List.length_cons]
            omega
          rw [hsplit, headerLoop_next e.1 [] _ hl hzero, ← hsplit]
          split_ifs with hw
          · exact ⟨l, [], (List.append_nil _).symm⟩
          · exact ⟨l, _, headerLoop_append e.1 _ _ w hlen⟩
      obtain ⟨l, y, hline⟩ := hline
      refine Or.inr ⟨e.1, chr ' ' :: (l ++ crlf ++ y ++ (es.flatMap codeText ++ (crlf ++ x))), ?_,
        Bool.eq_false_of_not_eq_true hkey⟩
      rw [hline]
      unfold lineText
      simp only [List.append_assoc]
      rfl

/-- A key that only C takes for a Content-Length is missed. -/
theorem missed_key {key : Bytes} (hkey : strcasecmp (bytes "Content-Length") (rstr key) = true)
    (hsame : sameText key (bytes "Content-Length") = false) (es : List (Bytes × Bytes)) (x y : Bytes) :
    es.flatMap codeText ++ (crlf ++ x) ≠ key ++ y := by
  have hlower := (strcasecmp_key key).mp hkey
  have hzero : 0 ∈ key := by
    by_contra hzero
    rw [cstr_of_not_mem hzero] at hlower
    exact Bool.false_ne_true (hsame.symm.trans (beq_iff_eq.mpr hlower))
  obtain ⟨c, r, hsplit, hc⟩ := List.eq_append_cons_of_mem hzero
  have hcstr : cstr key = c := by
    rw [hsplit]
    exact cstr_append_zero hc r
  rw [hcstr] at hlower
  have hcolon : chr ':' ∉ c := by
    intro hmem
    have hlow : tolower (chr ':') ∈ (bytes "Content-Length").map tolower := hlower ▸ List.mem_map_of_mem hmem
    exact absurd hlow (by decide)
  rw [hsplit, List.append_assoc, List.cons_append]
  intro h
  obtain ⟨z, hstart⟩ | ⟨k, z, hstart, hk⟩ := codeText_start es x
  · rw [hstart] at h
    cases c with
    | nil => exact absurd hlower (by decide)
    | cons d c =>
      have hd : chr '\r' = d := (List.cons.inj h).1
      rw [List.map_cons, ← hd] at hlower
      exact absurd (List.cons.inj hlower).1 (by decide)
  · rw [hstart] at h
    obtain ⟨a, ha, hrest⟩ | ⟨a, ha, hrest⟩ := List.append_eq_append_iff.mp h
    · cases a with
      | nil => exact absurd (List.cons.inj hrest).1 (by decide)
      | cons d a =>
        have hd : chr ':' = d := (List.cons.inj hrest).1
        exact hcolon (ha ▸ List.mem_append_right k (hd ▸ List.mem_cons_self ..))
    · cases a with
      | nil => exact absurd (List.cons.inj hrest).1 (by decide)
      | cons d a =>
        have hd : 0 = d := (List.cons.inj hrest).1
        rw [ha, ← hd] at hk
        have hcut : cstr (c ++ 0 :: a) = c := cstr_append_zero hc a
        exact Bool.false_ne_true (hk.symm.trans ((strcasecmp_key _).mpr (by rw [hcut]; exact hlower)))

/-- What is written for the headers is right only if all are plain. -/
theorem headers_plain : ∀ {es : List (Bytes × Bytes)} {x y : Bytes},
    es.flatMap codeText ++ (crlf ++ x) = es.flatMap headerText ++ (crlf ++ y) → ∀ e ∈ es, PlainHeader e := by
  intro es
  induction es with
  | nil => exact fun _ e he => absurd he List.not_mem_nil
  | cons e es ih =>
    intro x y h
    rw [List.flatMap_cons, List.flatMap_cons, List.append_assoc, List.append_assoc] at h
    have hplain : PlainHeader e := by
      by_contra hbad
      unfold PlainHeader at hbad
      push Not at hbad
      obtain ⟨hsame, hvalue⟩ := hbad
      have hspec : headerText e = (valueLines e.2).flatMap (lineText e.1) := if_neg hsame
      by_cases hkey : strcasecmp (bytes "Content-Length") (rstr e.1) = true
      · have hnil : codeText e = [] := if_pos hkey
        obtain ⟨l, ls, hlines⟩ := List.exists_cons_of_ne_nil (valueLines_ne_nil e.2)
        rw [hnil, hspec, hlines, List.flatMap_cons, lineText, List.append_assoc, List.append_assoc] at h
        exact missed_key hkey (Bool.eq_false_of_not_eq_true hsame) es x _ h
      · have hmem := hvalue (Bool.eq_false_of_not_eq_true hkey)
        obtain ⟨a, b, c, hloop, hlines⟩ := headerLoop_bad e.1 _ [] e.2 (Nat.lt_succ_self _) hmem
        have hcode : codeText e = a ++ chr '\n' :: b := (if_neg hkey).trans hloop
        rw [hcode, hspec, hlines, List.append_assoc, List.append_assoc] at h
        exact absurd (List.cons.inj (List.append_cancel_left h)).1 (by decide)
    rw [codeText_plain hplain] at h
    exact List.forall_mem_cons.mpr ⟨hplain, ih (List.append_cancel_left h)⟩

/-! ## The whole text -/

theorem counted_of_ne_head {method : Method} (h : method ≠ .head) (body : RackBody) :
    body.counted method = body.strings := by
  cases body with
  | array ss => rfl
  | each ss => rfl
  | proxy ss wrapped => exact if_neg h

/-- A line with a length says which length. -/
theorem lengthText_inj {m n : ℕ} {x y : Bytes} (h : lengthText m ++ x = lengthText n ++ y) : m = n ∧ x = y := by
  have hdigits : ∀ (n : ℕ) (x : Bytes), (decimal n ++ (crlf ++ x)).takeWhile isDigit = decimal n := by
    intro n x
    rw [List.takeWhile_append_of_pos fun c hc => isDigit_decimal hc]
    exact List.append_nil _
  have htext : ∀ (n : ℕ) (x : Bytes),
      lengthText n ++ x = bytes "Content-Length: " ++ (decimal n ++ (crlf ++ x)) := by
    intro n x
    unfold lengthText
    simp only [List.append_assoc]
  rw [htext, htext] at h
  have hrest := List.append_cancel_left h
  have hnum : m = n := by
    apply decimal_inj
    rw [← hdigits m x, hrest, hdigits]
  subst hnum
  exact ⟨rfl, List.append_cancel_left (List.append_cancel_left hrest)⟩

/-- The head is right when the announced length is, and what is behind it can be taken by itself. -/
theorem head_iff (code : ℤ) (m n : ℕ) (x y : Bytes) :
    statusText code ++ (if announces code then lengthText m else []) ++ x =
        statusText code ++ (if announces code then lengthText n else []) ++ y ↔
      (announces code = true → m = n) ∧ x = y := by
  rw [List.append_assoc, List.append_assoc, List.append_right_inj]
  by_cases hcode : announces code = true
  · rw [if_pos hcode, if_pos hcode]
    exact ⟨fun h => ⟨fun _ => (lengthText_inj h).1, (lengthText_inj h).2⟩,
      fun ⟨hlen, hx⟩ => by rw [hlen hcode, hx]⟩
  · rw [if_neg hcode, if_neg hcode]
    exact ⟨fun h => ⟨fun hann => absurd hann hcode, h⟩, And.right⟩

theorem headerText_ne_nil {e : Bytes × Bytes} (h : sameText e.1 (bytes "Content-Length") = false) :
    headerText e ≠ [] := by
  obtain ⟨l, ls, hlines⟩ := List.exists_cons_of_ne_nil (valueLines_ne_nil e.2)
  unfold headerText lineText
  rw [h, if_neg Bool.false_ne_true, hlines, List.flatMap_cons]
  intro hnil
  have hlen := congrArg List.length hnil
  rw [List.length_append, List.length_append, List.length_append] at hlen
  have htwo : (bytes ": ").length = 2 := rfl
  simp only [List.length_nil] at hlen
  omega

theorem flatMap_headerText (es : List (Bytes × Bytes)) :
    es.flatMap headerText = [] ↔ ∀ e ∈ es, sameText e.1 (bytes "Content-Length") = true := by
  rw [List.flatMap_eq_nil_iff]
  refine forall₂_congr fun e _ => ⟨fun hnil => ?_, fun hsame => if_pos hsame⟩
  by_contra hsame
  exact headerText_ne_nil (Bool.eq_false_of_not_eq_true hsame) hnil

/-- Behind the head, for a method other than HEAD. -/
theorem behind_iff (code : ℤ) (es : List (Bytes × Bytes)) (ss : List Bytes) :
    es.flatMap codeText ++ (crlf ++ ss.flatten) =
        es.flatMap headerText ++ (crlf ++ if announces code = false then [] else ss.flatten) ↔
      (∀ e ∈ es, PlainHeader e) ∧ (announces code = false → totalLen ss = 0) := by
  have hbody : ss.flatten = (if announces code = false then [] else ss.flatten) ↔
      (announces code = false → totalLen ss = 0) := by
    rw [← length_flatten_strings, List.length_eq_zero_iff]
    split_ifs with hcode
    · exact ⟨fun h _ => h, fun h => h hcode⟩
    · exact ⟨fun _ h => absurd h hcode, fun _ => rfl⟩
  rw [← hbody]
  constructor
  · intro h
    have hplain := headers_plain h
    rw [List.flatMap_congr fun e he => codeText_plain (hplain e he)] at h
    exact ⟨hplain, List.append_cancel_left (List.append_cancel_left h)⟩
  · rintro ⟨hplain, hflat⟩
    rw [List.flatMap_congr fun e he => codeText_plain (hplain e he), ← hflat]

/-- **The text is framed just when `Frames` holds.** -/
theorem handle_rack_iff (pedantic : Bool) (method : Method) {code : ℤ} (hcode : agooHttpCodeMessage code ≠ [])
    (headers : List (Bytes × Bytes)) (body : RackBody) :
    Framed method code headers body (handleRack pedantic method code headers body) ↔
      Frames pedantic method code headers body := by
  unfold handleRack
  rw [if_neg hcode, bodyLen_eq (Nat.zero_le _), Nat.zero_add]
  by_cases hfits : totalLen (body.counted method) ≤ intMax
  swap
  · rw [if_neg hfits]
    exact iff_of_false id fun h => hfits h.fits
  rw [if_pos hfits]
  dsimp only
  by_cases hhead : method = .head
  · rw [if_pos hhead, textAppend_ends]
    show _ = rackText method code headers body ↔ _
    unfold rackText
    rw [if_pos (Or.inl hhead), head_iff]
    constructor
    · rintro ⟨hlen, hnone⟩
      have hnil : headers.flatMap headerText = [] := by
        have hlength := congrArg List.length hnone
        rw [List.length_append, List.append_nil] at hlength
        exact List.eq_nil_of_length_eq_zero (by omega)
      exact ⟨hfits, hlen, fun _ => (flatMap_headerText headers).mp hnil, fun h => absurd hhead h,
        fun h => absurd hhead h, fun h => absurd hhead h⟩
    · intro h
      rw [(flatMap_headerText headers).mpr (h.head hhead)]
      exact ⟨h.counted, rfl⟩
  · have hcounted := counted_of_ne_head hhead body
    rw [if_neg hhead]
    by_cases htaken : ∀ e ∈ taken pedantic headers, Fits e
    swap
    · rw [headerEach_undefined _ htaken]
      exact iff_of_false id fun h => htaken (h.taken hhead)
    by_cases hpass : ∀ e ∈ headers, refuses pedantic e = false
    · rw [headerEach_ok _ htaken hpass]
      dsimp only
      have hbody : ∀ t : Bytes,
          (if 0 < totalLen (body.counted method) then body.strings.foldl bodyAppend t else t) =
            t ++ body.strings.flatten := by
        intro t
        split_ifs with hpos
        · exact bodyAppend_all body.strings t
        · rw [hcounted, ← length_flatten_strings] at hpos
          rw [List.eq_nil_of_length_eq_zero (by omega : body.strings.flatten.length = 0), List.append_nil]
      rw [hbody, textAppend_ends]
      show _ = rackText method code headers body ↔ _
      unfold rackText
      simp only [hhead, false_or]
      rw [List.append_assoc, List.append_assoc, head_iff, behind_iff]
      constructor
      · rintro ⟨hlen, hplain, hempty⟩
        exact ⟨hfits, hlen, fun h => absurd h hhead, fun _ => htaken, fun _ _ => hplain, fun _ _ => hempty⟩
      · exact fun h => ⟨h.counted, h.plain hhead hpass, h.empty hhead hpass⟩
    · have hstop : ∃ e ∈ headers, refuses pedantic e = true := by
        push Not at hpass
        obtain ⟨e, he, hstop⟩ := hpass
        exact ⟨e, he, Bool.eq_true_of_not_eq_false hstop⟩
      rw [headerEach_raised _ htaken hstop]
      exact iff_of_true trivial ⟨hfits, fun _ => by rw [hcounted], fun h => absurd h hhead, fun _ => htaken,
        fun _ h => absurd h hpass, fun _ h => absurd h hpass⟩

/-- A value of two lines is sent as two headers. -/
theorem two_lines_framed : Framed .get 200 [(bytes "X-A", bytes "1\n2\n")] (.array [bytes "hi", []])
    (handleRack false .get 200 [(bytes "X-A", bytes "1\n2\n")] (.array [bytes "hi", []])) := by
  have hplain : ∀ e ∈ [(bytes "X-A", bytes "1\n2\n")], PlainHeader e := by
    intro e he
    rw [List.mem_singleton.mp he]
    exact Or.inr (by decide)
  refine (handle_rack_iff false .get (by decide) _ _).mpr ⟨by decide, fun _ => rfl, fun h => ?_, fun _ => ?_,
    fun _ _ => hplain, fun _ _ h => ?_⟩
  · exact absurd h (by decide)
  · decide
  · exact absurd h (by decide)

/-- A 204 has no Content-Length, but its body is sent. -/
theorem no_content_body : ¬ Framed .get 204 [] (.array [bytes "abc"])
    (handleRack false .get 204 [] (.array [bytes "abc"])) := by
  show ¬ (_ = _)
  decide

end Rack

end Agoo
