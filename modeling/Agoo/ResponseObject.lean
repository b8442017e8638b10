import Agoo.RackResponse

/-!
# Response objects (`response.c`, `rresponse.c`)

A handler sets the code, headers and the body of a `Response`, each kept as a C copy; one function adds up its
length and another writes it. `response_serialises`: after assignments that meet `Assign.Ok`, the two agree and
the text is the one that was set.
-/

namespace Agoo

namespace Response

open Rack (rstr intMax statusText lengthText lineText refuses)

/-! ## The code -/

/-- `struct _agooHeader`. -/
structure Header where
  text : Bytes
  len : ℕ
  deriving DecidableEq

/-- `struct _agooResponse`; `body` is the memory of the copy. -/
structure Res where
  code : ℤ
  headers : List Header
  body : Option Bytes
  blen : ℕ

/-- `response_new`. -/
def responseNew : Res := ⟨200, [], none, 0⟩

inductive Assign
  | code (c : ℤ)
  | header (key value : Bytes)
  | body (s : Bytes)

/-- What an assignment leaves: a response, also when it raises, unless a length does not fit an `int`. -/
inductive Left
  | set (r : Res)
  | raised (r : Res)
  | undefined

/-- `code_set`. -/
def codeSet (r : Res) (c : ℤ) : Left := if 100 ≤ c ∧ c < 600 then .set { r with code := c } else .raised r

/-- `body_set`. The body is copied up to its first NUL. -/
def bodySet (r : Res) (s : Bytes) : Left :=
  if intMax < s.length then .undefined else .set { r with body := some (cstr (rstr s) ++ [0]), blen := s.length }

/-- The test of the first loop of `head_set`. -/
def Header.isFor (key : Bytes) (h : Header) : Bool :=
  strncasecmp h.text (rstr key) key.length && (key.length + 1 < h.len && at0 h.text key.length == chr ':')

/-- The header that `head_set` allocates. -/
def newHeader (key value : Bytes) : Header where
  text := strncpy (rstr key) key.length ++ (bytes ": " ++ (strncpy (rstr value) value.length ++ (crlf ++ [0])))
  len := key.length + value.length + 4

/-- `head_set`. The header is taken out before the new one is checked. -/
def headSet (pedantic : Bool) (r : Res) (key value : Bytes) : Left :=
  if intMax < key.length + value.length + 4 then .undefined
  else
    let hs := r.headers.eraseP (Header.isFor key)
    if refuses pedantic (key, value) then .raised { r with headers := hs }
    else .set { r with headers := hs ++ [newHeader key value] }

def assign (pedantic : Bool) (r : Res) : Assign → Left
  | .code c => codeSet r c
  | .header key value => headSet pedantic r key value
  | .body s => bodySet r s

/-- The assignments one after the other; an exception is rescued. -/
def run (pedantic : Bool) : Res → List Assign → Option Res
  | r, [] => some r
  | r, a :: as =>
    match assign pedantic r a with
    | .set r => run pedantic r as
    | .raised r => run pedantic r as
    | .undefined => none

/-- `agoo_response_len`, unless the length does not fit. -/
def responseLen (r : Res) : Option ℕ :=
  let len := (statusText r.code ++ lengthText r.blen).length + (r.headers.map Header.len).sum + 2 + r.blen
  if intMax < len then none else some len

/-- `agoo_response_fill`, unless it reads behind the copy of the body. -/
def responseFill (r : Res) : Option Bytes :=
  let head := statusText r.code ++ lengthText r.blen ++
    ((r.headers.map fun h => strncpy h.text h.len).flatten ++ crlf)
  match r.body with
  | none => some (head ++ [0])
  | some m => if r.blen ≤ m.length then some (head ++ m.take r.blen ++ [0]) else none

/-! ## What was set -/

/-- The code, the headers in the order of their last assignment, and the body. -/
structure Wanted where
  code : ℤ
  headers : List (Bytes × Bytes)
  body : Bytes

def Wanted.new : Wanted := ⟨200, [], []⟩

/-- An assignment that is refused leaves everything as it was. -/
def Wanted.assign (pedantic : Bool) (s : Wanted) : Assign → Wanted
  | .code c => if 100 ≤ c ∧ c < 600 then { s with code := c } else s
  | .header key value =>
    if refuses pedantic (key, value) then s
    else { s with headers := (s.headers.filter fun e => !sameText e.1 key) ++ [(key, value)] }
  | .body b => { s with body := b }

def Wanted.text (s : Wanted) : Bytes :=
  statusText s.code ++ lengthText s.body.length ++
    ((s.headers.map fun e => lineText e.1 e.2).flatten ++ crlf) ++ s.body

/-- The length is that of the text, and the text with a NUL is what is written. -/
def Serialises (r : Res) (s : Wanted) : Prop :=
  responseLen r = some s.text.length ∧ responseFill r = some (s.text ++ [0])

/-! ## When it is written -/

/-- The header that `head_set` takes out. -/
def Wanted.found (s : Wanted) (key : Bytes) : Option ℕ :=
  s.headers.findIdx? fun e => (newHeader e.1 e.2).isFor key

/-- The header with that name. -/
def Wanted.named (s : Wanted) (key : Bytes) : Option ℕ := s.headers.findIdx? fun e => sameText e.1 key

/-- A header that is set has no NUL, and the header that is taken out for it is the one of its name; for a header
that is refused none is. A body has no NUL but at its end. All lengths fit. -/
def Assign.Ok (pedantic : Bool) (s : Wanted) (a : Assign) : Prop :=
  (s.assign pedantic a).text.length ≤ intMax ∧
    match a with
    | .code _ => True
    | .header key value =>
      key.length + value.length + 4 ≤ intMax ∧
        if refuses pedantic (key, value) then s.found key = none
        else s.found key = s.named key ∧ 0 ∉ key ∧ 0 ∉ value
    | .body b => 0 ∉ b.dropLast

/-- Each assignment meets it in the state that the ones before it leave. -/
def AllOk (pedantic : Bool) : Wanted → List Assign → Prop
  | _, [] => True
  | s, a :: as => a.Ok pedantic s ∧ AllOk pedantic (s.assign pedantic a) as

/-! ## One header -/

theorem newHeader_plain {key value : Bytes} (hkey : 0 ∉ key) (hvalue : 0 ∉ value) :
    newHeader key value = ⟨lineText key value ++ [0], (lineText key value).length⟩ := by
  have hcrlf : crlf.length = 2 := rfl
  have hcolon : (bytes ": ").length = 2 := rfl
  unfold newHeader lineText
  rw [strncpy_value hkey (show rstr key = key ++ [0] from rfl),
    strncpy_value hvalue (show rstr value = value ++ [0] from rfl)]
  simp only [List.append_assoc, List.length_append, hcrlf, hcolon, Header.mk.injEq, true_and]
  omega

theorem line_copied {key value : Bytes} (hkey : 0 ∉ key) (hvalue : 0 ∉ value) :
    strncpy (newHeader key value).text (newHeader key value).len = lineText key value := by
  have hline : 0 ∉ lineText key value := by
    unfold lineText
    simp only [List.mem_append, not_or]
    exact ⟨hkey, by decide, hvalue, by decide⟩
  rw [newHeader_plain hkey hvalue]
  exact strncpy_value hline rfl

/-- Without two headers of one name, the headers of other names are what is left when the first one is out. -/
theorem filter_name {key : Bytes} {es : List (Bytes × Bytes)}
    (hnames : es.Pairwise fun e e' => sameText e.1 e'.1 = false) :
    (es.filter fun e => !sameText e.1 key) = es.eraseP fun e => sameText e.1 key := by
  induction es with
  | nil => rfl
  | cons e es ih =>
    obtain ⟨hhead, htail⟩ := List.pairwise_cons.mp hnames
    by_cases hsame : sameText e.1 key = true
    · have hrest : ∀ e' ∈ es, (!sameText e'.1 key) = true := by
        intro e' he'
        rw [Bool.not_eq_true']
        by_contra hkey
        rw [Bool.not_eq_false] at hkey
        have hboth : sameText e.1 e'.1 = true :=
          beq_iff_eq.mpr ((beq_iff_eq.mp hsame).trans (beq_iff_eq.mp hkey).symm)
        exact Bool.false_ne_true ((hhead e' he').symm.trans hboth)
      simp only [List.filter_cons, List.eraseP_cons, hsame, cond_true, Bool.not_true, Bool.false_eq_true,
        if_false, List.filter_eq_self.mpr hrest]
    · have hother := Bool.eq_false_of_not_eq_true hsame
      simp only [List.filter_cons, List.eraseP_cons, hother, cond_false, Bool.not_false, if_true, ih htail]

/-! ## A response and what was set -/

/-- The response holds what was set. -/
structure Holds (r : Res) (s : Wanted) : Prop where
  code : r.code = s.code
  headers : r.headers = s.headers.map fun e => newHeader e.1 e.2
  plain : ∀ e ∈ s.headers, 0 ∉ e.1 ∧ 0 ∉ e.2
  names : s.headers.Pairwise fun e e' => sameText e.1 e'.1 = false
  blen : r.blen = s.body.length
  body : r.body = none ∧ s.body = [] ∨ ∃ m, r.body = some m ∧ m.take s.body.length = s.body

theorem holds_new : Holds responseNew Wanted.new where
  code := rfl
  headers := rfl
  plain _ h := absurd h List.not_mem_nil
  names := List.Pairwise.nil
  blen := rfl
  body := Or.inl ⟨rfl, rfl⟩

/-- A response that holds what was set writes it. -/
theorem Holds.serialises {r : Res} {s : Wanted} (h : Holds r s) (hlen : s.text.length ≤ intMax) :
    Serialises r s := by
  have hlines : (r.headers.map fun h => strncpy h.text h.len) = s.headers.map fun e => lineText e.1 e.2 := by
    rw [h.headers, List.map_map]
    exact List.map_congr_left fun e he => line_copied (h.plain e he).1 (h.plain e he).2
  have hlens : r.headers.map Header.len = (s.headers.map fun e => lineText e.1 e.2).map List.length := by
    rw [h.headers, List.map_map, List.map_map]
    refine List.map_congr_left fun e he => ?_
    show (newHeader e.1 e.2).len = _
    rw [newHeader_plain (h.plain e he).1 (h.plain e he).2]
    rfl
  constructor
  · have hsum : (statusText r.code ++ lengthText r.blen).length + (r.headers.map Header.len).sum + 2 + r.blen =
        s.text.length := by
      unfold Wanted.text
      have hcrlf : crlf.length = 2 := rfl
      rw [hlens, h.code, h.blen, ← List.length_flatten]
      simp only [List.length_append, hcrlf]
      omega
    unfold responseLen
    dsimp only
    rw [hsum, if_neg (Nat.not_lt.mpr hlen)]
  · unfold responseFill Wanted.text
    rw [hlines, h.code, h.blen]
    obtain ⟨hnone, hnil⟩ | ⟨m, hsome, htake⟩ := h.body
    · rw [hnone, hnil, List.append_nil]
    · have hle : s.body.length ≤ m.length := by
        have hlen := congrArg List.length htake
        rw [List.length_take] at hlen
        omega
      rw [hsome]
      dsimp only
      rw [if_pos hle, htake]

/-- The copy of a body with no NUL but at its end. -/
theorem copy_take {b : Bytes} (hb : 0 ∉ b.dropLast) : (cstr (rstr b) ++ [0]).take b.length = b := by
  rw [Rack.cstr_rstr]
  by_cases hzero : 0 ∈ b
  · obtain ⟨a, c, rfl⟩ := (List.eq_nil_or_concat b).resolve_left (List.ne_nil_of_mem hzero)
    rw [List.concat_eq_append] at hb hzero ⊢
    rw [List.dropLast_concat] at hb
    obtain rfl : 0 = c := List.mem_singleton.mp ((List.mem_append.mp hzero).resolve_left hb)
    rw [cstr_append_zero hb []]
    exact List.take_length ..
  · rw [cstr_of_not_mem hzero, List.take_left]

/-- A header that is found by its name is taken out. -/
theorem erase_found {s : Wanted} {key : Bytes} (hnames : s.headers.Pairwise fun e e' => sameText e.1 e'.1 = false)
    (hfound : s.found key = s.named key) :
    s.headers.eraseP (Header.isFor key ∘ fun e => newHeader e.1 e.2) =
      s.headers.filter fun e => !sameText e.1 key := by
  have hidx : s.headers.findIdx? (Header.isFor key ∘ fun e => newHeader e.1 e.2) =
      s.headers.findIdx? fun e => sameText e.1 key := hfound
  rw [filter_name hnames, List.eraseP_eq_eraseIdx, List.eraseP_eq_eraseIdx, hidx]

/-- What an assignment leaves. -/
theorem Holds.assign {pedantic : Bool} {r : Res} {s : Wanted} {a : Assign} (h : Holds r s)
    (hok : a.Ok pedantic s) : ∃ r', (assign pedantic r a = .set r' ∨ assign pedantic r a = .raised r') ∧
      Holds r' (s.assign pedantic a) := by
  obtain ⟨hlen, hok⟩ := hok
  cases a with
  | code c =>
    unfold Response.assign codeSet Wanted.assign
    dsimp only
    by_cases hc : 100 ≤ c ∧ c < 600
    · rw [if_pos hc, if_pos hc]
      exact ⟨_, Or.inl rfl, { h with code := rfl }⟩
    · rw [if_neg hc, if_neg hc]
      exact ⟨_, Or.inr rfl, h⟩
  | header key value =>
    obtain ⟨hfits, hok⟩ := hok
    unfold Response.assign headSet Wanted.assign
    dsimp only
    rw [if_neg (Nat.not_lt.mpr hfits), h.headers, List.eraseP_map]
    by_cases hrefused : refuses pedantic (key, value) = true
    · rw [if_pos hrefused] at hok
      rw [if_pos hrefused, if_pos hrefused]
      have hnone : s.headers.findIdx? (Header.isFor key ∘ fun e => newHeader e.1 e.2) = none := hok
      refine ⟨_, Or.inr rfl, { h with headers := ?_ }⟩
      dsimp only
      rw [List.eraseP_eq_eraseIdx, hnone]
    · rw [if_neg hrefused] at hok
      rw [if_neg hrefused, if_neg hrefused, erase_found h.names hok.1]
      refine ⟨_, Or.inl rfl, { h with headers := ?_, plain := ?_, names := ?_ }⟩
      · dsimp only
        rw [List.map_append]
        rfl
      · intro e he
        obtain he | he := List.mem_append.mp he
        · exact h.plain e (List.mem_of_mem_filter he)
        · rw [List.mem_singleton.mp he]
          exact hok.2
      · refine List.pairwise_append.mpr ⟨h.names.filter _, List.pairwise_singleton _ _, fun e he e' he' => ?_⟩
        rw [List.mem_singleton.mp he', ← Bool.not_eq_true']
        exact (List.mem_filter.mp he).2
  | body b =>
    have hfits : b.length ≤ intMax := by
      refine le_trans ?_ hlen
      unfold Wanted.text
      rw [List.length_append]
      exact Nat.le_add_left _ _
    unfold Response.assign bodySet Wanted.assign
    dsimp only
    rw [if_neg (Nat.not_lt.mpr hfits)]
    exact ⟨_, Or.inl rfl, { h with blen := rfl, body := Or.inr ⟨_, rfl, copy_take hok⟩ }⟩

/-- **After assignments that are all right, the response writes what was set.** -/
theorem response_serialises (pedantic : Bool) {as : List Assign} (hok : AllOk pedantic .new as) :
    ∃ r, run pedantic responseNew as = some r ∧ Serialises r (as.foldl (Wanted.assign pedantic) .new) := by
  have hrun : ∀ (as : List Assign) (r : Res) (s : Wanted), Holds r s → s.text.length ≤ intMax →
      AllOk pedantic s as →
        ∃ r', run pedantic r as = some r' ∧ Serialises r' (as.foldl (Wanted.assign pedantic) s) := by
    intro as
    induction as with
    | nil => exact fun r s hholds hlen _ => ⟨r, rfl, hholds.serialises hlen⟩
    | cons a as ih =>
      intro r s hholds _ hall
      obtain ⟨hok, hrest⟩ := hall
      obtain ⟨r', hset | hset, hholds'⟩ := hholds.assign hok
      · rw [run, hset]
        exact ih r' _ hholds' hok.1 hrest
      · rw [run, hset]
        exact ih r' _ hholds' hok.1 hrest
  exact hrun as _ _ holds_new (by decide) hok

/-- A header that is set again is written once, with the new value, at its new place. -/
theorem set_again : ∃ r, run false responseNew
    [.header (bytes "A") (bytes "1"), .header (bytes "B") [], .body (bytes "hi"),
      .header (bytes "a") (bytes "2")] = some r ∧ Serialises r (List.foldl (Wanted.assign false) .new
        [.header (bytes "A") (bytes "1"), .header (bytes "B") [], .body (bytes "hi"),
          .header (bytes "a") (bytes "2")]) := by
  refine response_serialises false ⟨⟨by decide, by decide, ?_⟩, ⟨by decide, by decide, ?_⟩,
    ⟨by decide, by show 0 ∉ _; decide⟩, ⟨by decide, by decide, ?_⟩, trivial⟩
  all_goals
    rw [if_neg (by decide)]
    exact ⟨by decide, by decide, by decide⟩

/-- A body with a NUL in it is read behind its copy. -/
theorem body_cut : ¬ ∀ pedantic as, ∃ r, run pedantic responseNew as = some r ∧
    Serialises r (as.foldl (Wanted.assign pedantic) .new) := by
  intro h
  obtain ⟨r, hrun, -, hfill⟩ := h false [.body [97, 0, 98]]
  have hset : run false responseNew [.body [97, 0, 98]] = some ⟨200, [], some [97, 0], 3⟩ := rfl
  rw [hset] at hrun
  obtain rfl := Option.some.inj hrun
  have hnone : responseFill ⟨200, [], some [97, 0], 3⟩ = none := rfl
  rw [hnone] at hfill
  cases hfill

end Response

end Agoo
