import Agoo.ConSlices
import Agoo.WsHeaders

/-!
# A header and what is behind it

`recv` does not end what it read with a NUL, so the C string that `con_header_read` searches goes on with whatever
is behind the bytes that came. `conHeaderRead_behind`: a header that is whole is read as the same request, whatever
is behind it.
-/

namespace Agoo

/-! ## Scans that end in a text -/

theorem at0_inside {s : Bytes} {i : ℕ} (h : i < s.length) (x : Bytes) : at0 (s ++ x) i = at0 s i :=
  List.getD_append _ _ _ _ h

theorem at0_drop (m : Bytes) (n i : ℕ) : at0 (m.drop n) i = at0 m (n + i) := by
  unfold at0
  rw [List.getD_eq_getElem?_getD, List.getD_eq_getElem?_getD, List.getElem?_drop]

theorem find_behind {pat s : Bytes} {i : ℕ} (h : find pat s = some i) (x : Bytes) : find pat (s ++ x) = some i := by
  have hfit := find_add_length_le h
  obtain ⟨hi, hpre, hmin⟩ := find_eq_some_iff.mp h
  refine find_eq_some_iff.mpr ⟨?_, ?_, fun j hj hpre' => hmin j hj ?_⟩
  · rw [List.length_append]
    omega
  · rw [List.drop_append_of_le_length hi]
    exact hpre.trans (List.prefix_append _ _)
  · rw [List.drop_append_of_le_length (by omega)] at hpre'
    refine List.prefix_of_prefix_length_le hpre' (List.prefix_append _ _) ?_
    rw [List.length_drop]
    omega

theorem strstr_behind {s pat : Bytes} {i : ℕ} (hzero : 0 ∉ s) (h : strstr s pat = some i) (x : Bytes) :
    strstr (s ++ x) pat = some i := by
  unfold strstr at h ⊢
  rw [cstr_of_not_mem hzero] at h
  rw [cstr_append hzero]
  exact find_behind h _

/-- A scan that stops in a text. -/
theorem takeWhile_inside {p : Byte → Bool} {s : Bytes} (h : ∃ c ∈ s, p c = false) (x : Bytes) :
    (s ++ x).takeWhile p = s.takeWhile p := by
  obtain ⟨c, hc, hp⟩ := h
  obtain ⟨a, b, rfl⟩ := List.append_of_mem hc
  rw [List.append_assoc, List.cons_append, takeWhile_stop hp, takeWhile_stop hp]

theorem wordLen_behind {s : Bytes} {n : ℕ} (hzero : 0 ∉ s) (h : wordLen s = some n) (x : Bytes) :
    wordLen (s ++ x) = some n := by
  unfold wordLen at h ⊢
  dsimp only at h ⊢
  split_ifs at h with hblank
  obtain rfl := Option.some.inj h
  rw [cstr_of_not_mem hzero] at hblank
  have hlt : (s.takeWhile (· != chr ' ')).length < s.length := lt_of_at0 (by rw [hblank]; decide)
  have hmem : ∃ c ∈ s, (c != chr ' ') = false := by
    refine ⟨chr ' ', ?_, by decide⟩
    rw [← hblank, at0, List.getD_eq_getElem _ _ hlt]
    exact List.getElem_mem hlt
  rw [cstr_of_not_mem hzero, cstr_append hzero, takeWhile_inside hmem, at0_inside hlt, if_pos hblank]

theorem wordLen_blank {s : Bytes} {n : ℕ} (h : wordLen s = some n) : at0 s n = chr ' ' := by
  unfold wordLen at h
  dsimp only at h
  split_ifs at h with hblank
  obtain rfl := Option.some.inj h
  exact hblank

theorem isMethod_behind {s : Bytes} {n : ℕ} (hzero : 0 ∉ s) (hn : n ≤ s.length) (x : Bytes) (method : Method) :
    isMethod (s ++ x) n method = isMethod s n method := by
  unfold isMethod strncmp
  by_cases hlen : n = method.text.length
  · rw [cstr_append hzero, cstr_of_not_mem hzero, List.take_append_of_le_length (hlen ▸ hn)]
  · rw [beq_false_of_ne hlen, Bool.false_and, Bool.false_and]

theorem headMethod_behind {s : Bytes} {n : ℕ} (hzero : 0 ∉ s) (hn : n < s.length) (x : Bytes) :
    headMethod (s ++ x) n = headMethod s n := by
  unfold headMethod
  rw [at0_inside (Nat.zero_lt_of_lt hn)]
  simp only [isMethod_behind hzero hn.le]

/-! ## Values -/

/-- A text with a return at offset `e`. -/
structure ReturnAt (s : Bytes) (e : ℕ) : Prop where
  zero_not_mem : 0 ∉ s
  at_end : at0 s e = chr '\r'

variable {s : Bytes} {e : ℕ}

theorem ReturnAt.lt (h : ReturnAt s e) : e < s.length := lt_of_at0 (by rw [h.at_end]; decide)

theorem ReturnAt.drop (h : ReturnAt s e) {n : ℕ} (hn : n ≤ e) : ReturnAt (s.drop n) (e - n) := by
  refine ⟨fun hmem => h.zero_not_mem (List.mem_of_mem_drop hmem), ?_⟩
  rw [at0_drop, Nat.add_sub_cancel' hn, h.at_end]

theorem ReturnAt.mem (h : ReturnAt s e) : chr '\r' ∈ s := by
  have hat := h.at_end
  rw [at0, List.getD_eq_getElem _ _ h.lt] at hat
  rw [← hat]
  exact List.getElem_mem _

theorem ReturnAt.drop_append (h : ReturnAt s e) {n : ℕ} (hn : n ≤ e) (x : Bytes) : (s ++ x).drop n = s.drop n ++ x :=
  List.drop_append_of_le_length (hn.trans h.lt.le)

/-- A scan that a return stops. -/
theorem ReturnAt.takeWhile (h : ReturnAt s e) {p : Byte → Bool} (hp : p (chr '\r') = false) (x : Bytes) :
    (s ++ x).takeWhile p = s.takeWhile p := takeWhile_inside ⟨_, h.mem, hp⟩ x

theorem ReturnAt.length_takeWhile (h : ReturnAt s e) {p : Byte → Bool} (hp : p (chr '\r') = false) :
    (s.takeWhile p).length ≤ e := by
  by_contra hlt
  have hle : e < (s.takeWhile p).length := Nat.lt_of_not_le hlt
  have hmem := List.mem_takeWhile_imp (List.getElem_mem hle)
  have hsame : (s.takeWhile p)[e] = chr '\r' := by
    have hat := h.at_end
    rw [at0, List.getD_eq_getElem _ _ h.lt] at hat
    rw [← hat]
    exact (List.takeWhile_prefix p).getElem hle
  rw [hsame, hp] at hmem
  cases hmem

theorem ReturnAt.blanks (h : ReturnAt s e) {n : ℕ} (hn : n ≤ e) (x : Bytes) :
    blanks ((s ++ x).drop n) = blanks (s.drop n) ∧ n + blanks (s.drop n) ≤ e := by
  have hdrop := h.drop hn
  unfold Agoo.blanks
  rw [h.drop_append hn, hdrop.takeWhile (by decide)]
  have hlen := hdrop.length_takeWhile (p := (· == chr ' ')) (by decide)
  exact ⟨rfl, by omega⟩

theorem lineLen_behind {n : ℕ} (h : n < s.length) (x : Bytes) : lineLen n (s ++ x) = lineLen n s := by
  induction n generalizing s with
  | zero => rfl
  | succ n ih =>
    obtain ⟨c, s, rfl⟩ := List.exists_cons_of_length_pos (Nat.zero_lt_of_lt h)
    have hlt : n < s.length := Nat.lt_of_succ_lt_succ h
    have hone : at0 (c :: s ++ x) 1 = at0 (c :: s) 1 := at0_inside (by rw [List.length_cons]; omega) x
    rw [lineLen, lineLen, hone]
    show (if at0 (c :: s) 0 = _ ∧ _ then 2 else 1 + lineLen n (s ++ x)) = _
    rw [ih hlt]
    rfl

/-- A key is not found over a return. -/
theorem keyMatches_short {key : Bytes} (hkey : PlainName key) (h : keyMatches key s = true)
    {i : ℕ} (hi : i ≤ key.length) : at0 s i ≠ chr '\r' := by
  intro hat
  have hzero : 0 ∉ key := fun hmem => (hkey 0 hmem).1 rfl
  have hbegins := beginsWithKey_of_matches hzero h
  have hlt : i < ((key ++ [chr ':']).map tolower).length := by
    rw [List.length_map, List.length_append, List.length_singleton]
    omega
  have hlong : i < s.length := lt_of_at0 (by rw [hat]; decide)
  have hsame := hbegins.getElem hlt
  rw [List.getElem_map tolower (l := s), ← List.getD_eq_getElem _ 0 hlong] at hsame
  have hreturn : tolower (s.getD i 0) = chr '\r' := by
    rw [show s.getD i 0 = chr '\r' from hat]
    rfl
  have hmem := List.getElem_mem hlt
  rw [hsame, hreturn, List.mem_map] at hmem
  obtain ⟨c, hc, hlower⟩ := hmem
  rcases List.mem_append.mp hc with hc | hc
  · exact (hkey c hc).2 hlower
  · rw [List.mem_singleton.mp hc] at hlower
    exact absurd hlower (by decide)

theorem keyMatches_le {key : Bytes} (hkey : PlainName key) (hs : ReturnAt s e) {x : Bytes}
    (h : keyMatches key (s ++ x) = true) : key.length + 1 ≤ e := by
  by_contra hlt
  refine keyMatches_short hkey h (i := e) (by omega) ?_
  rw [at0_inside hs.lt, hs.at_end]

theorem keyMatches_behind {key : Bytes} (hkey : PlainName key) (hs : ReturnAt s e) (x : Bytes) :
    keyMatches key (s ++ x) = keyMatches key s := by
  by_cases hle : key.length + 1 ≤ s.length
  · unfold keyMatches strncasecmp
    rw [cstr_append hs.zero_not_mem, cstr_of_not_mem hs.zero_not_mem, List.take_append_of_le_length (by omega),
      at0_inside (by omega)]
  · have hlt := hs.lt
    rw [Bool.eq_iff_iff]
    constructor
    · intro h
      have := keyMatches_le hkey hs h
      omega
    · intro h
      rw [← List.append_nil s] at h
      have := keyMatches_le hkey hs h
      omega

/-- What is before the first return. -/
theorem ReturnAt.split (h : ReturnAt s e) : ∃ y, s = s.takeWhile (· != chr '\r') ++ chr '\r' :: y := by
  obtain ⟨a, b, rfl⟩ := List.append_of_mem h.mem
  obtain ⟨y, hy⟩ := split_return a b
  refine ⟨y, ?_⟩
  rw [takeWhile_stop (by decide)]
  exact hy

theorem valueAfter_behind {klen : ℕ} (hs : ReturnAt s e) (h : klen + 1 ≤ e) (x : Bytes) :
    valueAfter klen (s ++ x) = valueAfter klen s ∧ (valueAfter klen s).1 ≤ e ∧
      ∃ v y, s.drop (valueAfter klen s).1 = v ++ chr '\r' :: y ∧ v.length = (valueAfter klen s).2 := by
  obtain ⟨hblanks, hle⟩ := hs.blanks h x
  have hstart := hs.drop hle
  have hdrop := hs.drop_append hle x
  unfold Agoo.blanks at hblanks hle hstart hdrop
  unfold valueAfter
  dsimp only
  rw [hblanks, hdrop, cstr_append hstart.zero_not_mem, cstr_of_not_mem hstart.zero_not_mem,
    hstart.takeWhile (by decide)]
  obtain ⟨y, hy⟩ := hstart.split
  exact ⟨rfl, hle, _, y, hy, rfl⟩

/-- **The value of a key is found in the header, whatever is behind it.** -/
theorem headerValueFrom_behind {key : Bytes} (hkey : PlainName key) (hs : ReturnAt s e) (x : Bytes) (fuel h : ℕ) :
    headerValueFrom key (s ++ x) e fuel h = headerValueFrom key s e fuel h ∧
      ∀ v, headerValueFrom key s e fuel h = some v →
        v.1 ≤ e ∧ ∃ t y, s.drop v.1 = t ++ chr '\r' :: y ∧ t.length = v.2 := by
  induction fuel generalizing h with
  | zero => exact ⟨rfl, fun v hv => by cases hv⟩
  | succ fuel ih =>
    unfold headerValueFrom
    by_cases hend : e ≤ h
    · rw [if_pos hend, if_pos hend]
      exact ⟨rfl, fun v hv => by cases hv⟩
    · have hle : h ≤ e := (Nat.lt_of_not_le hend).le
      have hline := hs.drop hle
      rw [if_neg hend, if_neg hend, hs.drop_append hle, keyMatches_behind hkey hline,
        lineLen_behind hline.lt]
      by_cases hmatch : keyMatches key (s.drop h) = true
      · have hshort := keyMatches_le hkey hline (x := []) (by rwa [List.append_nil])
        obtain ⟨hvalue, hstart, t, y, ht, hlen⟩ := valueAfter_behind hline hshort x
        rw [if_pos hmatch, if_pos hmatch, hvalue]
        refine ⟨rfl, fun v hv => ?_⟩
        obtain rfl := Option.some.inj hv
        refine ⟨by show h + _ ≤ e; omega, t, y, ?_, hlen⟩
        rw [← ht, List.drop_drop]
      · rw [if_neg hmatch, if_neg hmatch]
        exact ih _

theorem conHeaderValue_behind {key : Bytes} (hkey : PlainName key) (hs : ReturnAt s e) (x : Bytes) :
    conHeaderValue (s ++ x) e key = conHeaderValue s e key := (headerValueFrom_behind hkey hs x e 0).1

theorem conHeaderValue_split {key : Bytes} (hkey : PlainName key) (hs : ReturnAt s e) {v : ℕ × ℕ}
    (h : conHeaderValue s e key = some v) : v.1 ≤ e ∧ ∃ t y, s.drop v.1 = t ++ chr '\r' :: y ∧ t.length = v.2 :=
  (headerValueFrom_behind hkey hs [] e 0).2 v h

theorem shouldClose_behind (hs : ReturnAt s e) (x : Bytes) : shouldClose (s ++ x) e = shouldClose s e := by
  have hkey : PlainName (bytes "Connection") := by decide
  unfold shouldClose
  rw [conHeaderValue_behind hkey hs]
  cases hv : conHeaderValue s e (bytes "Connection") with
  | none => rfl
  | some v =>
    obtain ⟨hle, t, y, ht, hlen⟩ := conHeaderValue_split hkey hs hv
    dsimp only
    by_cases hfive : v.2 = 5
    · have hzero : 0 ∉ s.drop v.1 := (hs.drop hle).zero_not_mem
      unfold strncasecmp
      rw [hs.drop_append hle, cstr_append hzero, cstr_of_not_mem hzero, ht, List.append_assoc,
        List.take_append_of_le_length (by omega), List.take_append_of_le_length (by omega)]
    · rw [beq_false_of_ne hfive, Bool.false_and, Bool.false_and]

/-! ## Numbers -/

/-- A value that is not only white space is read up to its end. -/
theorem digitsAt_behind {t : Bytes} (hzero : 0 ∉ t) (h : ∃ c ∈ t, isSpace c = false) (y : Bytes) :
    signAt (t ++ chr '\r' :: y) = signAt t ∧ digitsAt (t ++ chr '\r' :: y) = digitsAt t := by
  have hcstr : cstr (t ++ chr '\r' :: y) = t ++ chr '\r' :: cstr y := by
    rw [cstr_append hzero]
    rfl
  have hspaces : (t ++ chr '\r' :: cstr y).takeWhile isSpace = t.takeWhile isSpace := takeWhile_inside h _
  have hlt : (t.takeWhile isSpace).length < t.length := by
    obtain ⟨c, hc, hcs⟩ := h
    by_contra hle
    have hall : t.takeWhile isSpace = t :=
      (List.takeWhile_prefix _).eq_of_length (Nat.le_antisymm (List.takeWhile_prefix _).length_le (Nat.le_of_not_lt hle))
    rw [← hall] at hc
    have htrue : isSpace c = true := List.mem_takeWhile_imp hc
    rw [hcs] at htrue
    cases htrue
  have hsign : signAt (t ++ chr '\r' :: y) = signAt t := by
    unfold signAt
    rw [hcstr, cstr_of_not_mem hzero, hspaces]
    dsimp only
    rw [at0_inside hlt]
  refine ⟨hsign, ?_⟩
  have hle : (signAt t).1 + (signAt t).2.2 ≤ t.length := by
    unfold signAt
    rw [cstr_of_not_mem hzero]
    dsimp only
    split_ifs <;> dsimp only <;> omega
  unfold digitsAt
  rw [hsign, hcstr, cstr_of_not_mem hzero, List.drop_append_of_le_length hle, takeWhile_stop (by decide)]

theorem number_behind {t : Bytes} (hzero : 0 ∉ t) (h : ∃ c ∈ t, isSpace c = false) (y : Bytes) :
    numberEnd (t ++ chr '\r' :: y) = numberEnd t ∧ strtoul (t ++ chr '\r' :: y) = strtoul t := by
  obtain ⟨hsign, hdigits⟩ := digitsAt_behind hzero h y
  unfold numberEnd strtoul
  rw [hsign, hdigits]
  exact ⟨rfl, rfl⟩

/-! ## Whole headers -/

/-- A header that is all there: it ends with its only blank line, its first two words are in it, and a
Content-Length has a value. -/
structure Head (s : Bytes) : Prop where
  zero_not_mem : 0 ∉ s
  blank_line : ∃ t, s = t ++ (crlf ++ crlf) ∧ strstr s (crlf ++ crlf) = some t.length
  method : (wordLen s).isSome
  target : (wordLen (s.drop (targetStart s))).isSome
  length : ∀ v, conHeaderValue s (headerEnd s) (bytes "Content-Length") = some v →
    ∃ c ∈ (s.drop v.1).take v.2, isSpace c = false

/-- How long the target is. -/
def targetLen (s : Bytes) : ℕ := (wordLen (s.drop (targetStart s))).getD 0

/-- The path of the target. -/
def headPath (s : Bytes) : Bytes := (s.drop (targetStart s)).take (pathLen s (targetStart s) (targetLen s))

/-- The request that a header asks for, when `bcnt` bytes are there. -/
def headReq (s : Bytes) (bcnt : ℕ) (method : Method) (clen : ℕ) (hook : Hook) : HeadReq where
  method := method
  mlen := msgLen (headerEnd s) clen
  copied := copyLen bcnt (msgLen (headerEnd s) clen)
  room := reqSize (msgLen (headerEnd s) clen) - 184
  path := ⟨.msg, targetStart s, pathLen s (targetStart s) (targetLen s)⟩
  query := ⟨.msg, queryStart s (targetStart s) (targetLen s),
    targetEnd s - queryStart s (targetStart s) (targetLen s)⟩
  protocol := ⟨.buf, protoStart s (targetEnd s), protoLen s (targetEnd s)⟩
  header := headerSlice s (headerEnd s) (targetEnd s)
  body := ⟨.msg, headerEnd s + 4, clen % 0x100000000⟩
  hook := hook

/-- What a header is answered with, by its own bytes. -/
def HeadEnv.readHead (env : HeadEnv) (s : Bytes) (bcnt : ℕ) : HeadReturn :=
  match headMethod s ((wordLen s).getD 0) with
  | none => .err 400
  | some method =>
    match headLength method s (headerEnd s) with
    | .error status => .err status
    | .ok clen =>
      match env.route s (headerEnd s) method (headPath s) with
      | .page => if env.resCreate then .handled (msgLen (headerEnd s) clen) else .err 500
      | .refused status => .err status
      | .hook hook =>
        if env.malloc (reqSize (msgLen (headerEnd s) clen)).toNat then .ok (headReq s bcnt method clen hook)
        else .err 413

theorem Head.headerEnd_eq {t : Bytes} (h : strstr s (crlf ++ crlf) = some t.length) : headerEnd s = t.length := by
  rw [headerEnd, h, Option.getD_some]

theorem Head.found (h : Head s) : strstr s (crlf ++ crlf) = some (headerEnd s) := by
  obtain ⟨t, -, ht⟩ := h.blank_line
  rw [Head.headerEnd_eq ht, ht]

theorem Head.length_eq (h : Head s) : s.length = headerEnd s + 4 := by
  obtain ⟨t, hs, ht⟩ := h.blank_line
  rw [Head.headerEnd_eq ht, hs, List.length_append]
  rfl

theorem Head.returns (h : Head s) : ReturnAt s (headerEnd s) := by
  obtain ⟨t, hs, ht⟩ := h.blank_line
  refine ⟨h.zero_not_mem, ?_⟩
  rw [Head.headerEnd_eq ht, hs]
  exact at0_append

/-- The blank line has no blanks. -/
theorem Head.blank_lt (h : Head s) {i : ℕ} (hi : at0 s i = chr ' ') : i < headerEnd s := by
  obtain ⟨t, hs, ht⟩ := h.blank_line
  rw [Head.headerEnd_eq ht]
  by_contra hle
  have hmem : chr ' ' ∈ crlf ++ crlf := by
    have hlt : i < s.length := lt_of_at0 (by rw [hi]; decide)
    rw [at0, List.getD_eq_getElem _ _ hlt] at hi
    have hdrop : chr ' ' ∈ s.drop t.length := by
      rw [← hi]
      exact List.mem_drop_iff_getElem.mpr ⟨i - t.length, by omega, by simp only [Nat.add_sub_cancel' (Nat.le_of_not_lt hle)]⟩
    rwa [hs, List.drop_left] at hdrop
  exact absurd hmem (by decide)

theorem Head.method_eq (h : Head s) : wordLen s = some ((wordLen s).getD 0) := by
  obtain ⟨n, hn⟩ := Option.isSome_iff_exists.mp h.method
  rw [hn, Option.getD_some]

theorem Head.target_eq (h : Head s) : wordLen (s.drop (targetStart s)) = some (targetLen s) := by
  obtain ⟨n, hn⟩ := Option.isSome_iff_exists.mp h.target
  rw [targetLen, hn, Option.getD_some]

theorem Head.method_lt (h : Head s) : (wordLen s).getD 0 < headerEnd s := h.blank_lt (wordLen_blank h.method_eq)

theorem Head.targetStart_le (h : Head s) : targetStart s ≤ headerEnd s :=
  (h.returns.blanks h.method_lt.le []).2

theorem Head.targetEnd_lt (h : Head s) : targetStart s + targetLen s < headerEnd s := by
  have hblank := wordLen_blank h.target_eq
  rw [at0_drop] at hblank
  exact h.blank_lt hblank

theorem targetEnd_def (s : Bytes) : targetEnd s = targetStart s + targetLen s := rfl

/-! ### Its parts -/

theorem slice_behind {i n : ℕ} (h : i + n ≤ s.length) (x : Bytes) :
    ((s ++ x).drop i).take n = (s.drop i).take n := by
  rw [List.drop_append_of_le_length (by omega), List.take_append_of_le_length (by rw [List.length_drop]; omega)]

theorem Head.contentLength_behind (h : Head s) (x : Bytes) :
    contentLength (s ++ x) (headerEnd s) = contentLength s (headerEnd s) := by
  have hkey : PlainName (bytes "Content-Length") := by decide
  unfold contentLength
  rw [conHeaderValue_behind hkey h.returns]
  cases hv : conHeaderValue s (headerEnd s) (bytes "Content-Length") with
  | none => rfl
  | some v =>
    obtain ⟨hle, t, y, ht, hlen⟩ := conHeaderValue_split hkey h.returns hv
    have hzero := (h.returns.drop hle).zero_not_mem
    have hsome := h.length v hv
    rw [ht, ← hlen, List.take_left] at hsome
    rw [ht, List.mem_append, not_or] at hzero
    obtain ⟨hend, hnum⟩ := number_behind hzero.1 hsome (y ++ x)
    obtain ⟨hend', hnum'⟩ := number_behind hzero.1 hsome y
    rw [Option.map_some, Option.map_some, h.returns.drop_append hle, ht, List.append_assoc, List.cons_append, hend,
      hnum, hend', hnum']

theorem Head.headLength_behind (h : Head s) (method : Method) (x : Bytes) :
    headLength method (s ++ x) (headerEnd s) = headLength method s (headerEnd s) := by
  unfold headLength
  rw [h.contentLength_behind]

theorem Head.route_behind (h : Head s) (env : HeadEnv) (method : Method) (path x : Bytes) :
    env.route (s ++ x) (headerEnd s) method path = env.route s (headerEnd s) method path := by
  have hkey : PlainName (bytes "Host") := by decide
  have hhost : (conHeaderValue (s ++ x) (headerEnd s) (bytes "Host")).map
      (fun v => some (((s ++ x).drop v.1).take v.2)) =
        (conHeaderValue s (headerEnd s) (bytes "Host")).map fun v => some ((s.drop v.1).take v.2) := by
    rw [conHeaderValue_behind hkey h.returns]
    cases hv : conHeaderValue s (headerEnd s) (bytes "Host") with
    | none => rfl
    | some v =>
      obtain ⟨hle, t, y, ht, hlen⟩ := conHeaderValue_split hkey h.returns hv
      rw [Option.map_some, Option.map_some, h.returns.drop_append hle, ht, List.append_assoc, ← hlen, List.take_left,
        List.take_left]
  unfold HeadEnv.route
  rw [hhost]

theorem Head.proto_behind (h : Head s) (x : Bytes) :
    protoStart (s ++ x) (targetEnd s) = protoStart s (targetEnd s) ∧
      protoLen (s ++ x) (targetEnd s) = protoLen s (targetEnd s) ∧
        protoStart s (targetEnd s) + protoLen s (targetEnd s) ≤ headerEnd s := by
  obtain ⟨hblanks, hle⟩ := h.returns.blanks h.targetEnd_lt.le x
  have hstart : protoStart (s ++ x) (targetEnd s) = protoStart s (targetEnd s) := congrArg (targetEnd s + ·) hblanks
  have hle : protoStart s (targetEnd s) ≤ headerEnd s := hle
  have hproto := h.returns.drop hle
  have hlen := hproto.length_takeWhile (p := (· != chr '\r')) (by decide)
  unfold protoLen
  rw [hstart, h.returns.drop_append hle, hproto.takeWhile (by decide)]
  exact ⟨rfl, rfl, by omega⟩

/-- A line ends behind every place of the header. -/
theorem Head.line_end (h : Head s) {n : ℕ} (hn : n ≤ headerEnd s) :
    ∃ j, strstr (s.drop n) crlf = some j ∧ n + j ≤ headerEnd s := by
  obtain ⟨t, hs, ht⟩ := h.blank_line
  have hend := Head.headerEnd_eq ht
  have hzero := (h.returns.drop hn).zero_not_mem
  have hthere : crlf <+: (s.drop n).drop (headerEnd s - n) := by
    rw [List.drop_drop, Nat.add_sub_cancel' hn, hend, hs, List.drop_left]
    exact List.prefix_append _ _
  have hlong : headerEnd s - n ≤ (s.drop n).length := by
    rw [List.length_drop, h.length_eq]
    omega
  unfold strstr
  rw [cstr_of_not_mem hzero]
  cases hfind : find crlf (s.drop n) with
  | none => exact absurd hthere (find_eq_none_iff.mp hfind _ hlong)
  | some j =>
    refine ⟨j, rfl, ?_⟩
    obtain ⟨-, -, hfirst⟩ := find_eq_some_iff.mp hfind
    by_contra hfar
    exact hfirst _ (by omega) hthere

theorem Head.headerSlice_behind (h : Head s) (x : Bytes) :
    headerSlice (s ++ x) (headerEnd s) (targetEnd s) = headerSlice s (headerEnd s) (targetEnd s) := by
  have hlt : targetEnd s < headerEnd s := h.targetEnd_lt
  obtain ⟨j, hj, -⟩ := h.line_end hlt.le
  unfold headerSlice
  rw [h.returns.drop_append hlt.le, strstr_behind (h.returns.drop hlt.le).zero_not_mem hj, hj]

/-- **A header that is whole is read by its own bytes, whatever is behind it.** -/
theorem Head.read_behind (h : Head s) (env : HeadEnv) {b : HeadBuf} {x : Bytes} (hb : b.mem = s ++ x) :
    conHeaderRead env b = env.readHead s b.bcnt := by
  have hend := headerEnd_le b (by rw [hb]; exact strstr_behind h.zero_not_mem h.found x)
  have hmethod : headMethod (s ++ x) ((wordLen s).getD 0) = headMethod s ((wordLen s).getD 0) :=
    headMethod_behind h.zero_not_mem (h.method_lt.trans h.returns.lt) x
  have hstart : (wordLen s).getD 0 + blanks ((s ++ x).drop ((wordLen s).getD 0)) = targetStart s :=
    congrArg ((wordLen s).getD 0 + ·) (h.returns.blanks h.method_lt.le x).1
  unfold conHeaderRead HeadEnv.readHead
  rw [hb, strstr_behind h.zero_not_mem h.found, wordLen_behind h.zero_not_mem h.method_eq]
  dsimp only
  rw [hmethod, hstart]
  cases headMethod s ((wordLen s).getD 0) with
  | none => rfl
  | some method =>
    dsimp only
    rw [h.headLength_behind]
    cases headLength method s (headerEnd s) with
    | error status => rfl
    | ok clen =>
      have htarget := h.targetEnd_lt
      have hlen := h.length_eq
      have hzero := (h.returns.drop h.targetStart_le).zero_not_mem
      have hslice := slice_behind (s := s) (i := targetStart s) (n := targetLen s) (by omega) x
      have hpath : pathLen (s ++ x) (targetStart s) (targetLen s) = pathLen s (targetStart s) (targetLen s) := by
        unfold pathLen
        rw [hslice]
      have hquery : queryStart (s ++ x) (targetStart s) (targetLen s) = queryStart s (targetStart s) (targetLen s) := by
        unfold queryStart
        rw [hslice]
      have hpathText : ((s ++ x).drop (targetStart s)).take (pathLen s (targetStart s) (targetLen s)) = headPath s := by
        have hle := (target_parts s (targetStart s) (targetLen s)).1
        exact slice_behind (by omega) x
      obtain ⟨hproto, hprotoLen, hprotoEnd⟩ := h.proto_behind x
      dsimp only
      unfold readTarget
      rw [hb, h.returns.drop_append h.targetStart_le, wordLen_behind hzero h.target_eq]
      dsimp only
      rw [← targetEnd_def, hproto, hprotoLen, if_neg (by omega), ← h.returns.drop_append h.targetStart_le, hpath,
        hpathText, h.route_behind]
      cases env.route s (headerEnd s) method (headPath s) with
      | page => rfl
      | refused status => rfl
      | hook hook =>
        dsimp only
        refine if_congr Iff.rfl ?_ rfl
        unfold makeReq headReq
        rw [hb, hpath, hquery, ← targetEnd_def, hproto, hprotoLen, h.headerSlice_behind]

end Agoo
