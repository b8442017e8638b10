import Agoo.Hook
import Agoo.HttpHeader
import Agoo.Numbers
import Mathlib.Data.List.GetD

/-!
# Reading a request's header (`con_header_read`)

The header is read from `c->buf` as a C string. A request gets a copy of it in `req->msg`, and its slices
are moved from the buffer to the copy, all but the protocol. The target ends at a blank, not at the end of
the line; the query begins behind its last question mark.

`conHeaderRead_ok` says what is known of an accepted header.
-/

namespace Agoo

/-! ## Bytes of a C string -/

/-- A byte of the C string is the byte of memory there, and not NUL. -/
theorem at0_cstr {m : Bytes} {i : ℕ} (h : i < (cstr m).length) : at0 (cstr m) i = at0 m i ∧ at0 m i ≠ 0 := by
  obtain ⟨t, ht⟩ := cstr_isPre m
  have hsame : at0 (cstr m) i = at0 m i := by
    unfold at0
    rw [← List.getD_append _ t 0 i h, ht]
  refine ⟨hsame, fun hzero => zero_not_mem_cstr m ?_⟩
  rw [← hsame, at0, List.getD_eq_getElem _ _ h] at hzero
  have hmem := List.getElem_mem h
  rwa [hzero] at hmem

theorem cstr_length_le_of_at0 {m : Bytes} {i : ℕ} (h : at0 m i = 0) : (cstr m).length ≤ i := by
  by_contra hlt
  exact (at0_cstr (Nat.not_le.mp hlt)).2 h

/-! ## The buffer -/

/-- `c->buf`; its last byte is never read into. -/
structure HeadBuf where
  mem : Bytes
  bcnt : ℕ
  size : mem.length = 8192
  last : at0 mem 8191 = 0
  bcnt_le : bcnt ≤ 8191

theorem padded_length {t : Bytes} (h : t.length ≤ 8191) :
    (t ++ List.replicate (8192 - t.length) 0).length = 8192 := by
  rw [List.length_append, List.length_replicate]
  omega

theorem padded_last {t : Bytes} (h : t.length ≤ 8191) :
    at0 (t ++ List.replicate (8192 - t.length) 0) 8191 = 0 := by
  rw [at0, List.getD_append_right _ _ _ _ h, List.getD_replicate _ (by omega)]

/-- A buffer into which a text was read for the first time. -/
def HeadBuf.ofText (t : Bytes) (h : t.length ≤ 8191) : HeadBuf where
  mem := t ++ List.replicate (8192 - t.length) 0
  bcnt := t.length
  size := padded_length h
  last := padded_last h
  bcnt_le := h

/-- What decides where a request goes. -/
structure HeadEnv where
  /-- `agoo_group_get` finds a page. -/
  groupGet : Bytes → Bool
  domainUse : Bool
  rootFirst : Bool
  /-- `agoo_page_get` finds a page, under the root of a host. -/
  pageGet : Option Bytes → Bytes → Bool
  hooks : List Hook
  hook404 : Option Hook
  /-- `agoo_res_create` gets memory. -/
  resCreate : Bool
  /-- `malloc` gives so many bytes. -/
  malloc : ℕ → Bool

/-- Where a slice starts. -/
inductive SliceBase
  | msg | buf | wild
  deriving DecidableEq

/-- `struct _agooStr`. -/
structure Slice where
  base : SliceBase
  off : ℕ
  len : ℕ
  deriving DecidableEq

/-- What `con_header_read` puts in a request; `copied` bytes were written to `msg` before its NUL, of
`room` that it has. -/
structure HeadReq where
  method : Method
  mlen : ℤ
  copied : ℕ
  room : ℤ
  path : Slice
  query : Slice
  protocol : Slice
  header : Slice
  body : Slice
  hook : Hook

inductive HeadReturn
  | again
  | err (status : ℕ)
  | handled (mlen : ℤ)
  | ok (req : HeadReq)
  /-- No return was found up to the end of the buffer. -/
  | overrun

/-! ## The steps -/

/-- The blanks at `m`. -/
def blanks (m : Bytes) : ℕ := (m.takeWhile (· == chr ' ')).length

/-- How far the first blank is, if none of the bytes before it is NUL. -/
def wordLen (m : Bytes) : Option ℕ :=
  let n := ((cstr m).takeWhile (· != chr ' ')).length
  if at0 m n = chr ' ' then some n else none

/-- The name of a method. -/
def Method.text : Method → Bytes
  | .connect => bytes "CONNECT"
  | .delete => bytes "DELETE"
  | .get => bytes "GET"
  | .head => bytes "HEAD"
  | .options => bytes "OPTIONS"
  | .post => bytes "POST"
  | .put => bytes "PUT"
  | .patch => bytes "PATCH"
  | .all => []

/-- The first word has `n` bytes and is that method. -/
def isMethod (m : Bytes) (n : ℕ) (method : Method) : Bool :=
  n == method.text.length && strncmp method.text m method.text.length

/-- The switch on the first byte. -/
def headMethod (m : Bytes) (n : ℕ) : Option Method :=
  let c := toupper (at0 m 0)
  if c = chr 'G' then if isMethod m n .get then some .get else none
  else if c = chr 'P' then
    if isMethod m n .put then some .put
    else if isMethod m n .post then some .post
    else if isMethod m n .patch then some .patch
    else none
  else if c = chr 'D' then if isMethod m n .delete then some .delete else none
  else if c = chr 'H' then if isMethod m n .head then some .head else none
  else if c = chr 'O' then if isMethod m n .options then some .options else none
  else if c = chr 'C' then if isMethod m n .connect then some .connect else none
  else none

/-- The Content-Length of the header: none without such a line, and nothing in it when its text is no
number. -/
def contentLength (m : Bytes) (hend : ℕ) : Option (Option ℕ) :=
  (conHeaderValue m hend (bytes "Content-Length")).map fun v =>
    if numberEnd (m.drop v.1) = v.2 then some (strtoul (m.drop v.1)) else none

/-- `clen`, or the status of an error. -/
def headLength (method : Method) (m : Bytes) (hend : ℕ) : Except ℕ ℕ :=
  match method with
  | .put | .post | .patch =>
    match contentLength m hend with
    | some (some clen) => .ok clen
    | _ => .error 411
  | .delete =>
    match contentLength m hend with
    | none => .ok 0
    | some (some clen) => .ok clen
    | some none => .error 411
  | _ => .ok 0

/-- The place of the last `c`. -/
def lastIndex (c : Byte) : Bytes → Option ℕ
  | [] => none
  | x :: s =>
    match lastIndex c s with
    | some i => some (i + 1)
    | none => if x = c then some 0 else none

/-- The route of a request: a page was found, a hook, or it is refused. -/
inductive Route
  | page
  | hook (h : Hook)
  | refused (status : ℕ)

/-- `agoo_group_get`, `agoo_page_get` and `agoo_hook_find` for the path. -/
def HeadEnv.route (env : HeadEnv) (m : Bytes) (hend : ℕ) (method : Method) (path : Bytes) : Route :=
  if method = .get then
    if env.groupGet path then .page
    else
      match if env.domainUse then
          (conHeaderValue m hend (bytes "Host")).map fun v => some ((m.drop v.1).take v.2)
        else some none with
      | none => .refused 411
      | some host =>
        if env.rootFirst ∧ env.pageGet host path then .page
        else
          match hookFind env.hooks method path with
          | some hook => .hook hook
          | none =>
            if env.pageGet host path then .page
            else
              match env.hook404 with
              | some hook => .hook hook
              | none => .refused 404
  else
    match hookFind env.hooks method path with
    | some hook => .hook hook
    | none => .refused 404

/-- `header.start` and `header.len`, from the first line end at or behind offset `te`. -/
def headerSlice (m : Bytes) (hend te : ℕ) : Slice :=
  match strstr (m.drop te) crlf with
  | none => ⟨.wild, 0, 0⟩
  | some j => ⟨.msg, te + j + 2, if te + j < hend then hend - (te + j) - 2 else 0⟩

/-- `path.len`: the target has `n` bytes from offset `path` on. -/
def pathLen (m : Bytes) (path n : ℕ) : ℕ := (lastIndex (chr '?') ((m.drop path).take n)).getD n

/-- `query`. -/
def queryStart (m : Bytes) (path n : ℕ) : ℕ :=
  ((lastIndex (chr '?') ((m.drop path).take n)).map fun i => path + i + 1).getD (path + n)

/-- `proto`, for a target that ends at offset `te`. -/
def protoStart (m : Bytes) (te : ℕ) : ℕ := te + blanks (m.drop te)

/-- `pend - proto`. -/
def protoLen (m : Bytes) (te : ℕ) : ℕ := ((m.drop (protoStart m te)).takeWhile (· != chr '\r')).length

/-- `mlen`, in a `long`. -/
def msgLen (hend clen : ℕ) : ℤ := Int.bmod (hend + 4 + clen) 0x10000000000000000

/-- What `agoo_req_create` asks for. -/
def reqSize (mlen : ℤ) : ℤ := (mlen + 185) % 0x10000000000000000

/-- How many bytes are copied or cleared. -/
def copyLen (bcnt : ℕ) (mlen : ℤ) : ℕ :=
  if bcnt ≤ mlen then mlen.toNat else (mlen % 0x10000000000000000).toNat

/-- The request; `msg` starts 184 bytes from the start of what was allocated. -/
def makeReq (b : HeadBuf) (method : Method) (hend clen path n : ℕ) (hook : Hook) : HeadReq where
  method := method
  mlen := msgLen hend clen
  copied := copyLen b.bcnt (msgLen hend clen)
  room := reqSize (msgLen hend clen) - 184
  path := ⟨.msg, path, pathLen b.mem path n⟩
  query := ⟨.msg, queryStart b.mem path n, path + n - queryStart b.mem path n⟩
  protocol := ⟨.buf, protoStart b.mem (path + n), protoLen b.mem (path + n)⟩
  header := headerSlice b.mem hend (path + n)
  body := ⟨.msg, hend + 4, clen % 0x100000000⟩
  hook := hook

/-- `con_header_read` from the target on. -/
def readTarget (env : HeadEnv) (b : HeadBuf) (hend : ℕ) (method : Method) (clen path : ℕ) : HeadReturn :=
  match wordLen (b.mem.drop path) with
  | none => .err 400
  | some n =>
    if 8192 ≤ protoStart b.mem (path + n) + protoLen b.mem (path + n) then .overrun
    else
      match env.route b.mem hend method ((b.mem.drop path).take (pathLen b.mem path n)) with
      | .page => if env.resCreate then .handled (msgLen hend clen) else .err 500
      | .refused status => .err status
      | .hook hook =>
        if env.malloc (reqSize (msgLen hend clen)).toNat then .ok (makeReq b method hend clen path n hook)
        else .err 413

/-- `con_header_read`. -/
def conHeaderRead (env : HeadEnv) (b : HeadBuf) : HeadReturn :=
  match strstr b.mem (crlf ++ crlf) with
  | none => if 8191 ≤ b.bcnt then .err 431 else .again
  | some hend =>
    match wordLen b.mem with
    | none => .err 400
    | some n =>
      match headMethod b.mem n with
      | none => .err 400
      | some method =>
        match headLength method b.mem hend with
        | .error status => .err status
        | .ok clen => readTarget env b hend method clen (n + blanks (b.mem.drop n))

/-! ## What was accepted -/

/-- Where the header ends. -/
def headerEnd (m : Bytes) : ℕ := (strstr m (crlf ++ crlf)).getD 0

/-- Where the target starts. -/
def targetStart (m : Bytes) : ℕ :=
  let n := (wordLen m).getD 0
  n + blanks (m.drop n)

/-- Where the target ends: at a blank. -/
def targetEnd (m : Bytes) : ℕ := targetStart m + (wordLen (m.drop (targetStart m))).getD 0

/-- An accepted header: its first word has `n` bytes and its target `k`. -/
structure Accepted (b : HeadBuf) (r : HeadReq) (clen n k : ℕ) : Prop where
  hend : strstr b.mem (crlf ++ crlf) = some (headerEnd b.mem)
  word : wordLen b.mem = some n
  start : targetStart b.mem = n + blanks (b.mem.drop n)
  method : headMethod b.mem n = some r.method
  length : headLength r.method b.mem (headerEnd b.mem) = .ok clen
  target : wordLen (b.mem.drop (targetStart b.mem)) = some k
  stop : targetEnd b.mem = targetStart b.mem + k
  made : r = makeReq b r.method (headerEnd b.mem) clen (targetStart b.mem) k r.hook

theorem conHeaderRead_ok {env : HeadEnv} {b : HeadBuf} {r : HeadReq} (h : conHeaderRead env b = .ok r) :
    ∃ clen n k, Accepted b r clen n k := by
  unfold conHeaderRead at h
  cases hend : strstr b.mem (crlf ++ crlf) with
  | none =>
    rw [hend] at h
    dsimp only at h
    split_ifs at h
  | some e =>
    cases hword : wordLen b.mem with
    | none => simp only [hend, hword] at h; cases h
    | some n =>
      cases hmethod : headMethod b.mem n with
      | none => simp only [hend, hword, hmethod] at h; cases h
      | some method =>
        cases hlength : headLength method b.mem e with
        | error status => simp only [hend, hword, hmethod, hlength] at h; cases h
        | ok clen =>
          simp only [hend, hword, hmethod, hlength] at h
          have hstart : targetStart b.mem = n + blanks (b.mem.drop n) := by
            unfold targetStart
            rw [hword]
            rfl
          obtain rfl : e = headerEnd b.mem := by
            unfold headerEnd
            rw [hend]
            rfl
          rw [← hstart] at h
          unfold readTarget at h
          cases htarget : wordLen (b.mem.drop (targetStart b.mem)) with
          | none => simp only [htarget] at h; cases h
          | some k =>
            have hstop : targetEnd b.mem = targetStart b.mem + k := by
              unfold targetEnd
              rw [htarget]
              rfl
            simp only [htarget] at h
            split at h
            · cases h
            · split at h
              · split at h <;> cases h
              · cases h
              · split at h
                · obtain rfl := HeadReturn.ok.inj h
                  exact ⟨clen, n, k, hend, hword, hstart, hmethod, hlength, htarget, hstop, rfl⟩
                · cases h

/-! ## Places -/

theorem lastIndex_none {c : Byte} {t : Bytes} (h : lastIndex c t = none) : c ∉ t := by
  induction t with
  | nil => exact List.not_mem_nil
  | cons x t ih =>
    unfold lastIndex at h
    cases ht : lastIndex c t with
    | some i =>
      rw [ht] at h
      cases h
    | none =>
      rw [ht] at h
      dsimp only at h
      split_ifs at h with hx
      rw [List.mem_cons, not_or]
      exact ⟨Ne.symm hx, ih ht⟩

theorem lastIndex_some {c : Byte} {t : Bytes} {i : ℕ} (h : lastIndex c t = some i) :
    ∃ a z, t = a ++ c :: z ∧ a.length = i ∧ c ∉ z := by
  induction t generalizing i with
  | nil => cases h
  | cons x t ih =>
    unfold lastIndex at h
    cases ht : lastIndex c t with
    | some j =>
      rw [ht] at h
      obtain rfl := Option.some.inj h
      obtain ⟨a, z, rfl, rfl, hz⟩ := ih ht
      exact ⟨x :: a, z, rfl, rfl, hz⟩
    | none =>
      rw [ht] at h
      dsimp only at h
      split_ifs at h with hx
      obtain rfl := Option.some.inj h
      exact ⟨[], t, by rw [hx]; rfl, rfl, lastIndex_none ht⟩

/-- The path ends and the query begins within the target. -/
theorem target_parts (m : Bytes) (path n : ℕ) :
    pathLen m path n ≤ n ∧ queryStart m path n ≤ path + n := by
  unfold pathLen queryStart
  cases h : lastIndex (chr '?') ((m.drop path).take n) with
  | none => exact ⟨Nat.le_refl _, Nat.le_refl _⟩
  | some i =>
    obtain ⟨a, z, ht, rfl, -⟩ := lastIndex_some h
    have hlt := congrArg List.length ht
    rw [List.length_take, List.length_append, List.length_cons] at hlt
    constructor
    · show a.length ≤ n
      omega
    · show path + a.length + 1 ≤ path + n
      omega

/-- One hook for everything, and memory. -/
def openEnv : HeadEnv where
  groupGet _ := false
  domainUse := false
  rootFirst := false
  pageGet _ _ := false
  hooks := [⟨.all, bytes "/**", false, false⟩]
  hook404 := none
  resCreate := true
  malloc _ := true

end Agoo
