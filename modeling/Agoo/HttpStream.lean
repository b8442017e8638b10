import Agoo.HeadBehind
import Agoo.RequestLine
import Agoo.Runs

/-!
# Requests from a stream (`con.c`)

`agoo_con_http_read` on what successive calls of `recv` give. A header is looked for in the C string at `buf`, which
`recv` does not end: behind the bytes that came are those of earlier requests. A request that is there is answered by
its own bytes (`turn_whole`); one whose body is still to come is filled up in its message (`turn_reading_all`).
-/

namespace Agoo

namespace HttpStream

/-! ## The code -/

/-- The buffer after `recv`. -/
def recvBuf (b : HeadBuf) (chunk : Bytes) (h : b.bcnt + chunk.length ≤ 8191) : HeadBuf where
  mem := b.mem.take b.bcnt ++ chunk ++ b.mem.drop (b.bcnt + chunk.length)
  bcnt := b.bcnt + chunk.length
  size := by
    have := b.size
    rw [List.length_append, List.length_append, List.length_take, List.length_drop]
    omega
  last := by
    have hsize := b.size
    have hlen : (b.mem.take b.bcnt ++ chunk).length = b.bcnt + chunk.length := by
      rw [List.length_append, List.length_take]
      omega
    rw [at0, List.getD_append_right _ _ _ _ (by omega), hlen]
    show at0 (b.mem.drop _) _ = 0
    rw [at0_drop, Nat.add_sub_cancel' h, b.last]
  bcnt_le := h

/-- `memmove`: what is behind the first `n` bytes is moved to the start. -/
def moved (b : HeadBuf) (n : ℕ) : HeadBuf where
  mem := (b.mem.drop n).take (b.bcnt - n) ++ b.mem.drop (b.bcnt - n)
  bcnt := b.bcnt - n
  size := by
    have := b.size
    have := b.bcnt_le
    rw [List.length_append, List.length_take, List.length_drop, List.length_drop]
    omega
  last := by
    have hsize := b.size
    have hle := b.bcnt_le
    have hlen : ((b.mem.drop n).take (b.bcnt - n)).length = b.bcnt - n := by
      rw [List.length_take, List.length_drop]
      omega
    rw [at0, List.getD_append_right _ _ _ _ (by omega), hlen]
    show at0 (b.mem.drop _) _ = 0
    rw [at0_drop, Nat.add_sub_cancel' (by omega), b.last]
  bcnt_le := by
    have := b.bcnt_le
    omega

/-- `c->bcnt = 0; *c->buf = '\0';` -/
def cleared (b : HeadBuf) : HeadBuf where
  mem := b.mem.set 0 0
  bcnt := 0
  size := by rw [List.length_set]; exact b.size
  last := by
    rw [at0, List.getD_eq_getElem?_getD, List.getElem?_set_ne (by decide), ← List.getD_eq_getElem?_getD]
    exact b.last
  bcnt_le := Nat.zero_le _

/-- A request whose message is being read, and how many bytes of it are there. -/
structure Reading where
  req : HeadReq
  msg : Bytes
  bcnt : ℕ
  bcnt_le : (bcnt : ℤ) ≤ req.mlen

/-- What a handler gets of a request. -/
structure Seen where
  method : Method
  path : Bytes
  query : Bytes
  header : Bytes
  body : Bytes
  hook : Hook

/-- What is appended to the responses of a connection: a page, the response to a request that is given to its hook,
or that of `bad_request`. -/
inductive Answer
  | page
  | request (seen : Seen)
  | error (status : ℕ)

/-- Whether a connection is read. It is lost where memory is left, or where a request of no bytes is pushed for
ever. -/
inductive Life
  | alive | closing | lost
  deriving DecidableEq

/-- What of a connection matters here: `buf` with `bcnt`, `req`, the bytes that `recv` gave, and the responses. -/
structure HttpCon where
  buf : HeadBuf
  req : Option Reading
  got : ℕ
  answers : List Answer
  life : Life

/-- `req->msg` as `con_header_read` fills it: what is there of the message, zeros, and a NUL behind the query. -/
def fillMsg (b : HeadBuf) (r : HeadReq) : Bytes :=
  let copy := b.mem.take (min b.bcnt r.mlen.toNat)
  (copy ++ List.replicate (r.mlen.toNat - copy.length) 0 ++ [0]).set (r.query.off + r.query.len) 0

def see (r : HeadReq) (msg : Bytes) : Seen where
  method := r.method
  path := r.path.text msg
  query := r.query.text msg
  header := r.header.text msg
  body := r.body.text msg
  hook := r.hook

variable (env : HeadEnv)

/-- A request is given to its hook. -/
def respond (c : HttpCon) (r : HeadReq) (msg : Bytes) : HttpCon :=
  match r.header.base with
  | .msg =>
    { c with
      req := none
      answers := c.answers ++ [.request (see r msg)]
      life := if shouldClose (msg.drop r.header.off) r.header.len then .closing else c.life }
  | _ => { c with req := none, life := .lost }

/-- `bad_request`; the buffer is dropped. -/
def refuse (c : HttpCon) (status : ℕ) : HttpCon :=
  { c with
    buf := cleared c.buf
    answers := if env.resCreate then c.answers ++ [.error status] else c.answers }

/-- `page_response`. -/
def servePage (c : HttpCon) : HttpCon :=
  let b := (strstr c.buf.mem crlf).getD 0
  { c with
    answers := c.answers ++ [.page]
    life := if shouldClose (c.buf.mem.drop b) (headerEnd c.buf.mem - b) then .closing else c.life }

/-- What is behind the message is moved to the start, and looked at. The message of a page is a header, so it is not
empty. -/
def advance (c : HttpCon) (mlen : ℤ) : HttpCon × Bool :=
  if 0 < mlen ∧ mlen < c.buf.bcnt then ({ c with buf := moved c.buf mlen.toNat }, true)
  else ({ c with buf := cleared c.buf }, false)

/-- A turn of the loop in `agoo_con_http_read`, and whether there is another. -/
def turn (c : HttpCon) : HttpCon × Bool :=
  match c.req with
  | some r =>
    if r.req.mlen ≤ r.bcnt then
      if env.resCreate then ({ respond c r.req r.msg with buf := cleared c.buf }, false)
      else ({ c with req := none, life := .closing }, false)
    else (c, false)
  | none =>
    match conHeaderRead env c.buf with
    | .again => (c, false)
    | .err status => (refuse env c status, false)
    | .handled mlen => advance (servePage c) mlen
    | .overrun => ({ c with life := .lost }, false)
    | .ok r =>
      if r.mlen ≤ 0 then ({ c with life := .lost }, false)
      else if h : (c.buf.bcnt : ℤ) < r.mlen then
        ({ c with req := some ⟨r, fillMsg c.buf r, c.buf.bcnt, h.le⟩ }, false)
      else if env.resCreate then advance (respond c r (fillMsg c.buf r)) r.mlen
      else ({ c with req := none, life := .closing }, false)

variable {env}

theorem advance_lt {c : HttpCon} {mlen : ℤ} (h : (advance c mlen).2 = true) :
    (advance c mlen).1.buf.bcnt < c.buf.bcnt := by
  unfold advance at h ⊢
  split_ifs at h ⊢ with hmore
  show c.buf.bcnt - mlen.toNat < c.buf.bcnt
  omega

theorem respond_buf (c : HttpCon) (r : HeadReq) (msg : Bytes) : (respond c r msg).buf = c.buf := by
  unfold respond
  split <;> rfl

theorem turn_lt {c : HttpCon} (h : (turn env c).2 = true) : (turn env c).1.buf.bcnt < c.buf.bcnt := by
  unfold turn at h ⊢
  cases hreq : c.req with
  | some r =>
    rw [hreq] at h
    dsimp only at h
    split_ifs at h
  | none =>
    rw [hreq] at h
    dsimp only at h ⊢
    cases hread : conHeaderRead env c.buf with
    | again => rw [hread] at h; cases h
    | err status => rw [hread] at h; cases h
    | overrun => rw [hread] at h; cases h
    | handled mlen =>
      rw [hread] at h
      exact advance_lt h
    | ok r =>
      rw [hread] at h
      dsimp only at h ⊢
      split_ifs at h ⊢
      have hlt := advance_lt h
      rwa [respond_buf] at hlt

variable (env)

/-- The loop in `agoo_con_http_read`. -/
def loop (c : HttpCon) : HttpCon :=
  if _h : (turn env c).2 = true then loop (turn env c).1 else (turn env c).1
termination_by c.buf.bcnt
decreasing_by exact turn_lt _h

/-- What `recv` gave is behind what was there of the message. -/
def Reading.recv (r : Reading) (chunk : Bytes) (h : (r.bcnt + chunk.length : ℤ) ≤ r.req.mlen) : Reading where
  req := r.req
  msg := r.msg.take r.bcnt ++ chunk ++ r.msg.drop (r.bcnt + chunk.length)
  bcnt := r.bcnt + chunk.length
  bcnt_le := by push_cast; exact h

/-- `agoo_con_http_read`, where `recv` gives some bytes: at least one, and no more than there is room for. -/
def conHttpRead (c : HttpCon) (chunk : Bytes) : Option HttpCon :=
  if c.life ≠ .alive ∨ chunk = [] then none
  else
    match c.req with
    | some r =>
      if h : (r.bcnt + chunk.length : ℤ) ≤ r.req.mlen then
        some (loop env { c with req := some (r.recv chunk h), got := c.got + chunk.length })
      else none
    | none =>
      if h : c.buf.bcnt + chunk.length ≤ 8191 then
        some (loop env { c with buf := recvBuf c.buf chunk h, got := c.got + chunk.length })
      else none

/-- A new connection. -/
def init : HttpCon := ⟨.ofText [] (Nat.zero_le _), none, 0, [], .alive⟩

/-! ## Requests -/

/-- The header fields, behind the request line. -/
def headFields (s : Bytes) : Slice := headerSlice s (headerEnd s) (targetEnd s)

/-- Whether the connection is closed after the request; for a page the search begins at the end of the first line. -/
def headCloses (s : Bytes) : Option Hook → Bool
  | none => shouldClose (s.drop ((strstr s crlf).getD 0)) (headerEnd s - (strstr s crlf).getD 0)
  | some _ => shouldClose (s.drop (headFields s).off) (headFields s).len

/-- A request that is answered with a page or given to a hook, with memory for it, and keeps the connection. -/
structure Message (env : HeadEnv) where
  head : Bytes
  body : Bytes
  method : Method
  hook : Option Hook
  whole : Head head
  fits : head.length ≤ 8191
  short : body.length < 0x100000000
  known : headMethod head ((wordLen head).getD 0) = some method
  length : headLength method head (headerEnd head) = .ok body.length
  routed : env.route head (headerEnd head) method (headPath head) = hook.elim .page .hook
  memory : env.resCreate = true ∧ env.malloc (head.length + body.length + 185) = true
  stays : headCloses head hook = false

variable {env}

def Message.bytes (m : Message env) : Bytes := m.head ++ m.body

/-- What is answered: the slices of the request are those of its own bytes. -/
def Message.answer (m : Message env) : Answer :=
  match m.hook with
  | none => .page
  | some hook => .request {
      method := m.method
      path := headPath m.head
      query := (m.head.drop (queryStart m.head (targetStart m.head) (targetLen m.head))).take
        (targetEnd m.head - queryStart m.head (targetStart m.head) (targetLen m.head))
      header := (headFields m.head).text m.head
      body := m.body
      hook := hook }

def stream : List (Message env) → Bytes
  | [] => []
  | m :: ms => m.bytes ++ stream ms

theorem stream_append (ms ns : List (Message env)) : stream (ms ++ ns) = stream ms ++ stream ns := by
  induction ms with
  | nil => rfl
  | cons m ms ih => rw [List.cons_append, stream, stream, ih, List.append_assoc]

variable (m : Message env)

theorem Message.length_bytes : m.bytes.length = m.head.length + m.body.length := List.length_append

theorem Message.four_le : 4 ≤ m.head.length := by
  rw [m.whole.length_eq]
  omega

theorem Message.mlen_eq : msgLen (headerEnd m.head) m.body.length = m.bytes.length := by
  have hlen := m.whole.length_eq
  have hfits := m.fits
  rw [(msgLen_fits (by omega) m.short 0).1, m.length_bytes, hlen]
  push_cast
  rfl

theorem Message.reqSize_eq : (reqSize (m.bytes.length : ℤ)).toNat = m.head.length + m.body.length + 185 := by
  have hfits := m.fits
  have hshort := m.short
  rw [m.length_bytes]
  unfold reqSize
  omega

/-- A page is for a request without a body. -/
theorem Message.page_body (h : m.hook = none) : m.body = [] := by
  have hrouted := m.routed
  have hlength := m.length
  rw [h] at hrouted
  have hget : m.method = .get := by
    by_contra hne
    unfold HeadEnv.route at hrouted
    rw [if_neg hne] at hrouted
    split at hrouted <;> cases hrouted
  rw [hget] at hlength
  exact List.eq_nil_of_length_eq_zero (Except.ok.inj hlength).symm

theorem Message.read_page (h : m.hook = none) {b : HeadBuf} {x : Bytes} (hb : b.mem = m.head ++ x) :
    conHeaderRead env b = .handled m.bytes.length := by
  have hrouted := m.routed
  rw [h] at hrouted
  rw [m.whole.read_behind env hb, HeadEnv.readHead, m.known]
  dsimp only
  rw [m.length]
  dsimp only
  rw [hrouted, m.mlen_eq]
  exact if_pos m.memory.1

/-- The request that is made when `bcnt` bytes are there. -/
def Message.req (bcnt : ℕ) (hook : Hook) : HeadReq := headReq m.head bcnt m.method m.body.length hook

theorem Message.read_hook {hook : Hook} (h : m.hook = some hook) {b : HeadBuf} {x : Bytes} (hb : b.mem = m.head ++ x) :
    conHeaderRead env b = .ok (m.req b.bcnt hook) := by
  have hrouted := m.routed
  rw [h] at hrouted
  rw [m.whole.read_behind env hb, HeadEnv.readHead, m.known]
  dsimp only
  rw [m.length]
  dsimp only
  rw [hrouted, m.mlen_eq, m.reqSize_eq]
  exact if_pos m.memory.2

theorem Message.req_mlen (bcnt : ℕ) (hook : Hook) : (m.req bcnt hook).mlen = m.bytes.length := by
  unfold req headReq
  dsimp only
  rw [m.mlen_eq]

/-! ### Its message -/

/-- Where the query ends. -/
def Message.queryEnd : ℕ := targetEnd m.head

theorem Message.queryEnd_lt : m.queryEnd + 4 < m.head.length := by
  have hlt := m.whole.targetEnd_lt
  have hlen := m.whole.length_eq
  have hdef := targetEnd_def m.head
  unfold queryEnd
  omega

theorem Message.req_queryEnd (bcnt : ℕ) (hook : Hook) :
    (m.req bcnt hook).query.off + (m.req bcnt hook).query.len = m.queryEnd := by
  have hle := (target_parts m.head (targetStart m.head) (targetLen m.head)).2
  have hdef := targetEnd_def m.head
  show queryStart _ _ _ + (targetEnd m.head - queryStart _ _ _) = targetEnd m.head
  omega

/-- `req->msg` when `n` bytes are there. -/
def Message.part (n : ℕ) : Bytes :=
  (m.bytes.take n).set m.queryEnd 0 ++ List.replicate (m.bytes.length + 1 - n) 0

theorem Message.fillMsg_eq {b : HeadBuf} {hook : Hook} {n : ℕ} (hn : min b.bcnt m.bytes.length = n)
    (hquery : m.queryEnd < n) (hmem : b.mem.take n = m.bytes.take n) :
    fillMsg b (m.req b.bcnt hook) = m.part n := by
  have hlen : (m.bytes.take n).length = n := by
    rw [List.length_take]
    omega
  unfold fillMsg part
  dsimp only
  rw [m.req_mlen, m.req_queryEnd, Int.toNat_natCast, hn, hmem, hlen, List.append_assoc,
    List.set_append_left _ _ (by omega), ← List.replicate_succ']
  congr 2
  omega

theorem Message.part_recv {n k : ℕ} (hquery : m.queryEnd < n) (hle : n + k ≤ m.bytes.length) :
    (m.part n).take n ++ (m.bytes.drop n).take k ++ (m.part n).drop (n + k) = m.part (n + k) := by
  have hlen : ((m.bytes.take n).set m.queryEnd 0).length = n := by
    rw [List.length_set, List.length_take]
    omega
  have hzeros : (m.part n).drop (n + k) = List.replicate (m.bytes.length + 1 - (n + k)) 0 := by
    rw [← List.drop_drop, part, List.drop_left' hlen, List.drop_replicate]
    congr 1
    omega
  rw [hzeros, part, part, List.take_left' hlen, List.take_add, List.set_append_left _ _ (by rw [List.length_take]; omega)]

/-- The slices of a text do not see a NUL between them. -/
theorem slice_before {s : Bytes} {q i n : ℕ} (hn : i + n ≤ q) (hq : q ≤ s.length) (x : Bytes) :
    ((s.set q 0 ++ x).drop i).take n = (s.drop i).take n := by
  rw [slice_behind (by rw [List.length_set]; omega), List.take_drop, List.take_drop,
    List.take_set_of_le (by omega)]

theorem Message.part_all : m.part m.bytes.length = m.head.set m.queryEnd 0 ++ (m.body ++ [0]) := by
  have hlt := m.queryEnd_lt
  unfold part
  rw [List.take_length, Nat.add_sub_cancel_left, bytes, List.set_append_left _ _ (by omega), List.append_assoc]
  rfl

/-- Where the header fields are: behind the query, and as long as the header. -/
theorem Message.fields_cases : (headFields m.head).base = .msg ∧ m.queryEnd < (headFields m.head).off ∧
    (headFields m.head).off ≤ m.head.length ∧ ((headFields m.head).len = 0 ∨
      (headFields m.head).off ≤ headerEnd m.head ∧ (headFields m.head).len = headerEnd m.head - (headFields m.head).off) := by
  have hlt : targetEnd m.head < headerEnd m.head := m.whole.targetEnd_lt
  have hlen := m.whole.length_eq
  obtain ⟨j, hj, hle⟩ := m.whole.line_end hlt.le
  unfold headFields headerSlice Message.queryEnd
  rw [hj]
  refine ⟨rfl, by show _ < _ + j + 2; omega, by show _ + j + 2 ≤ _; omega, ?_⟩
  dsimp only
  by_cases hend : targetEnd m.head + j < headerEnd m.head
  · -- a line end before the blank line does not overlap it
    have hzero := (m.whole.returns.drop hlt.le).zero_not_mem
    have hnewline : at0 m.head (targetEnd m.head + j + 1) = chr '\n' := by
      unfold strstr at hj
      rw [cstr_of_not_mem hzero] at hj
      obtain ⟨-, ⟨y, hy⟩, -⟩ := find_eq_some_iff.mp hj
      rw [List.drop_drop] at hy
      rw [← at0_drop, ← hy]
      rfl
    have hne : targetEnd m.head + j + 1 ≠ headerEnd m.head := by
      intro heq
      have hreturn := m.whole.returns.at_end
      rw [← heq, hnewline] at hreturn
      exact absurd hreturn (by decide)
    rw [if_pos hend]
    exact Or.inr ⟨by omega, by omega⟩
  · rw [if_neg hend]
    exact Or.inl rfl

/-- Whether the connection is closed is seen in the header alone. -/
theorem Message.fields_close {hook : Hook} (h : m.hook = some hook) (x : Bytes) :
    shouldClose ((m.head.set m.queryEnd 0 ++ x).drop (headFields m.head).off) (headFields m.head).len = false := by
  obtain ⟨-, hquery, hoff, hlen⟩ := m.fields_cases
  have hstays := m.stays
  rw [h] at hstays
  have hdrop : (m.head.set m.queryEnd 0 ++ x).drop (headFields m.head).off = m.head.drop (headFields m.head).off ++ x := by
    rw [List.drop_append_of_le_length (by rwa [List.length_set]), List.drop_set_of_lt hquery]
  rw [hdrop]
  rcases hlen with hzero | ⟨hle, hlen⟩
  · rw [hzero]
    rfl
  · rw [hlen, shouldClose_behind (m.whole.returns.drop hle), ← hlen]
    exact hstays

variable (bcnt : ℕ) (hook : Hook)

theorem Message.req_slices : (m.req bcnt hook).path = ⟨.msg, targetStart m.head, pathLen m.head (targetStart m.head)
      (targetLen m.head)⟩ ∧
    (m.req bcnt hook).query = ⟨.msg, queryStart m.head (targetStart m.head) (targetLen m.head),
      targetEnd m.head - queryStart m.head (targetStart m.head) (targetLen m.head)⟩ ∧
    (m.req bcnt hook).header = headFields m.head ∧
    (m.req bcnt hook).body = ⟨.msg, headerEnd m.head + 4, m.body.length % 0x100000000⟩ := by
  unfold req headReq headFields
  refine ⟨?_, ?_, ?_, ?_⟩ <;> dsimp only

theorem Message.path_text : (m.req bcnt hook).path.text (m.part m.bytes.length) = headPath m.head := by
  have hq := m.queryEnd_lt
  have hle := (target_parts m.head (targetStart m.head) (targetLen m.head)).1
  have hend : targetStart m.head + pathLen m.head (targetStart m.head) (targetLen m.head) ≤ m.queryEnd :=
    Nat.add_le_add_left hle _
  rw [(m.req_slices bcnt hook).1, m.part_all]
  unfold Slice.text headPath
  rw [slice_before hend (by omega)]

theorem Message.query_text : (m.req bcnt hook).query.text (m.part m.bytes.length) =
    (m.head.drop (queryStart m.head (targetStart m.head) (targetLen m.head))).take
      (targetEnd m.head - queryStart m.head (targetStart m.head) (targetLen m.head)) := by
  have hq := m.queryEnd_lt
  have hend := (m.req_queryEnd bcnt hook).le
  rw [(m.req_slices bcnt hook).2.1] at hend ⊢
  unfold Slice.text
  rw [m.part_all, slice_before hend (by omega)]

theorem Message.header_text : (m.req bcnt hook).header.text (m.part m.bytes.length) =
    (headFields m.head).text m.head := by
  obtain ⟨-, hquery, hoff, hlen⟩ := m.fields_cases
  have hstop := m.whole.length_eq
  have hlong : (headFields m.head).len ≤ (m.head.drop (headFields m.head).off).length := by
    rw [List.length_drop]
    omega
  have hset : (headFields m.head).off ≤ (m.head.set m.queryEnd 0).length := by
    rw [List.length_set]
    exact hoff
  rw [(m.req_slices bcnt hook).2.2.1]
  unfold Slice.text
  rw [m.part_all, List.drop_append_of_le_length hset, List.drop_set_of_lt hquery,
    List.take_append_of_le_length hlong]

theorem Message.body_text : (m.req bcnt hook).body.text (m.part m.bytes.length) = m.body := by
  have hbody : headerEnd m.head + 4 = (m.head.set m.queryEnd 0).length := by
    rw [List.length_set, m.whole.length_eq]
  rw [(m.req_slices bcnt hook).2.2.2]
  unfold Slice.text
  rw [m.part_all, hbody, List.drop_left, Nat.mod_eq_of_lt m.short, List.take_left]

variable {hook}

/-- **The handler gets the slices of the request's own bytes.** -/
theorem Message.see_eq (h : m.hook = some hook) :
    Answer.request (see (m.req bcnt hook) (m.part m.bytes.length)) = m.answer := by
  unfold answer
  rw [h]
  unfold see
  rw [m.path_text, m.query_text, m.header_text, m.body_text]
  rfl

/-! ## A turn of the loop -/

/-- The bytes that came and are not yet used, and those behind them. -/
def Live (b : HeadBuf) (live : Bytes) : Prop := (∃ stale, b.mem = live ++ stale) ∧ b.bcnt = live.length

variable {m} {c : HttpCon} {live : Bytes}

/-- The response is appended. -/
def answered (c : HttpCon) (m : Message env) : HttpCon := { c with answers := c.answers ++ [m.answer] }

theorem respond_all (h : m.hook = some hook) (c : HttpCon) (bcnt : ℕ) :
    respond c (m.req bcnt hook) (m.part m.bytes.length) = { answered c m with req := none } := by
  have hfields := m.fields_cases.1
  have hclose := m.fields_close h (m.body ++ [0])
  unfold respond
  rw [m.see_eq bcnt h, (m.req_slices bcnt hook).2.2.1, hfields, m.part_all, hclose]
  rfl

theorem servePage_eq (h : m.hook = none) {x : Bytes} (hbuf : c.buf.mem = m.head ++ x) : servePage c = answered c m := by
  have hstays := m.stays
  have hzero := m.whole.zero_not_mem
  obtain ⟨j, hj, hle⟩ := m.whole.line_end (Nat.zero_le _)
  rw [List.drop_zero] at hj
  rw [Nat.zero_add] at hle
  have hend : headerEnd c.buf.mem = headerEnd m.head := by
    rw [hbuf, headerEnd, strstr_behind hzero m.whole.found, Option.getD_some]
  have hanswer : m.answer = .page := by
    unfold Message.answer
    rw [h]
  rw [h] at hstays
  unfold headCloses at hstays
  dsimp only at hstays
  rw [hj, Option.getD_some] at hstays
  unfold servePage answered
  rw [hend, hbuf, strstr_behind hzero hj, Option.getD_some, hanswer]
  dsimp only
  rw [m.whole.returns.drop_append hle, shouldClose_behind (m.whole.returns.drop hle), hstays]
  rfl

theorem answered_req (hreq : c.req = none) : ({ answered c m with req := none } : HttpCon) = answered c m := by
  unfold answered
  rw [← hreq]

/-- **A request that is there is answered, and what is behind it is looked at.** -/
theorem turn_whole {x : Bytes} (hbuf : c.buf.mem = m.bytes ++ x) (hcnt : m.bytes.length ≤ c.buf.bcnt)
    (hreq : c.req = none) : turn env c = advance (answered c m) m.bytes.length := by
  have hhead : c.buf.mem = m.head ++ (m.body ++ x) := by rw [hbuf, Message.bytes, List.append_assoc]
  have hpos := m.four_le
  have hlen := m.length_bytes
  unfold turn
  rw [hreq]
  dsimp only
  cases hhook : m.hook with
  | none =>
    rw [m.read_page hhook hhead]
    dsimp only
    rw [servePage_eq hhook hhead]
  | some hook =>
    have hquery := m.queryEnd_lt
    have hfill : fillMsg c.buf (m.req c.buf.bcnt hook) = m.part m.bytes.length := by
      refine m.fillMsg_eq (Nat.min_eq_right hcnt) (by omega) ?_
      rw [hbuf, List.take_left, List.take_length]
    have hmlen := m.req_mlen c.buf.bcnt hook
    have hrespond := respond_all hhook c c.buf.bcnt
    rw [m.read_hook hhook hhead]
    generalize m.req c.buf.bcnt hook = r at hfill hmlen hrespond
    dsimp only
    rw [if_neg (by omega), dif_neg (by omega), if_pos m.memory.1, hfill, hrespond, answered_req hreq, hmlen]

theorem advance_more {more stale : Bytes} (hbuf : c.buf.mem = m.bytes ++ more ++ stale)
    (hcnt : c.buf.bcnt = (m.bytes ++ more).length) (hmore : more ≠ []) :
    advance c m.bytes.length = ({ c with buf := moved c.buf m.bytes.length }, true) ∧
      Live (moved c.buf m.bytes.length) more := by
  have hpos := m.four_le
  have hlen := m.length_bytes
  have hmore := List.length_pos_iff.mpr hmore
  rw [List.length_append] at hcnt
  have hleft : c.buf.bcnt - m.bytes.length = more.length := by omega
  unfold advance
  rw [if_pos (by omega), Int.toNat_natCast]
  refine ⟨rfl, ⟨c.buf.mem.drop more.length, ?_⟩, hleft⟩
  show (c.buf.mem.drop m.bytes.length).take (c.buf.bcnt - m.bytes.length) ++ _ = _
  rw [hleft, hbuf, List.append_assoc, List.drop_left, List.take_left]

theorem advance_last (hcnt : c.buf.bcnt = m.bytes.length) :
    advance c m.bytes.length = ({ c with buf := cleared c.buf }, false) := by
  unfold advance
  rw [if_neg (by omega)]

theorem live_cleared (b : HeadBuf) : Live (cleared b) [] := ⟨⟨_, rfl⟩, rfl⟩

/-- What is there of a body is in the message of the request. -/
def Reads (r : Reading) (m : Message env) (n : ℕ) : Prop :=
  (∃ hook bcnt, m.hook = some hook ∧ r.req = m.req bcnt hook) ∧ r.msg = m.part n ∧ r.bcnt = n

/-- A request whose header is there is made, and what is there of its body is copied. -/
theorem turn_body {a : Bytes} (hlive : Live c.buf live) (hpart : m.bytes = live ++ a) (ha : a ≠ [])
    (hhead : m.head.length ≤ live.length) (hreq : c.req = none) :
    ∃ r, turn env c = ({ c with req := some r }, false) ∧ Reads r m live.length := by
  obtain ⟨⟨stale, hbuf⟩, hcnt⟩ := hlive
  have hlong := congrArg List.length hpart
  have hpos := List.length_pos_iff.mpr ha
  have hbytes := m.length_bytes
  rw [List.length_append] at hlong
  obtain ⟨z, hz⟩ : ∃ z, live = m.head ++ z := by
    refine (List.prefix_of_prefix_length_le (List.prefix_append m.head m.body) ?_ hhead).imp fun z hz => hz.symm
    exact ⟨a, hpart.symm⟩
  have hmem : c.buf.mem = m.head ++ (z ++ stale) := by rw [hbuf, hz, List.append_assoc]
  cases hhook : m.hook with
  | none =>
    have hbody := congrArg List.length (m.page_body hhook)
    rw [List.length_nil] at hbody
    omega
  | some hook =>
    have hquery := m.queryEnd_lt
    have hmlen := m.req_mlen c.buf.bcnt hook
    have hfill : fillMsg c.buf (m.req c.buf.bcnt hook) = m.part live.length := by
      refine m.fillMsg_eq (by omega) (by omega) ?_
      rw [hbuf, hpart, List.take_left, List.take_left]
    have hlt : (c.buf.bcnt : ℤ) < (m.req c.buf.bcnt hook).mlen := by
      rw [hmlen]
      omega
    refine ⟨⟨m.req c.buf.bcnt hook, fillMsg c.buf (m.req c.buf.bcnt hook), c.buf.bcnt, hlt.le⟩, ?_,
      ⟨hook, _, hhook, rfl⟩, hfill, hcnt⟩
    unfold turn
    rw [hreq]
    dsimp only
    rw [m.read_hook hhook hmem]
    generalize m.req c.buf.bcnt hook = r at hlt hmlen
    dsimp only
    rw [if_neg (by omega), dif_pos hlt]

theorem turn_reading_part {r : Reading} {n : ℕ} (hreq : c.req = some r) (hr : Reads r m n)
    (hn : n < m.bytes.length) : turn env c = (c, false) := by
  obtain ⟨⟨hook, bcnt, -, hreq'⟩, -, hcnt⟩ := hr
  have hmlen := m.req_mlen bcnt hook
  unfold turn
  rw [hreq]
  dsimp only
  rw [if_neg (by rw [hreq', hmlen, hcnt]; omega)]

theorem turn_reading_all {r : Reading} (hreq : c.req = some r) (hr : Reads r m m.bytes.length) :
    turn env c = ({ answered c m with req := none, buf := cleared c.buf }, false) := by
  obtain ⟨⟨hook, bcnt, hhook, hreq'⟩, hmsg, hcnt⟩ := hr
  have hmlen := m.req_mlen bcnt hook
  unfold turn
  rw [hreq]
  dsimp only
  rw [hreq', hmsg, respond_all hhook, if_pos (by rw [hmlen, hcnt]), if_pos m.memory.1]

/-- Nothing is done while no blank line is found. -/
theorem turn_head (hnone : strstr c.buf.mem (crlf ++ crlf) = none) (hcnt : c.buf.bcnt < 8191) (hreq : c.req = none) :
    turn env c = (c, false) := by
  unfold turn conHeaderRead
  rw [hreq, hnone]
  dsimp only
  rw [if_neg (by omega), ← hreq]

end HttpStream

end Agoo
