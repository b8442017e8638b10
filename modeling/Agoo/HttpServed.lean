import Agoo.HttpStream

/-!
# Which requests of a stream are answered

`served_iff`: each request is answered when it is there, by its own bytes and no others, exactly if no read leaves a
part of a header in front of a blank line of earlier bytes. That is so where no read ends inside a header
(`served_off_heads`), and it is not where a part of a header is read in front of a longer request
(`shorter_part_not_served`).
-/

namespace Agoo

namespace HttpStream

variable {env : HeadEnv} {m : Message env} {c : HttpCon} {live : Bytes}

/-! ## Runs -/

/-- The requests that the first `n` bytes hold whole. -/
def arrived : List (Message env) → ℕ → List (Message env)
  | [], _ => []
  | m :: ms, n => if m.bytes.length ≤ n then m :: arrived ms (n - m.bytes.length) else []

/-- The header of the next request is among the first `n` bytes. -/
def HeadThere : List (Message env) → ℕ → Prop
  | [], _ => False
  | m :: ms, n => if m.bytes.length ≤ n then HeadThere ms (n - m.bytes.length) else m.head.length ≤ n

/-- The next `k` bytes are read. -/
def step (ms : List (Message env)) (c : HttpCon) (k : ℕ) : Option HttpCon :=
  if (stream ms).length < c.got + k then none else conHttpRead env c (((stream ms).drop c.got).take k)

/-- Each request that is there was answered by its own bytes, and none that is not; a request is made when its
header is there. -/
structure Served (ms : List (Message env)) (c : HttpCon) : Prop where
  answers : c.answers = (arrived ms c.got).map Message.answer
  made : c.req ≠ none → HeadThere ms c.got
  alive : c.life = .alive

/-- When the requests that are there are moved out of the buffer and a part of a header is left, there is no blank
line in the C string that begins with it. -/
def CleanLeft : List (Message env) → HeadBuf → Prop
  | [], _ => True
  | m :: ms, b =>
    if m.bytes.length < b.bcnt then CleanLeft ms (moved b m.bytes.length)
    else b.bcnt < m.head.length → strstr b.mem (crlf ++ crlf) = none

/-- The requests that are not there. -/
def waiting (ms : List (Message env)) (n : ℕ) : List (Message env) := ms.drop (arrived ms n).length

/-- What a read has to be: into the message of a request, or such that what it leaves in the buffer is clean. -/
def ReadsClean (ms : List (Message env)) (c : HttpCon) (k : ℕ) : Prop :=
  c.req = none → ∀ h, CleanLeft (waiting ms c.got) (recvBuf c.buf (((stream ms).drop c.got).take k) h)

/-- Requests are answered up to some place, and `live` is in the buffer of what follows. -/
structure Mid (used rest : List (Message env)) (live : Bytes) (c : HttpCon) : Prop where
  buffer : Live c.buf live
  req : c.req = none
  part : ∃ tail, stream rest = live ++ tail
  got : c.got = (stream used).length + live.length
  answers : c.answers = used.map Message.answer
  life : c.life = .alive

/-- A part of a request is in its message. -/
structure InBody (used : List (Message env)) (m : Message env) (n : ℕ) (c : HttpCon) : Prop where
  reads : ∃ r, c.req = some r ∧ Reads r m n
  head : m.head.length ≤ n
  lt : n < m.bytes.length
  got : c.got = (stream used).length + n
  answers : c.answers = used.map Message.answer
  life : c.life = .alive

/-- What a read leaves: a part of a header in the buffer, or a part of a request in its message. -/
def Inv (ms : List (Message env)) (c : HttpCon) : Prop :=
  ∃ used rest, ms = used ++ rest ∧
    ((∃ live, Mid used rest live c ∧ ∀ m ∈ rest.head?, live.length < m.head.length) ∨
      ∃ m tail n, rest = m :: tail ∧ InBody used m n c)

theorem Message.length_pos (m : Message env) : 0 < m.bytes.length := by
  have hpos := m.four_le
  rw [m.length_bytes]
  omega

theorem Message.head_le (m : Message env) : m.head.length ≤ m.bytes.length := by
  rw [m.length_bytes]
  omega

theorem arrived_append (used rest : List (Message env)) (n : ℕ) :
    arrived (used ++ rest) ((stream used).length + n) = used ++ arrived rest n := by
  induction used with
  | nil => simp [stream]
  | cons m used ih =>
    rw [stream, List.length_append, List.cons_append, arrived, if_pos (by omega),
      show m.bytes.length + (stream used).length + n - m.bytes.length = (stream used).length + n by omega, ih,
      List.cons_append]

theorem headThere_append (used rest : List (Message env)) (n : ℕ) :
    HeadThere (used ++ rest) ((stream used).length + n) ↔ HeadThere rest n := by
  induction used with
  | nil => simp [stream]
  | cons m used ih =>
    rw [stream, List.length_append, List.cons_append, HeadThere, if_pos (by omega),
      show m.bytes.length + (stream used).length + n - m.bytes.length = (stream used).length + n by omega, ih]

/-- The next request is not there. -/
theorem arrived_wait {rest : List (Message env)} {n : ℕ} (h : ∀ m ∈ rest.head?, n < m.bytes.length) :
    arrived rest n = [] := by
  cases rest with
  | nil => rfl
  | cons m rest => exact if_neg (Nat.not_le_of_lt (h m rfl))

theorem waiting_append {used rest : List (Message env)} {n : ℕ} (h : ∀ m ∈ rest.head?, n < m.bytes.length) :
    waiting (used ++ rest) ((stream used).length + n) = rest := by
  rw [waiting, arrived_append, arrived_wait h, List.append_nil, List.drop_left]

theorem Inv.served {ms : List (Message env)} {c : HttpCon} (h : Inv ms c) : Served ms c := by
  obtain ⟨used, rest, rfl, ⟨live, hmid, hwait⟩ | ⟨m, tail, n, rfl, hbody⟩⟩ := h
  · have harrived := arrived_wait fun m hm => (hwait m hm).trans_le m.head_le
    refine ⟨?_, fun hmade => absurd hmid.req hmade, hmid.life⟩
    rw [hmid.got, arrived_append, harrived, List.append_nil, hmid.answers]
  · have harrived : arrived (m :: tail) n = [] := if_neg (Nat.not_le_of_lt hbody.lt)
    refine ⟨?_, fun _ => ?_, hbody.life⟩
    · rw [hbody.got, arrived_append, harrived, List.append_nil, hbody.answers]
    · rw [hbody.got, headThere_append, HeadThere, if_neg (Nat.not_le_of_lt hbody.lt)]
      exact hbody.head

/-! ### The loop -/

theorem loop_stop (h : (turn env c).2 = false) : loop env c = (turn env c).1 := by
  rw [loop, dif_neg (by rw [h]; decide)]

theorem loop_more (h : (turn env c).2 = true) : loop env c = loop env (turn env c).1 := by
  rw [loop, dif_pos h]

/-- What no turn takes back: responses, and that a connection is not read any more. -/
structure Grows (c c' : HttpCon) : Prop where
  got : c'.got = c.got
  answers : c.answers.length ≤ c'.answers.length
  life : c.life ≠ .alive → c'.life ≠ .alive

theorem Grows.refl (c : HttpCon) : Grows c c := ⟨rfl, Nat.le_refl _, id⟩

theorem Grows.trans {c c' c'' : HttpCon} (h : Grows c c') (h' : Grows c' c'') : Grows c c'' :=
  ⟨h'.got.trans h.got, h.answers.trans h'.answers, h'.life ∘ h.life⟩

theorem grows_advance (c : HttpCon) (mlen : ℤ) : Grows c (advance c mlen).1 := by
  unfold advance
  split
  · exact ⟨rfl, Nat.le_refl _, id⟩
  · exact ⟨rfl, Nat.le_refl _, id⟩

/-- A response is appended, or the connection is lost. -/
theorem respond_cases (c : HttpCon) (r : HeadReq) (msg : Bytes) :
    Grows c (respond c r msg) ∧
      ((respond c r msg).life ≠ .alive ∨ c.answers.length < (respond c r msg).answers.length) := by
  unfold respond
  cases r.header.base with
  | msg =>
    have hlen : c.answers.length < (c.answers ++ [Answer.request (see r msg)]).length := by
      rw [List.length_append, List.length_singleton]
      omega
    refine ⟨⟨rfl, hlen.le, fun hlife => ?_⟩, Or.inr hlen⟩
    dsimp only
    split_ifs
    · exact fun h => by cases h
    · exact hlife
  | buf => exact ⟨⟨rfl, Nat.le_refl _, fun _ h => by cases h⟩, Or.inl fun h => by cases h⟩
  | wild => exact ⟨⟨rfl, Nat.le_refl _, fun _ h => by cases h⟩, Or.inl fun h => by cases h⟩

theorem refuse_grows (c : HttpCon) (status : ℕ) : Grows c (refuse env c status) := by
  unfold refuse
  refine ⟨rfl, ?_, id⟩
  dsimp only
  split_ifs
  · rw [List.length_append]
    exact Nat.le_add_right _ _
  · exact Nat.le_refl _

theorem servePage_grows (c : HttpCon) : Grows c (servePage c) := by
  unfold servePage
  dsimp only
  refine ⟨rfl, by rw [List.length_append]; exact Nat.le_add_right _ _, fun hlife => ?_⟩
  dsimp only
  split_ifs
  · exact fun h => by cases h
  · exact hlife

theorem grows_turn (c : HttpCon) : Grows c (turn env c).1 := by
  unfold turn
  cases hreq : c.req with
  | some r =>
    dsimp only
    split_ifs
    · have h := (respond_cases c r.req r.msg).1
      exact ⟨h.got, h.answers, h.life⟩
    · exact ⟨rfl, Nat.le_refl _, fun _ h => by cases h⟩
    · exact .refl c
  | none =>
    dsimp only
    cases conHeaderRead env c.buf with
    | again => exact ⟨rfl, Nat.le_refl _, id⟩
    | err status => exact refuse_grows c status
    | overrun => exact ⟨rfl, Nat.le_refl _, fun _ h => by cases h⟩
    | handled mlen => exact (servePage_grows c).trans (grows_advance _ _)
    | ok r =>
      dsimp only
      split_ifs
      · exact ⟨rfl, Nat.le_refl _, fun _ h => by cases h⟩
      · exact ⟨rfl, Nat.le_refl _, id⟩
      · exact (respond_cases c r _).1.trans (grows_advance _ _)
      · exact ⟨rfl, Nat.le_refl _, fun _ h => by cases h⟩

theorem grows_loop (c : HttpCon) : Grows (turn env c).1 (loop env c) := by
  induction c using loop.induct env with
  | case1 c h ih =>
    rw [loop_more h]
    exact (grows_turn _).trans ih
  | case2 c h =>
    rw [loop_stop (Bool.eq_false_iff.mpr h)]
    exact .refl _

theorem readTarget_ne_again (b : HeadBuf) (hend : ℕ) (method : Method) (clen path : ℕ) :
    readTarget env b hend method clen path ≠ .again := by
  unfold readTarget
  cases wordLen (b.mem.drop path) with
  | none => exact fun h => by cases h
  | some n =>
    dsimp only
    by_cases hlong : 8192 ≤ protoStart b.mem (path + n) + protoLen b.mem (path + n)
    · rw [if_pos hlong]
      exact fun h => by cases h
    · rw [if_neg hlong]
      cases env.route b.mem hend method ((b.mem.drop path).take (pathLen b.mem path n)) with
      | page =>
        dsimp only
        split_ifs <;> exact fun h => by cases h
      | refused status => exact fun h => by cases h
      | hook hook =>
        dsimp only
        split_ifs <;> exact fun h => by cases h

/-- A header is waited for only where there is no blank line. -/
theorem blank_line_read {b : HeadBuf} (h : strstr b.mem (crlf ++ crlf) ≠ none) : conHeaderRead env b ≠ .again := by
  obtain ⟨hend, hfound⟩ := Option.ne_none_iff_exists'.mp h
  unfold conHeaderRead
  rw [hfound]
  dsimp only
  split
  · exact fun h => by cases h
  · split
    · exact fun h => by cases h
    · split
      · exact fun h => by cases h
      · exact readTarget_ne_again _ _ _ _ _

/-- **Where a blank line is found, something is done at once**: a response is appended, the connection is lost, or a
request is made. -/
theorem turn_early (hres : env.resCreate = true) (hreq : c.req = none)
    (hfound : strstr c.buf.mem (crlf ++ crlf) ≠ none) :
    (turn env c).1.life ≠ .alive ∨ c.answers.length < (turn env c).1.answers.length ∨
      ((turn env c).2 = false ∧ (turn env c).1.req ≠ none) := by
  have hagain : conHeaderRead env _ ≠ .again := blank_line_read hfound
  have hone : ∀ a : Answer, c.answers.length < (c.answers ++ [a]).length := by
    intro a
    rw [List.length_append, List.length_singleton]
    omega
  unfold turn
  rw [hreq]
  dsimp only
  cases hread : conHeaderRead env c.buf with
  | again => exact absurd hread hagain
  | err status =>
    refine Or.inr (Or.inl ?_)
    unfold refuse
    dsimp only
    rw [if_pos hres]
    exact hone _
  | overrun => exact Or.inl fun h => by cases h
  | handled mlen =>
    refine Or.inr (Or.inl (lt_of_lt_of_le ?_ (grows_advance _ _).answers))
    exact hone .page
  | ok r =>
    dsimp only
    split_ifs with hzero hlt
    · exact Or.inl fun h => by cases h
    · exact Or.inr (Or.inr ⟨rfl, fun h => by cases h⟩)
    · have hgrows := grows_advance (respond c r (fillMsg c.buf r)) r.mlen
      rcases (respond_cases c r (fillMsg c.buf r)).2 with hlife | hanswers
      · exact Or.inl (hgrows.life hlife)
      · exact Or.inr (Or.inl (hanswers.trans_le hgrows.answers))

variable {used rest : List (Message env)}

/-- What is done before the header is there. -/
theorem Mid.early (h : Mid used rest live c) (hwait : ∀ m ∈ rest.head?, live.length < m.head.length)
    (hres : env.resCreate = true) (hfound : strstr c.buf.mem (crlf ++ crlf) ≠ none) :
    ¬ Served (used ++ rest) (loop env c) := by
  intro hserved
  have hgrows : Grows (turn env c).1 (loop env c) := grows_loop c
  have hgot : (loop env c).got = (stream used).length + live.length :=
    hgrows.got.trans ((grows_turn c).got.trans h.got)
  have harrived : arrived rest live.length = [] := arrived_wait fun m hm => (hwait m hm).trans_le m.head_le
  have hanswers := hserved.answers
  rw [hgot, arrived_append, harrived, List.append_nil, ← h.answers] at hanswers
  rcases turn_early hres h.req hfound with hlife | hmore | ⟨hstop, hmade⟩
  · exact hgrows.life hlife hserved.alive
  · have hle := hgrows.answers
    rw [hanswers] at hle
    omega
  · have hthere := hserved.made (by rw [loop_stop hstop]; exact hmade)
    rw [hgot, headThere_append] at hthere
    cases rest with
    | nil => exact hthere
    | cons m rest =>
      have hlt := hwait m rfl
      have hle := m.head_le
      rw [HeadThere, if_neg (by omega)] at hthere
      omega

/-- Either the next request is there, or a part of it is. -/
theorem next_cases {m : Message env} {tail : Bytes} (h : stream (m :: rest) = live ++ tail) :
    (∃ more, live = m.bytes ++ more ∧ stream rest = more ++ tail) ∨ ∃ a, a ≠ [] ∧ m.bytes = live ++ a := by
  rcases List.append_eq_append_iff.mp h with ⟨more, hlive, hrest⟩ | ⟨a, hm, hrest⟩
  · exact Or.inl ⟨more, hlive, hrest⟩
  · rcases eq_or_ne a [] with rfl | ha
    · exact Or.inl ⟨[], by rw [hm, List.append_nil, List.append_nil], hrest.symm⟩
    · exact Or.inr ⟨a, ha, hm⟩

theorem stream_snoc (used : List (Message env)) (m : Message env) :
    (stream (used ++ [m])).length = (stream used).length + m.bytes.length := by
  rw [stream_append, List.length_append, stream, stream, List.append_nil]

theorem map_snoc (used : List (Message env)) (m : Message env) (h : c.answers = used.map Message.answer) :
    (answered c m).answers = (used ++ [m]).map Message.answer := by
  rw [List.map_append, List.map_singleton, ← h]
  rfl

theorem no_header (rest : List (Message env)) : ∀ m ∈ rest.head?, ([] : Bytes).length < m.head.length :=
  fun m _ => lt_of_lt_of_le (Nat.succ_pos 3) m.four_le

/-- The last request in the buffer. -/
theorem Mid.last {m : Message env} (h : Mid used (m :: rest) live c) (hall : live = m.bytes) :
    Mid (used ++ [m]) rest [] (loop env c) ∧ (loop env c).buf = cleared c.buf := by
  subst hall
  obtain ⟨⟨stale, hbuf⟩, hcnt⟩ := h.buffer
  have hturn := turn_whole hbuf hcnt.ge h.req
  rw [advance_last (c := answered c m) hcnt] at hturn
  have hgot := h.got
  rw [← stream_snoc] at hgot
  rw [loop_stop (congrArg Prod.snd hturn), hturn]
  exact ⟨⟨live_cleared _, h.req, ⟨_, rfl⟩, hgot, map_snoc used m h.answers, h.life⟩, rfl⟩

/-- A request with something behind it. -/
theorem Mid.more {m : Message env} {more : Bytes} (h : Mid used (m :: rest) (m.bytes ++ more) c) (hmore : more ≠ [])
    (hrest : ∃ tail, stream rest = more ++ tail) :
    loop env c = loop env (turn env c).1 ∧ Mid (used ++ [m]) rest more (turn env c).1 ∧
      (turn env c).1.buf = moved c.buf m.bytes.length := by
  obtain ⟨⟨stale, hbuf⟩, hcnt⟩ := h.buffer
  have hturn : turn env c = advance (answered c m) m.bytes.length := by
    refine turn_whole (x := more ++ stale) ?_ ?_ h.req
    · rw [hbuf, List.append_assoc]
    · rw [hcnt, List.length_append]
      exact Nat.le_add_right _ _
  obtain ⟨hadvance, hlive⟩ := advance_more (c := answered c m) hbuf hcnt hmore
  rw [hadvance] at hturn
  have hgot := h.got
  rw [List.length_append, ← Nat.add_assoc, ← stream_snoc] at hgot
  rw [loop_more (congrArg Prod.snd hturn), hturn]
  exact ⟨rfl, ⟨hlive, h.req, hrest, hgot, map_snoc used m h.answers, h.life⟩, rfl⟩

/-- A request whose body is not all there. -/
theorem Mid.body {m : Message env} {a : Bytes} (h : Mid used (m :: rest) live c) (hm : m.bytes = live ++ a)
    (ha : a ≠ []) (hthere : m.head.length ≤ live.length) : InBody used m live.length (loop env c) := by
  have hlt : live.length < m.bytes.length := by
    have hlen := List.length_pos_iff.mpr ha
    rw [hm, List.length_append]
    omega
  obtain ⟨r, hturn, hr⟩ := turn_body h.buffer hm ha hthere h.req
  rw [loop_stop (congrArg Prod.snd hturn), hturn]
  exact ⟨⟨r, rfl, hr⟩, hthere, hlt, h.got, h.answers, h.life⟩

/-- A header that is not all there. -/
theorem Mid.head {m : Message env} (h : Mid used (m :: rest) live c) (hshort : live.length < m.head.length)
    (hnone : strstr c.buf.mem (crlf ++ crlf) = none) : loop env c = c := by
  have hfits := m.fits
  have hcnt := h.buffer.2
  have hturn : turn env c = (c, false) := turn_head hnone (by omega) h.req
  rw [loop_stop (congrArg Prod.snd hturn), hturn]

/-- The loop answers all requests that are there, if what is left in the buffer is clean. -/
theorem loop_mid (rest : List (Message env)) {used : List (Message env)} {c : HttpCon} {live : Bytes}
    (h : Mid used rest live c) (hlive : live ≠ []) :
    (CleanLeft rest c.buf ∧ Inv (used ++ rest) (loop env c)) ∨
      (¬ CleanLeft rest c.buf ∧ ¬ Served (used ++ rest) (loop env c)) := by
  induction rest generalizing used c live with
  | nil =>
    obtain ⟨tail, htail⟩ := h.part
    exact absurd (List.append_eq_nil_iff.mp htail.symm).1 hlive
  | cons m rest ih =>
    obtain ⟨tail, htail⟩ := h.part
    have hcnt := h.buffer.2
    have hhead := m.head_le
    rcases next_cases htail with ⟨more, rfl, hrest⟩ | ⟨a, ha, hm⟩
    · rw [List.append_cons]
      rcases eq_or_ne more [] with rfl | hmore
      · rw [List.append_nil] at h hcnt
        refine Or.inl ⟨?_, used ++ [m], rest, rfl, Or.inl ⟨[], (h.last rfl).1, no_header rest⟩⟩
        rw [CleanLeft, if_neg (by omega)]
        omega
      · obtain ⟨hloop, hmid, hmoved⟩ := h.more hmore ⟨tail, hrest⟩
        have hlen := List.length_pos_iff.mpr hmore
        rw [CleanLeft, if_pos (by rw [hcnt, List.length_append]; omega), ← hmoved, hloop]
        exact ih hmid hmore
    · have hlt : live.length < m.bytes.length := by
        have hlen := List.length_pos_iff.mpr ha
        rw [hm, List.length_append]
        omega
      rw [CleanLeft, if_neg (by omega), hcnt]
      by_cases hthere : m.head.length ≤ live.length
      · refine Or.inl ⟨fun hshort => absurd hshort (by omega), used, m :: rest, rfl, Or.inr ?_⟩
        exact ⟨m, rest, live.length, rfl, h.body hm ha hthere⟩
      · have hshort := Nat.lt_of_not_le hthere
        have hwait : ∀ m' ∈ (m :: rest).head?, live.length < m'.head.length := by
          rintro m' ⟨⟩
          exact hshort
        by_cases hnone : strstr c.buf.mem (crlf ++ crlf) = none
        · rw [h.head hshort hnone]
          exact Or.inl ⟨fun _ => hnone, used, m :: rest, rfl, Or.inl ⟨live, h, hwait⟩⟩
        · exact Or.inr ⟨fun hall => hnone (hall hshort), h.early hwait m.memory.1 hnone⟩

/-! ### A read -/

theorem live_recv {b : HeadBuf} (hlive : Live b live) (chunk : Bytes) (h : b.bcnt + chunk.length ≤ 8191) :
    Live (recvBuf b chunk h) (live ++ chunk) := by
  obtain ⟨⟨stale, hbuf⟩, hcnt⟩ := hlive
  refine ⟨⟨stale.drop chunk.length, ?_⟩, ?_⟩
  · show b.mem.take b.bcnt ++ chunk ++ b.mem.drop (b.bcnt + chunk.length) = _
    rw [hbuf, hcnt, List.take_left, ← List.drop_drop, List.drop_left]
  · show b.bcnt + chunk.length = _
    rw [hcnt, List.length_append]

theorem reads_recv {r : Reading} {n k : ℕ} (hr : Reads r m n) (hhead : m.head.length ≤ n)
    (hle : n + k ≤ m.bytes.length) (h : (r.bcnt + ((m.bytes.drop n).take k).length : ℤ) ≤ r.req.mlen) :
    Reads (r.recv ((m.bytes.drop n).take k) h) m (n + k) := by
  obtain ⟨hreq, hmsg, hcnt⟩ := hr
  have hquery := m.queryEnd_lt
  have hlen : ((m.bytes.drop n).take k).length = k := by
    rw [List.length_take, List.length_drop]
    omega
  refine ⟨hreq, ?_, ?_⟩
  · show r.msg.take r.bcnt ++ _ ++ r.msg.drop (r.bcnt + _) = _
    rw [hmsg, hcnt, hlen]
    exact m.part_recv (by omega) hle
  · show r.bcnt + _ = _
    rw [hcnt, hlen]

theorem step_some {ms : List (Message env)} {c c' : HttpCon} {k : ℕ} (h : step ms c k = some c') :
    0 < k ∧ c.got + k ≤ (stream ms).length ∧ (((stream ms).drop c.got).take k).length = k ∧
      conHttpRead env c (((stream ms).drop c.got).take k) = some c' := by
  unfold step at h
  split_ifs at h with hlong
  have hlen : (((stream ms).drop c.got).take k).length = k := by
    rw [List.length_take, List.length_drop]
    omega
  refine ⟨?_, by omega, hlen, h⟩
  rw [Nat.pos_iff_ne_zero]
  rintro rfl
  rw [List.take_zero, conHttpRead, if_pos (Or.inr rfl)] at h
  cases h

theorem InBody.ahead {m : Message env} {tail : List (Message env)} {n : ℕ} (h : InBody used m n c) :
    (stream (used ++ m :: tail)).drop c.got = m.bytes.drop n ++ stream tail := by
  rw [stream_append, h.got, ← List.drop_drop, List.drop_left, stream, List.drop_append_of_le_length h.lt.le]

/-- A read into the message of a request, which is answered when it is all there. -/
theorem InBody.read {m : Message env} {tail : List (Message env)} {n k : ℕ} {c' : HttpCon} (h : InBody used m n c)
    (hstep : step (used ++ m :: tail) c k = some c') :
    InBody used m (n + k) c' ∨ (n + k = m.bytes.length ∧ Mid (used ++ [m]) tail [] c') := by
  obtain ⟨r, hreq, hr⟩ := h.reads
  obtain ⟨⟨hook, bcnt, hhook, hreq'⟩, hmsg, hcnt⟩ := id hr
  obtain ⟨-, hk, hlen, hread⟩ := step_some hstep
  have hlt := h.lt
  have hahead : (stream (used ++ m :: tail)).drop c.got = m.bytes.drop n ++ stream tail := h.ahead
  have hgot : c.got + k = (stream used).length + (n + k) := by rw [h.got, Nat.add_assoc]
  generalize hchunk : ((stream (used ++ m :: tail)).drop c.got).take k = chunk at hlen hread
  unfold conHttpRead at hread
  rw [hreq] at hread
  dsimp only at hread
  split_ifs at hread with hdead hroom
  have hle : n + k ≤ m.bytes.length := by
    have hmlen := m.req_mlen bcnt hook
    rw [hreq', hmlen, hcnt, hlen] at hroom
    omega
  obtain rfl := Option.some.inj hread
  obtain rfl : (m.bytes.drop n).take k = chunk := by
    rw [← hchunk, hahead, List.take_append_of_le_length (by rw [List.length_drop]; omega)]
  have hr' := reads_recv hr h.head hle hroom
  rw [hlen, hgot]
  rcases Nat.lt_or_eq_of_le hle with hpart | hall
  · have hturn : turn env _ = _ := turn_reading_part
      (c := { c with req := some (r.recv _ hroom), got := (stream used).length + (n + k) }) rfl hr' hpart
    rw [loop_stop (congrArg Prod.snd hturn), hturn]
    exact Or.inl ⟨⟨_, rfl, hr'⟩, h.head.trans (Nat.le_add_right _ _), hpart, rfl, h.answers, h.life⟩
  · rw [hall] at hr'
    have hturn := turn_reading_all
      (c := { c with req := some (r.recv _ hroom), got := (stream used).length + (n + k) }) rfl hr'
    rw [loop_stop (congrArg Prod.snd hturn), hturn]
    refine Or.inr ⟨hall, live_cleared _, rfl, ⟨_, rfl⟩, ?_, map_snoc used m h.answers, h.life⟩
    rw [stream_snoc, ← hall]
    rfl

theorem Mid.ahead (h : Mid used rest live c) :
    ∃ tail, stream rest = live ++ tail ∧ (stream (used ++ rest)).drop c.got = tail := by
  obtain ⟨tail, htail⟩ := h.part
  refine ⟨tail, htail, ?_⟩
  rw [stream_append, htail, h.got, ← List.append_assoc, ← List.length_append, List.drop_left]

/-- The bytes of a read follow those that are in the buffer. -/
theorem Mid.chunk (h : Mid used rest live c) (k : ℕ) :
    ∃ tail, stream rest = live ++ ((stream (used ++ rest)).drop c.got).take k ++ tail := by
  obtain ⟨tail, htail, hahead⟩ := h.ahead
  exact ⟨tail.drop k, by rw [hahead, htail, List.append_assoc, List.take_append_drop]⟩

theorem Mid.waiting_eq (h : Mid used rest live c) (hwait : ∀ m ∈ rest.head?, live.length < m.head.length) :
    waiting (used ++ rest) c.got = rest := by
  rw [h.got]
  exact waiting_append fun m hm => (hwait m hm).trans_le m.head_le

theorem Mid.recv {chunk : Bytes} (h : Mid used rest live c) (hpart : ∃ tail, stream rest = live ++ chunk ++ tail)
    (hroom : c.buf.bcnt + chunk.length ≤ 8191) :
    Mid used rest (live ++ chunk) { c with buf := recvBuf c.buf chunk hroom, got := c.got + chunk.length } := by
  refine ⟨live_recv h.buffer _ hroom, h.req, hpart, ?_, h.answers, h.life⟩
  show c.got + chunk.length = _
  rw [h.got, List.length_append, Nat.add_assoc]

/-- What a read of the stream does. -/
theorem step_cases {ms : List (Message env)} {c c' : HttpCon} {k : ℕ} (hinv : Inv ms c) (h : step ms c k = some c') :
    (ReadsClean ms c k ∧ Inv ms c') ∨ (¬ ReadsClean ms c k ∧ ¬ Served ms c') := by
  obtain ⟨used, rest, rfl, ⟨live, hmid, hwait⟩ | ⟨m, tail, n, rfl, hbody⟩⟩ := hinv
  · obtain ⟨hpos, -, hlen, hread⟩ := step_some h
    have hpart := hmid.chunk k
    unfold ReadsClean
    rw [hmid.waiting_eq hwait]
    generalize ((stream (used ++ rest)).drop c.got).take k = chunk at hlen hread hpart
    unfold conHttpRead at hread
    rw [hmid.req] at hread
    dsimp only at hread
    split_ifs at hread with hdead hroom
    obtain rfl := Option.some.inj hread
    have hclean : (c.req = none → ∀ hroom, CleanLeft rest (recvBuf c.buf chunk hroom)) ↔
        CleanLeft rest (recvBuf c.buf chunk hroom) := ⟨fun hall => hall hmid.req hroom, fun hone _ _ => hone⟩
    have hne : live ++ chunk ≠ [] := by
      intro hnil
      rw [(List.append_eq_nil_iff.mp hnil).2, List.length_nil] at hlen
      omega
    have hcases := loop_mid rest (hmid.recv hpart hroom) hne
    rw [hclean]
    rwa [hmid.req] at hcases
  · obtain ⟨r, hreq, -⟩ := hbody.reads
    refine Or.inl ⟨fun hnone => ?_, ?_⟩
    · rw [hreq] at hnone
      cases hnone
    · rcases hbody.read h with hbody' | ⟨-, hmid⟩
      · exact ⟨used, m :: tail, rfl, Or.inr ⟨m, tail, n + k, rfl, hbody'⟩⟩
      · exact ⟨used ++ [m], tail, List.append_cons .., Or.inl ⟨[], hmid, no_header tail⟩⟩

theorem mid_init (ms : List (Message env)) : Mid [] ms [] init :=
  ⟨⟨⟨_, rfl⟩, rfl⟩, rfl, ⟨_, rfl⟩, rfl, rfl, rfl⟩

theorem inv_init (ms : List (Message env)) : Inv ms init := ⟨[], ms, rfl, Or.inl ⟨[], mid_init ms, no_header ms⟩⟩

/-- **Each request is answered when it is there, by its own bytes and no others, exactly if no read leaves a part of
a header in front of a blank line of earlier bytes.** -/
theorem served_iff (ms : List (Message env)) (ks : List ℕ) :
    Always (step ms) (Served ms) init ks ↔ Along (step ms) (ReadsClean ms) init ks := by
  refine always_iff_along (Inv ms) ?_ (fun c hinv => hinv.served) ?_ (inv_init ms) (along_true _ _)
  · intro c k c' hinv _ hok h
    rcases step_cases hinv h with ⟨-, hinv'⟩ | ⟨hbad, -⟩
    · exact hinv'
    · exact absurd hok hbad
  · intro c k c' hinv _ hbad h
    rcases step_cases hinv h with ⟨hok, -⟩ | ⟨-, hnot⟩
    · exact absurd hok hbad
    · exact hnot

/-! ### Cuts that are clean -/

/-- The `n` bytes do not end inside a header. -/
def OffHeads : List (Message env) → ℕ → Prop
  | [], _ => True
  | m :: ms, n => if m.bytes.length < n then OffHeads ms (n - m.bytes.length) else m.head.length ≤ n

theorem cleanLeft_off {rest : List (Message env)} {b : HeadBuf} {live : Bytes} (hlive : Live b live)
    (hpart : ∃ tail, stream rest = live ++ tail) (hoff : OffHeads rest live.length) : CleanLeft rest b := by
  induction rest generalizing b live with
  | nil => trivial
  | cons m rest ih =>
    obtain ⟨⟨stale, hbuf⟩, hcnt⟩ := hlive
    obtain ⟨tail, htail⟩ := hpart
    by_cases hlong : m.bytes.length < live.length
    · rw [OffHeads, if_pos hlong] at hoff
      rw [CleanLeft, if_pos (by omega)]
      rcases next_cases htail with ⟨more, rfl, hrest⟩ | ⟨a, -, hm⟩
      · rw [List.length_append, Nat.add_sub_cancel_left] at hoff
        rw [List.length_append] at hlong
        have hmore : more ≠ [] := by
          rintro rfl
          rw [List.length_nil] at hlong
          omega
        have hmoved := (advance_more (c := { (init : HttpCon) with buf := b }) hbuf hcnt hmore).2
        exact ih hmoved ⟨tail, hrest⟩ hoff
      · have hlen := congrArg List.length hm
        rw [List.length_append] at hlen
        omega
    · rw [OffHeads, if_neg hlong] at hoff
      rw [CleanLeft, if_neg (by omega)]
      omega

theorem offHeads_append {used rest : List (Message env)} {n : ℕ} (h : OffHeads (used ++ rest) ((stream used).length + n))
    (hn : 0 < n) : OffHeads rest n := by
  induction used with
  | nil => simpa [stream] using h
  | cons m used ih =>
    rw [stream, List.length_append, List.cons_append, OffHeads, if_pos (by omega),
      show m.bytes.length + (stream used).length + n - m.bytes.length = (stream used).length + n by omega] at h
    exact ih h

/-- **Where no read ends inside a header, each request is answered when it is there.** -/
theorem served_off_heads (ms : List (Message env)) (ks : List ℕ)
    (h : Along (step ms) (fun c k => OffHeads ms (c.got + k)) init ks) : Always (step ms) (Served ms) init ks := by
  refine (always_of_along (Inv ms) ?_ (inv_init ms) h).mono fun c hinv => hinv.served
  intro c k c' hinv hoff hstep
  rcases step_cases hinv hstep with ⟨-, hinv'⟩ | ⟨hbad, -⟩
  · exact hinv'
  · refine absurd (fun hreq hroom => ?_) hbad
    obtain ⟨used, rest, rfl, ⟨live, hmid, hwait⟩ | ⟨m, tail, n, rfl, hbody⟩⟩ := hinv
    · obtain ⟨hpos, -, hlen, -⟩ := step_some hstep
      rw [hmid.waiting_eq hwait]
      refine cleanLeft_off (live_recv hmid.buffer _ hroom) (hmid.chunk k) ?_
      rw [List.length_append, hlen]
      rw [hmid.got, Nat.add_assoc] at hoff
      exact offHeads_append hoff (by omega)
    · obtain ⟨r, hmade, -⟩ := hbody.reads
      rw [hreq] at hmade
      cases hmade

/-! ### Requests that come one by one -/

/-- The lengths of the reads that bring a request: its header, and its body if there is one. -/
def Message.reads (m : Message env) : List ℕ :=
  if m.body = [] then [m.head.length] else [m.head.length, m.body.length]

/-- A read into the buffer. -/
theorem Mid.step_into {chunk : Bytes} (h : Mid used rest live c) (hne : chunk ≠ [])
    (hpart : ∃ tail, stream rest = live ++ chunk ++ tail) (hfits : live.length + chunk.length ≤ 8191) :
    ∃ hroom, step (used ++ rest) c chunk.length =
      some (loop env { c with buf := recvBuf c.buf chunk hroom, got := c.got + chunk.length }) := by
  obtain ⟨tail, htail, hahead⟩ := h.ahead
  obtain ⟨tail', hpart⟩ := hpart
  have hroom : c.buf.bcnt + chunk.length ≤ 8191 := by
    rw [h.buffer.2]
    exact hfits
  have htails : tail = chunk ++ tail' := by
    rw [htail, List.append_assoc] at hpart
    exact List.append_cancel_left hpart
  have hchunk : ((stream (used ++ rest)).drop c.got).take chunk.length = chunk := by
    rw [hahead, htails, List.take_left]
  have hlong : ¬ (stream (used ++ rest)).length < c.got + chunk.length := by
    rw [h.got, stream_append, htail, htails, List.length_append, List.length_append, List.length_append]
    omega
  refine ⟨hroom, ?_⟩
  unfold step conHttpRead
  rw [if_neg hlong, hchunk, if_neg (not_or.mpr ⟨not_not.mpr h.life, hne⟩), h.req]
  dsimp only
  rw [dif_pos hroom]

theorem Message.head_ne_nil (m : Message env) : m.head ≠ [] := by
  intro hnil
  have hfour := m.four_le
  rw [hnil] at hfour
  exact absurd hfour (by decide)

theorem InBody.step_body {m : Message env} {tail : List (Message env)} (h : InBody used m m.head.length c)
    (hbody : m.body ≠ []) : ∃ c', step (used ++ m :: tail) c m.body.length = some c' := by
  obtain ⟨r, hreq, ⟨hook, bcnt, -, hreq'⟩, -, hcnt⟩ := h.reads
  have hmlen := m.req_mlen bcnt hook
  have hlen := m.length_bytes
  have hchunk : ((stream (used ++ m :: tail)).drop c.got).take m.body.length = m.body := by
    rw [h.ahead, Message.bytes, List.drop_left, List.take_left]
  have hlong : ¬ (stream (used ++ m :: tail)).length < c.got + m.body.length := by
    rw [h.got, stream_append, stream, List.length_append, List.length_append]
    omega
  have hroom : (r.bcnt + m.body.length : ℤ) ≤ r.req.mlen := by
    rw [hreq', hmlen, hcnt, hlen]
    push_cast
    rfl
  unfold step conHttpRead
  rw [if_neg hlong, hchunk, if_neg (not_or.mpr ⟨not_not.mpr h.life, hbody⟩), hreq]
  dsimp only
  rw [dif_pos hroom]
  exact ⟨_, rfl⟩

theorem runs_messages (used rest : List (Message env)) {c : HttpCon} (h : Mid used rest [] c) :
    ∃ c', runs (step (used ++ rest)) c (rest.flatMap Message.reads) = some c' ∧ Mid (used ++ rest) [] [] c' := by
  induction rest generalizing used c with
  | nil => exact ⟨c, rfl, by rwa [List.append_nil]⟩
  | cons m rest ih =>
    have hpart : ∃ tail, stream (m :: rest) = [] ++ m.head ++ tail :=
      ⟨m.body ++ stream rest, by rw [List.nil_append, stream, Message.bytes, List.append_assoc]⟩
    obtain ⟨hroom, hstep⟩ := h.step_into m.head_ne_nil hpart (by rw [List.length_nil, Nat.zero_add]; exact m.fits)
    have hthere := h.recv hpart hroom
    rw [List.nil_append] at hthere
    rw [List.flatMap_cons, Message.reads]
    by_cases hbody : m.body = []
    · have hall : m.bytes = m.head := by rw [Message.bytes, hbody, List.append_nil]
      obtain ⟨c', hruns, hend⟩ := ih (used ++ [m]) (hthere.last hall.symm).1
      rw [← List.append_cons] at hruns hend
      refine ⟨c', ?_, hend⟩
      rw [if_pos hbody]
      show (step _ c _).bind _ = _
      rw [hstep, Option.bind_some]
      exact hruns
    · have hmade := hthere.body (a := m.body) rfl hbody (Nat.le_refl _)
      obtain ⟨c₂, hstep₂⟩ : ∃ c₂, step (used ++ m :: rest) _ m.body.length = some c₂ := hmade.step_body hbody
      have hmid : Mid (used ++ [m]) rest [] c₂ := by
        have hlen := m.length_bytes
        rcases hmade.read hstep₂ with hmore | ⟨-, hmid⟩
        · have := hmore.lt
          omega
        · exact hmid
      obtain ⟨c', hruns, hend⟩ := ih (used ++ [m]) hmid
      rw [← List.append_cons] at hruns hend
      refine ⟨c', ?_, hend⟩
      rw [if_neg hbody]
      show (step _ c _).bind _ = _
      rw [hstep, Option.bind_some]
      show (step _ _ _).bind _ = _
      rw [hstep₂, Option.bind_some]
      exact hruns

/-- A blank line behind some bytes is found. -/
theorem strstr_found {a b x : Bytes} (ha : 0 ∉ a) (hb : (find (crlf ++ crlf) b).isSome) (hzero : 0 ∉ b) :
    strstr (a ++ (b ++ x)) (crlf ++ crlf) ≠ none := by
  intro hnone
  unfold strstr at hnone
  rw [cstr_append ha, cstr_append hzero] at hnone
  obtain ⟨i, hi⟩ := Option.isSome_iff_exists.mp hb
  obtain ⟨hle, hpre, -⟩ := find_eq_some_iff.mp hi
  refine find_eq_none_iff.mp hnone (a.length + i) ?_ ?_
  · rw [List.length_append, List.length_append]
    omega
  · rw [← List.drop_drop, List.drop_left, List.drop_append_of_le_length hle]
    exact hpre.trans (List.prefix_append _ _)

/-- **A header that is cut where the request before it was longer is not waited for**, if that request had no
body. -/
theorem shorter_part_not_served (m₁ m₂ : Message env) {k : ℕ} (hbody : m₁.body = []) (hpos : 0 < k)
    (hshort : k < m₂.head.length) (hlong : k + 4 ≤ m₁.head.length) :
    ¬ Always (step [m₁, m₂]) (Served [m₁, m₂]) init [m₁.head.length, k] := by
  have hall : m₁.bytes = m₁.head := by rw [Message.bytes, hbody, List.append_nil]
  have hlen : (m₂.head.take k).length = k := by
    rw [List.length_take]
    omega
  have hne : m₂.head.take k ≠ [] := fun hnil => by rw [hnil, List.length_nil] at hlen; omega
  -- the first request is read, and its bytes stay in the buffer
  have hpart₁ : ∃ tail, stream [m₁, m₂] = [] ++ m₁.head ++ tail := ⟨stream [m₂], by rw [stream, hall]; rfl⟩
  obtain ⟨hroom₁, hstep₁⟩ := (mid_init [m₁, m₂]).step_into m₁.head_ne_nil hpart₁ (by
    rw [List.length_nil, Nat.zero_add]
    exact m₁.fits)
  obtain ⟨hmid₁, hbuf₁⟩ := ((mid_init [m₁, m₂]).recv hpart₁ hroom₁).last hall.symm
  generalize loop env _ = c₁ at hstep₁ hmid₁ hbuf₁
  -- a part of the second one is read in front of them
  have hpart₂ : ∃ tail, stream [m₂] = [] ++ m₂.head.take k ++ tail :=
    ⟨m₂.head.drop k ++ m₂.body ++ [], by
      rw [List.nil_append, ← List.append_assoc, ← List.append_assoc, List.take_append_drop]
      rfl⟩
  have hfits := m₂.fits
  obtain ⟨hroom₂, hstep₂⟩ := hmid₁.step_into hne hpart₂ (by rw [List.length_nil, hlen]; omega)
  have hmid₂ := hmid₁.recv hpart₂ hroom₂
  have hmem : (recvBuf c₁.buf (m₂.head.take k) hroom₂).mem = m₂.head.take k ++
      (m₁.head.drop k ++ (init : HttpCon).buf.mem.drop m₁.head.length) := by
    show c₁.buf.mem.take c₁.buf.bcnt ++ _ ++ c₁.buf.mem.drop (c₁.buf.bcnt + _) = _
    rw [hbuf₁, hlen]
    show ((recvBuf init.buf m₁.head hroom₁).mem.set 0 0).take 0 ++ _ ++
      ((recvBuf init.buf m₁.head hroom₁).mem.set 0 0).drop (0 + k) = _
    rw [List.take_zero, List.nil_append, Nat.zero_add, List.drop_set_of_lt hpos]
    show _ ++ ((init.buf.mem.take 0 ++ m₁.head) ++ init.buf.mem.drop (0 + m₁.head.length)).drop k = _
    rw [List.take_zero, List.nil_append, Nat.zero_add, List.drop_append_of_le_length (by omega)]
  have hfind : (find (crlf ++ crlf) (m₁.head.drop k)).isSome := by
    obtain ⟨t, ht, -⟩ := m₁.whole.blank_line
    rw [ht, List.length_append] at hlong
    by_contra hnone
    refine find_eq_none_iff.mp (Option.not_isSome_iff_eq_none.mp hnone) (t.length - k) ?_ ?_
    · rw [ht, List.length_drop, List.length_append]
      omega
    · have hfour : (crlf ++ crlf).length = 4 := rfl
      rw [ht, List.drop_drop, Nat.add_sub_cancel' (by omega), List.drop_left]
  have hfound : strstr (recvBuf c₁.buf (m₂.head.take k) hroom₂).mem (crlf ++ crlf) ≠ none := by
    rw [hmem]
    exact strstr_found (fun h => m₂.whole.zero_not_mem (List.mem_of_mem_take h)) hfind
      fun h => m₁.whole.zero_not_mem (List.mem_of_mem_drop h)
  have hwait : ∀ m ∈ [m₂].head?, ([] ++ m₂.head.take k).length < m.head.length := by
    rintro m ⟨⟩
    rw [List.nil_append, hlen]
    exact hshort
  rw [← hlen]
  intro hserved
  have hnext := ((always_cons hstep₁).mp hserved).2
  exact hmid₂.early hwait m₂.memory.1 hfound ((always_cons hstep₂).mp hnext).2

/-- `GET /a?b HTTP/1.1`, without header fields. -/
theorem getText_head : Head getText where
  zero_not_mem := by decide
  blank_line := ⟨bytes "GET /a?b HTTP/1.1", by decide, by decide⟩
  method := by decide
  target := by decide
  length := by
    intro v hv
    rw [show conHeaderValue getText (headerEnd getText) (bytes "Content-Length") = none by decide] at hv
    cases hv

def getMessage : Message openEnv where
  head := getText
  body := []
  method := .get
  hook := some ⟨.all, bytes "/**", false, false⟩
  whole := getText_head
  fits := getText_length
  short := by decide
  known := by decide
  length := by rfl
  routed := by rfl
  memory := ⟨rfl, rfl⟩
  stays := by decide

/-- The request is sent twice, and the second time its first five bytes come first. -/
theorem five_bytes_not_served : getMessage.body = [] ∧ 0 < 5 ∧ 5 < getMessage.head.length ∧ 5 + 4 ≤ getMessage.head.length ∧
    ¬ Always (step [getMessage, getMessage]) (Served [getMessage, getMessage]) init [getMessage.head.length, 5] :=
  ⟨rfl, by decide, by decide, by decide, shorter_part_not_served getMessage getMessage rfl (by decide) (by decide) (by decide)⟩

/-- Both come in one piece. -/
theorem two_requests_served : Always (step [getMessage, getMessage]) (Served [getMessage, getMessage]) init [42] := by
  refine served_off_heads [getMessage, getMessage] [42] ?_
  have hoff : OffHeads [getMessage, getMessage] 42 := by
    rw [OffHeads, if_pos (by decide), OffHeads, if_neg (by decide)]
    decide
  unfold Along
  split
  · trivial
  · exact ⟨hoff, trivial⟩

end HttpStream

end Agoo
