import Agoo.Upgrade

/-!
# Frames in place (`con_ws_write`, `con_sse_write`)

One push connection with the texts at their addresses. A message becomes its frame in place when the
first of it is sent; where the text has no room for the frame it is reallocated, and the block may be
moved, but the response keeps the old address. `EAGAIN` drops the response that was popped.

`frames_iff`: each message leaves as one frame, in order, exactly in the runs without `EAGAIN` in which no
block is moved.
-/

namespace Agoo

namespace PushFrames

/-! ## Texts (`text.c`) -/

/-- `struct _agooText`; `len` is the length of `text`. -/
structure Text where
  text : Bytes
  alen : ℕ
  bin : Bool
  deriving DecidableEq

namespace Text

variable (t : Text)

/-- It has no room for `n` more bytes. -/
def Full (n : ℕ) : Prop := t.alen ≤ t.text.length + n

instance (n : ℕ) : Decidable (t.Full n) := inferInstanceAs (Decidable (_ ≤ _))

/-- Texts of writes and publishes are allocated with 32 bytes to spare. -/
def Roomy : Prop := t.text.length + 32 ≤ t.alen

/-- `alen` with `n` more bytes in it. -/
def grown (n : ℕ) : ℕ := if t.Full n then t.alen + n + t.alen / 2 else t.alen

/-- `agoo_text_prepend`. -/
def prepend (s : Bytes) : Text := { t with text := s ++ t.text, alen := t.grown s.length }

/-- `agoo_text_append`. -/
def append (s : Bytes) : Text := { t with text := t.text ++ s, alen := t.grown s.length }

end Text

/-- What is at each address; none where nothing is allocated. -/
abbrev Heap := ℕ → Option Text

/-- `realloc` of the block at `a` when it is full: it stays, or comes to a free address. -/
def moved (m : Heap) (a : ℕ) (full : Bool) : Option ℕ → Option ℕ
  | none => some a
  | some b => if full = false then some a else if m b = none then some b else none

/-- The text `t`, which was at `a`, is at `b` now. -/
def put (m : Heap) (a b : ℕ) (t : Text) : Heap := Function.update (Function.update m a none) b (some t)

/-- `agoo_text_prepend` of the text at `a`, and its address. -/
def prependAt (m : Heap) (a : ℕ) (s : Bytes) (new : Option ℕ) : Option (Heap × ℕ) :=
  (m a).bind fun t => (moved m a (t.Full s.length) new).map fun b => (put m a b (t.prepend s), b)

/-- `agoo_text_append` to the text at `a`, and its address. -/
def appendAt (m : Heap) (a : ℕ) (s : Bytes) (new : Option ℕ) : Option (Heap × ℕ) :=
  (m a).bind fun t => (moved m a (t.Full s.length) new).map fun b => (put m a b (t.append s), b)

/-- The header that `agoo_ws_expand` prepends. -/
def wsHeader (t : Text) : Bytes :=
  (0x80 ||| (if t.bin then WsOp.bin else WsOp.text).code) :: wsExpand.lengthField t.text

def ssePrefix : Bytes := bytes "event: msg\ndata: "

def sseSuffix : Bytes := bytes "\n\n"

/-- `agoo_ws_expand`. -/
def expandWs (m : Heap) (a : ℕ) (new : Option ℕ) : Option (Heap × ℕ) :=
  (m a).bind fun t => prependAt m a (wsHeader t) new

/-- `agoo_sse_expand`. -/
def expandSse (m : Heap) (a : ℕ) (new new' : Option ℕ) : Option (Heap × ℕ) :=
  (prependAt m a ssePrefix new).bind fun p => appendAt p.1 p.2 sseSuffix new'

/-! ## The connection -/

/-- A response; `num` counts the messages. -/
structure PushRes where
  /-- The addresses of its texts. -/
  message : List ℕ
  final : Bool
  num : ℕ

/-- `agoo_res_message_push`, with the address of a text. -/
def PushRes.messagePush (r : PushRes) (a : ℕ) : PushRes :=
  if r.final then r else { r with message := r.message ++ [a], final := true }

/-- A push connection; `msgs` are the messages as they were appended, `done` those sent to the end. -/
structure PushCon where
  sse : Bool
  texts : Heap
  queue : List PushRes
  wcnt : ℕ
  out : Bytes
  /-- A text was read that is no longer there. -/
  fault : Bool
  cnt : ℕ
  msgs : ℕ → Text
  done : List ℕ

/-- What `send` returned. -/
inductive Sent
  | bytes (n : ℕ) | again

inductive PushAct
  /-- A message at a free address: `AGOO_PUB_WRITE`, `publish_pub`, `agoo_server_gpublish`. -/
  | append (a : ℕ) (t : Text)
  /-- A write, with the places to which full blocks are moved. -/
  | write (r : Sent) (new new' : Option ℕ)

namespace PushCon

def init (sse : Bool) : PushCon := ⟨sse, fun _ => none, [], 0, [], false, 0, fun _ => ⟨[], 0, false⟩, []⟩

/-- The frame, or the event, of message `i`. -/
def frame (c : PushCon) (i : ℕ) : Bytes :=
  if c.sse then sseExpand (c.msgs i).text else wsExpand (c.msgs i).bin (c.msgs i).text

/-- The text at `a` is framed when nothing of it was sent. -/
def expand (c : PushCon) (a : ℕ) (new new' : Option ℕ) : Option (Heap × ℕ) :=
  if c.wcnt = 0 then if c.sse then expandSse c.texts a new new' else expandWs c.texts a new
  else some (c.texts, a)

/-- The end of a write that has sent its message: `agoo_res_message_next`, which reads the text at the
response's address; then the response is destroyed, or put back when it is still open. -/
def finish (c : PushCon) (r : PushRes) (a : ℕ) (queue : List PushRes) : PushCon :=
  if (c.texts a).isNone then { c with queue := queue, fault := true }
  else
    let rest := { r with message := r.message.tail }
    { c with
      texts := Function.update c.texts a none
      wcnt := 0
      queue := if rest.message = [] ∧ (c.sse ∨ r.final) then queue else resPrepend queue rest
      done := c.done ++ [r.num] }

/-- `send` took `n` bytes of the text. -/
def took (c : PushCon) (t : Text) (n : ℕ) : PushCon :=
  { c with wcnt := c.wcnt + n, out := c.out ++ (t.text.drop c.wcnt).take n }

/-- `con_ws_write` and `con_sse_write` on the response `r` that was popped, whose text was at `a` and is
now at `b`. -/
def send (c : PushCon) (r : PushRes) (a b : ℕ) (queue : List PushRes) : Sent → Option PushCon
  | .again => some { c with queue := queue }
  | .bytes n =>
    (c.texts b).bind fun t =>
      if n = 0 ∨ t.text.length < c.wcnt + n then none
      else if c.wcnt + n = t.text.length then some ((c.took t n).finish r a queue)
      else some { c.took t n with queue := resPrepend queue r }

/-- A response with the text `t`, at address `a`. -/
def append (c : PushCon) (a : ℕ) (t : Text) : PushCon :=
  { c with
    texts := Function.update c.texts a (some t)
    queue := resAppend c.queue (PushRes.messagePush ⟨[], false, c.cnt⟩ a)
    cnt := c.cnt + 1
    msgs := Function.update c.msgs c.cnt t }

def step (c : PushCon) : PushAct → Option PushCon
  | .append a t => if c.texts a = none then some (c.append a t) else none
  | .write res new new' =>
    (resPop c.queue).bind fun p =>
      p.1.message.head?.bind fun a =>
        (c.expand a new new').bind fun q =>
          let r := if q.2 = a then p.1 else p.1.messagePush q.2
          { c with texts := q.1 }.send r a q.2 p.2 res

/-! ## The law -/

/-- The bytes sent are a prefix of the frames in order, no message is skipped or sent twice, and what is
being sent is the text that the response refers to. -/
structure InOrder (c : PushCon) : Prop where
  sent : c.out <+: ((List.range c.cnt).map c.frame).flatten
  kept : c.done ++ c.queue.map (·.num) = List.range c.cnt
  refers : 0 < c.wcnt → ∀ r ∈ c.queue.head?, ∃ a t, r.message.head? = some a ∧ c.texts a = some t ∧
    t.text = c.frame r.num
  fault : c.fault = false

/-- `send` takes something, and the text that is framed stays where it is. -/
def Undisturbed (c : PushCon) : PushAct → Prop
  | .append _ _ => True
  | .write .again _ _ => False
  | .write (.bytes _) new new' =>
    ∀ r ∈ c.queue.head?, ∀ a ∈ r.message.head?, ∀ q ∈ c.expand a new new', q.2 = a

/-- Every text has room, and `send` takes something. -/
def RoomyAct (_ : PushCon) : PushAct → Prop
  | .append _ t => t.Roomy
  | .write .again _ _ => False
  | .write (.bytes _) _ _ => True

end PushCon

/-! ## Where a text is after it was framed -/

/-- The text that was at `a` is at `b` now, as `t`, and nothing else has changed. -/
structure Lands (m m' : Heap) (a b : ℕ) (t : Text) : Prop where
  here : m' b = some t
  other : ∀ x, x ≠ a → x ≠ b → m' x = m x
  freed : b ≠ a → m' a = none ∧ m b = none

theorem Lands.refl {m : Heap} {a : ℕ} {t : Text} (h : m a = some t) : Lands m m a a t :=
  ⟨h, fun _ _ _ => rfl, fun hne => absurd rfl hne⟩

theorem Lands.trans {m m' m'' : Heap} {a b d : ℕ} {t t' : Text} (h : Lands m m' a b t)
    (h' : Lands m' m'' b d t') : Lands m m'' a d t' where
  here := h'.here
  other x ha hd := by
    by_cases hb : x = b
    · subst hb
      rw [(h'.freed hd.symm).1, (h.freed ha).2]
    · rw [h'.other x hb hd, h.other x ha hb]
  freed hda := by
    by_cases hba : b = a
    · subst hba
      obtain ⟨hgone, hnew⟩ := h'.freed hda
      exact ⟨hgone, (h.other d hda hda).symm.trans hnew⟩
    · obtain ⟨hgone, hnew⟩ := h.freed hba
      by_cases hdb : d = b
      · subst hdb
        exact ⟨(h'.other a (Ne.symm hda) (Ne.symm hda)).trans hgone, hnew⟩
      · obtain ⟨hgone', hnew'⟩ := h'.freed hdb
        exact ⟨(h'.other a (Ne.symm hba) (Ne.symm hda)).trans hgone, (h.other d hda hdb).symm.trans hnew'⟩

theorem lands_put {m : Heap} {a b : ℕ} {full : Bool} {new : Option ℕ} (h : moved m a full new = some b)
    (t : Text) : Lands m (put m a b t) a b t where
  here := Function.update_self ..
  other x ha hb := by rw [put, Function.update_of_ne hb, Function.update_of_ne ha]
  freed hba := by
    refine ⟨by rw [put, Function.update_of_ne (Ne.symm hba), Function.update_self], ?_⟩
    unfold moved at h
    split at h
    · exact absurd (Option.some.inj h).symm hba
    · split_ifs at h with hfull hfree
      · exact absurd (Option.some.inj h).symm hba
      · obtain rfl := Option.some.inj h
        exact hfree

theorem lands_prependAt {m : Heap} {a : ℕ} {t : Text} (ht : m a = some t) {s : Bytes} {new : Option ℕ}
    {q : Heap × ℕ} (h : prependAt m a s new = some q) : Lands m q.1 a q.2 (t.prepend s) := by
  unfold prependAt at h
  rw [ht] at h
  obtain ⟨b, hb, rfl⟩ := Option.map_eq_some_iff.mp h
  exact lands_put hb _

theorem lands_appendAt {m : Heap} {a : ℕ} {t : Text} (ht : m a = some t) {s : Bytes} {new : Option ℕ}
    {q : Heap × ℕ} (h : appendAt m a s new = some q) : Lands m q.1 a q.2 (t.append s) := by
  unfold appendAt at h
  rw [ht] at h
  obtain ⟨b, hb, rfl⟩ := Option.map_eq_some_iff.mp h
  exact lands_put hb _

namespace PushCon

variable {c c' : PushCon}

/-- The frame of a text where it was framed at once. -/
theorem lands_expand {a : ℕ} {t : Text} (ht : c.texts a = some t) (hw : c.wcnt = 0) {new new' : Option ℕ}
    {q : Heap × ℕ} (h : c.expand a new new' = some q) :
    ∃ t', Lands c.texts q.1 a q.2 t' ∧
      t'.text = if c.sse then sseExpand t.text else wsExpand t.bin t.text := by
  unfold expand at h
  rw [if_pos hw] at h
  cases hsse : c.sse with
  | true =>
    rw [hsse, if_pos rfl] at h
    obtain ⟨p, hp, hq⟩ := Option.bind_eq_some_iff.mp h
    have hfirst := lands_prependAt ht hp
    have hsecond := lands_appendAt hfirst.here hq
    exact ⟨_, hfirst.trans hsecond, rfl⟩
  | false =>
    rw [hsse, if_neg (by decide)] at h
    unfold expandWs at h
    rw [ht] at h
    exact ⟨_, lands_prependAt ht h, rfl⟩

theorem frame_pos (c : PushCon) (i : ℕ) : 0 < (c.frame i).length := by
  unfold frame
  split
  · rw [sseExpand, List.length_append, List.length_append]
    have hprefix : (bytes "event: msg\ndata: ").length = 17 := by decide
    omega
  · exact Nat.succ_pos _

/-! ## The invariant -/

/-- The response refers to the text of its message, or to its frame. -/
def Holds (c : PushCon) (framed : Bool) (r : PushRes) : Prop :=
  ∃ a t, r.message = [a] ∧ r.final = true ∧ c.texts a = some t ∧
    if framed then t.text = c.frame r.num else t = c.msgs r.num

/-- Only the head is framed, and when something of it was sent. -/
def Stored (c : PushCon) : List PushRes → Prop
  | [] => c.wcnt = 0
  | r :: rest =>
    c.Holds (decide (0 < c.wcnt)) r ∧ c.wcnt < (c.frame r.num).length ∧ ∀ r' ∈ rest, c.Holds false r'

/-- What was sent of the head. -/
def current (c : PushCon) : Bytes :=
  match c.queue with
  | [] => []
  | r :: _ => (c.frame r.num).take c.wcnt

structure Inv (c : PushCon) : Prop where
  stored : c.Stored c.queue
  apart : (c.queue.flatMap (·.message)).Nodup
  kept : c.done ++ c.queue.map (·.num) = List.range c.cnt
  out : c.out = (c.done.map c.frame).flatten ++ c.current
  fault : c.fault = false

theorem inv_init (sse : Bool) : (init sse).Inv := ⟨rfl, List.nodup_nil, rfl, rfl, rfl⟩

theorem Inv.inOrder (h : c.Inv) : c.InOrder where
  sent := by
    rw [← h.kept, List.map_append, List.flatten_append, h.out]
    refine List.prefix_append_right_inj _ |>.mpr ?_
    unfold current
    cases c.queue with
    | nil => exact List.nil_prefix
    | cons r rest =>
      rw [List.map_cons, List.map_cons, List.flatten_cons]
      exact (List.take_prefix _ _).trans (List.prefix_append _ _)
  kept := h.kept
  refers hw r hr := by
    obtain ⟨rest, hq⟩ := List.head?_eq_some_iff.mp hr
    have hstored := h.stored
    rw [hq] at hstored
    obtain ⟨a, t, hmessage, -, ht, hframe⟩ := hstored.1
    rw [decide_eq_true hw, if_pos rfl] at hframe
    exact ⟨a, t, by rw [hmessage]; rfl, ht, hframe⟩
  fault := h.fault

theorem Holds.keep {framed : Bool} {r : PushRes} (h : c.Holds framed r) (hframe : c'.frame r.num = c.frame r.num)
    (hmsg : c'.msgs r.num = c.msgs r.num) (htexts : ∀ a ∈ r.message, ∀ t, c.texts a = some t → c'.texts a = some t) :
    c'.Holds framed r := by
  obtain ⟨a, t, hmessage, hfinal, ht, htext⟩ := h
  refine ⟨a, t, hmessage, hfinal, htexts a (by rw [hmessage]; exact List.mem_singleton_self a) t ht, ?_⟩
  rw [hframe, hmsg]
  exact htext

theorem Inv.num_lt (h : c.Inv) {i : ℕ} (hi : i ∈ c.done ∨ ∃ r ∈ c.queue, r.num = i) : i < c.cnt := by
  have hmem : i ∈ c.done ++ c.queue.map (·.num) := by
    rcases hi with hi | ⟨r, hr, rfl⟩
    · exact List.mem_append_left _ hi
    · exact List.mem_append_right _ (List.mem_map_of_mem hr)
  exact List.mem_range.mp (h.kept ▸ hmem)

theorem Inv.holds (h : c.Inv) {r : PushRes} (hr : r ∈ c.queue) : ∃ framed, c.Holds framed r := by
  have hstored := h.stored
  cases hq : c.queue with
  | nil =>
    rw [hq] at hr
    cases hr
  | cons r' rest =>
    rw [hq] at hr hstored
    rcases List.mem_cons.mp hr with rfl | hr
    · exact ⟨_, hstored.1⟩
    · exact ⟨_, hstored.2.2 r hr⟩

theorem append_msgs (a : ℕ) (t : Text) {i : ℕ} (hi : i < c.cnt) : (c.append a t).msgs i = c.msgs i :=
  Function.update_of_ne hi.ne _ _

theorem append_frame (a : ℕ) (t : Text) {i : ℕ} (hi : i < c.cnt) : (c.append a t).frame i = c.frame i := by
  unfold frame
  rw [append_msgs a t hi]
  rfl

theorem append_queue (a : ℕ) (t : Text) : (c.append a t).queue = c.queue ++ [⟨[a], true, c.cnt⟩] := rfl

/-- The new response, and those before it. -/
theorem Inv.append_holds (h : c.Inv) {a : ℕ} (t : Text) (hfree : c.texts a = none) :
    (c.append a t).Holds false ⟨[a], true, c.cnt⟩ ∧
      ∀ framed, ∀ r ∈ c.queue, c.Holds framed r → (c.append a t).Holds framed r := by
  refine ⟨⟨a, t, rfl, rfl, Function.update_self .., ?_⟩, fun framed r hr hholds => ?_⟩
  · show t = Function.update c.msgs c.cnt t c.cnt
    rw [Function.update_self]
  · have hlt := h.num_lt (Or.inr ⟨r, hr, rfl⟩)
    refine hholds.keep (append_frame a t hlt) (append_msgs a t hlt) fun x _ u hx => ?_
    have hne : x ≠ a := by
      rintro rfl
      rw [hfree] at hx
      cases hx
    exact (Function.update_of_ne hne _ _).trans hx

/-- A message is appended. -/
theorem Inv.append (h : c.Inv) {a : ℕ} {t : Text} (hfree : c.texts a = none) : (c.append a t).Inv := by
  obtain ⟨hnew, hkeep⟩ := h.append_holds t hfree
  have hstored := h.stored
  refine ⟨?_, ?_, ?_, ?_, h.fault⟩
  · rw [append_queue]
    cases hq : c.queue with
    | nil =>
      rw [hq] at hstored
      have hw : c.wcnt = 0 := hstored
      refine ⟨?_, ?_, fun r hr => by cases hr⟩
      · show Holds _ (decide (0 < c.wcnt)) _
        rw [hw]
        exact hnew
      · show c.wcnt < _
        rw [hw]
        exact frame_pos _ _
    | cons r rest =>
      rw [hq] at hstored
      obtain ⟨hhead, hlt, hrest⟩ := hstored
      have hmem : ∀ {r'}, r' ∈ r :: rest → r' ∈ c.queue := fun hr => hq ▸ hr
      refine ⟨hkeep _ r (hmem List.mem_cons_self) hhead, ?_, fun r' hr' => ?_⟩
      · rw [append_frame a t (h.num_lt (Or.inr ⟨r, hmem List.mem_cons_self, rfl⟩))]
        exact hlt
      · rcases List.mem_append.mp hr' with hr' | hr'
        · exact hkeep _ r' (hmem (List.mem_cons_of_mem _ hr')) (hrest r' hr')
        · obtain rfl := List.mem_singleton.mp hr'
          exact hnew
  · rw [append_queue, List.flatMap_append, List.nodup_append]
    refine ⟨h.apart, List.pairwise_singleton _ _, fun x hx y hy => ?_⟩
    obtain rfl := List.mem_singleton.mp hy
    rintro rfl
    obtain ⟨r, hr, hx⟩ := List.mem_flatMap.mp hx
    obtain ⟨framed, b, u, hmessage, -, hb, -⟩ := h.holds hr
    rw [hmessage] at hx
    obtain rfl := List.mem_singleton.mp hx
    rw [hfree] at hb
    cases hb
  · show c.done ++ (c.append a t).queue.map (·.num) = List.range (c.cnt + 1)
    rw [append_queue, List.map_append, ← List.append_assoc, h.kept, List.range_succ]
    rfl
  · have hdone : c.done.map (c.append a t).frame = c.done.map c.frame :=
      List.map_congr_left fun i hi => append_frame a t (h.num_lt (Or.inl hi))
    have hcurrent : (c.append a t).current = c.current := by
      unfold current
      rw [append_queue]
      cases hq : c.queue with
      | nil =>
        rw [hq] at hstored
        have hw : (c.append a t).wcnt = 0 := hstored
        show ((c.append a t).frame c.cnt).take (c.append a t).wcnt = []
        rw [hw, List.take_zero]
      | cons r rest =>
        have hr : r ∈ c.queue := hq ▸ List.mem_cons_self
        show ((c.append a t).frame r.num).take c.wcnt = _
        rw [append_frame a t (h.num_lt (Or.inr ⟨r, hr, rfl⟩))]
    show c.out = (c.done.map (c.append a t).frame).flatten ++ (c.append a t).current
    rw [hdone, hcurrent]
    exact h.out

/-! ## Writes -/

/-- A write pops the head; its frame is somewhere. -/
theorem Inv.write_cases (h : c.Inv) {res : Sent} {new new' : Option ℕ}
    (hstep : c.step (.write res new new') = some c') :
    ∃ r rest a q t, c.queue = r :: rest ∧ r.message = [a] ∧ r.final = true ∧ c.expand a new new' = some q ∧
      Lands c.texts q.1 a q.2 t ∧ t.text = c.frame r.num ∧
      send { c with texts := q.1 } r a q.2 rest res = some c' := by
  obtain ⟨p, hp, hstep⟩ := Option.bind_eq_some_iff.mp hstep
  obtain ⟨a, ha, hstep⟩ := Option.bind_eq_some_iff.mp hstep
  obtain ⟨q, hq, hsend⟩ := Option.bind_eq_some_iff.mp hstep
  cases hqueue : c.queue with
  | nil =>
    rw [hqueue] at hp
    cases hp
  | cons r rest =>
    rw [hqueue] at hp
    obtain rfl := Option.some.inj hp
    have hstored := h.stored
    rw [hqueue] at hstored
    obtain ⟨a', t, hmessage, hfinal, ht, htext⟩ := hstored.1
    have ha : r.message.head? = some a := ha
    rw [hmessage] at ha
    obtain rfl := Option.some.inj ha
    have hpush : (if q.2 = a' then r else r.messagePush q.2) = r := by
      unfold PushRes.messagePush
      rw [if_pos hfinal, ite_self]
    dsimp only at hsend
    rw [hpush] at hsend
    by_cases hw : c.wcnt = 0
    · obtain ⟨t', hlands, ht'⟩ := lands_expand ht hw hq
      rw [hw, if_neg (by decide)] at htext
      refine ⟨r, rest, a', q, t', rfl, hmessage, hfinal, hq, hlands, ?_, hsend⟩
      rw [ht', htext]
      rfl
    · rw [decide_eq_true (Nat.pos_of_ne_zero hw), if_pos rfl] at htext
      have hsame : q = (c.texts, a') := by
        unfold expand at hq
        rw [if_neg hw] at hq
        exact (Option.some.inj hq).symm
      subst hsame
      exact ⟨r, rest, a', _, t, rfl, hmessage, hfinal, hq, Lands.refl ht, htext, hsend⟩

/-- The messages behind the head are where they were. -/
theorem Inv.behind (h : c.Inv) {r : PushRes} {rest : List PushRes} (hqueue : c.queue = r :: rest) {a : ℕ}
    (hmessage : r.message = [a]) {m : Heap} (hother : ∀ x, x ≠ a → m x = c.texts x) {c' : PushCon}
    (htexts : c'.texts = m) (hsse : c'.sse = c.sse) (hmsgs : c'.msgs = c.msgs) :
    ∀ r' ∈ rest, c'.Holds false r' := by
  intro r' hr'
  have hstored := h.stored
  have hapart := h.apart
  rw [hqueue] at hstored
  rw [hqueue, List.flatMap_cons, hmessage, List.singleton_append, List.nodup_cons] at hapart
  refine (hstored.2.2 r' hr').keep ?_ (by rw [hmsgs]) fun x hx u hu => ?_
  · unfold frame
    rw [hsse, hmsgs]
  · have hne : x ≠ a := by
      rintro rfl
      exact hapart.1 (List.mem_flatMap.mpr ⟨r', hr', hx⟩)
    rw [htexts, hother x hne]
    exact hu

theorem finish_eq {r : PushRes} {a : ℕ} {t : Text} (ht : c.texts a = some t) (hmessage : r.message = [a])
    (hfinal : r.final = true) (queue : List PushRes) : c.finish r a queue =
      { c with texts := Function.update c.texts a none, wcnt := 0, queue := queue, done := c.done ++ [r.num] } := by
  unfold finish
  rw [if_neg (by simp [ht])]
  simp [hmessage, hfinal]

theorem current_of_wcnt (h : c.wcnt = 0) : c.current = [] := by
  unfold current
  cases c.queue with
  | nil => rfl
  | cons r rest =>
    rw [h]
    exact List.take_zero

/-- The text that is sent stayed where it was. -/
theorem Inv.sent (h : c.Inv) {r : PushRes} {rest : List PushRes} (hqueue : c.queue = r :: rest) {a : ℕ}
    (hmessage : r.message = [a]) (hfinal : r.final = true) {m : Heap} {t : Text} (hlands : Lands c.texts m a a t)
    (ht : t.text = c.frame r.num) {n : ℕ} (hsend : send { c with texts := m } r a a rest (.bytes n) = some c') :
    c'.Inv := by
  have hother : ∀ x, x ≠ a → m x = c.texts x := fun x hx => hlands.other x hx hx
  have hapart := h.apart
  have hkept := h.kept
  have hout := h.out
  unfold current at hout
  rw [hqueue] at hapart hkept hout
  unfold send at hsend
  dsimp only at hsend
  rw [hlands.here, Option.bind_some, ht] at hsend
  split_ifs at hsend with hn hall
  · -- the message was sent to the end
    obtain rfl := Option.some.inj hsend
    rw [finish_eq hlands.here hmessage hfinal]
    refine ⟨?_, ?_, ?_, ?_, h.fault⟩
    · cases rest with
      | nil => rfl
      | cons r' rest =>
        have hgone : ∀ x, x ≠ a → Function.update m a none x = c.texts x := fun x hx =>
          (Function.update_of_ne hx _ _).trans (hother x hx)
        refine ⟨?_, frame_pos _ _, fun r'' hr'' => ?_⟩
        · exact h.behind hqueue hmessage hgone (by rfl) (by rfl) (by rfl) r' List.mem_cons_self
        · exact h.behind hqueue hmessage hgone (by rfl) (by rfl) (by rfl) r'' (List.mem_cons_of_mem _ hr'')
    · rw [List.flatMap_cons, List.nodup_append] at hapart
      exact hapart.2.1
    · show c.done ++ [r.num] ++ rest.map (·.num) = List.range c.cnt
      rw [List.append_assoc]
      exact hkept
    · rw [current_of_wcnt rfl, List.append_nil]
      show c.out ++ (t.text.drop c.wcnt).take n = ((c.done ++ [r.num]).map c.frame).flatten
      rw [hout, ht, List.map_append, List.flatten_append, List.append_assoc, ← List.take_add, hall,
        List.take_length, List.map_singleton, List.flatten_singleton]
  · -- a part of it is left
    obtain rfl := Option.some.inj hsend
    obtain ⟨hpos, hle⟩ := not_or.mp hn
    have hw : 0 < c.wcnt + n := by omega
    refine ⟨⟨⟨a, t, hmessage, hfinal, hlands.here, ?_⟩, ?_, ?_⟩, ?_, ?_, ?_, h.fault⟩
    · show if decide (0 < c.wcnt + n) then t.text = c.frame r.num else _
      rw [decide_eq_true hw, if_pos rfl]
      exact ht
    · show c.wcnt + n < (c.frame r.num).length
      omega
    · exact h.behind hqueue hmessage hother rfl rfl rfl
    · exact hapart
    · exact hkept
    · show c.out ++ (t.text.drop c.wcnt).take n = (c.done.map c.frame).flatten ++ (c.frame r.num).take (c.wcnt + n)
      rw [hout, ht, List.append_assoc, ← List.take_add]

theorem Inv.step (h : c.Inv) {a : PushAct} (hok : c.Undisturbed a) (hstep : c.step a = some c') : c'.Inv := by
  cases a with
  | append a t =>
    obtain ⟨hfree, hstep⟩ := Option.ite_none_right_eq_some.mp hstep
    obtain rfl := Option.some.inj hstep
    exact h.append hfree
  | write res new new' =>
    obtain ⟨r, rest, a, q, t, hqueue, hmessage, hfinal, hq, hlands, ht, hsend⟩ := h.write_cases hstep
    cases res with
    | again => exact hok.elim
    | bytes n =>
      have hsame : q.2 = a := hok r (by rw [hqueue]; rfl) a (by rw [hmessage]; rfl) q hq
      rw [hsame] at hlands hsend
      exact h.sent hqueue hmessage hfinal hlands ht hsend

/-- `EAGAIN` loses a message, and a response whose text was moved refers to nothing. -/
theorem Inv.not_inOrder (h : c.Inv) {a : PushAct} (hok : ¬ c.Undisturbed a) (hstep : c.step a = some c') :
    ¬ c'.InOrder := by
  cases a with
  | append a t => exact absurd trivial hok
  | write res new new' =>
    obtain ⟨r, rest, a, q, t, hqueue, hmessage, hfinal, hq, hlands, ht, hsend⟩ := h.write_cases hstep
    cases res with
    | again =>
      obtain rfl := Option.some.inj hsend
      intro horder
      have hkept := congrArg List.length h.kept
      have hlost := congrArg List.length horder.kept
      rw [hqueue] at hkept
      simp only [List.length_append, List.length_map, List.length_cons, List.length_range] at hkept hlost
      omega
    | bytes n =>
      have hmoved : q.2 ≠ a := by
        refine fun hsame => hok fun r' hr' a' ha' q' hq' => ?_
        rw [hqueue] at hr'
        obtain rfl := Option.some.inj hr'
        rw [hmessage] at ha'
        obtain rfl := Option.some.inj ha'
        obtain rfl := Option.some.inj (hq.symm.trans hq')
        exact hsame
      have hgone := (hlands.freed hmoved).1
      intro horder
      unfold send at hsend
      dsimp only at hsend
      rw [hlands.here, Option.bind_some] at hsend
      split_ifs at hsend with hn hall
      · obtain rfl := Option.some.inj hsend
        have hfault := horder.fault
        unfold finish at hfault
        rw [if_pos (by show (q.1 a).isNone = true; rw [hgone]; rfl)] at hfault
        cases hfault
      · obtain rfl := Option.some.inj hsend
        obtain ⟨hpos, -⟩ := not_or.mp hn
        have hw : 0 < c.wcnt + n := by omega
        obtain ⟨a', t', ha', ht', -⟩ := horder.refers hw r rfl
        rw [hmessage] at ha'
        obtain rfl := Option.some.inj ha'
        have ht' : q.1 a = some t' := ht'
        rw [hgone] at ht'
        cases ht'

/-- **Each message leaves as one frame and in order, and what is sent is the text that its response refers
to, exactly in the runs in which `send` always takes something and no text that is framed is moved.** -/
theorem frames_iff (sse : Bool) (acts : List PushAct) :
    Always PushCon.step InOrder (init sse) acts ↔ Along PushCon.step Undisturbed (init sse) acts :=
  always_iff_along Inv (fun _ _ _ h _ hok hstep => h.step hok hstep) (fun _ h => h.inOrder)
    (fun _ _ _ h _ hok hstep => h.not_inOrder hok hstep) (inv_init sse) (along_true _ _)

/-- A message that is not taken at once is lost. -/
theorem again_skips : ¬ ∀ sse acts, Always PushCon.step InOrder (init sse) acts := by
  intro h
  have hrun := h false [.append 0 ⟨bytes "one", 35, false⟩, .write .again none none]
  have hkept := hrun.2.2.kept
  revert hkept
  decide

/-! ## Room -/

theorem moved_of_not_full {m : Heap} {a b : ℕ} {new : Option ℕ} (h : moved m a false new = some b) : b = a := by
  cases new with
  | none => exact (Option.some.inj h).symm
  | some x => exact (Option.some.inj h).symm

theorem wsHeader_length (t : Text) : (wsHeader t).length ≤ 10 := by
  unfold wsHeader wsExpand.lengthField
  split_ifs <;> simp

/-- A text with room for its frame stays. -/
theorem expand_of_room {a : ℕ} {t : Text} (ht : c.texts a = some t) (hroom : t.Roomy) {new new' : Option ℕ}
    {q : Heap × ℕ} (h : c.expand a new new' = some q) : q.2 = a := by
  have hroom : t.text.length + 32 ≤ t.alen := hroom
  have hfull : ∀ n ≤ 31, ¬ t.Full n := by
    intro n hn
    unfold Text.Full
    omega
  unfold expand at h
  split_ifs at h with hw hsse
  · obtain ⟨p, hp, hq⟩ := Option.bind_eq_some_iff.mp h
    have hlands := lands_prependAt ht hp
    unfold prependAt at hp
    rw [ht, Option.bind_some, decide_eq_false (hfull _ (by decide))] at hp
    obtain ⟨b, hb, rfl⟩ := Option.map_eq_some_iff.mp hp
    obtain rfl := moved_of_not_full hb
    have hfull' : ¬ (t.prepend ssePrefix).Full sseSuffix.length := by
      have hprefix : ssePrefix.length = 17 := by decide
      have hsuffix : sseSuffix.length = 2 := by decide
      unfold Text.Full Text.prepend Text.grown
      rw [if_neg (hfull _ (by decide)), List.length_append, hprefix, hsuffix]
      dsimp only
      omega
    unfold appendAt at hq
    rw [hlands.here, Option.bind_some, decide_eq_false hfull'] at hq
    obtain ⟨b', hb', rfl⟩ := Option.map_eq_some_iff.mp hq
    exact moved_of_not_full hb'
  · unfold expandWs prependAt at h
    have hlen := wsHeader_length t
    rw [ht, Option.bind_some, Option.bind_some, decide_eq_false (hfull _ (by omega))] at h
    obtain ⟨b, hb, rfl⟩ := Option.map_eq_some_iff.mp h
    exact moved_of_not_full hb
  · rw [← Option.some.inj h]

/-- Where every text has room only `EAGAIN` matters. -/
theorem frames_of_room (sse : Bool) {acts : List PushAct} (h : Along PushCon.step RoomyAct (init sse) acts) :
    Always PushCon.step InOrder (init sse) acts := by
  refine (always_of_along (fun c => c.Inv ∧ ∀ i < c.cnt, (c.msgs i).Roomy) ?_
    ⟨inv_init sse, fun i hi => absurd hi (Nat.not_lt_zero i)⟩ h).mono fun _ hc => hc.1.inOrder
  rintro c a c' ⟨hinv, hroom⟩ hok hstep
  cases a with
  | append a t =>
    refine ⟨hinv.step (a := .append a t) trivial hstep, ?_⟩
    obtain ⟨-, hstep⟩ := Option.ite_none_right_eq_some.mp hstep
    obtain rfl := Option.some.inj hstep
    intro i hi
    rcases Nat.lt_succ_iff_lt_or_eq.mp hi with hlt | rfl
    · rw [append_msgs a t hlt]
      exact hroom i hlt
    · show (Function.update c.msgs c.cnt t c.cnt).Roomy
      rw [Function.update_self]
      exact hok
  | write res new new' =>
    cases res with
    | again => exact hok.elim
    | bytes n =>
      have hstays : c.Undisturbed (.write (.bytes n) new new') := by
        intro r hr a ha q hq
        obtain ⟨rest, hqueue⟩ := List.head?_eq_some_iff.mp hr
        have hstored := hinv.stored
        rw [hqueue] at hstored
        obtain ⟨a', t, hmessage, -, ht, htext⟩ := hstored.1
        rw [hmessage] at ha
        obtain rfl := Option.some.inj ha
        by_cases hw : c.wcnt = 0
        · rw [hw, if_neg (by decide)] at htext
          have hlt := hinv.num_lt (Or.inr ⟨r, by rw [hqueue]; exact List.mem_cons_self, rfl⟩)
          exact expand_of_room ht (htext ▸ hroom r.num hlt) hq
        · unfold expand at hq
          rw [if_neg hw] at hq
          rw [← Option.some.inj hq]
      refine ⟨hinv.step hstays hstep, ?_⟩
      obtain ⟨r, rest, a, q, t, -, -, -, -, hlands, -, hsend⟩ := hinv.write_cases hstep
      have hsame : c'.cnt = c.cnt ∧ c'.msgs = c.msgs := by
        unfold send at hsend
        dsimp only at hsend
        rw [hlands.here, Option.bind_some] at hsend
        split_ifs at hsend
        · obtain rfl := Option.some.inj hsend
          unfold finish
          split_ifs <;> exact ⟨rfl, rfl⟩
        · obtain rfl := Option.some.inj hsend
          exact ⟨rfl, rfl⟩
      rw [hsame.1, hsame.2]
      exact hroom

end PushCon

end PushFrames

end Agoo
