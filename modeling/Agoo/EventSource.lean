import Agoo.Bytes
import Agoo.Reader

/-!
# Event streams

`eventSource` reads an event stream as a browser does: a line ends with CR LF, LF or CR, a line `field: value` sets
the kind of the event or adds to its data, and an empty line ends the event.

`block_read_iff`: **an event that is written as two lines is read as it was exactly when its data is one line.**
-/

namespace Agoo

namespace EventStream

def lf : Byte := 10

def cr : Byte := 13

/-- What is dispatched. -/
structure Event where
  kind : Bytes
  data : Bytes
  deriving DecidableEq

/-- What a client has of an event: the line so far, whether the last byte was a CR, and the two buffers. -/
structure Client where
  line : Bytes
  wasCr : Bool
  kind : Bytes
  data : Bytes

/-- The name of the field in a line, and its value without one leading space. -/
def splitLine (line : Bytes) : Bytes × Bytes :=
  let name := line.takeWhile (· ≠ chr ':')
  let value := line.drop (name.length + 1)
  (name, if value.head? = some (chr ' ') then value.tail else value)

/-- A line that is not empty; fields that are not of an event are left out. -/
def Client.field (c : Client) : Client :=
  let p := splitLine c.line
  if p.1 = bytes "event" then { c with kind := p.2 }
  else if p.1 = bytes "data" then { c with data := c.data ++ p.2 ++ [lf] }
  else c

/-- The event, if there is data; the last line feed is dropped. -/
def Client.dispatch (c : Client) : Option Event :=
  if c.data = [] then none else some ⟨if c.kind = [] then bytes "message" else c.kind, c.data.dropLast⟩

/-- The end of a line. -/
def Client.endLine (c : Client) : Client × Option Event :=
  if c.line = [] then ({ c with kind := [], data := [] }, c.dispatch) else ({ c.field with line := [] }, none)

def Client.step (c : Client) (b : Byte) : Client × Option Event :=
  if b = lf then if c.wasCr then ({ c with wasCr := false }, none) else c.endLine
  else if b = cr then ({ c.endLine.1 with wasCr := true }, c.endLine.2)
  else ({ c with line := c.line ++ [b], wasCr := false }, none)

def eventSource : Reader Client Byte Event := ⟨⟨[], false, [], []⟩, Client.step⟩

@[simp] theorem eventSource_step (c : Client) (b : Byte) : eventSource.step c b = c.step b := rfl

/-- There is no end of a line in it. -/
def Unbroken (t : Bytes) : Prop := ∀ b ∈ t, b ≠ lf ∧ b ≠ cr

instance (t : Bytes) : Decidable (Unbroken t) := List.decidableBAll (fun b => b ≠ lf ∧ b ≠ cr) t

/-- An event in two lines, and an empty one. -/
def block (e : Event) : Bytes := bytes "event: " ++ e.kind ++ [lf] ++ (bytes "data: " ++ e.data ++ [lf]) ++ [lf]

variable {c : Client} {t : Bytes}

/-! ## Lines -/

theorem step_lf (hcr : c.wasCr = false) : c.step lf = c.endLine := by
  unfold Client.step
  rw [if_pos rfl, hcr, if_neg Bool.false_ne_true]

theorem step_cr (c : Client) : c.step cr = ({ c.endLine.1 with wasCr := true }, c.endLine.2) := by
  have hne : cr ≠ lf := by decide
  unfold Client.step
  rw [if_neg hne, if_pos rfl]

theorem endLine_of_ne (h : c.line ≠ []) : c.endLine = ({ c.field with line := [] }, none) := if_neg h

/-- A line feed where no line has begun. -/
theorem step_empty (hcr : c.wasCr = false) (hline : c.line = []) : c.step lf = (eventSource.start, c.dispatch) := by
  rw [step_lf hcr]
  unfold Client.endLine
  rw [if_pos hline, hcr, hline]
  rfl

/-- What is no end of a line is added to the line. -/
theorem after_unbroken (h : Unbroken t) (hcr : c.wasCr = false) :
    eventSource.after c t = { c with line := c.line ++ t } ∧ eventSource.given c t = [] := by
  induction t generalizing c with
  | nil => exact ⟨by rw [List.append_nil]; rfl, rfl⟩
  | cons b t ih =>
    obtain ⟨hlf, hcr'⟩ := h b List.mem_cons_self
    have hstep : eventSource.step c b = ({ c with line := c.line ++ [b] }, none) := by
      show c.step b = _
      unfold Client.step
      rw [if_neg hlf, if_neg hcr', hcr]
    obtain ⟨hafter, hgiven⟩ := ih (c := { c with line := c.line ++ [b] })
      (fun b' hb' => h b' (List.mem_cons_of_mem b hb')) hcr
    show eventSource.after (eventSource.step c b).1 t = _ ∧
      (eventSource.step c b).2.toList ++ eventSource.given (eventSource.step c b).1 t = []
    rw [hstep, hafter, hgiven, List.append_assoc]
    exact ⟨rfl, rfl⟩

/-- The name before the first colon, and a space behind it. -/
theorem splitLine_of {name : Bytes} (h : chr ':' ∉ name) (value : Bytes) :
    splitLine (name ++ chr ':' :: chr ' ' :: value) = (name, value) := by
  have hname : (name ++ chr ':' :: chr ' ' :: value).takeWhile (· ≠ chr ':') = name := by
    have hall : ∀ b ∈ name, decide (b ≠ chr ':') = true := fun b hb =>
      decide_eq_true (ne_of_mem_of_not_mem hb h)
    rw [List.takeWhile_append_of_pos hall, List.takeWhile_cons_of_neg (by simp), List.append_nil]
  unfold splitLine
  dsimp only
  rw [hname, ← List.drop_drop, List.drop_left, List.drop_one, List.tail_cons, List.head?_cons, if_pos rfl,
    List.tail_cons]

theorem data_line (h : c.line = bytes "data: " ++ t) : c.field = { c with data := c.data ++ t ++ [lf] } := by
  have hsplit : splitLine (bytes "data: " ++ t) = (bytes "data", t) :=
    splitLine_of (by decide : chr ':' ∉ bytes "data") t
  have hname : bytes "data" ≠ bytes "event" := by decide
  unfold Client.field
  rw [h, hsplit]
  dsimp only
  rw [if_neg hname, if_pos rfl]

theorem event_line (h : c.line = bytes "event: " ++ t) : c.field = { c with kind := t } := by
  have hsplit : splitLine (bytes "event: " ++ t) = (bytes "event", t) :=
    splitLine_of (by decide : chr ':' ∉ bytes "event") t
  unfold Client.field
  rw [h, hsplit, if_pos rfl]

/-! ## The two lines -/

/-- The end of the first line. -/
theorem endLine_kind (kind : Bytes) :
    (⟨bytes "event: " ++ kind, false, [], []⟩ : Client).endLine = (⟨[], false, kind, []⟩, none) := by
  rw [endLine_of_ne (List.append_ne_nil_of_left_ne_nil (by decide) kind), event_line rfl]

/-- The end of the second line. -/
theorem endLine_data_line (kind first : Bytes) :
    (⟨bytes "data: " ++ first, false, kind, []⟩ : Client).endLine = (⟨[], false, kind, first ++ [lf]⟩, none) := by
  rw [endLine_of_ne (List.append_ne_nil_of_left_ne_nil (by decide) first), data_line rfl]
  rfl

/-- Behind the first line, and what comes before the data. -/
theorem after_kind {kind : Bytes} (h : Unbroken kind) :
    eventSource.after eventSource.start (bytes "event: " ++ kind ++ [lf] ++ bytes "data: ") =
        ⟨bytes "data: ", false, kind, []⟩ ∧
      eventSource.given eventSource.start (bytes "event: " ++ kind ++ [lf] ++ bytes "data: ") = [] := by
  have hline : Unbroken (bytes "event: " ++ kind) := fun b hb =>
    (List.mem_append.mp hb).elim ((by decide : Unbroken (bytes "event: ")) b) (h b)
  obtain ⟨hafter, hgiven⟩ := after_unbroken (c := eventSource.start) hline rfl
  have hend : Client.step ⟨bytes "event: " ++ kind, false, [], []⟩ lf = (⟨[], false, kind, []⟩, none) := by
    rw [step_lf rfl, endLine_kind]
  obtain ⟨hdata, hnone⟩ := after_unbroken (c := ⟨[], false, kind, []⟩) (by decide : Unbroken (bytes "data: ")) rfl
  have hfirst : eventSource.after eventSource.start (bytes "event: " ++ kind ++ [lf]) = ⟨[], false, kind, []⟩ := by
    rw [Reader.after_concat, hafter, eventSource_step]
    exact congrArg Prod.fst hend
  have hnothing : eventSource.given eventSource.start (bytes "event: " ++ kind ++ [lf]) = [] := by
    rw [Reader.given_concat, hafter, hgiven, eventSource_step]
    exact congrArg (fun p => p.2.toList) hend
  rw [Reader.after_append, Reader.given_append _ (bytes "event: " ++ kind ++ [lf]), hfirst, hdata, hnothing, hnone]
  exact ⟨rfl, rfl⟩

/-- The data in one line. -/
theorem frames_block {e : Event} (hkind : Unbroken e.kind) (hne : e.kind ≠ []) (hdata : Unbroken e.data) :
    eventSource.Frames (block e) e := by
  obtain ⟨hafter, hgiven⟩ := after_kind hkind
  obtain ⟨hline, hnone⟩ := after_unbroken (c := ⟨bytes "data: ", false, e.kind, []⟩) hdata rfl
  have hend : Client.step ⟨bytes "data: " ++ e.data, false, e.kind, []⟩ lf =
      (⟨[], false, e.kind, e.data ++ [lf]⟩, none) := by
    rw [step_lf rfl, endLine_data_line]
  have hlast : Client.step ⟨[], false, e.kind, e.data ++ [lf]⟩ lf = (eventSource.start, some e) := by
    have hdata : e.data ++ [lf] ≠ [] := List.append_ne_nil_of_right_ne_nil _ (List.cons_ne_nil _ _)
    rw [step_empty rfl rfl]
    unfold Client.dispatch
    rw [if_neg hdata, if_neg hne, List.dropLast_concat]
  have hassoc : block e = bytes "event: " ++ e.kind ++ [lf] ++ bytes "data: " ++ e.data ++ [lf] ++ [lf] := by
    unfold block
    simp only [List.append_assoc]
  rw [hassoc]
  have hstate : eventSource.after eventSource.start
      (bytes "event: " ++ e.kind ++ [lf] ++ bytes "data: " ++ e.data) = ⟨bytes "data: " ++ e.data, false, e.kind, []⟩ := by
    rw [Reader.after_append, hafter, hline]
  refine Reader.frames_concat ?_ ?_
  · rw [Reader.given_concat, Reader.given_append, hafter, hgiven, hnone, hstate, eventSource_step, hend]
    rfl
  · rw [Reader.after_concat, hstate, eventSource_step, eventSource_step, hend]
    exact hlast

/-! ## Data in more lines -/

/-- What the client holds; an event that is dispatched counts one more than its data. -/
def Client.weight (c : Client) : ℕ := c.line.length + c.data.length

def weightOf : List Event → ℕ
  | [] => 0
  | e :: es => e.data.length + 1 + weightOf es

theorem weightOf_append (es es' : List Event) : weightOf (es ++ es') = weightOf es + weightOf es' := by
  induction es with
  | nil => exact (Nat.zero_add _).symm
  | cons e es ih =>
    show e.data.length + 1 + weightOf (es ++ es') = e.data.length + 1 + weightOf es + weightOf es'
    rw [ih, ← Nat.add_assoc]

theorem splitLine_length (line : Bytes) :
    (splitLine line).1.length ≤ line.length ∧
      (splitLine line).2.length ≤ line.length - ((splitLine line).1.length + 1) := by
  unfold splitLine
  dsimp only
  refine ⟨(List.takeWhile_prefix _).length_le, ?_⟩
  split_ifs
  · rw [List.length_tail, List.length_drop]
    exact Nat.sub_le _ _
  · rw [List.length_drop]

theorem field_weight (c : Client) : c.field.data.length ≤ c.weight := by
  obtain ⟨hname, hvalue⟩ := splitLine_length c.line
  unfold Client.field Client.weight
  dsimp only
  split_ifs with hevent hdata
  · exact Nat.le_add_left _ _
  · have hfour : (splitLine c.line).1.length = 4 := by rw [hdata]; rfl
    simp only [List.length_append, List.length_singleton]
    omega
  · exact Nat.le_add_left _ _

/-- The end of a line adds nothing. -/
theorem endLine_weight (c : Client) : c.endLine.1.weight + weightOf c.endLine.2.toList ≤ c.weight := by
  unfold Client.endLine
  split_ifs with hline
  · unfold Client.dispatch
    by_cases hdata : c.data = []
    · rw [if_pos hdata]
      show c.line.length + 0 + 0 ≤ c.weight
      rw [hline]
      exact Nat.zero_le _
    · rw [if_neg hdata]
      show c.line.length + 0 + (c.data.dropLast.length + 1 + 0) ≤ c.weight
      have hpos := List.length_pos_iff.mpr hdata
      unfold Client.weight
      rw [List.length_dropLast]
      omega
  · show 0 + c.field.data.length + 0 ≤ c.weight
    have hfield := field_weight c
    omega

theorem step_weight (c : Client) (b : Byte) :
    (c.step b).1.weight + weightOf (c.step b).2.toList ≤ c.weight + if b = lf ∨ b = cr then 0 else 1 := by
  have hend := endLine_weight c
  unfold Client.step
  by_cases hlf : b = lf
  · rw [if_pos hlf, if_pos (Or.inl hlf)]
    split_ifs
    · exact Nat.le_refl _
    · exact hend
  · by_cases hcr : b = cr
    · rw [if_neg hlf, if_pos hcr, if_pos (Or.inr hcr)]
      exact hend
    · rw [if_neg hlf, if_neg hcr, if_neg (not_or.mpr ⟨hlf, hcr⟩)]
      show (c.line ++ [b]).length + c.data.length + 0 ≤ c.line.length + c.data.length + 1
      rw [List.length_append, List.length_singleton]
      omega

theorem given_weight (c : Client) (t : Bytes) :
    (eventSource.after c t).weight + weightOf (eventSource.given c t) ≤ c.weight + t.length := by
  induction t generalizing c with
  | nil => exact Nat.le_refl _
  | cons b t ih =>
    have hstep := step_weight c b
    have hrest := ih (c.step b).1
    show (eventSource.after (c.step b).1 t).weight +
      weightOf ((c.step b).2.toList ++ eventSource.given (c.step b).1 t) ≤ c.weight + (t.length + 1)
    rw [weightOf_append]
    split_ifs at hstep <;> omega

/-- Behind a CR no line has begun. -/
def Client.Settled (c : Client) : Prop := c.wasCr = true → c.line = []

theorem endLine_line (c : Client) : c.endLine.1.line = [] := by
  unfold Client.endLine
  split_ifs with hline
  · exact hline
  · rfl

theorem field_wasCr (c : Client) : c.field.wasCr = c.wasCr := by
  unfold Client.field
  dsimp only
  split_ifs <;> rfl

theorem step_settled (c : Client) (b : Byte) : (c.step b).1.Settled := by
  unfold Client.step
  split_ifs with hlf hcr hcr'
  · exact fun h => absurd h Bool.false_ne_true
  · exact fun _ => endLine_line c
  · exact fun _ => endLine_line c
  · exact fun h => absurd h Bool.false_ne_true

theorem after_settled (h : c.Settled) (t : Bytes) : (eventSource.after c t).Settled := by
  induction t generalizing c with
  | nil => exact h
  | cons b t ih => exact ih (step_settled c b)

theorem field_data (h : c.data ≠ []) : c.field.data ≠ [] := by
  unfold Client.field
  dsimp only
  split_ifs
  · exact h
  · exact List.append_ne_nil_of_right_ne_nil _ (List.cons_ne_nil _ _)
  · exact h

theorem endLine_data (h : c.data ≠ []) : c.endLine.2.toList ≠ [] ∨ c.endLine.1.data ≠ [] := by
  unfold Client.endLine
  split_ifs
  · unfold Client.dispatch
    rw [if_neg h]
    exact Or.inl (List.cons_ne_nil _ _)
  · exact Or.inr (field_data h)

theorem step_data (h : c.data ≠ []) (b : Byte) : (c.step b).2.toList ≠ [] ∨ (c.step b).1.data ≠ [] := by
  unfold Client.step
  split_ifs
  · exact Or.inr h
  · exact endLine_data h
  · exact endLine_data h
  · exact Or.inr h

/-- Data stays until it is dispatched. -/
theorem given_data (h : c.data ≠ []) (t : Bytes) :
    eventSource.given c t ≠ [] ∨ (eventSource.after c t).data ≠ [] := by
  induction t generalizing c with
  | nil => exact Or.inr h
  | cons b t ih =>
    show (c.step b).2.toList ++ eventSource.given (c.step b).1 t ≠ [] ∨ (eventSource.after (c.step b).1 t).data ≠ []
    rcases step_data h b with hgiven | hdata
    · exact Or.inl (List.append_ne_nil_of_left_ne_nil hgiven _)
    · exact (ih hdata).imp_left fun hrest => List.append_ne_nil_of_right_ne_nil _ hrest

/-- Two line feeds end an event. -/
theorem after_ends (h : c.Settled) :
    eventSource.after c [lf, lf] = eventSource.start ∧ (c.data ≠ [] → eventSource.given c [lf, lf] ≠ []) := by
  have hsecond : ∀ c : Client, c.wasCr = false → c.line = [] →
      eventSource.after c [lf] = eventSource.start ∧ (c.data ≠ [] → eventSource.given c [lf] ≠ []) := by
    intro c hcr hline
    have hstep := step_empty hcr hline
    refine ⟨?_, fun hdata => ?_⟩
    · show (c.step lf).1 = _
      rw [hstep]
    · show (c.step lf).2.toList ++ [] ≠ []
      rw [hstep]
      unfold Client.dispatch
      rw [if_neg hdata]
      exact List.cons_ne_nil _ _
  have hfirst : (c.step lf).1.wasCr = false ∧ (c.step lf).1.line = [] := by
    unfold Client.step
    rw [if_pos rfl]
    by_cases hcr : c.wasCr = true
    · rw [if_pos hcr]
      exact ⟨rfl, h hcr⟩
    · rw [if_neg hcr]
      refine ⟨?_, endLine_line c⟩
      have hfalse := eq_false_of_ne_true hcr
      unfold Client.endLine
      split_ifs
      · exact hfalse
      · exact (field_wasCr c).trans hfalse
  obtain ⟨hafter, hgiven⟩ := hsecond _ hfirst.1 hfirst.2
  refine ⟨hafter, fun hdata => ?_⟩
  show (c.step lf).2.toList ++ eventSource.given (c.step lf).1 [lf] ≠ []
  rcases step_data hdata lf with hsome | hdata'
  · exact List.append_ne_nil_of_left_ne_nil hsome _
  · exact List.append_ne_nil_of_right_ne_nil _ (hgiven hdata')

theorem block_eq (e : Event) :
    block e = (bytes "event: " ++ e.kind ++ [lf] ++ bytes "data: ") ++ (e.data ++ [lf, lf]) := by
  unfold block
  simp only [List.append_assoc, List.cons_append, List.nil_append]

/-- Whatever the data is, the client is at its start behind the event. -/
theorem after_block {e : Event} (hkind : Unbroken e.kind) :
    eventSource.after eventSource.start (block e) = eventSource.start := by
  have hsettled : (⟨bytes "data: ", false, e.kind, []⟩ : Client).Settled := fun h => absurd h Bool.false_ne_true
  rw [block_eq, Reader.after_append, (after_kind hkind).1, Reader.after_append]
  exact (after_ends (after_settled hsettled e.data)).1

/-- The first end of a line. -/
theorem exists_end (h : ¬ Unbroken t) : ∃ first b rest, t = first ++ b :: rest ∧ Unbroken first ∧ (b = lf ∨ b = cr) := by
  induction t with
  | nil => exact absurd (fun b hb => absurd hb List.not_mem_nil) h
  | cons x t ih =>
    by_cases hx : x = lf ∨ x = cr
    · exact ⟨[], x, t, rfl, fun b hb => absurd hb List.not_mem_nil, hx⟩
    · have hx' := not_or.mp hx
      obtain ⟨first, b, rest, rfl, hfirst, hb⟩ := ih fun ht => h fun b hb =>
        (List.mem_cons.mp hb).elim (fun heq => heq ▸ hx') (ht b)
      exact ⟨x :: first, b, rest, rfl,
        fun y hy => (List.mem_cons.mp hy).elim (fun heq => heq ▸ hx') (hfirst y), hb⟩

/-- Behind the first line of the data. -/
theorem after_first (kind : Bytes) {first : Bytes} (h : Unbroken first) {b : Byte} (hb : b = lf ∨ b = cr) :
    ∃ wasCr, eventSource.after ⟨bytes "data: ", false, kind, []⟩ (first ++ [b]) = ⟨[], wasCr, kind, first ++ [lf]⟩ ∧
      eventSource.given ⟨bytes "data: ", false, kind, []⟩ (first ++ [b]) = [] := by
  obtain ⟨hline, hnone⟩ := after_unbroken (c := ⟨bytes "data: ", false, kind, []⟩) h rfl
  rw [Reader.after_append, Reader.given_append, hline, hnone]
  show ∃ wasCr, (Client.step ⟨bytes "data: " ++ first, false, kind, []⟩ b).1 = _ ∧
    [] ++ ((Client.step ⟨bytes "data: " ++ first, false, kind, []⟩ b).2.toList ++ []) = []
  rcases hb with rfl | rfl
  · refine ⟨false, ?_⟩
    rw [step_lf rfl, endLine_data_line]
    exact ⟨rfl, rfl⟩
  · refine ⟨true, ?_⟩
    rw [step_cr, endLine_data_line]
    exact ⟨rfl, rfl⟩

/-- Data in more lines is read as something, and all that is read is shorter. -/
theorem given_lines {e : Event} (hkind : Unbroken e.kind) (h : ¬ Unbroken e.data) :
    eventSource.given eventSource.start (block e) ≠ [] ∧
      weightOf (eventSource.given eventSource.start (block e)) ≤ e.data.length := by
  obtain ⟨first, b, rest, hdata, hfirst, hb⟩ := exists_end h
  obtain ⟨hafter, hgiven⟩ := after_kind hkind
  obtain ⟨wasCr, hline, hnone⟩ := after_first e.kind hfirst hb
  have hsplit : e.data ++ [lf, lf] = (first ++ [b]) ++ (rest ++ [lf, lf]) := by
    rw [hdata]
    simp only [List.append_assoc, List.cons_append, List.nil_append]
  have hread : eventSource.given eventSource.start (block e) =
      eventSource.given ⟨[], wasCr, e.kind, first ++ [lf]⟩ (rest ++ [lf, lf]) := by
    rw [block_eq, Reader.given_append, hgiven, hafter, hsplit, Reader.given_append, hnone, hline]
    rfl
  have hpending : (⟨[], wasCr, e.kind, first ++ [lf]⟩ : Client).data ≠ [] :=
    List.append_ne_nil_of_right_ne_nil _ (List.cons_ne_nil _ _)
  have hsettled : (⟨[], wasCr, e.kind, first ++ [lf]⟩ : Client).Settled := fun _ => rfl
  have hlast := after_settled hsettled rest
  rw [hread, Reader.given_append]
  constructor
  · rcases given_data hpending rest with hsome | hdata'
    · exact List.append_ne_nil_of_left_ne_nil hsome _
    · exact List.append_ne_nil_of_right_ne_nil _ ((after_ends hlast).2 hdata')
  · have hrest := given_weight ⟨[], wasCr, e.kind, first ++ [lf]⟩ rest
    have hends : ∀ c : Client, weightOf (eventSource.given c [lf, lf]) ≤ c.weight := by
      intro c
      have hone := step_weight c lf
      have htwo := step_weight (c.step lf).1 lf
      rw [if_pos (Or.inl rfl)] at hone htwo
      show weightOf ((c.step lf).2.toList ++ (((c.step lf).1.step lf).2.toList ++ [])) ≤ c.weight
      rw [List.append_nil, weightOf_append]
      omega
    have hlength : e.data.length = first.length + (rest.length + 1) := by
      rw [hdata, List.length_append, List.length_cons]
    have hstart : (⟨[], wasCr, e.kind, first ++ [lf]⟩ : Client).weight = first.length + 1 := by
      show 0 + (first ++ [lf]).length = _
      rw [List.length_append, List.length_singleton, Nat.zero_add]
    rw [hstart] at hrest
    rw [weightOf_append]
    have hlast := hends (eventSource.after ⟨[], wasCr, e.kind, first ++ [lf]⟩ rest)
    omega

/-- **An event is read as it was exactly when its data is one line.** -/
theorem block_read_iff {e : Event} (hkind : Unbroken e.kind) (hne : e.kind ≠ []) :
    eventSource.given eventSource.start (block e) = [e] ↔ Unbroken e.data := by
  refine ⟨fun hread => ?_, fun hdata => (frames_block hkind hne hdata).given⟩
  by_contra hdata
  have hweight := (given_lines hkind hdata).2
  rw [hread] at hweight
  have hone : weightOf [e] = e.data.length + 1 := rfl
  omega

example : eventSource.given eventSource.start (block ⟨bytes "msg", bytes "one\ntwo"⟩) = [⟨bytes "msg", bytes "one"⟩] := by
  decide

theorem given_block_ne_nil {e : Event} (hkind : Unbroken e.kind) (hne : e.kind ≠ []) :
    eventSource.given eventSource.start (block e) ≠ [] := by
  by_cases hdata : Unbroken e.data
  · rw [(frames_block hkind hne hdata).given]
    exact List.cons_ne_nil e []
  · exact (given_lines hkind hdata).1

end EventStream

end Agoo
