import Agoo.Bytes

/-!
# Response records (`res.c`)

The record of a response: the messages still to be sent, oldest first, and whether the last one
was pushed. A text is its bytes; reference counts are left out.
-/

namespace Agoo

/-- `agooConKind`. -/
inductive ConKind
  | any | http | https | ws | sse
  deriving DecidableEq, Repr

/-- `struct _agooRes`. -/
structure Res where
  /-- `con->id`. -/
  con : ℕ
  message : List Bytes
  final : Bool
  close : Bool
  ping : Bool
  pong : Bool
  conKind : ConKind
  deriving DecidableEq, Repr

/-- What `send` returned: a count, `EAGAIN`, or another error. `SSL_write` without a count and without
an error is `again` too. -/
inductive SendResult
  | sent (n : ℕ) | again | error
  deriving DecidableEq, Repr

/-- The text that `agoo_res_add_early` makes of the links. -/
def earlyText (links : List Bytes) : Bytes :=
  bytes "HTTP/1.1 103 Early Hints" ++ crlf ++
    (links.map fun link => bytes "Link: " ++ link ++ crlf).flatten ++ crlf

namespace Res

/-- `agoo_res_create`. -/
def create (con : ℕ) : Res := ⟨con, [], false, false, false, false, .http⟩

/-- `agoo_res_message_push`; the text may be null. -/
def messagePush (r : Res) (t : Option Bytes) : Res :=
  if r.final then r else { r with message := r.message ++ t.toList, final := true }

/-- `agoo_res_add_early`. -/
def addEarly (r : Res) (links : List Bytes) : Res :=
  if r.final then r else { r with message := r.message ++ [earlyText links] }

/-- `agoo_res_message_peek`. -/
def messagePeek (r : Res) : Option Bytes := r.message.head?

/-- `agoo_res_message_next`; the new head is returned by `messagePeek`. -/
def messageNext (r : Res) : Res := { r with message := r.message.tail }

/-- What `agoo_res_destroy` leaves of the record. -/
def destroy (r : Res) : Res := { r with message := [] }

variable (r : Res)

theorem messagePush_of_not_final {r : Res} (h : r.final = false) (t : Option Bytes) :
    r.messagePush t = { r with message := r.message ++ t.toList, final := true } := by
  simp [messagePush, h]

theorem addEarly_of_not_final {r : Res} (h : r.final = false) (links : List Bytes) :
    r.addEarly links = { r with message := r.message ++ [earlyText links] } := by
  simp [addEarly, h]

@[simp] theorem messagePush_final (t : Option Bytes) : (r.messagePush t).final = true := by
  unfold messagePush
  split <;> simp_all

@[simp] theorem addEarly_final (links : List Bytes) : (r.addEarly links).final = r.final := by
  unfold addEarly
  split <;> rfl

@[simp] theorem messageNext_message : r.messageNext.message = r.message.tail := rfl

@[simp] theorem messageNext_final : r.messageNext.final = r.final := rfl

@[simp] theorem destroy_message : r.destroy.message = [] := rfl

@[simp] theorem destroy_final : r.destroy.final = r.final := rfl

end Res

/-! ## The queue of a connection (`con.c`) -/

variable {α : Type}

/-- `agoo_con_res_append`. -/
def resAppend (queue : List α) (r : α) : List α := queue ++ [r]

/-- `agoo_con_res_prepend`. -/
def resPrepend (queue : List α) (r : α) : List α := r :: queue

/-- `agoo_con_res_pop`. -/
def resPop : List α → Option (α × List α)
  | [] => none
  | r :: queue => some (r, queue)

end Agoo
