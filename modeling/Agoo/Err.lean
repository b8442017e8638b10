import Agoo.Bytes

/-!
# Errors (`err.c`)

`struct _agooErr` is a code and a message of at most 255 bytes; a code of zero is success.
-/

namespace Agoo

inductive ErrCode
  | memory | parse | arg | notFound | eval | lock | tooMany | type
  deriving DecidableEq, Repr

structure Err where
  code : ErrCode
  msg : Bytes
  deriving DecidableEq, Repr

/-- `agoo_err_set`: the formatted message is cut to `sizeof(err->msg) - 1` bytes. -/
def errSet (code : ErrCode) (msg : Bytes) : Err := ⟨code, msg.take 255⟩

theorem errSet_msg_length_le (code : ErrCode) (msg : Bytes) : (errSet code msg).msg.length ≤ 255 := by
  simp only [errSet, List.length_take]
  omega

end Agoo
