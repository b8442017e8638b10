import Agoo.Err

/-!
# Methods, hooks and glob patterns (`method.h`, `hook.c`)

A pattern is matched byte by byte; `*` skips to the next slash and `**` accepts the rest. The same
loop serves the hooks and the header rules of static pages.
-/

namespace Agoo

/-- The methods of an HTTP request, and `all` for a hook that takes any. -/
inductive Method
  | connect | delete | get | head | options | post | put | patch | all
  deriving DecidableEq, Repr

/-- The pattern loop of `agoo_hook_match` and `path_match`. -/
def globLoop : Bytes → Bytes → Bool
  | [], path => path = []
  | _ :: _, [] => false
  | p :: pat, c :: path =>
    if c = p then globLoop pat path
    else if p = chr '*' then
      if pat.head? = some (chr '*') then true
      else globLoop pat ((c :: path).dropWhile (· ≠ chr '/'))
    else false

/-- The parts of `struct _agooHook` that decide where a request goes. `func` stands for the type
`FUNC_HOOK`, whose function is called at once when `noQueue` is set. -/
structure Hook where
  method : Method
  pattern : Bytes
  func : Bool
  noQueue : Bool
  deriving DecidableEq, Repr

/-- `agoo_hook_match`: one trailing slash of the path is ignored. -/
def hookMatch (hook : Hook) (method : Method) (path : Bytes) : Bool :=
  let path := if 1 < path.length ∧ path.getLast? = some (chr '/') then path.dropLast else path
  if method ≠ hook.method ∧ hook.method ≠ .all then false
  else globLoop (cstr hook.pattern) path

/-- `agoo_hook_find`: the first hook of the list that matches. -/
def hookFind (hooks : List Hook) (method : Method) (path : Bytes) : Option Hook :=
  hooks.find? fun h => hookMatch h method path

end Agoo
