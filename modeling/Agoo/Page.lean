import Agoo.Hook
import Agoo.PageCache
import Mathlib.Algebra.Ring.Int.Defs

/-!
# Static pages (`page.c`)

`agoo_page_get` builds the full path of a request below a root, decodes its percent escapes, refuses
`../` and `//`, and answers from the root table or loads the file; `agoo_group_get` does the same
for the directories of a group, over the other table. `World` is the state these calls work on: the
cache, the pages allocated so far, and a record of the pages destroyed and the file names passed to
`fopen`. What the file system answers during a call is an `Fs`. Allocation does not fail.
-/

namespace Agoo

abbrev PageId := ℕ

/-- `struct _agooPage`; times are in microseconds. -/
structure Page where
  resp : Option Bytes
  path : Bytes
  mtime : ℕ
  lastCheck : ℕ
  immutable : Bool
  deriving DecidableEq, Repr

/-- `PAGE_RECHECK_TIME`. -/
def pageRecheckTime : ℕ := 5000000

/-- `struct _headRule`; a rule without `mime` holds for every type. -/
structure HeadRule where
  path : Bytes
  mime : Option Bytes
  key : Bytes
  value : Bytes
  deriving DecidableEq, Repr

/-- `hr->len`. -/
def HeadRule.len (hr : HeadRule) : ℤ := toInt (toInt (strlen hr.key) + toInt (strlen hr.value) + 4)

/-- `struct _agooGroup` with the paths of its directories. -/
structure Group where
  path : Bytes
  dirs : List Bytes
  deriving DecidableEq, Repr

/-- An open file: whether `fstat` works and finds a regular file or a link, the size `ftell` gives
at its end, and the bytes `fread` can get. -/
structure File where
  fstat : Option Bool
  size : Option ℕ
  data : Bytes
  deriving DecidableEq, Repr

/-- What the system answers during one call. `restat` is the `stat` made after a load; `below` is
the byte of the stack just under `full_path`, read when the root is empty. -/
structure Fs where
  fopen : Bytes → Option File
  stat : Bytes → Option ℕ
  restat : Bytes → Option ℕ
  access : Bytes → Bool
  dtime : ℕ
  below : Byte

structure World where
  cache : Cache PageId
  root : Option Bytes
  groups : List Group
  headRules : List HeadRule
  pages : PageId → Page
  /-- Pages are allocated in order; this is the next one. -/
  next : PageId
  /-- The calls of `agoo_page_destroy`, newest first. -/
  destroyed : List PageId
  /-- The names passed to `fopen`, newest first. -/
  opened : List Bytes

/-! ## Mime types and header rules -/

/-- `path_suffix`: what follows the last dot, unless the path begins with it. -/
def pathSuffix (path : Bytes) : Option Bytes :=
  let c := cstr path
  match c.reverse.idxOf? (chr '.') with
  | some i => if i + 1 = c.length then none else some (c.drop (c.length - i))
  | none => none

/-- `path_mime`. -/
def pathMime (c : Cache PageId) (path : Bytes) : Option Bytes := (pathSuffix path).bind (mimeGet c)

/-- `path_match`: without a path only `**` matches; one leading slash is ignored. -/
def pathMatch (pat : Bytes) (path : Option Bytes) : Bool :=
  match path with
  | none => cstr pat == bytes "**"
  | some path =>
    let path := cstr path
    globLoop (cstr pat) (if path.head? = some (chr '/') then path.tail else path)

/-- `head_rule_match`. -/
def headRuleMatch (rule : HeadRule) (path : Option Bytes) (mime : Bytes) : Bool :=
  pathMatch rule.path path &&
    match rule.mime with
    | none => true
    | some m => strcmp m mime || (path.bind pathSuffix).any (strcmp m)

/-- `hlen`. -/
def headLen (rules : List HeadRule) : ℤ := (rules.map HeadRule.len).sum

/-- The head of a page response: `page_fmt`, or `page_min_fmt` with the lines of the matching header
rules when these have a length. -/
def headText (hasCt : Bool) (rules : List HeadRule) (mime : Bytes) (size : ℕ) : Bytes :=
  if 0 < headLen rules then
    bytes "HTTP/1.1 200 OK\r\nContent-Length: " ++ decimal size ++ crlf ++
      (rules.flatMap fun hr => cstr hr.key ++ bytes ": " ++ cstr hr.value ++ crlf) ++
      if hasCt then crlf else bytes "Content-Type: " ++ mime ++ crlf ++ crlf
  else
    bytes "HTTP/1.1 200 OK\r\nContent-Type: " ++ mime ++ bytes "\r\nContent-Length: " ++
      decimal size ++ crlf ++ crlf

/-- `has_ct`, where it begins with `false`. -/
def hasCt (rules : List HeadRule) : Bool := rules.any fun hr => strcasecmp (bytes "Content-Type") hr.key

def pageHead (rules : List HeadRule) (mime : Bytes) (size : ℕ) : Bytes := headText (hasCt rules) rules mime size

/-! ## Loading -/

/-- `sizeof(path)` in `update_contents`. -/
def pathBufSize : ℕ := 1024

/-- The name tried when the page is no regular file: `index.html` below it, cut to the buffer, unless
`snprintf` reports that more than `sizeof(path)` bytes were needed. -/
def indexPath (path : Bytes) : Option Bytes :=
  let full := if path.getLast? = some (chr '/') then path ++ bytes "index.html"
    else path ++ bytes "/index.html"
  if pathBufSize < full.length then none else some (full.take (pathBufSize - 1))

/-- The file a page is loaded from, with its name, the mime type and the names opened. -/
def openPage (fs : Fs) (mime : Option Bytes) (path : Bytes) :
    Option (File × Bytes × Bytes) × List Bytes :=
  let direct := fs.fopen path
  let regular := direct.filter fun f => f.fstat ≠ some false
  match regular with
  | some f =>
    if f.fstat = none then (none, [path])
    else (some (f, path.take (pathBufSize - 1), mime.getD (bytes "text/html")), [path])
  | none =>
    -- not found or a directory: try the index below it, unless the name has a known suffix
    match mime, indexPath path with
    | some _, _ => (none, [path])
    | none, none => (none, [path])
    | none, some index =>
      match fs.fopen index with
      | none => (none, [index, path])
      | some f => (some (f, index, bytes "text/html"), [index, path])

/-- The path the header rules see: what follows the root in the name opened. -/
def relPath (root : Option Bytes) (path : Bytes) : Option Bytes :=
  root.bind fun r =>
    if strncmp r path (strlen r) ∧ path[strlen r]? = some (chr '/') then
      some (path.drop (strlen r + 1))
    else none

/-- `update_contents`: whether the page was loaded, and the page. A failure leaves it as it was. -/
def updateContents (fs : Fs) (w : World) (p : Page) : Bool × Page × List Bytes :=
  let mime := pathMime w.cache p.path
  match openPage fs mime p.path with
  | (none, names) => (false, p, names)
  | (some (f, name, mime), names) =>
    match f.size with
    | none => (false, p, names)
    | some size =>
      let rules := w.headRules.filter fun hr => headRuleMatch hr (relPath w.root name) mime
      let content := f.data.take size
      if content.length ≠ size then (false, p, names)
      else
        (true, { p with
          resp := some (pageHead rules mime size ++ content)
          mtime := (fs.restat p.path).getD 0
          lastCheck := fs.dtime }, names)

/-- `agoo_page_create`. -/
def pageCreate (w : World) (path : Bytes) : PageId × World :=
  (w.next, { w with
    pages := Function.update w.pages w.next ⟨none, cstr path, 0, 0, false⟩
    next := w.next + 1 })

/-- `agoo_page_destroy`. -/
def pageDestroy (w : World) (id : PageId) : World := { w with destroyed := id :: w.destroyed }

/-- Destroy the page that a set handed back, if any. -/
def destroyOld (w : World) : Option PageId → World
  | some old => pageDestroy w old
  | none => w

/-- `update_contents` on an allocated page. -/
def loadPage (fs : Fs) (w : World) (id : PageId) : Bool × World :=
  let r := updateContents fs w (w.pages id)
  (r.1, { w with pages := Function.update w.pages id r.2.1, opened := r.2.2 ++ w.opened })

/-- `agoo_page_remove`: always in the group table, whichever table holds the page. -/
def pageRemove (w : World) (id : PageId) : World :=
  let key := (w.pages id).path
  let i := bucketIndex (calcHash key)
  match bucketGet (w.cache.buckets i) key with
  | none => w
  | some old =>
    let bucket := Chain.removeFirst (Slot.matches key) (w.cache.buckets i)
    pageDestroy
      { w with cache := { w.cache with buckets := Function.update w.cache.buckets i bucket } } old

/-- The answer of a lookup: the page, or none with the error set, if any. -/
structure Got where
  page : Option PageId
  err : Option Err
  deriving DecidableEq

def notFound : Got := ⟨none, some (errSet .notFound (bytes "not found."))⟩

def setLastCheck (w : World) (id : PageId) (now : ℕ) : World :=
  { w with pages := Function.update w.pages id { w.pages id with lastCheck := now } }

/-- `page_check`: reload a page whose file changed, at most every `pageRecheckTime`. -/
def pageCheck (fs : Fs) (w : World) (id : PageId) : Got × World :=
  let p := w.pages id
  if p.immutable then (⟨some id, none⟩, w)
  else if p.lastCheck + pageRecheckTime < fs.dtime then
    if (fs.stat p.path).isSome ∧ fs.stat p.path ≠ some p.mtime then
      let w := (loadPage fs w id).2
      if (w.pages id).resp = none then (notFound, pageRemove w id)
      else (⟨some id, none⟩, setLastCheck w id fs.dtime)
    else (⟨some id, none⟩, setLastCheck w id fs.dtime)
  else (⟨some id, none⟩, w)

/-! ## Requests below the root -/

/-- `sizeof(full_path)`. -/
def fullPathSize : ℕ := 2048

/-- An entry of `hex_map`. -/
def hexVal (c : Byte) : Option Byte :=
  if 48 ≤ c ∧ c ≤ 57 then some (c - 48)
  else if 65 ≤ c ∧ c ≤ 70 then some (c - 55)
  else if 97 ≤ c ∧ c ≤ 102 then some (c - 87)
  else none

/-- `parse_percent_seq` on the two bytes after the `%`. -/
def parsePercentSeq (hi lo : Byte) : Byte :=
  match hexVal hi, hexVal lo with
  | some h, some l => (h <<< 4) ||| l
  | _, _ => chr '?'

/-- The decoding loop of `agoo_page_get`: `n` bytes are left and the next `skip` of them belong to an
escape already read. An escape is read from memory even where the path has ended. -/
def decodeLoop (m : Bytes) : ℕ → ℕ → Bytes
  | _, 0 => []
  | skip + 1, n + 1 => decodeLoop m.tail skip n
  | 0, n + 1 =>
    if at0 m 0 = chr '%' then parsePercentSeq (at0 m 1) (at0 m 2) :: decodeLoop m.tail 2 n
    else at0 m 0 :: decodeLoop m.tail 0 n

/-- The request path as it goes into `full_path`. -/
def decodePath (path : Bytes) (plen : ℕ) : Bytes :=
  if (path.take plen).contains (chr '%') then decodeLoop path 0 plen else strncpy path plen

/-- `full_path`: a root given with the call comes before the root of the cache. -/
def fullPath (fs : Fs) (cacheRoot root : Option Bytes) (path : Bytes) (plen : ℕ) : Option Bytes :=
  let s := cstr ((root <|> cacheRoot).getD [])
  let s := if s.getLast?.getD fs.below ≠ chr '/' ∧ at0 path 0 ≠ chr '/' then s ++ [chr '/'] else s
  if fullPathSize ≤ plen + s.length then none else some (s ++ decodePath path plen)

/-- The two tests on the decoded path. -/
def refused (full : Bytes) : Bool :=
  (strstr full (bytes "../")).isSome || (strstr full (bytes "//")).isSome

/-- Create a page, load it and store it in one of the tables; `set` is `cache_set` or
`cache_root_set`, and the page it hands back is destroyed. -/
def loadNew (set : Cache PageId → Bytes → PageId → Option PageId × Cache PageId) (fs : Fs)
    (w : World) (full : Bytes) : Got × World :=
  let c := pageCreate w full
  let r := loadPage fs c.2 c.1
  if r.1 = false ∨ (r.2.pages c.1).resp = none then (notFound, pageDestroy r.2 c.1)
  else
    let s := set r.2.cache full c.1
    (⟨some c.1, none⟩, destroyOld { r.2 with cache := s.2 } s.1)

/-- `agoo_page_get`. The error of a path too long for the buffer also names file and line. -/
def pageGet (fs : Fs) (w : World) (path : Bytes) (plen : ℕ) (root : Option Bytes) : Got × World :=
  match fullPath fs w.root root path plen with
  | none => (⟨none, some (errSet .memory (bytes "Failed to allocate memory for a Page path"))⟩, w)
  | some full =>
    if refused full then (⟨none, none⟩, w)
    else
      match cacheRootGet w.cache full with
      | some id => pageCheck fs w id
      | none => if w.root = none then (⟨none, none⟩, w) else loadNew cacheRootSet fs w full

/-! ## Groups -/

/-- A group serves the paths that go on below its own after a slash. -/
def Group.serves (g : Group) (path : Bytes) (plen : ℕ) : Bool :=
  strlen g.path < plen && strncmp path g.path (strlen g.path) && at0 path (strlen g.path) == chr '/'

/-- The full paths of a request in the directories of a group, less those too long. -/
def groupPaths (g : Group) (path : Bytes) (plen : ℕ) : List Bytes :=
  (g.dirs.filter fun d => strlen d + plen < fullPathSize).map fun d =>
    cstr d ++ strncpy (path.drop (strlen g.path)) (plen - strlen g.path)

/-- `agoo_group_get`: a cached page of any directory comes first, then the first file that can be
read. The test for `../` runs to the NUL, past the path. -/
def groupGet (fs : Fs) (w : World) (path : Bytes) (plen : ℕ) : Got × World :=
  if (strstr path (bytes "../")).isSome then (⟨none, none⟩, w)
  else
    match w.groups.find? fun g => g.serves path plen with
    | none => (⟨none, none⟩, w)
    | some g =>
      match (groupPaths g path plen).findSome? (cacheGet w.cache) with
      | some id => pageCheck fs w id
      | none =>
        match (groupPaths g path plen).find? fun full => fs.access (cstr full) with
        | none => (⟨none, none⟩, w)
        | some full =>
          match cacheGet w.cache full with
          | some id => (⟨some id, none⟩, w)
          | none => loadNew cacheSet fs w full

/-- One call, with what the system answers during it. -/
inductive PageCall
  | pageGet (path : Bytes) (plen : ℕ) (root : Option Bytes) (fs : Fs)
  | groupGet (path : Bytes) (plen : ℕ) (fs : Fs)

def PageCall.run (w : World) : PageCall → Got × World
  | .pageGet path plen root fs => Agoo.pageGet fs w path plen root
  | .groupGet path plen fs => Agoo.groupGet fs w path plen

/-- The state after the calls, made in order. -/
def runCalls (w : World) (calls : List PageCall) : World :=
  calls.foldl (fun w c => (c.run w).2) w

/-- The state after `agoo_pages_init` and the configuration: mime types, root, groups and header
rules, and no page yet. -/
def World.init (mimes : List (Bytes × Bytes)) (root : Option Bytes) (groups : List Group)
    (headRules : List HeadRule) : World where
  cache := runSets (mimes.map fun m => .mimeSet m.1 m.2)
  root := root
  groups := groups
  headRules := headRules
  pages := fun _ => ⟨none, [], 0, 0, false⟩
  next := 0
  destroyed := []
  opened := []

end Agoo
