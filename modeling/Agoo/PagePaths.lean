import Agoo.PageLifetime
import Agoo.Paths

/-!
# Static pages and the root

`agoo_page_get` opens the decoded path below the root, and when that is no regular file the index
below it. Both stay inside the root unless a call `Climbs`: the decoded path is `..` alone, which
has no `../` for the test to find.

`pages_inside_iff`: over any sequence of calls under one root, every name opened for a page resolves
to a place inside the root exactly when no call that comes to load a page climbs.
-/

namespace Agoo

open Agoo.Path

/-- The name of a root directory without a `..` component. The empty string names no directory. -/
structure RootDir where
  name : Bytes
  ne : name ≠ []
  no_nul : 0 ∉ name
  no_dotdot : dotdot ∉ comps name

/-- The decoded path is `..` to the file system, and the root has a directory above it. -/
def Climbs (r : RootDir) (path : Bytes) (plen : ℕ) : Prop :=
  comps (cstr (decodePath path plen)) = [dotdot] ∧ ¬ (isAbs r.name = true ∧ comps r.name = [])

/-- The root a call works under is `r`, given with the call or set for the cache. -/
def PageCall.Under (r : RootDir) (cacheRoot : Option Bytes) : PageCall → Prop
  | .pageGet _ _ root _ => (root <|> cacheRoot) = some r.name
  | .groupGet _ _ _ => True

/-- The names a call passes to `fopen`. -/
def PageCall.opens (w : World) (c : PageCall) : List Bytes := (c.run { w with opened := [] }).2.opened

/-! ## The name of a page -/

theorem decodeLoop_head {m : Bytes} (h : at0 m 0 = slash) (n : ℕ) :
    decodeLoop m 0 (n + 1) = slash :: decodeLoop m.tail 0 n := by
  rw [decodeLoop, if_neg (by rw [h]; decide), h]

/-- A path that begins with a slash, decoded, begins with a slash unless it is empty. -/
theorem decodePath_head {path : Bytes} (h : at0 path 0 = slash) (plen : ℕ) :
    decodePath path plen = [] ∨ (decodePath path plen).head? = some slash := by
  obtain ⟨rest, rfl⟩ : ∃ rest, path = slash :: rest := by
    cases path with
    | nil => exact absurd h (by decide)
    | cons c rest => exact ⟨rest, by simpa [at0] using h⟩
  unfold decodePath
  cases plen with
  | zero => exact Or.inl (by simp [strncpy])
  | succ n =>
    right
    split
    · rw [decodeLoop_head h]
      rfl
    · have : cstr (slash :: rest) = slash :: cstr rest := cstr_append (a := [slash]) (by decide) rest
      simp [strncpy, this]

/-- **The name is the root and what the decoded path adds to it.** -/
theorem cstr_fullPath {r : RootDir} {fs : Fs} {cacheRoot root : Option Bytes} {path full : Bytes}
    {plen : ℕ} (hr : (root <|> cacheRoot) = some r.name)
    (hf : fullPath fs cacheRoot root path plen = some full) :
    ∃ x, cstr full = r.name ++ x ∧ comps x = comps (cstr (decodePath path plen)) ∧
      (x = [] ∨ x.head? = some slash ∨ r.name.getLast? = some slash) := by
  have hlast : r.name.getLast?.getD fs.below = slash → r.name.getLast? = some slash := by
    intro h
    rw [List.getLast?_eq_some_getLast r.ne] at h ⊢
    exact congrArg some h
  have hhead : ∀ d : Bytes, (d = [] ∨ d.head? = some slash) →
      cstr d = [] ∨ (cstr d).head? = some slash := by
    rintro (_ | ⟨c, d⟩) (h | h)
    · exact Or.inl rfl
    · cases h
    · cases h
    · obtain rfl : c = slash := by simpa using h
      exact Or.inr (by rw [show slash :: d = [slash] ++ d from rfl, cstr_append (by decide)]; rfl)
  unfold fullPath at hf
  simp only [hr, Option.getD_some, cstr_of_not_mem r.no_nul] at hf
  by_cases hsep : r.name.getLast?.getD fs.below ≠ chr '/' ∧ at0 path 0 ≠ chr '/'
  · rw [if_pos hsep] at hf
    split at hf
    · cases hf
    obtain rfl := Option.some.inj hf
    have hnul : (0 : Byte) ∉ r.name ++ [chr '/'] := by
      rw [List.mem_append]
      rintro (h | h)
      · exact r.no_nul h
      · revert h
        decide
    refine ⟨slash :: cstr (decodePath path plen), ?_, comps_cons_slash _, Or.inr (Or.inl rfl)⟩
    rw [cstr_append hnul, List.append_assoc]
    rfl
  · rw [if_neg hsep] at hf
    split at hf
    · cases hf
    obtain rfl := Option.some.inj hf
    rw [cstr_append r.no_nul]
    refine ⟨cstr (decodePath path plen), rfl, rfl, ?_⟩
    rw [not_and_or, not_not, not_not] at hsep
    rcases hsep with hs | hs
    · exact Or.inr (Or.inr (hlast hs))
    · rcases hhead _ (decodePath_head hs plen) with h | h
      · exact Or.inl h
      · exact Or.inr (Or.inl h)

/-- **The name of a path that is not refused stays inside the root exactly when it does not
climb.** -/
theorem inside_fullPath_iff {r : RootDir} {fs : Fs} {cacheRoot root : Option Bytes}
    {path full : Bytes} {plen : ℕ} (hr : (root <|> cacheRoot) = some r.name)
    (hf : fullPath fs cacheRoot root path plen = some full) (hok : refused full = false) :
    Inside r.name (cstr full) ↔ ¬ Climbs r path plen := by
  obtain ⟨x, hx, hcomps, hseam⟩ := cstr_fullPath hr hf
  have hno : ¬ dotdot ++ [slash] <:+: x := by
    intro hin
    simp only [refused, Bool.or_eq_false_iff, Option.isSome_eq_false_iff, Option.isNone_iff_eq_none,
      strstr] at hok
    obtain ⟨s, t, rfl⟩ := hin
    refine find_eq_none_iff.mp hok.1 (r.name ++ s).length ?_ ?_
    · rw [hx]
      simp
    · rw [hx]
      refine ⟨t, ?_⟩
      rw [show r.name ++ (s ++ (dotdot ++ [slash]) ++ t) =
        (r.name ++ s) ++ (bytes "../" ++ t) by simp [dotdot, slash, bytes, chr], List.drop_left]
  rw [hx, inside_append_iff r.ne r.no_dotdot hseam (dotdot_not_mem_dropLast hno), hcomps]
  rfl

/-- The index below a path inside is inside, whole or short of its last byte. -/
theorem inside_indexPath {root p index : Bytes} (hp : p ≠ []) (hin : Inside root p)
    (h : indexPath p = some index) : Inside root index := by
  obtain ⟨q, hq, hqs, hqin, hfull⟩ : ∃ q, q ≠ [] ∧ q.getLast? = some slash ∧ Inside root q ∧
      (if p.getLast? = some (chr '/') then p ++ bytes "index.html" else p ++ bytes "/index.html") =
        q ++ bytes "index.html" := by
    by_cases hs : p.getLast? = some (chr '/')
    · exact ⟨p, hp, hs, hin, by rw [if_pos hs]⟩
    · refine ⟨p ++ [slash], by simp, by simp, ?_, by
        rw [if_neg hs, List.append_assoc]
        rfl⟩
      unfold Inside resolve at hin ⊢
      rw [comps_append (Or.inr (Or.inl rfl)), comps_cons_slash, comps_nil, List.append_nil]
      unfold isAbs at hin ⊢
      rwa [List.head?_append_of_ne_nil _ hp]
  simp only [indexPath, hfull] at h
  split at h
  · cases h
  · next hlen =>
    obtain rfl := Option.some.inj h
    have hw : ∀ w : Bytes, w = bytes "index.html" ∨ w = bytes "index.htm" → Inside root (q ++ w) := by
      rintro w (rfl | rfl)
      · exact hqin.append_name hq (by decide) (by decide) hqs
      · exact hqin.append_name hq (by decide) (by decide) hqs
    by_cases hfit : (q ++ bytes "index.html").length ≤ pathBufSize - 1
    · rw [List.take_of_length_le hfit]
      exact hw _ (Or.inl rfl)
    · have hq' : q.length = 1014 := by
        simp only [List.length_append, pathBufSize, show (bytes "index.html").length = 10 from rfl]
          at hlen hfit
        omega
      rw [List.take_append, hq', List.take_of_length_le (by rw [hq']; decide)]
      exact hw _ (Or.inr (by decide))

/-- The names opened for a page: its own, and maybe the index below it. -/
theorem openPage_names (fs : Fs) (mime : Option Bytes) (path : Bytes) :
    path ∈ (openPage fs mime path).2 ∧
      ∀ n ∈ (openPage fs mime path).2, n = path ∨ indexPath path = some n := by
  unfold openPage
  dsimp only
  split
  · split <;> simp
  · split
    · simp
    · simp
    · next hidx =>
      split <;> simp [hidx]

theorem updateContents_names (fs : Fs) (w : World) (p : Page) :
    (updateContents fs w p).2.2 = (openPage fs (pathMime w.cache p.path) p.path).2 ∧
      (updateContents fs w p).2.1.path = p.path := by
  unfold updateContents
  dsimp only
  split
  · next h => exact ⟨by rw [h], rfl⟩
  · next h =>
    split
    · exact ⟨by rw [h], rfl⟩
    · split
      · exact ⟨by rw [h], rfl⟩
      · exact ⟨by rw [h], rfl⟩

/-- The names a load opens are inside when the page's own is. -/
theorem inside_updateContents {root : Bytes} (fs : Fs) (w : World) {p : Page} (hp : p.path ≠ [])
    (hin : Inside root p.path) : ∀ n ∈ (updateContents fs w p).2.2, Inside root n := by
  rw [(updateContents_names fs w p).1]
  intro n hn
  rcases (openPage_names fs _ p.path).2 n hn with rfl | hidx
  · exact hin
  · exact inside_indexPath hp hin hidx

/-! ## What a call leaves as it was -/

/-- The root and the names of the pages there are stay; pages are only added. -/
structure World.Extends (w w' : World) : Prop where
  root : w'.root = w.root
  next : w.next ≤ w'.next
  path : ∀ id < w.next, (w'.pages id).path = (w.pages id).path

theorem World.Extends.refl (w : World) : w.Extends w := ⟨rfl, Nat.le_refl _, fun _ _ => rfl⟩

theorem World.Extends.trans {w w' w'' : World} (h : w.Extends w') (k : w'.Extends w'') :
    w.Extends w'' :=
  ⟨k.root.trans h.root, h.next.trans k.next, fun id hid =>
    (k.path id (Nat.lt_of_lt_of_le hid h.next)).trans (h.path id hid)⟩

theorem World.Extends.update (w : World) {id : PageId} {p : Page} (hp : p.path = (w.pages id).path)
    (names : List Bytes) :
    w.Extends { w with pages := Function.update w.pages id p, opened := names } where
  root := rfl
  next := Nat.le_refl _
  path := by
    intro j _
    by_cases he : j = id
    · subst he
      simpa using hp
    · simp [Function.update_of_ne he]

theorem loadPage_extends (fs : Fs) (w : World) (id : PageId) : w.Extends (loadPage fs w id).2 :=
  .update w (updateContents_names fs w _).2 _

theorem setLastCheck_extends (w : World) (id : PageId) (now : ℕ) :
    w.Extends (setLastCheck w id now) :=
  .update w (p := { w.pages id with lastCheck := now }) rfl w.opened

theorem pageRemove_extends (w : World) (id : PageId) :
    w.Extends (pageRemove w id) ∧ (pageRemove w id).cache.ruckets = w.cache.ruckets ∧
      (pageRemove w id).opened = w.opened := by
  unfold pageRemove
  dsimp only
  split
  · exact ⟨.refl w, rfl, rfl⟩
  · exact ⟨⟨rfl, Nat.le_refl _, fun _ _ => rfl⟩, rfl, rfl⟩

/-- `page_check` opens files only to load the page again, and leaves the root table. -/
theorem pageCheck_extends (fs : Fs) (w : World) (id : PageId) :
    w.Extends (pageCheck fs w id).2 ∧ (pageCheck fs w id).2.cache.ruckets = w.cache.ruckets ∧
      ((pageCheck fs w id).2.opened = w.opened ∨
        (pageCheck fs w id).2.opened = (updateContents fs w (w.pages id)).2.2 ++ w.opened) := by
  unfold pageCheck
  dsimp only
  split_ifs
  · exact ⟨.refl w, rfl, Or.inl rfl⟩
  · obtain ⟨he, hr, ho⟩ := pageRemove_extends (loadPage fs w id).2 id
    exact ⟨(loadPage_extends fs w id).trans he, hr, Or.inr ho⟩
  · exact ⟨(loadPage_extends fs w id).trans (setLastCheck_extends _ id fs.dtime), rfl, Or.inr rfl⟩
  · exact ⟨setLastCheck_extends w id fs.dtime, rfl, Or.inl rfl⟩
  · exact ⟨.refl w, rfl, Or.inl rfl⟩

/-- A new page is named by the C string of its full path, and its load opens the names for it. -/
theorem loadNew_extends (set : Cache PageId → Bytes → PageId → Option PageId × Cache PageId)
    (fs : Fs) (w : World) (full : Bytes) :
    w.Extends (loadNew set fs w full).2 ∧ (loadNew set fs w full).2.next = w.next + 1 ∧
      ((loadNew set fs w full).2.pages w.next).path = cstr full ∧
      ((loadNew set fs w full).2.cache = w.cache ∨
        (loadNew set fs w full).2.cache = (set w.cache full w.next).2) ∧
      (loadNew set fs w full).2.opened = (updateContents fs w (freshPage full)).2.2 ++ w.opened := by
  have hpage : (pageCreate w full).2.pages w.next = freshPage full := Function.update_self ..
  have hnames : (loadPage fs (pageCreate w full).2 w.next).2.opened =
      (updateContents fs w (freshPage full)).2.2 ++ w.opened := by
    simp only [loadPage, hpage]
    rw [updateContents_congr (v := (pageCreate w full).2) (w := w) (freshPage full) rfl rfl rfl]
    rfl
  have hcreate : w.Extends (pageCreate w full).2 :=
    ⟨rfl, Nat.le_succ _, fun id hid => by
      have : id ≠ w.next := hid.ne
      simp [pageCreate, Function.update_of_ne this]⟩
  have hload := loadPage_extends fs (pageCreate w full).2 w.next
  have hpath : ((loadPage fs (pageCreate w full).2 w.next).2.pages w.next).path = cstr full := by
    rw [hload.path w.next (Nat.lt_succ_self _), hpage]
    rfl
  have hall := hcreate.trans hload
  unfold loadNew destroyOld
  dsimp only
  split
  · exact ⟨⟨hall.root, hall.next, hall.path⟩, rfl, hpath, Or.inl rfl, hnames⟩
  · split
    · exact ⟨⟨hall.root, hall.next, hall.path⟩, rfl, hpath, Or.inr rfl, hnames⟩
    · exact ⟨⟨hall.root, hall.next, hall.path⟩, rfl, hpath, Or.inr rfl, hnames⟩

/-! ## Every call keeps the root table inside the root -/

/-- Every page of the root table is named inside the root. -/
def World.BelowRoot (r : RootDir) (w : World) : Prop :=
  ∀ i s, s ∈ w.cache.ruckets i → s.value < w.next ∧ (w.pages s.value).path ≠ [] ∧
    Inside r.name (w.pages s.value).path

theorem World.BelowRoot.extend {r : RootDir} {w w' : World} (h : w.BelowRoot r)
    (hext : w.Extends w') (hr : w'.cache.ruckets = w.cache.ruckets) : w'.BelowRoot r := by
  intro i s hs
  rw [hr] at hs
  obtain ⟨hlt, hne, hin⟩ := h i s hs
  rw [hext.path _ hlt]
  exact ⟨Nat.lt_of_lt_of_le hlt hext.next, hne, hin⟩

/-- A call of `agoo_page_get` that does not come to load a climbing path keeps the table inside the
root and opens no name outside it. -/
theorem World.BelowRoot.pageGet {r : RootDir} {w : World} (h : w.BelowRoot r) {fs : Fs}
    {path : Bytes} {plen : ℕ} {root : Option Bytes} (hr : (root <|> w.root) = some r.name)
    (hok : (PageCall.target w (.pageGet path plen root fs)).isSome → ¬ Climbs r path plen) :
    (pageGet fs w path plen root).2.BelowRoot r ∧
      ∀ n ∈ (pageGet fs w path plen root).2.opened, n ∈ w.opened ∨ Inside r.name n := by
  rcases pageGet_cases fs w path plen root with ⟨-, e, hrun⟩ | ⟨-, full, id, hget, hrun⟩ |
    ⟨full, ht, hf, href, -, hrun⟩
  · rw [hrun]
    exact ⟨h, fun n hn => Or.inl hn⟩
  · obtain ⟨s, hs, rfl⟩ := Option.map_eq_some_iff.mp hget
    obtain ⟨-, hne, hin⟩ := h _ s (List.mem_of_find?_eq_some hs)
    obtain ⟨hext, htab, hopen⟩ := pageCheck_extends fs w s.value
    rw [hrun]
    refine ⟨h.extend hext htab, fun n hn => ?_⟩
    rcases hopen with ho | ho
    · exact Or.inl (ho ▸ hn)
    · rw [ho, List.mem_append] at hn
      rcases hn with hn | hn
      · exact Or.inr (inside_updateContents fs w hne hin n hn)
      · exact Or.inl hn
  · have hin : Inside r.name (cstr full) :=
      (inside_fullPath_iff hr hf href).mpr (hok (by rw [ht]; rfl))
    have hne : cstr full ≠ [] := by
      obtain ⟨x, hx, -⟩ := cstr_fullPath hr hf
      rw [hx]
      exact List.append_ne_nil_of_left_ne_nil r.ne x
    obtain ⟨hext, hnext, hpath, hcache, hopen⟩ := loadNew_extends cacheRootSet fs w full
    rw [hrun]
    constructor
    · rcases hcache with hc | hc
      · exact h.extend hext (by rw [hc])
      · intro i s hs
        rw [hc] at hs
        rcases ruckets_cacheRootSet hs with ⟨hv, -⟩ | hs
        · rw [hv, hpath, hnext]
          exact ⟨Nat.lt_succ_self _, hne, hin⟩
        · obtain ⟨hlt, hsne, hsin⟩ := h i s hs
          rw [hext.path _ hlt]
          exact ⟨Nat.lt_of_lt_of_le hlt hext.next, hsne, hsin⟩
    · intro n hn
      rw [hopen, List.mem_append] at hn
      rcases hn with hn | hn
      · exact Or.inr (inside_updateContents fs w (p := freshPage full) hne hin n hn)
      · exact Or.inl hn

/-- A call of `agoo_group_get` leaves the root table. -/
theorem World.BelowRoot.groupGet {r : RootDir} {w : World} (h : w.BelowRoot r) (fs : Fs)
    (path : Bytes) (plen : ℕ) :
    (groupGet fs w path plen).2.BelowRoot r ∧ (groupGet fs w path plen).2.root = w.root := by
  rcases groupGet_cases fs w path plen with ⟨-, e, hrun⟩ | ⟨-, full, id, -, hrun⟩ |
    ⟨full, -, -, hrun⟩
  · rw [hrun]
    exact ⟨h, rfl⟩
  · obtain ⟨hext, htab, -⟩ := pageCheck_extends fs w id
    rw [hrun]
    exact ⟨h.extend hext htab, hext.root⟩
  · obtain ⟨hext, -, -, hcache, -⟩ := loadNew_extends cacheSet fs w full
    rw [hrun]
    refine ⟨h.extend hext ?_, hext.root⟩
    rcases hcache with hc | hc
    · rw [hc]
    · rw [hc]
      rfl

theorem pageGet_root (fs : Fs) (w : World) (path : Bytes) (plen : ℕ) (root : Option Bytes) :
    (pageGet fs w path plen root).2.root = w.root := by
  rcases pageGet_cases fs w path plen root with ⟨-, e, hrun⟩ | ⟨-, full, id, -, hrun⟩ |
    ⟨full, -, -, -, -, hrun⟩
  · rw [hrun]
  · rw [hrun]
    exact (pageCheck_extends fs w id).1.root
  · rw [hrun]
    exact (loadNew_extends cacheRootSet fs w full).1.root

/-! ## Runs -/

/-- A call that comes to load a page of the root table does not climb. -/
def PageCall.Stays (r : RootDir) (w : World) : PageCall → Prop
  | .pageGet path plen root fs =>
    (PageCall.target w (.pageGet path plen root fs)).isSome → ¬ Climbs r path plen
  | .groupGet _ _ _ => True

theorem belowRoot_init (r : RootDir) (mimes : List (Bytes × Bytes)) (root : Option Bytes)
    (groups : List Group) (rules : List HeadRule) :
    (World.init mimes root groups rules).BelowRoot r := by
  intro i s hs
  have := (inv_init mimes root groups rules).held_lt s.value ⟨i, s, Or.inr hs, rfl⟩
  exact absurd this (Nat.not_lt_zero _)

/-- The root table is inside the root after calls that stay. -/
theorem belowRoot_runCalls {r : RootDir} {w : World} (h : w.BelowRoot r) {calls : List PageCall}
    (hroot : ∀ c ∈ calls, c.Under r w.root)
    (hstay : ∀ pre c post, calls = pre ++ c :: post → c.Stays r (runCalls w pre)) :
    (runCalls w calls).BelowRoot r ∧ (runCalls w calls).root = w.root := by
  induction calls using List.reverseRecOn with
  | nil => exact ⟨h, rfl⟩
  | append_singleton calls c ih =>
    obtain ⟨hb, he⟩ := ih (fun d hd => hroot d (List.mem_append_left _ hd))
      fun pre d post hsplit => hstay pre d (post ++ [c]) (by rw [hsplit]; simp)
    have hc := hstay calls c [] rfl
    have hu : c.Under r (runCalls w calls).root := by
      rw [he]
      exact hroot c (by simp)
    rw [runCalls_concat]
    cases c with
    | pageGet path plen root fs =>
      exact ⟨(hb.pageGet hu hc).1, (pageGet_root fs _ path plen root).trans he⟩
    | groupGet path plen fs =>
      obtain ⟨hb', hr'⟩ := hb.groupGet fs path plen
      exact ⟨hb', hr'.trans he⟩

/-- A call that comes to load a climbing path opens a name outside the root. -/
theorem PageCall.opens_outside {r : RootDir} {w : World} {fs : Fs} {path : Bytes} {plen : ℕ}
    {root : Option Bytes} (hr : (root <|> w.root) = some r.name)
    (ht : (PageCall.target w (.pageGet path plen root fs)).isSome) (hc : Climbs r path plen) :
    ∃ n ∈ PageCall.opens w (.pageGet path plen root fs), ¬ Inside r.name n := by
  -- what the call comes to does not depend on the names opened before
  change (PageCall.target { w with opened := [] } (.pageGet path plen root fs)).isSome at ht
  rcases pageGet_cases fs { w with opened := [] } path plen root with ⟨hn, -⟩ | ⟨hn, -⟩ |
    ⟨full, -, hf, href, -, hrun⟩
  · rw [hn] at ht
    cases ht
  · rw [hn] at ht
    cases ht
  · refine ⟨cstr full, ?_, fun hin => (inside_fullPath_iff hr hf href).mp hin hc⟩
    have hopen := (loadNew_extends cacheRootSet fs { w with opened := [] } full).2.2.2.2
    rw [PageCall.opens, PageCall.run, hrun, hopen, (updateContents_names fs _ _).1,
      List.append_nil]
    exact (openPage_names fs _ (freshPage full).path).1

/-- **Static pages stay inside the root exactly as long as no call that comes to load a page
climbs**: over any sequence of calls under one root, every name opened for a page resolves to a
place inside the root. -/
theorem pages_inside_iff (mimes : List (Bytes × Bytes)) (cacheRoot : Option Bytes)
    (groups : List Group) (rules : List HeadRule) (r : RootDir) (calls : List PageCall)
    (hroot : ∀ c ∈ calls, c.Under r cacheRoot) :
    (∀ pre path plen root fs post, calls = pre ++ .pageGet path plen root fs :: post →
      ∀ n ∈ PageCall.opens (runCalls (World.init mimes cacheRoot groups rules) pre)
        (.pageGet path plen root fs), Inside r.name n) ↔
      ∀ pre path plen root fs post, calls = pre ++ .pageGet path plen root fs :: post →
        (PageCall.target (runCalls (World.init mimes cacheRoot groups rules) pre)
          (.pageGet path plen root fs)).isSome → ¬ Climbs r path plen := by
  set w := World.init mimes cacheRoot groups rules with hw
  -- up to the first call that climbs the table is inside, so every call meets the root it was given
  have hstate : ∀ pre c post, calls = pre ++ c :: post →
      (∀ pre' c' post', pre = pre' ++ c' :: post' → c'.Stays r (runCalls w pre')) →
        (runCalls w pre).BelowRoot r ∧ c.Under r (runCalls w pre).root := by
    intro pre c post hsplit hstay
    obtain ⟨hb, he⟩ := belowRoot_runCalls (belowRoot_init r mimes cacheRoot groups rules)
      (fun d hd => hroot d (by rw [hsplit]; exact List.mem_append_left _ hd)) hstay
    refine ⟨hb, ?_⟩
    rw [he]
    exact hroot c (by rw [hsplit]; simp)
  constructor
  · intro hin
    -- by induction on the position, every call before stays
    have hall : ∀ k, ∀ pre c post, pre.length = k → calls = pre ++ c :: post →
        c.Stays r (runCalls w pre) := by
      intro k
      induction k using Nat.strong_induction_on with
      | _ k ih =>
        intro pre c post hk hsplit
        obtain ⟨-, hu⟩ := hstate pre c post hsplit fun pre' c' post' he =>
          ih pre'.length (by rw [← hk, he]; simp) pre' c' (post' ++ c :: post) rfl
            (by rw [hsplit, he]; simp)
        cases c with
        | groupGet => trivial
        | pageGet path plen root fs =>
          intro ht hc
          obtain ⟨n, hn, hout⟩ := PageCall.opens_outside hu ht hc
          exact hout (hin pre path plen root fs post hsplit n hn)
    intro pre path plen root fs post hsplit
    exact hall _ pre _ post rfl hsplit
  · intro hclimb pre path plen root fs post hsplit n hn
    have hstay : ∀ pre' c' post', calls = pre' ++ c' :: post' → c'.Stays r (runCalls w pre') := by
      intro pre' c' post' he
      cases c' with
      | groupGet => trivial
      | pageGet path' plen' root' fs' => exact hclimb pre' path' plen' root' fs' post' he
    obtain ⟨hb, hu⟩ := hstate pre _ post hsplit fun pre' c' post' he =>
      hstay pre' c' (post' ++ .pageGet path plen root fs :: post) (by rw [hsplit, he]; simp)
    have hb' : World.BelowRoot r { runCalls w pre with opened := [] } := hb
    rcases (hb'.pageGet hu (hclimb pre path plen root fs post hsplit)).2 n hn with h | h
    · cases h
    · exact h

/-- The root `/r`. -/
def siteRoot : RootDir := ⟨bytes "/r", by decide, by decide, by decide⟩

/-- A system with a file in the root and one in the directory above it. -/
def siteFs : Fs where
  fopen := fun name =>
    if name = bytes "/r/a" ∨ name = bytes "/r/../index.html" then some ⟨some true, some 0, []⟩
    else if name = bytes "/r/.." then some ⟨some false, none, []⟩
    else none
  stat := fun _ => some 0
  restat := fun _ => some 0
  access := fun _ => true
  dtime := 0
  below := 0

/-- A request for a path under the cache's root. -/
def siteCall (path : String) : PageCall := .pageGet (bytes path) (bytes path).length none siteFs

/-- A request for `/a` opens `/r/a`, inside the root. -/
theorem site_inside :
    bytes "/r/a" ∈ PageCall.opens (World.init [] (some (bytes "/r")) [] []) (siteCall "/a") ∧
      Inside (bytes "/r") (bytes "/r/a") := by
  have hopen : bytes "/r/a" ∈
      PageCall.opens (World.init [] (some (bytes "/r")) [] []) (siteCall "/a") := by decide +kernel
  refine ⟨hopen, (pages_inside_iff [] (some (bytes "/r")) [] [] siteRoot [siteCall "/a"] ?_).mpr ?_
    [] (bytes "/a") 2 none siteFs [] rfl _ hopen⟩
  · intro c hc
    rw [List.mem_singleton] at hc
    subst hc
    exact rfl
  · intro pre path plen root fs post hsplit _ hclimb
    obtain ⟨rfl, rfl⟩ : path = bytes "/a" ∧ plen = 2 := by
      cases pre with
      | nil =>
        rw [List.nil_append, List.cons.injEq, siteCall, PageCall.pageGet.injEq] at hsplit
        exact ⟨hsplit.1.1.symm, hsplit.1.2.1.symm⟩
      | cons => simp at hsplit
    exact absurd hclimb.1 (by decide)

/-- A request for `/..` serves the index of the directory above the root. -/
theorem parent_opened :
    ¬ ∀ (mimes : List (Bytes × Bytes)) (cacheRoot : Option Bytes) (groups : List Group)
      (rules : List HeadRule) (r : RootDir) (calls : List PageCall),
      (∀ c ∈ calls, c.Under r cacheRoot) →
        ∀ pre path plen root fs post, calls = pre ++ .pageGet path plen root fs :: post →
          ∀ n ∈ PageCall.opens (runCalls (World.init mimes cacheRoot groups rules) pre)
            (.pageGet path plen root fs), Inside r.name n := by
  intro h
  have hin : ∀ n ∈ PageCall.opens (World.init [] (some (bytes "/r")) [] []) (siteCall "/.."),
      Inside (bytes "/r") n :=
    h [] (some (bytes "/r")) [] [] siteRoot [siteCall "/.."]
      (fun c hc => by rw [List.mem_singleton.mp hc]; exact rfl) [] _ _ none siteFs [] rfl
  have hopen : PageCall.opens (World.init [] (some (bytes "/r")) [] []) (siteCall "/..") =
      [bytes "/r/../index.html", bytes "/r/.."] := by decide +kernel
  refine absurd (hin (bytes "/r/../index.html") ?_) (by decide)
  rw [hopen]
  exact List.mem_cons_self

end Agoo
