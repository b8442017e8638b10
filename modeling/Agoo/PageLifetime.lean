import Agoo.Page

/-!
# Page lifetime

Pages are owned by the slots of the two page tables. `bucket_set` hands back the page it replaced,
and its callers destroy what they are handed; but it hands back the page itself when the key is
longer than `maxKeyLen`, and then the page about to be returned is destroyed.

`pages_live_iff`: over any sequence of calls every page returned or held by a slot is live and none
is destroyed twice, exactly when no call loads a page under a key longer than `maxKeyLen`.
-/

namespace Agoo

/-- A slot of a page table holds the page. -/
def Cache.Holds (c : Cache PageId) (id : PageId) : Prop :=
  ∃ i s, (s ∈ c.buckets i ∨ s ∈ c.ruckets i) ∧ s.value = id

/-- What every call keeps as long as no overlong key is loaded. -/
structure World.Inv (w : World) : Prop where
  held_lt : ∀ id, w.cache.Holds id → id < w.next
  held_resp : ∀ id, w.cache.Holds id → (w.pages id).resp.isSome
  held_live : ∀ id, w.cache.Holds id → id ∉ w.destroyed
  destroyed_lt : ∀ id ∈ w.destroyed, id < w.next
  nodup : w.destroyed.Nodup

/-- Every page a slot holds is live, and no page was destroyed twice. -/
def World.Live (w : World) : Prop :=
  (∀ id, w.cache.Holds id → id ∉ w.destroyed) ∧ w.destroyed.Nodup

/-- The page a call returned, if any, is live after the call. -/
def Got.Live (r : Got × World) : Prop := ∀ id, r.1.page = some id → id ∉ r.2.destroyed

/-- The full path a call loads a page for: the one it comes to when neither a refusal nor a cached
page ends it before. -/
def PageCall.target (w : World) : PageCall → Option Bytes
  | .pageGet path plen root fs =>
    (fullPath fs w.root root path plen).filter fun full =>
      !refused full && (cacheRootGet w.cache full).isNone && w.root.isSome
  | .groupGet path plen fs =>
    if (strstr path (bytes "../")).isSome then none
    else (w.groups.find? fun g => g.serves path plen).bind fun g =>
      if ((groupPaths g path plen).findSome? (cacheGet w.cache)).isSome then none
      else (groupPaths g path plen).find? fun full => fs.access (cstr full)

def PageCall.fs : PageCall → Fs
  | .pageGet _ _ _ fs => fs
  | .groupGet _ _ fs => fs

/-- The page `agoo_page_create` makes. -/
def freshPage (path : Bytes) : Page := ⟨none, cstr path, 0, 0, false⟩

/-- The system has a file to load the page from: one that opens, by its own name or as the index
below it, and gives as many bytes as its size says. -/
def Loadable (fs : Fs) (w : World) (path : Bytes) : Prop :=
  ∃ f name mime size, (openPage fs (pathMime w.cache path) path).1 = some (f, name, mime) ∧
    f.size = some size ∧ size ≤ f.data.length

/-- A call does not load a page whose key is too long to be stored. -/
def PageCall.Fits (w : World) (c : PageCall) : Prop :=
  ∀ full, c.target w = some full → Loadable c.fs w (cstr full) → full.length ≤ maxKeyLen

/-! ## What the parts of a call do -/

/-- A load succeeds exactly when there is a file to load from. -/
theorem updateContents_iff (fs : Fs) (w : World) (p : Page) :
    (updateContents fs w p).1 = true ↔ Loadable fs w p.path := by
  unfold updateContents Loadable
  dsimp only
  split
  · next names hopen => simp [hopen]
  · next f name mime names hopen =>
    simp only [hopen, Option.some.injEq, Prod.mk.injEq]
    split
    · next hsize =>
      constructor
      · intro h; cases h
      · rintro ⟨g, _, _, size, ⟨rfl, -, -⟩, hs, -⟩
        rw [hsize] at hs
        cases hs
    · next size hsize =>
      constructor
      · intro h
        refine ⟨f, name, mime, size, ⟨rfl, rfl, rfl⟩, hsize, ?_⟩
        split at h
        · cases h
        · next hlen =>
          rw [List.length_take] at hlen
          omega
      · rintro ⟨g, _, _, size', ⟨rfl, -, -⟩, hs, hle⟩
        obtain rfl : size = size' := Option.some.inj (hsize.symm.trans hs)
        rw [if_neg (by rw [List.length_take]; omega)]

/-- A load that succeeds sets the response; one that fails leaves the page. -/
theorem updateContents_cases (fs : Fs) (w : World) (p : Page) :
    ((updateContents fs w p).1 = true ∧ (updateContents fs w p).2.1.resp.isSome) ∨
      ((updateContents fs w p).1 = false ∧ (updateContents fs w p).2.1 = p) := by
  unfold updateContents
  dsimp only
  split
  · exact Or.inr ⟨rfl, rfl⟩
  · split
    · exact Or.inr ⟨rfl, rfl⟩
    · split
      · exact Or.inr ⟨rfl, rfl⟩
      · exact Or.inl ⟨rfl, rfl⟩

theorem updateContents_resp {fs : Fs} {w : World} {p : Page} (h : p.resp.isSome) :
    (updateContents fs w p).2.1.resp.isSome := by
  rcases updateContents_cases fs w p with ⟨-, hr⟩ | ⟨-, he⟩
  · exact hr
  · rw [he]
    exact h

/-- The answer of `update_contents` depends on the cache, the root and the rules alone. -/
theorem updateContents_congr {fs : Fs} {v w : World} (p : Page) (hc : v.cache = w.cache)
    (hr : v.root = w.root) (hh : v.headRules = w.headRules) :
    updateContents fs v p = updateContents fs w p := by
  unfold updateContents
  rw [hc, hr, hh]

/-- The slots of a bucket array after a store. -/
theorem mem_update_slotPut {α : Type} {n : ℕ} {t : Fin n → List (Slot α)} {i j : Fin n}
    {key : Bytes} {v : α} {s : Slot α}
    (h : s ∈ Function.update t i (slotPut (t i) key v) j) : s.value = v ∨ s ∈ t j := by
  by_cases hj : j = i
  · subst hj
    rw [Function.update_self] at h
    rcases Chain.mem_put h with rfl | h | ⟨d, -, -, rfl⟩
    · exact Or.inl rfl
    · exact Or.inr h
    · exact Or.inl rfl
  · rw [Function.update_of_ne hj] at h
    exact Or.inr h

theorem buckets_cacheSet {c : Cache PageId} {key : Bytes} {v : PageId} {i : Fin pageBucketSize}
    {s : Slot PageId} (h : s ∈ (cacheSet c key v).2.buckets i) :
    (s.value = v ∧ key.length ≤ maxKeyLen) ∨ s ∈ c.buckets i := by
  unfold cacheSet bucketSet at h
  by_cases hl : maxKeyLen < key.length
  · simp only [hl, if_true, Function.update_eq_self] at h
    exact Or.inr h
  · simp only [hl, if_false] at h
    exact (mem_update_slotPut h).imp_left fun hv => ⟨hv, Nat.not_lt.mp hl⟩

theorem ruckets_cacheRootSet {c : Cache PageId} {key : Bytes} {v : PageId} {i : Fin pageBucketSize}
    {s : Slot PageId} (h : s ∈ (cacheRootSet c key v).2.ruckets i) :
    (s.value = v ∧ key.length ≤ maxKeyLen) ∨ s ∈ c.ruckets i :=
  -- the root table is the page table with the two arrays exchanged
  buckets_cacheSet (c := ⟨c.ruckets, c.buckets, c.muckets⟩) h

theorem holds_cacheSet {c : Cache PageId} {key : Bytes} {v id : PageId}
    (h : (cacheSet c key v).2.Holds id) : (id = v ∧ key.length ≤ maxKeyLen) ∨ c.Holds id := by
  obtain ⟨i, s, hs | hs, rfl⟩ := h
  · exact (buckets_cacheSet hs).imp_right fun h => ⟨i, s, Or.inl h, rfl⟩
  · exact Or.inr ⟨i, s, Or.inr hs, rfl⟩

theorem holds_cacheRootSet {c : Cache PageId} {key : Bytes} {v id : PageId}
    (h : (cacheRootSet c key v).2.Holds id) : (id = v ∧ key.length ≤ maxKeyLen) ∨ c.Holds id := by
  obtain ⟨i, s, hs | hs, rfl⟩ := h
  · exact Or.inr ⟨i, s, Or.inl hs, rfl⟩
  · exact (ruckets_cacheRootSet hs).imp_right fun h => ⟨i, s, Or.inr h, rfl⟩

theorem holds_of_cacheGet {c : Cache PageId} {key : Bytes} {id : PageId}
    (h : cacheGet c key = some id) : c.Holds id := by
  obtain ⟨s, hs, rfl⟩ := Option.map_eq_some_iff.mp h
  exact ⟨_, s, Or.inl (List.mem_of_find?_eq_some hs), rfl⟩

theorem holds_of_cacheRootGet {c : Cache PageId} {key : Bytes} {id : PageId}
    (h : cacheRootGet c key = some id) : c.Holds id := by
  obtain ⟨s, hs, rfl⟩ := Option.map_eq_some_iff.mp h
  exact ⟨_, s, Or.inr (List.mem_of_find?_eq_some hs), rfl⟩

/-- What the callers of `cache_set` and `cache_root_set` rely on. -/
structure SetSpec (set : Cache PageId → Bytes → PageId → Option PageId × Cache PageId)
    (get : Cache PageId → Bytes → Option PageId) : Prop where
  old : ∀ c key v, (set c key v).1 = if maxKeyLen < key.length then some v else get c key
  holds : ∀ c key v id, (set c key v).2.Holds id → (id = v ∧ key.length ≤ maxKeyLen) ∨ c.Holds id

theorem cacheSet_spec : SetSpec cacheSet cacheGet :=
  ⟨fun _ _ _ => bucketSet_old _ _ _, fun _ _ _ _ => holds_cacheSet⟩

theorem cacheRootSet_spec : SetSpec cacheRootSet cacheRootGet :=
  ⟨fun _ _ _ => bucketSet_old _ _ _, fun _ _ _ _ => holds_cacheRootSet⟩

/-! ## Every call keeps the invariant -/

theorem inv_init (mimes : List (Bytes × Bytes)) (root : Option Bytes) (groups : List Group)
    (rules : List HeadRule) : (World.init mimes root groups rules).Inv := by
  have hpages : ∀ c : Cache PageId, (∀ i, c.buckets i = []) → (∀ i, c.ruckets i = []) →
      ∀ ms : List (Bytes × Bytes), ∀ id,
        ¬ ((ms.map fun m => CacheOp.mimeSet m.1 m.2).foldl CacheOp.apply c).Holds id := by
    intro c hb hr ms
    induction ms generalizing c with
    | nil =>
      rintro id ⟨i, s, hs, -⟩
      simp [hb, hr] at hs
    | cons m ms ih =>
      have := apply_mimeSet_pages c m.1 m.2
      exact ih _ (fun i => by rw [this.1, hb]) (fun i => by rw [this.2, hr])
  have hnone : ∀ id, ¬ (World.init mimes root groups rules).cache.Holds id :=
    hpages _ (fun _ => rfl) (fun _ => rfl) mimes
  exact ⟨fun id h => absurd h (hnone id), fun id h => absurd h (hnone id),
    fun id h => absurd h (hnone id), by simp [World.init], by simp [World.init]⟩

/-- Changing a page without taking its response away keeps the invariant. -/
theorem World.Inv.update {w : World} (h : w.Inv) {id : PageId} {p : Page}
    (hp : w.cache.Holds id → p.resp.isSome) (names : List Bytes) :
    World.Inv { w with pages := Function.update w.pages id p, opened := names } where
  held_lt := h.held_lt
  held_resp := by
    intro j hj
    by_cases he : j = id
    · subst he
      simpa using hp hj
    · simpa [Function.update_of_ne he] using h.held_resp j hj
  held_live := h.held_live
  destroyed_lt := h.destroyed_lt
  nodup := h.nodup

/-- `page_check` returns the held page it is given: a page that was loaded keeps a response, so
`agoo_page_remove` is never reached. -/
theorem World.Inv.pageCheck {w : World} (h : w.Inv) (fs : Fs) {id : PageId}
    (hid : w.cache.Holds id) :
    (pageCheck fs w id).1 = ⟨some id, none⟩ ∧ (pageCheck fs w id).2.Inv ∧
      (pageCheck fs w id).2.destroyed = w.destroyed := by
  have hresp := h.held_resp id hid
  have hload : (loadPage fs w id).2.Inv := h.update (fun _ => updateContents_resp hresp) _
  have hset : ∀ v : World, v.Inv → v.cache.Holds id → (setLastCheck v id fs.dtime).Inv :=
    fun v hv hi => hv.update (p := { v.pages id with lastCheck := fs.dtime })
      (fun _ => hv.held_resp id hi) v.opened
  have hkeep : ((loadPage fs w id).2.pages id).resp ≠ none := by
    have := (updateContents_resp hresp : (updateContents fs w (w.pages id)).2.1.resp.isSome)
    simp only [loadPage, Function.update_self]
    exact Option.isSome_iff_ne_none.mp this
  unfold Agoo.pageCheck
  dsimp only
  -- `hkeep` closes the branch that removes the page
  split_ifs
  · exact ⟨rfl, h, rfl⟩
  · exact ⟨rfl, hset _ hload hid, rfl⟩
  · exact ⟨rfl, hset w h hid, rfl⟩
  · exact ⟨rfl, h, rfl⟩

theorem World.Inv.create {w : World} (h : w.Inv) (path : Bytes) : (pageCreate w path).2.Inv where
  held_lt := fun id hid => Nat.lt_succ_of_lt (h.held_lt id hid)
  held_resp := by
    intro id hid
    have : id ≠ w.next := (h.held_lt id hid).ne
    simpa [pageCreate, Function.update_of_ne this] using h.held_resp id hid
  held_live := h.held_live
  destroyed_lt := fun id hid => Nat.lt_succ_of_lt (h.destroyed_lt id hid)
  nodup := h.nodup

/-- Destroying a page no slot holds, not destroyed before. -/
theorem World.Inv.destroy {w : World} (h : w.Inv) {id : PageId} (hlt : id < w.next)
    (hheld : ¬ w.cache.Holds id) (hd : id ∉ w.destroyed) : (pageDestroy w id).Inv where
  held_lt := h.held_lt
  held_resp := h.held_resp
  held_live := by
    intro j hj hm
    rcases List.mem_cons.mp hm with rfl | hm
    · exact hheld hj
    · exact h.held_live j hj hm
  destroyed_lt := by
    intro j hj
    rcases List.mem_cons.mp hj with rfl | hj
    · exact hlt
    · exact h.destroyed_lt j hj
  nodup := List.nodup_cons.mpr ⟨hd, h.nodup⟩

/-- The state in which `loadNew` stores the page it made, or gives it up. -/
theorem World.Inv.made {w : World} (h : w.Inv) (fs : Fs) (full : Bytes) :
    (loadPage fs (pageCreate w full).2 w.next).2.Inv ∧ ¬ w.cache.Holds w.next ∧
      w.next ∉ w.destroyed := by
  have hfresh : ¬ w.cache.Holds w.next := fun hn => (h.held_lt _ hn).false
  exact ⟨(h.create full).update (fun hn => absurd hn hfresh) _, hfresh,
    fun hn => (h.destroyed_lt _ hn).false⟩

/-- The load of a new page, seen from the state before the page was made. -/
theorem loadPage_create (fs : Fs) (w : World) (full : Bytes) :
    (loadPage fs (pageCreate w full).2 w.next).1 = (updateContents fs w (freshPage full)).1 ∧
      ((loadPage fs (pageCreate w full).2 w.next).2.pages w.next) =
        (updateContents fs w (freshPage full)).2.1 := by
  have hpage : (pageCreate w full).2.pages w.next = freshPage full := Function.update_self ..
  simp only [loadPage, hpage, Function.update_self]
  rw [updateContents_congr (v := (pageCreate w full).2) (w := w) (freshPage full) rfl rfl rfl]
  exact ⟨rfl, rfl⟩

/-- **A load that fails, or whose key can be stored, keeps the invariant and returns a live
page.** -/
theorem World.Inv.loadNew {set : Cache PageId → Bytes → PageId → Option PageId × Cache PageId}
    {get : Cache PageId → Bytes → Option PageId} (hset : SetSpec set get) {w : World} (h : w.Inv)
    {fs : Fs} {full : Bytes} (hmiss : get w.cache full = none)
    (hfit : Loadable fs w (cstr full) → full.length ≤ maxKeyLen) :
    (loadNew set fs w full).2.Inv ∧ Got.Live (loadNew set fs w full) := by
  obtain ⟨hmade, hfresh, hnew⟩ := h.made fs full
  obtain ⟨hok, hpage⟩ := loadPage_create fs w full
  have hcases := updateContents_cases fs w (freshPage full)
  unfold Agoo.loadNew
  dsimp only
  split
  · exact ⟨hmade.destroy (Nat.lt_succ_self _) hfresh hnew, fun id hid => by cases hid⟩
  · next hdone =>
    -- the page was loaded, so its key can be stored and replaces nothing
    have hload : Loadable fs w (cstr full) :=
      (updateContents_iff fs w (freshPage full)).mp (by
        rw [← hok]
        exact Bool.not_eq_false _ ▸ fun hf => hdone (Or.inl hf))
    have hshort : ¬ maxKeyLen < full.length := Nat.not_lt.mpr (hfit hload)
    have hold : (set w.cache full w.next).1 = none := by
      rw [hset.old, if_neg hshort, hmiss]
    have hresp : ((loadPage fs (pageCreate w full).2 w.next).2.pages w.next).resp.isSome :=
      Option.isSome_iff_ne_none.mpr fun hn => hdone (Or.inr hn)
    have hcache : set (loadPage fs (pageCreate w full).2 w.next).2.cache full w.next =
        set w.cache full w.next := rfl
    rw [show (pageCreate w full).1 = w.next from rfl, hcache, hold]
    refine ⟨⟨?_, ?_, ?_, hmade.destroyed_lt, hmade.nodup⟩, ?_⟩
    · intro id hid
      rcases hset.holds _ _ _ _ hid with ⟨rfl, -⟩ | hid
      · exact Nat.lt_succ_self _
      · exact hmade.held_lt id hid
    · intro id hid
      rcases hset.holds _ _ _ _ hid with ⟨rfl, -⟩ | hid
      · exact hresp
      · exact hmade.held_resp id hid
    · intro id hid
      rcases hset.holds _ _ _ _ hid with ⟨rfl, -⟩ | hid
      · exact hnew
      · exact h.held_live id hid
    · rintro id ⟨⟩
      exact hnew

/-- **A page loaded under a key too long to store is destroyed by the call that returns it.** -/
theorem loadNew_overlong {set : Cache PageId → Bytes → PageId → Option PageId × Cache PageId}
    {get : Cache PageId → Bytes → Option PageId} (hset : SetSpec set get) {w : World} {fs : Fs}
    {full : Bytes} (hlong : maxKeyLen < full.length)
    (hfile : Loadable fs w (cstr full)) : ¬ Got.Live (loadNew set fs w full) := by
  have hload : (updateContents fs w (freshPage full)).1 = true :=
    (updateContents_iff fs w (freshPage full)).mpr hfile
  obtain ⟨hok, hpage⟩ := loadPage_create fs w full
  have hresp : (updateContents fs w (freshPage full)).2.1.resp.isSome := by
    rcases updateContents_cases fs w (freshPage full) with ⟨-, hr⟩ | ⟨hf, -⟩
    · exact hr
    · rw [hload] at hf
      cases hf
  have hold : (set w.cache full w.next).1 = some w.next := by
    rw [hset.old, if_pos hlong]
  intro hlive
  unfold Agoo.loadNew at hlive
  dsimp only at hlive
  rw [if_neg] at hlive
  · refine hlive w.next rfl ?_
    have hcache : set (loadPage fs (pageCreate w full).2 w.next).2.cache full w.next =
        set w.cache full w.next := rfl
    rw [show (pageCreate w full).1 = w.next from rfl, hcache, hold]
    exact List.mem_cons_self
  · rintro (hf | hn)
    · rw [show (pageCreate w full).1 = w.next from rfl, hok, hload] at hf
      cases hf
    · rw [show (pageCreate w full).1 = w.next from rfl, hpage] at hn
      rw [hn] at hresp
      cases hresp

/-! ## Calls -/

/-- **What `agoo_page_get` can do**: answer without a page, check the page of a slot, or load a new
one. -/
theorem pageGet_cases (fs : Fs) (w : World) (path : Bytes) (plen : ℕ) (root : Option Bytes) :
    (PageCall.target w (.pageGet path plen root fs) = none ∧
        ∃ e, pageGet fs w path plen root = (⟨none, e⟩, w)) ∨
      (PageCall.target w (.pageGet path plen root fs) = none ∧
        ∃ full id, cacheRootGet w.cache full = some id ∧
          pageGet fs w path plen root = pageCheck fs w id) ∨
      ∃ full, PageCall.target w (.pageGet path plen root fs) = some full ∧
        fullPath fs w.root root path plen = some full ∧ refused full = false ∧
        cacheRootGet w.cache full = none ∧
        pageGet fs w path plen root = loadNew cacheRootSet fs w full := by
  simp only [PageCall.target, pageGet]
  cases fullPath fs w.root root path plen with
  | none => exact Or.inl ⟨rfl, _, rfl⟩
  | some full =>
    dsimp only
    by_cases href : refused full = true
    · exact Or.inl ⟨by simp [href], none, by rw [if_pos href]⟩
    · rw [if_neg href]
      cases hget : cacheRootGet w.cache full with
      | some id => exact Or.inr (Or.inl ⟨by simp [hget], full, id, hget, rfl⟩)
      | none =>
        by_cases hroot : w.root = none
        · exact Or.inl ⟨by simp [hroot], none, by simp [hroot]⟩
        · have hr : w.root.isSome := Option.isSome_iff_ne_none.mpr hroot
          have hnot : refused full = false := Bool.eq_false_iff.mpr href
          exact Or.inr (Or.inr ⟨full, by simp [hnot, hget, hr], rfl, hnot, hget, by simp [hroot]⟩)

/-- **What `agoo_group_get` can do.** -/
theorem groupGet_cases (fs : Fs) (w : World) (path : Bytes) (plen : ℕ) :
    (PageCall.target w (.groupGet path plen fs) = none ∧
        ∃ e, groupGet fs w path plen = (⟨none, e⟩, w)) ∨
      (PageCall.target w (.groupGet path plen fs) = none ∧
        ∃ full id, cacheGet w.cache full = some id ∧
          groupGet fs w path plen = pageCheck fs w id) ∨
      ∃ full, PageCall.target w (.groupGet path plen fs) = some full ∧
        cacheGet w.cache full = none ∧ groupGet fs w path plen = loadNew cacheSet fs w full := by
  simp only [PageCall.target, groupGet]
  split
  · exact Or.inl ⟨rfl, none, rfl⟩
  · cases w.groups.find? fun g => g.serves path plen with
    | none => exact Or.inl ⟨rfl, none, rfl⟩
    | some g =>
      dsimp only [Option.bind_some]
      cases hgot : (groupPaths g path plen).findSome? (cacheGet w.cache) with
      | some id =>
        obtain ⟨full, -, hid⟩ := List.exists_of_findSome?_eq_some hgot
        exact Or.inr (Or.inl ⟨rfl, full, id, hid, rfl⟩)
      | none =>
        cases hacc : (groupPaths g path plen).find? fun full => fs.access (cstr full) with
        | none => exact Or.inl ⟨by simp, none, rfl⟩
        | some full =>
          -- the directories were all searched, so the second lookup misses too
          have hmiss : cacheGet w.cache full = none :=
            List.findSome?_eq_none_iff.mp hgot full (List.mem_of_find?_eq_some hacc)
          exact Or.inr (Or.inr ⟨full, by simp, hmiss, by simp only [hmiss]⟩)

/-- The same for any call. -/
theorem PageCall.run_cases (w : World) (c : PageCall) :
    (c.target w = none ∧ ∃ e, c.run w = (⟨none, e⟩, w)) ∨
      (c.target w = none ∧ ∃ id, w.cache.Holds id ∧ c.run w = Agoo.pageCheck c.fs w id) ∨
      ∃ full set get, SetSpec set get ∧ c.target w = some full ∧ get w.cache full = none ∧
        c.run w = Agoo.loadNew set c.fs w full := by
  cases c with
  | pageGet path plen root fs =>
    rcases pageGet_cases fs w path plen root with h | ⟨ht, full, id, hget, hrun⟩ |
      ⟨full, ht, -, -, hmiss, hrun⟩
    · exact Or.inl h
    · exact Or.inr (Or.inl ⟨ht, id, holds_of_cacheRootGet hget, hrun⟩)
    · exact Or.inr (Or.inr ⟨full, _, _, cacheRootSet_spec, ht, hmiss, hrun⟩)
  | groupGet path plen fs =>
    rcases groupGet_cases fs w path plen with h | ⟨ht, full, id, hget, hrun⟩ |
      ⟨full, ht, hmiss, hrun⟩
    · exact Or.inl h
    · exact Or.inr (Or.inl ⟨ht, id, holds_of_cacheGet hget, hrun⟩)
    · exact Or.inr (Or.inr ⟨full, _, _, cacheSet_spec, ht, hmiss, hrun⟩)

/-- **A call that fits keeps the invariant and returns a live page.** -/
theorem World.Inv.call {w : World} (h : w.Inv) {c : PageCall} (hfit : c.Fits w) :
    (c.run w).2.Inv ∧ Got.Live (c.run w) := by
  rcases c.run_cases w with ⟨-, e, hrun⟩ | ⟨-, id, hheld, hrun⟩ | ⟨full, set, get, hset, ht, hmiss, hrun⟩
  · rw [hrun]
    exact ⟨h, fun id hid => by cases hid⟩
  · obtain ⟨hpage, hinv, hd⟩ := h.pageCheck c.fs hheld
    rw [hrun]
    refine ⟨hinv, fun j hj => ?_⟩
    rw [hpage] at hj
    cases hj
    rw [hd]
    exact h.held_live id hheld
  · rw [hrun]
    exact h.loadNew hset hmiss (hfit full ht)

/-- A call that does not fit returns a page it has destroyed. -/
theorem PageCall.not_live {w : World} {c : PageCall} (hfit : ¬ c.Fits w) :
    ¬ Got.Live (c.run w) := by
  unfold PageCall.Fits at hfit
  push Not at hfit
  obtain ⟨full, ht, hload, hlong⟩ := hfit
  rcases c.run_cases w with ⟨hn, -⟩ | ⟨hn, -⟩ | ⟨full', set, get, hset, ht', -, hrun⟩
  · rw [ht] at hn
    cases hn
  · rw [ht] at hn
    cases hn
  · obtain rfl : full = full' := Option.some.inj (ht.symm.trans ht')
    rw [hrun]
    exact loadNew_overlong hset hlong hload

theorem runCalls_concat (w : World) (calls : List PageCall) (c : PageCall) :
    runCalls w (calls ++ [c]) = (c.run (runCalls w calls)).2 := by
  simp [runCalls]

/-- The invariant after calls that each fit the state they meet. -/
theorem World.Inv.runCalls {w : World} (h : w.Inv) {calls : List PageCall}
    (hfit : ∀ pre c post, calls = pre ++ c :: post → c.Fits (runCalls w pre)) :
    (runCalls w calls).Inv := by
  induction calls using List.reverseRecOn with
  | nil => exact h
  | append_singleton calls c ih =>
    rw [runCalls_concat]
    refine ((ih fun pre d post he => ?_).call (hfit calls c [] rfl)).1
    exact hfit pre d (post ++ [c]) (by rw [he]; simp)

/-- **Pages stay live exactly as long as no call loads a page with an overlong key**: the page each
call returns, and every page held by a slot after it, has not been destroyed, and none was destroyed
twice. -/
theorem pages_live_iff (mimes : List (Bytes × Bytes)) (root : Option Bytes) (groups : List Group)
    (rules : List HeadRule) (calls : List PageCall) :
    (∀ pre c post, calls = pre ++ c :: post →
      Got.Live (c.run (runCalls (World.init mimes root groups rules) pre)) ∧
        (c.run (runCalls (World.init mimes root groups rules) pre)).2.Live) ↔
      ∀ pre c post, calls = pre ++ c :: post →
        c.Fits (runCalls (World.init mimes root groups rules) pre) := by
  constructor
  · intro hlive pre c post he
    by_contra hfit
    exact PageCall.not_live hfit (hlive pre c post he).1
  · intro hfit pre c post he
    have hpre : (runCalls (World.init mimes root groups rules) pre).Inv :=
      (inv_init mimes root groups rules).runCalls fun pre' d post' he' =>
        hfit pre' d (post' ++ c :: post) (by rw [he, he']; simp)
    obtain ⟨hinv, hgot⟩ := hpre.call (hfit pre c post he)
    exact ⟨hgot, hinv.held_live, hinv.nodup⟩

/-- A system where every name opens an empty file. -/
def emptyFiles : Fs where
  fopen := fun _ => some ⟨some true, some 0, []⟩
  stat := fun _ => some 0
  restat := fun _ => some 0
  access := fun _ => true
  dtime := 0
  below := 0

/-- A path of 1101 bytes, with a file behind it. -/
def longCall : PageCall :=
  .pageGet (chr '/' :: List.replicate 1100 (chr 'a')) 1101 none emptyFiles

/-- The page returned for a path of 1101 bytes below `/r` was destroyed by the call. -/
theorem overlong_page_destroyed :
    ¬ ∀ (mimes : List (Bytes × Bytes)) (root : Option Bytes) (groups : List Group)
      (rules : List HeadRule) (calls : List PageCall) (pre : List PageCall) (c : PageCall)
      (post : List PageCall), calls = pre ++ c :: post →
        Got.Live (c.run (runCalls (World.init mimes root groups rules) pre)) ∧
          (c.run (runCalls (World.init mimes root groups rules) pre)).2.Live := by
  intro h
  have hlive := (h [] (some (bytes "/r")) [] [] [longCall] [] longCall [] rfl).1
  refine PageCall.not_live (fun hfit => ?_) hlive
  have htarget : longCall.target (World.init [] (some (bytes "/r")) [] []) =
      some (bytes "/r" ++ chr '/' :: List.replicate 1100 (chr 'a')) := by decide +kernel
  have hle := hfit _ htarget ⟨⟨some true, some 0, []⟩, _, _, 0, rfl, rfl, Nat.le_refl 0⟩
  rw [List.length_append, List.length_cons, List.length_replicate] at hle
  exact absurd hle (by decide)

end Agoo
