import Agoo.Page

/-!
# What a group lookup reads (`agoo_group_get`)

A request path is a part of the connection's buffer. All that `agoo_group_get` does with it stays in the path,
but for the search for `../`, which goes on to the NUL. `groupGet_same_iff`: when what follows the path is of no
matter.
-/

namespace Agoo

namespace GroupPath

/-- What the search for `../` finds. -/
def Dots (m : Bytes) : Prop := (strstr m (bytes "../")).isSome

instance (m : Bytes) : Decidable (Dots m) := inferInstanceAs (Decidable ((strstr m (bytes "../")).isSome = true))

/-- A group serves the path, and one of its directories has a page or a file for it. -/
def Served (fs : Fs) (w : World) (path : Bytes) (plen : ℕ) : Prop :=
  ∃ g full, w.groups.find? (fun g => g.serves path plen) = some g ∧ full ∈ groupPaths g path plen ∧
    ((cacheGet w.cache full).isSome ∨ fs.access (cstr full))

/-! ## The path -/

variable {m m' : Bytes} {plen : ℕ}

theorem cstr_take (m : Bytes) (n : ℕ) : cstr (m.take n) = (cstr m).take n := by
  unfold cstr
  induction m generalizing n with
  | nil => rw [List.take_nil, List.takeWhile_nil, List.take_nil]
  | cons c m ih =>
    cases n with
    | zero => rfl
    | succ n =>
      rw [List.take_succ_cons, List.takeWhile_cons, List.takeWhile_cons, ih]
      split_ifs
      · rfl
      · rfl

theorem strncmp_take {n k : ℕ} (h : n ≤ k) (m s : Bytes) : strncmp (m.take k) s n = strncmp m s n := by
  unfold strncmp
  rw [cstr_take, List.take_take, Nat.min_eq_left h]

theorem at0_take {i k : ℕ} (h : i < k) (m : Bytes) : at0 (m.take k) i = at0 m i := by
  unfold at0
  rw [List.getD_eq_getElem?_getD, List.getD_eq_getElem?_getD, List.getElem?_take_of_lt h]

theorem strncpy_take (m : Bytes) (n : ℕ) : strncpy (m.take n) n = strncpy m n := by
  unfold strncpy
  rw [cstr_take, List.take_take, Nat.min_self, List.length_take]
  congr 2
  omega

/-- Whether a group serves a path is in the path. -/
theorem serves_take (plen : ℕ) (g : Group) (m : Bytes) : g.serves (m.take plen) plen = g.serves m plen := by
  unfold Group.serves
  by_cases hlt : strlen g.path < plen
  · rw [strncmp_take hlt.le, at0_take hlt]
  · rw [decide_eq_false hlt, Bool.false_and, Bool.false_and, Bool.false_and, Bool.false_and]

/-- The full paths are those of the path. -/
theorem groupPaths_take (plen : ℕ) {g : Group} (m : Bytes) :
    groupPaths g (m.take plen) plen = groupPaths g m plen := by
  unfold groupPaths
  rw [List.drop_take, strncpy_take]

theorem served_congr {fs : Fs} {w : World} (h : m.take plen = m'.take plen) :
    Served fs w m plen ↔ Served fs w m' plen := by
  unfold Served
  simp only [← serves_take plen _ m, ← groupPaths_take plen m, h, serves_take,
    groupPaths_take]

/-! ## What comes of it -/

variable (fs : Fs) (w : World)

theorem groupGet_dots (h : Dots m) : groupGet fs w m plen = (⟨none, none⟩, w) := if_pos h

/-- The lookup with the test done. -/
theorem groupGet_take (h : Dots m ↔ Dots m') (hsame : m.take plen = m'.take plen) :
    groupGet fs w m plen = groupGet fs w m' plen := by
  unfold groupGet
  unfold Dots at h
  simp only [← serves_take plen _ m, ← groupPaths_take plen m, hsame, serves_take,
    groupPaths_take, h]

theorem pageCheck_got (id : PageId) : (pageCheck fs w id).1 ≠ ⟨none, none⟩ := by
  unfold pageCheck notFound
  dsimp only
  split_ifs <;> exact fun h => nomatch h

theorem loadNew_got (full : Bytes) : (loadNew cacheSet fs w full).1 ≠ ⟨none, none⟩ := by
  unfold loadNew notFound
  dsimp only
  split_ifs <;> exact fun h => nomatch h

/-- Without the test, nothing comes of a path just if it is not served. -/
theorem groupGet_nothing (h : ¬ Dots m) : groupGet fs w m plen = (⟨none, none⟩, w) ↔ ¬ Served fs w m plen := by
  unfold Dots at h
  unfold groupGet Served
  rw [if_neg h]
  cases hserves : w.groups.find? fun g => g.serves m plen with
  | none => simp
  | some g =>
    dsimp only
    cases hcached : (groupPaths g m plen).findSome? (cacheGet w.cache) with
    | some id =>
      obtain ⟨full, hfull, hid⟩ := List.exists_of_findSome?_eq_some hcached
      refine iff_of_false (fun hrun => pageCheck_got fs w id (congrArg Prod.fst hrun)) (not_not_intro ?_)
      exact ⟨g, full, rfl, hfull, .inl (by rw [hid]; rfl)⟩
    | none =>
      have hmiss := List.findSome?_eq_none_iff.mp hcached
      dsimp only
      cases haccess : (groupPaths g m plen).find? fun full => fs.access (cstr full) with
      | none =>
        refine iff_of_true rfl ?_
        rintro ⟨g', full, hg', hfull, hfile⟩
        obtain rfl := Option.some.inj hg'
        rcases hfile with hfile | hfile
        · rw [hmiss full hfull] at hfile
          cases hfile
        · exact List.find?_eq_none.mp haccess full hfull hfile
      | some full =>
        have hfull := List.mem_of_find?_eq_some haccess
        have hfile := List.find?_some haccess
        dsimp only
        rw [hmiss full hfull]
        refine iff_of_false (fun hrun => loadNew_got fs w full (congrArg Prod.fst hrun)) (not_not_intro ?_)
        exact ⟨g, full, rfl, hfull, .inr hfile⟩

/-- A text is found in what begins with one that has it. -/
theorem find_append {pat a : Bytes} (h : (find pat a).isSome) (b : Bytes) : (find pat (a ++ b)).isSome := by
  obtain ⟨i, hi⟩ := Option.isSome_iff_exists.mp h
  obtain ⟨hle, hpre, -⟩ := find_eq_some_iff.mp hi
  by_contra hnone
  have hnone := find_eq_none_iff.mp (Option.not_isSome_iff_eq_none.mp hnone)
  refine hnone i (hle.trans (by rw [List.length_append]; exact Nat.le_add_right _ _)) ?_
  rw [List.drop_append_of_le_length hle]
  exact hpre.trans (List.prefix_append _ _)

/-- `../` in the path is found. -/
theorem dots_of_take (hnul : 0 ∉ m.take plen) (h : Dots (m.take plen)) : Dots m := by
  unfold Dots strstr at h ⊢
  have hsplit : cstr m = m.take plen ++ cstr (m.drop plen) := by
    rw [← cstr_append hnul, List.take_append_drop]
  rw [cstr_of_not_mem hnul] at h
  rw [hsplit]
  exact find_append h _

/-- When two buffers with one path have one result. -/
theorem groupGet_eq_iff (hsame : m.take plen = m'.take plen) :
    groupGet fs w m plen = groupGet fs w m' plen ↔ (Dots m ↔ Dots m') ∨ ¬ Served fs w m plen := by
  by_cases hdots : Dots m ↔ Dots m'
  · exact iff_of_true (groupGet_take fs w hdots hsame) (.inl hdots)
  · refine Iff.trans ?_ (or_iff_right hdots).symm
    by_cases hm : Dots m
    · have hm' : ¬ Dots m' := fun h => hdots (iff_of_true hm h)
      rw [groupGet_dots fs w hm, served_congr hsame, ← groupGet_nothing fs w hm']
      exact eq_comm
    · have hm' : Dots m' := by_contra fun h => hdots (iff_of_false hm h)
      rw [groupGet_dots fs w hm', ← groupGet_nothing fs w hm]

/-- **The result is that of the path, unless it is served and what follows it has `../` in one buffer only; and a
path with `../` has no page.** -/
theorem groupGet_same_iff (fs : Fs) (w : World) {m m' : Bytes} {plen : ℕ} (hnul : 0 ∉ m.take plen)
    (hsame : m.take plen = m'.take plen) :
    (groupGet fs w m plen = groupGet fs w m' plen ∧
        (Dots (m.take plen) → (groupGet fs w m plen).1.page = none)) ↔
      (Dots m ↔ Dots m') ∨ ¬ Served fs w m plen := by
  rw [← groupGet_eq_iff fs w hsame]
  refine and_iff_left fun hdots => ?_
  rw [groupGet_dots fs w (dots_of_take hnul hdots)]

/-- Every file can be read, and none can be opened. -/
def readable : Fs where
  fopen _ := none
  stat _ := none
  restat _ := none
  access _ := true
  dtime := 0
  below := 0

/-- One group with one directory. -/
def oneGroup : World where
  cache := Cache.empty _
  root := none
  groups := [⟨bytes "/g", [bytes "/d"]⟩]
  headRules := []
  pages _ := ⟨none, [], 0, 0, false⟩
  next := 0
  destroyed := []
  opened := []

/-- Neither buffer has `../`. -/
theorem groupGet_same_plain :
    (0 ∉ (bytes "/g/x HTTP").take 4 ∧ (bytes "/g/x HTTP").take 4 = (bytes "/g/x?a=b").take 4) ∧
      ((Dots (bytes "/g/x HTTP") ↔ Dots (bytes "/g/x?a=b")) ∨
        ¬ Served readable oneGroup (bytes "/g/x HTTP") 4) := by
  refine ⟨⟨by decide, by decide⟩, (groupGet_same_iff readable oneGroup (by decide) (by decide)).mp ?_⟩
  refine ⟨rfl, fun h => ?_⟩
  exact absurd h (by decide)

/-- A query with `../` hides a page. -/
theorem groupGet_query_differs : ¬ ∀ (fs : Fs) (w : World) (m m' : Bytes) (plen : ℕ), m.take plen = m'.take plen →
    groupGet fs w m plen = groupGet fs w m' plen := by
  intro h
  have heq := h readable oneGroup (bytes "/g/x HTTP") (bytes "/g/x?../") 4 (by decide)
  have hserved : Served readable oneGroup (bytes "/g/x HTTP") 4 :=
    ⟨⟨bytes "/g", [bytes "/d"]⟩, bytes "/d/x", rfl, by decide, .inr rfl⟩
  rcases (groupGet_eq_iff readable oneGroup (by decide)).mp heq with hdots | hnot
  · revert hdots
    decide
  · exact hnot hserved

end GroupPath

end Agoo
