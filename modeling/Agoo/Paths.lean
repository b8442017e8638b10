import Agoo.Bytes
import Mathlib.Data.List.Basic
import Mathlib.Tactic.Common

/-!
# Lexical path resolution

A path is cut at its slashes; empty and `.` components are dropped and `..` takes back the component
before it, in the usual way and without looking at the file system. A relative path keeps a count of
the `..` that lead above its start, an absolute one stays at `/`.

`Inside root p` says that `p` resolves to `root` or to a place below it. `inside_append_iff` settles
it for a path made by appending to a root without `..`, when `..` can only be the last component.
-/

namespace Agoo.Path

def slash : Byte := chr '/'

def dot : Bytes := bytes "."

def dotdot : Bytes := bytes ".."

/-- The components of a path, without the empty ones and `.`. -/
def comps (p : Bytes) : List Bytes := (p.splitOn slash).filter fun c => c ≠ [] ∧ c ≠ dot

/-- A place in the tree: the component names from the innermost out, over `/` or over the start of
a relative path after `ups` steps up. -/
structure Loc where
  abs : Bool
  ups : ℕ
  names : List Bytes
  deriving DecidableEq, Repr

/-- One component. -/
def Loc.step (l : Loc) (c : Bytes) : Loc :=
  if c = dotdot then
    match l.names with
    | _ :: ns => { l with names := ns }
    | [] => if l.abs then l else { l with ups := l.ups + 1 }
  else { l with names := c :: l.names }

/-- Where the components `cs` lead from `l`. -/
def Loc.walk (l : Loc) (cs : List Bytes) : Loc := cs.foldl Loc.step l

def isAbs (p : Bytes) : Bool := p.head? == some slash

/-- Where a path leads. -/
def resolve (p : Bytes) : Loc := Loc.walk ⟨isAbs p, 0, []⟩ (comps p)

/-- The place `l` is `r` or below it. -/
def Loc.Below (r l : Loc) : Prop := l.abs = r.abs ∧ l.ups = r.ups ∧ r.names <:+ l.names

instance (r l : Loc) : Decidable (r.Below l) := by unfold Loc.Below; infer_instance

/-- `p` resolves to `root` or below it. -/
def Inside (root p : Bytes) : Prop := (resolve root).Below (resolve p)

instance (root p : Bytes) : Decidable (Inside root p) := by unfold Inside; infer_instance

/-! ## Components -/

theorem comps_append_slash (a b : Bytes) : comps (a ++ slash :: b) = comps a ++ comps b := by
  unfold comps
  rw [List.splitOn_append_cons_self, List.filter_append]

theorem comps_nil : comps [] = [] := rfl

theorem comps_cons_slash (b : Bytes) : comps (slash :: b) = comps b := by
  simpa [comps_nil] using comps_append_slash [] b

/-- A single name is its own component. -/
theorem comps_of_not_mem {c : Bytes} (h : slash ∉ c) :
    comps c = if c ≠ [] ∧ c ≠ dot then [c] else [] := by
  unfold comps
  rw [List.splitOn_eq_singleton h]
  by_cases hc : c ≠ [] ∧ c ≠ dot <;> simp [hc]

/-- Components of a path that goes on from another, at a slash on either side. -/
theorem comps_append {a x : Bytes} (h : x = [] ∨ x.head? = some slash ∨ a.getLast? = some slash) :
    comps (a ++ x) = comps a ++ comps x := by
  rcases h with rfl | h | h
  · simp [comps_nil]
  · obtain ⟨y, rfl⟩ : ∃ y, x = slash :: y := by
      cases x with
      | nil => cases h
      | cons c y => exact ⟨y, by simp at h; rw [h]⟩
    rw [comps_append_slash, comps_cons_slash]
  · obtain ⟨y, rfl⟩ : ∃ y, a = y ++ [slash] := by
      obtain ⟨y, hy⟩ := List.getLast?_eq_some_iff.mp h
      exact ⟨y, hy⟩
    rw [List.append_assoc, List.singleton_append, comps_append_slash, comps_append_slash, comps_nil,
      List.append_nil]

/-- The first of several pieces ends at a slash. -/
theorem split_cons {s p q : Bytes} {rest : List Bytes} (h : s.splitOn slash = p :: q :: rest) :
    ∃ t, s = p ++ slash :: t ∧ t.splitOn slash = q :: rest := by
  induction s generalizing p with
  | nil => simp [List.splitOn_nil] at h
  | cons c s ih =>
    rw [List.splitOn_cons_eq_if_modifyHead] at h
    by_cases hc : c = slash
    · subst hc
      simp only [beq_self_eq_true, if_true, List.cons.injEq] at h
      exact ⟨s, by simp [← h.1], h.2⟩
    · rw [if_neg (by simpa using hc)] at h
      cases hs : s.splitOn slash with
      | nil => simp [hs] at h
      | cons p' ps =>
        rw [hs, List.modifyHead_cons, List.cons.injEq] at h
        obtain ⟨hp, rfl⟩ := h
        obtain ⟨t, rfl, ht⟩ := ih hs
        exact ⟨t, by simp [← hp], ht⟩

/-- A piece before the last one is followed by a slash. -/
theorem infix_of_mem_dropLast {s c : Bytes} (h : c ∈ (s.splitOn slash).dropLast) :
    c ++ [slash] <:+: s := by
  generalize hps : s.splitOn slash = ps at h
  induction ps generalizing s with
  | nil => cases h
  | cons p ps ih =>
    cases ps with
    | nil => cases h
    | cons q rest =>
      obtain ⟨t, rfl, ht⟩ := split_cons hps
      rw [List.dropLast_cons_cons, List.mem_cons] at h
      rcases h with rfl | h
      · exact ⟨[], t, by simp⟩
      · obtain ⟨a, b, hab⟩ := ih ht h
        exact ⟨p ++ slash :: a, b, by rw [← hab]; simp⟩

/-- A member of a filtered list that is not its last is not the last of the list either. -/
theorem mem_dropLast_of_filter {α : Type*} (p : α → Bool) {l : List α} {x : α}
    (h : x ∈ (l.filter p).dropLast) : x ∈ l.dropLast := by
  induction l with
  | nil => cases h
  | cons a l ih =>
    cases l with
    | nil =>
      by_cases ha : p a <;> simp [ha] at h
    | cons b l =>
      rw [List.dropLast_cons_cons, List.mem_cons]
      by_cases ha : p a
      · rw [List.filter_cons_of_pos ha] at h
        cases hf : (b :: l).filter p with
        | nil => rw [hf] at h; cases h
        | cons c m =>
          rw [hf, List.dropLast_cons_cons, List.mem_cons] at h
          rcases h with rfl | h
          · exact Or.inl rfl
          · exact Or.inr (ih (hf ▸ h))
      · rw [List.filter_cons_of_neg ha] at h
        exact Or.inr (ih h)

/-- Without a `../` in the path, `..` can only be the last component. -/
theorem dotdot_not_mem_dropLast {s : Bytes} (h : ¬ dotdot ++ [slash] <:+: s) :
    dotdot ∉ (comps s).dropLast := fun hm =>
  h (infix_of_mem_dropLast (mem_dropLast_of_filter _ hm))

/-! ## Walking -/

theorem walk_append (l : Loc) (a b : List Bytes) : l.walk (a ++ b) = (l.walk a).walk b := by
  simp [Loc.walk, List.foldl_append]

/-- Components other than `..` are piled up. -/
theorem walk_of_not_mem {cs : List Bytes} (h : dotdot ∉ cs) (l : Loc) :
    l.walk cs = { l with names := cs.reverse ++ l.names } := by
  induction cs generalizing l with
  | nil => rfl
  | cons c cs ih =>
    have hc : c ≠ dotdot := fun e => h (by simp [e])
    rw [Loc.walk, List.foldl_cons]
    change (l.step c).walk cs = _
    rw [ih (fun hm => h (by simp [hm]))]
    simp [Loc.step, hc]

theorem resolve_of_no_dotdot {p : Bytes} (h : dotdot ∉ comps p) :
    resolve p = ⟨isAbs p, 0, (comps p).reverse⟩ := by
  rw [resolve, walk_of_not_mem h]
  simp

/-- A single component other than `..` stays inside. -/
theorem Loc.Below.step {r l : Loc} (h : r.Below l) {c : Bytes} (hc : c ≠ dotdot) :
    r.Below (l.step c) := by
  obtain ⟨ha, hu, hs⟩ := h
  simp only [Loc.step, if_neg hc]
  exact ⟨ha, hu, hs.trans (List.suffix_cons c l.names)⟩

theorem not_suffix_tail {r : List Bytes} {a : Bytes} : ¬ (a :: r) <:+ r := fun h => by
  have := h.length_le
  rw [List.length_cons] at this
  omega

/-- **A walk on from `r` whose only `..` is the last component leaves `r` exactly when it is that
`..` alone and `r` is not the file system's root.** -/
theorem below_walk_iff {cs : List Bytes} (h : dotdot ∉ cs.dropLast) (r : Loc) :
    r.Below (r.walk cs) ↔ ¬ (cs = [dotdot] ∧ ¬ (r.abs = true ∧ r.names = [])) := by
  by_cases hm : dotdot ∈ cs
  · -- the walk ends in `..`
    obtain ⟨ds, rfl⟩ : ∃ ds, cs = ds ++ [dotdot] := by
      have hne : cs ≠ [] := List.ne_nil_of_mem hm
      have hcat := List.dropLast_concat_getLast hne
      rw [← hcat, List.mem_append, List.mem_singleton] at hm
      rcases hm with hm | hm
      · exact absurd hm h
      · exact ⟨cs.dropLast, by rw [hm]; exact hcat.symm⟩
    rw [List.dropLast_concat] at h
    rw [walk_append, walk_of_not_mem h]
    cases hd : ds.reverse with
    | nil =>
      obtain rfl : ds = [] := by simpa using hd
      obtain ⟨abs, ups, names⟩ := r
      cases names with
      | nil =>
        cases abs <;> simp [Loc.walk, Loc.step, Loc.Below]
      | cons a names => simp [Loc.walk, Loc.step, Loc.Below, not_suffix_tail]
    | cons d rest =>
      have hne : ds ≠ [] := by rintro rfl; simp at hd
      have hcs : ds ++ [dotdot] ≠ [dotdot] := by simpa using hne
      simp [Loc.walk, Loc.step, Loc.Below, hcs]
  · have hcs : cs ≠ [dotdot] := fun e => hm (by simp [e])
    rw [walk_of_not_mem hm]
    simp [Loc.Below, hcs]

/-- **A path that goes on from a root.** The root has no `..`, and in what follows `..` can only be
the last component. -/
theorem inside_append_iff {root x : Bytes} (hroot : root ≠ []) (hr : dotdot ∉ comps root)
    (hx : x = [] ∨ x.head? = some slash ∨ root.getLast? = some slash)
    (hdd : dotdot ∉ (comps x).dropLast) :
    Inside root (root ++ x) ↔
      ¬ (comps x = [dotdot] ∧ ¬ (isAbs root = true ∧ comps root = [])) := by
  have habs : isAbs (root ++ x) = isAbs root := by
    unfold isAbs
    rw [List.head?_append_of_ne_nil _ hroot]
  have hres : resolve (root ++ x) = (resolve root).walk (comps x) := by
    rw [resolve, resolve, habs, comps_append hx, walk_append]
  rw [Inside, hres, below_walk_iff hdd, resolve_of_no_dotdot hr]
  simp

/-- Appending one more name to a path inside keeps it inside. -/
theorem Inside.append_name {root p w : Bytes} (h : Inside root p) (hp : p ≠ [])
    (hw : slash ∉ w) (hwd : w ≠ dotdot) (hslash : p.getLast? = some slash) :
    Inside root (p ++ w) := by
  have habs : isAbs (p ++ w) = isAbs p := by
    unfold isAbs
    rw [List.head?_append_of_ne_nil _ hp]
  have hres : resolve (p ++ w) = (resolve p).walk (comps w) := by
    rw [resolve, resolve, habs, comps_append (Or.inr (Or.inr hslash)), walk_append]
  rw [Inside, hres, comps_of_not_mem hw]
  split
  · exact h.step hwd
  · exact h

end Agoo.Path
