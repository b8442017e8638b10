import Agoo.Gql
import Mathlib.Data.List.Forall2

/-!
# Trees of GraphQL values

Induction on a value with the values in it, the list of all of them, and when a value that was
printed and read again counts as the same.
-/

namespace Agoo

variable {τ : Type}

namespace GqlValue

/-! ## Induction -/

section

variable {P : GqlValue τ → Prop} (list : ∀ item ms, (∀ m ∈ ms, P m) → P (.list item ms))
  (object : ∀ ms : List (Bytes × GqlValue τ), (∀ m ∈ ms, P m.2) → P (.object ms))
  (null : P .null) (bool : ∀ b, P (.bool b)) (int : ∀ i, P (.int i)) (i64 : ∀ i, P (.i64 i))
  (float : ∀ f, P (.float f)) (string : ∀ s, P (.string s)) (token : ∀ s e, P (.token s e))
  (var : ∀ s, P (.var s))

include list object null bool int i64 float string token var

/-- To show `P` of all values, show it of lists and objects whose members have it, and of the other
values. -/
@[elab_as_elim]
theorem tree (v : GqlValue τ) : P v := by
  refine GqlValue.rec (motive_2 := fun ms => ∀ m ∈ ms, P m) (motive_3 := fun ms => ∀ m ∈ ms, P m.2)
    (motive_4 := fun m => P m.2) null bool int i64 float string token var list object ?_ ?_ ?_ ?_ ?_ v
  · simp
  · intro m ms hm hms u hu
    rcases List.mem_cons.mp hu with rfl | hu
    · exact hm
    · exact hms u hu
  · simp
  · intro m ms hm hms u hu
    rcases List.mem_cons.mp hu with rfl | hu
    · exact hm
    · exact hms u hu
  · intro k m hm
    exact hm

end

/-! ## The values in a value -/

mutual

/-- A value and all values in it. -/
def nodes : GqlValue τ → List (GqlValue τ)
  | .list item ms => .list item ms :: listNodes ms
  | .object ms => .object ms :: memberNodes ms
  | .null => [.null]
  | .bool b => [.bool b]
  | .int i => [.int i]
  | .i64 i => [.i64 i]
  | .float f => [.float f]
  | .string s => [.string s]
  | .token s e => [.token s e]
  | .var s => [.var s]

def listNodes : List (GqlValue τ) → List (GqlValue τ)
  | [] => []
  | m :: ms => nodes m ++ listNodes ms

def memberNodes : List (Bytes × GqlValue τ) → List (GqlValue τ)
  | [] => []
  | (_, m) :: ms => nodes m ++ memberNodes ms

end

theorem mem_listNodes {u : GqlValue τ} {ms : List (GqlValue τ)} :
    u ∈ listNodes ms ↔ ∃ m ∈ ms, u ∈ m.nodes := by
  induction ms with
  | nil => simp [listNodes]
  | cons m ms ih => simp [listNodes, ih]

theorem mem_memberNodes {u : GqlValue τ} {ms : List (Bytes × GqlValue τ)} :
    u ∈ memberNodes ms ↔ ∃ m ∈ ms, u ∈ m.2.nodes := by
  induction ms with
  | nil => simp [memberNodes]
  | cons m ms ih =>
    obtain ⟨k, m⟩ := m
    simp [memberNodes, ih]

/-- Every value in `v` has `P`. -/
def All (P : GqlValue τ → Prop) (v : GqlValue τ) : Prop := ∀ u ∈ v.nodes, P u

theorem mem_nodes (v : GqlValue τ) : v ∈ v.nodes := by
  cases v <;> exact .head _

theorem all_of_nodes {P : GqlValue τ → Prop} {v : GqlValue τ} (h : v.nodes = [v]) :
    v.All P ↔ P v := by
  unfold GqlValue.All
  rw [h, List.forall_mem_singleton]

theorem all_list {P : GqlValue τ → Prop} {item : Option τ} {ms : List (GqlValue τ)} :
    (GqlValue.list item ms).All P ↔ P (.list item ms) ∧ ∀ m ∈ ms, m.All P := by
  simp only [All, nodes, List.forall_mem_cons, mem_listNodes]
  refine and_congr_right fun _ => ⟨?_, ?_⟩
  · intro h m hm u hu
    exact h u ⟨m, hm, hu⟩
  · rintro h u ⟨m, hm, hu⟩
    exact h m hm u hu

theorem all_object {P : GqlValue τ → Prop} {ms : List (Bytes × GqlValue τ)} :
    (GqlValue.object ms).All P ↔ P (.object ms) ∧ ∀ m ∈ ms, m.2.All P := by
  simp only [All, nodes, List.forall_mem_cons, mem_memberNodes]
  refine and_congr_right fun _ => ⟨?_, ?_⟩
  · intro h m hm u hu
    exact h u ⟨m, hm, hu⟩
  · rintro h u ⟨m, hm, hu⟩
    exact h m hm u hu

/-! ## Equal after a round trip -/

/-- What an `int32_t` holds. -/
def FitsInt (i : ℤ) : Prop := -0x80000000 ≤ i ∧ i ≤ 0x7FFFFFFF

instance (i : ℤ) : Decidable (FitsInt i) := by unfold FitsInt; infer_instance

/-- What an `int64_t` holds. -/
def FitsI64 (i : ℤ) : Prop := -0x8000000000000000 ≤ i ∧ i ≤ 0x7FFFFFFFFFFFFFFF

instance (i : ℤ) : Decidable (FitsI64 i) := by unfold FitsI64; infer_instance

mutual

/-- `w` is the tree `v`, where an I64 of `v` that fits an Int may be one. The type that a list keeps
of its members and a token of its enum is no part of the tree. -/
def ReadsAs : GqlValue τ → GqlValue τ → Prop
  | .null, .null => True
  | .bool a, .bool b => a = b
  | .int i, .int j => i = j
  | .i64 i, .i64 j => i = j
  | .i64 i, .int j => i = j ∧ FitsInt i
  | .float f, .float g => f = g
  | .string s, .string t => s = t
  | .token s _, .token t _ => s = t
  | .var s, .var t => s = t
  | .list _ ms, .list _ ns => ListReadsAs ms ns
  | .object ms, .object ns => MembersReadAs ms ns
  | _, _ => False

def ListReadsAs : List (GqlValue τ) → List (GqlValue τ) → Prop
  | [], [] => True
  | m :: ms, n :: ns => ReadsAs m n ∧ ListReadsAs ms ns
  | _, _ => False

def MembersReadAs : List (Bytes × GqlValue τ) → List (Bytes × GqlValue τ) → Prop
  | [], [] => True
  | (k, m) :: ms, (l, n) :: ns => k = l ∧ ReadsAs m n ∧ MembersReadAs ms ns
  | _, _ => False

end

mutual

/-- The tree that comes back: an I64 above the lowest Int and not above the highest is an Int, and
types are gone. -/
def narrow : GqlValue τ → GqlValue τ
  | .i64 i => if -0x80000000 < i ∧ i ≤ 0x7FFFFFFF then .int i else .i64 i
  | .token s _ => .token s none
  | .list _ ms => .list none (listNarrow ms)
  | .object ms => .object (membersNarrow ms)
  | .null => .null
  | .bool b => .bool b
  | .int i => .int i
  | .float f => .float f
  | .string s => .string s
  | .var s => .var s

def listNarrow : List (GqlValue τ) → List (GqlValue τ)
  | [] => []
  | m :: ms => narrow m :: listNarrow ms

def membersNarrow : List (Bytes × GqlValue τ) → List (Bytes × GqlValue τ)
  | [] => []
  | (k, m) :: ms => (k, narrow m) :: membersNarrow ms

end

theorem readsAs_narrow (v : GqlValue τ) : v.ReadsAs v.narrow := by
  induction v using tree with
  | list item ms ih =>
    unfold narrow ReadsAs
    induction ms with
    | nil => trivial
    | cons m ms ihms =>
      exact ⟨ih m (.head _), ihms fun u hu => ih u (.tail _ hu)⟩
  | object ms ih =>
    unfold narrow ReadsAs
    induction ms with
    | nil => trivial
    | cons m ms ihms =>
      exact ⟨rfl, ih m (.head _), ihms fun u hu => ih u (.tail _ hu)⟩
  | i64 i =>
    unfold narrow
    split
    · next h => exact ⟨rfl, by unfold FitsInt; omega⟩
    · rfl
  | null => trivial
  | bool b => rfl
  | int i => rfl
  | float f => rfl
  | string s => rfl
  | token s e => rfl
  | var s => rfl

theorem forall₂_listReadsAs {ms ns : List (GqlValue τ)} :
    ListReadsAs ms ns ↔ List.Forall₂ ReadsAs ms ns := by
  induction ms generalizing ns with
  | nil => cases ns <;> simp [ListReadsAs, List.forall₂_nil_left_iff]
  | cons m ms ih => cases ns <;> simp [ListReadsAs, List.forall₂_nil_right_iff, ih]

theorem forall₂_membersReadAs {ms ns : List (Bytes × GqlValue τ)} :
    MembersReadAs ms ns ↔
      List.Forall₂ (fun m n => m.1 = n.1 ∧ m.2.ReadsAs n.2) ms ns := by
  induction ms generalizing ns with
  | nil => cases ns <;> simp [MembersReadAs, List.forall₂_nil_left_iff]
  | cons m ms ih =>
    cases ns with
    | nil => simp [MembersReadAs, List.forall₂_nil_right_iff]
    | cons n ns => simp [MembersReadAs, ih, and_assoc]

theorem listNarrow_eq (ms : List (GqlValue τ)) :
    listNarrow ms = ms.map narrow := by
  induction ms with
  | nil => rfl
  | cons m ms ih => rw [listNarrow, ih, List.map_cons]

theorem membersNarrow_eq (ms : List (Bytes × GqlValue τ)) :
    membersNarrow ms = ms.map fun m => (m.1, m.2.narrow) := by
  induction ms with
  | nil => rfl
  | cons m ms ih =>
    obtain ⟨key, m⟩ := m
    rw [membersNarrow, ih, List.map_cons]

end GqlValue

end Agoo
