import Mathlib.Data.List.Basic
import Mathlib.Logic.Function.Basic

/-!
# Hash chains

A chained table keeps its entries in buckets, one list a bucket. A lookup takes the first entry of
the key's bucket that a predicate accepts; a store replaces that entry or, when there is none, puts
a new one in front. Nothing here knows what a key is: two keys are told apart only by the
predicates they give rise to, so the two rules a client needs are `find_put_self`, for the
predicate stored under, and `find_put_other`, for one that accepts none of the same entries.
-/

namespace Agoo.Chain

variable {ε : Type*}

/-- Update the first entry that `p` accepts. -/
def replaceFirst (p : ε → Bool) (upd : ε → ε) : List ε → List ε
  | [] => []
  | e :: es => if p e then upd e :: es else e :: replaceFirst p upd es

/-- Update the first entry that `p` accepts, or put `new` in front. -/
def put (p : ε → Bool) (upd : ε → ε) (new : ε) (es : List ε) : List ε :=
  if (es.find? p).isSome then replaceFirst p upd es else new :: es

/-- Remove the first entry that `p` accepts. -/
def removeFirst (p : ε → Bool) : List ε → List ε
  | [] => []
  | e :: es => if p e then es else e :: removeFirst p es

variable {p q : ε → Bool} {upd : ε → ε} {new : ε}

theorem find_replaceFirst_self (hupd : ∀ e, p e → p (upd e)) (es : List ε) :
    (replaceFirst p upd es).find? p = (es.find? p).map upd := by
  induction es with
  | nil => rfl
  | cons e es ih =>
    unfold replaceFirst
    cases hp : p e with
    | true => simp [hp, hupd e hp]
    | false => simp [hp, ih]

theorem find_replaceFirst_other (hq : ∀ e, p e → q e = false) (hupd : ∀ e, p e → q (upd e) = false)
    (es : List ε) : (replaceFirst p upd es).find? q = es.find? q := by
  induction es with
  | nil => rfl
  | cons e es ih =>
    unfold replaceFirst
    cases hp : p e with
    | true => simp [hq e hp, hupd e hp]
    | false => simp [List.find?_cons, ih]

/-- **A lookup finds what was stored last under its own predicate.** -/
theorem find_put_self (hnew : p new) (hupd : ∀ e, p e → p (upd e)) (es : List ε) :
    (put p upd new es).find? p = some ((es.find? p).elim new upd) := by
  unfold put
  cases hf : es.find? p with
  | none => simp [hnew]
  | some e => simp [find_replaceFirst_self hupd, hf]

/-- **A store is invisible to a lookup whose predicate accepts none of its entries.** -/
theorem find_put_other (hq : ∀ e, p e → q e = false) (hupd : ∀ e, p e → q (upd e) = false)
    (hnew : q new = false) (es : List ε) : (put p upd new es).find? q = es.find? q := by
  unfold put
  split
  · exact find_replaceFirst_other hq hupd es
  · simp [hnew]

theorem mem_replaceFirst {es : List ε} {e : ε} (h : e ∈ replaceFirst p upd es) :
    e ∈ es ∨ ∃ d ∈ es, p d ∧ e = upd d := by
  induction es with
  | nil => cases h
  | cons d es ih =>
    unfold replaceFirst at h
    split at h
    · next hp =>
      rcases List.mem_cons.mp h with rfl | h
      · exact Or.inr ⟨d, by simp, hp, rfl⟩
      · exact Or.inl (by simp [h])
    · rcases List.mem_cons.mp h with rfl | h
      · exact Or.inl (by simp)
      · rcases ih h with h | ⟨d', hd', hp', rfl⟩
        · exact Or.inl (by simp [h])
        · exact Or.inr ⟨d', by simp [hd'], hp', rfl⟩

/-- An entry after a store is the new one, an updated one or one that was there. -/
theorem mem_put {es : List ε} {e : ε} (h : e ∈ put p upd new es) :
    e = new ∨ e ∈ es ∨ ∃ d ∈ es, p d ∧ e = upd d := by
  unfold put at h
  split at h
  · exact Or.inr (mem_replaceFirst h)
  · rcases List.mem_cons.mp h with rfl | h
    · exact Or.inl rfl
    · exact Or.inr (Or.inl h)

theorem map_put {β : Type*} {f : ε → β} (hupd : ∀ e, p e → f (upd e) = f e) (es : List ε) :
    (put p upd new es).map f = if (es.find? p).isSome then es.map f else f new :: es.map f := by
  have hreplace : (replaceFirst p upd es).map f = es.map f := by
    induction es with
    | nil => rfl
    | cons e es ih =>
      unfold replaceFirst
      cases hp : p e with
      | true => simp [hupd e hp]
      | false => simp [ih]
  unfold put
  split_ifs
  · exact hreplace
  · rfl

/-- What is in a chain with distinct keys after a store under a key. -/
theorem mem_put_key {κ : Type*} {f : ε → κ} (hp : ∀ e, p e ↔ f e = f new) {es : List ε}
    (hnodup : (es.map f).Nodup) (e : ε) : e ∈ put p (fun _ => new) new es ↔ e = new ∨ e ∈ es ∧ f e ≠ f new := by
  unfold put
  split_ifs with hfound
  · induction es with
    | nil => exact absurd hfound Bool.false_ne_true
    | cons d es ih =>
      obtain ⟨hnot, hnodup⟩ := List.nodup_cons.mp hnodup
      unfold replaceFirst
      by_cases hd : p d = true
      · have hkey := (hp d).mp hd
        rw [if_pos hd, List.mem_cons, List.mem_cons]
        refine or_congr_right ⟨fun he => ⟨.inr he, fun h => hnot ?_⟩, fun h => h.1.resolve_left fun hsame => ?_⟩
        · rw [hkey, ← h]
          exact List.mem_map_of_mem he
        · exact h.2 (hsame ▸ hkey)
      · have hkey : f d ≠ f new := fun h => hd ((hp d).mpr h)
        rw [List.find?_cons_of_neg hd] at hfound
        rw [if_neg hd, List.mem_cons, List.mem_cons, ih hnodup hfound]
        constructor
        · rintro (rfl | rfl | ⟨he, hne⟩)
          · exact .inr ⟨.inl rfl, hkey⟩
          · exact .inl rfl
          · exact .inr ⟨.inr he, hne⟩
        · rintro (rfl | ⟨rfl | he, hne⟩)
          · exact .inr (.inl rfl)
          · exact .inl rfl
          · exact .inr (.inr ⟨he, hne⟩)
  · rw [List.mem_cons]
    refine or_congr_right ⟨fun he => ⟨he, fun h => hfound ?_⟩, And.left⟩
    exact List.find?_isSome.mpr ⟨e, he, (hp e).mpr h⟩

/-- What a lookup finds in a chain with distinct keys. -/
theorem find_key {κ : Type*} [DecidableEq κ] {f : ε → κ} {es : List ε} (hnodup : (es.map f).Nodup) {k : κ}
    {e : ε} : es.find? (fun d => f d == k) = some e ↔ e ∈ es ∧ f e = k := by
  induction es with
  | nil => simp
  | cons d es ih =>
    obtain ⟨hnot, hnodup⟩ := List.nodup_cons.mp hnodup
    by_cases hd : f d = k
    · have hfirst : (f d == k) = true := beq_iff_eq.mpr hd
      rw [List.find?_cons, hfirst, Option.some.injEq, List.mem_cons]
      constructor
      · rintro rfl
        exact ⟨.inl rfl, hd⟩
      · rintro ⟨rfl | he, hk⟩
        · rfl
        · have hmem : f e ∈ es.map f := List.mem_map_of_mem he
          rw [hk, ← hd] at hmem
          exact absurd hmem hnot
    · have hother : (f d == k) = false := beq_eq_false_iff_ne.mpr hd
      rw [List.find?_cons, hother, ih hnodup, List.mem_cons]
      constructor
      · rintro ⟨he, hk⟩
        exact ⟨.inr he, hk⟩
      · rintro ⟨rfl | he, hk⟩
        · exact absurd hk hd
        · exact ⟨he, hk⟩

theorem removeFirst_sublist (es : List ε) : (removeFirst p es).Sublist es := by
  induction es with
  | nil => exact List.Sublist.slnil
  | cons e es ih =>
    unfold removeFirst
    split
    · exact List.sublist_cons_self e es
    · exact ih.cons_cons e

/-- **A removal is invisible to a lookup whose predicate accepts none of its entries.** -/
theorem find_removeFirst_other (hq : ∀ e, p e → q e = false) (es : List ε) :
    (removeFirst p es).find? q = es.find? q := by
  induction es with
  | nil => rfl
  | cons e es ih =>
    unfold removeFirst
    cases hp : p e with
    | true => simp [hq e hp]
    | false => simp [List.find?_cons, ih]

end Agoo.Chain
