import Mathlib.Data.List.Basic
import Mathlib.Tactic.Common

/-!
# Readers of a stream

A reader takes a stream one symbol at a time and gives a value now and then. A list of symbols is a frame of a value
when the reader, from its start, gives this value with the last of them and is back at its start.

`given_frames`: from frames behind each other, and a part of one more, a reader gives their values in order.
-/

namespace Agoo

/-- What is done with a symbol: the state then, and what is given. -/
structure Reader (σ α β : Type) where
  start : σ
  step : σ → α → σ × Option β

namespace Reader

variable {σ α β ι : Type} (r : Reader σ α β)

/-- The state after some symbols. -/
def after (s : σ) : List α → σ
  | [] => s
  | a :: as => after (r.step s a).1 as

/-- What is given with some symbols. -/
def given (s : σ) : List α → List β
  | [] => []
  | a :: as => (r.step s a).2.toList ++ given (r.step s a).1 as

variable {r} {s : σ} {f g : List α} {b : β}

theorem after_append (s : σ) (as bs : List α) : r.after s (as ++ bs) = r.after (r.after s as) bs := by
  induction as generalizing s with
  | nil => rfl
  | cons a as ih => exact ih _

theorem given_append (s : σ) (as bs : List α) :
    r.given s (as ++ bs) = r.given s as ++ r.given (r.after s as) bs := by
  induction as generalizing s with
  | nil => rfl
  | cons a as ih =>
    show (r.step s a).2.toList ++ r.given _ (as ++ bs) = (r.step s a).2.toList ++ r.given _ as ++ _
    rw [ih, List.append_assoc]
    rfl

theorem after_concat (s : σ) (as : List α) (a : α) : r.after s (as ++ [a]) = (r.step (r.after s as) a).1 :=
  after_append s as [a]

theorem given_concat (s : σ) (as : List α) (a : α) :
    r.given s (as ++ [a]) = r.given s as ++ (r.step (r.after s as) a).2.toList := by
  rw [given_append]
  show _ ++ ((r.step _ a).2.toList ++ []) = _
  rw [List.append_nil]

theorem given_prefix {as bs : List α} (h : as <+: bs) : r.given s as <+: r.given s bs := by
  obtain ⟨rest, rfl⟩ := h
  rw [given_append]
  exact List.prefix_append _ _

/-! ## Frames -/

variable (r) in
/-- `f` is read as `b`. -/
structure Frames (f : List α) (b : β) : Prop where
  back : r.after r.start f = r.start
  given : r.given r.start f = [b]
  before : ∀ p, p <+: f → p ≠ f → r.given r.start p = []

/-- Nothing is given before the last symbol. -/
theorem frames_concat {a : α} (hf : r.given r.start f = []) (ha : r.step (r.after r.start f) a = (r.start, some b)) :
    r.Frames (f ++ [a]) b where
  back := by rw [after_concat, ha]
  given := by
    rw [given_concat, hf, ha]
    rfl
  before p hp hne := by
    rcases List.prefix_concat_iff.mp hp with rfl | hp
    · exact absurd rfl hne
    · exact List.prefix_nil.mp (hf ▸ given_prefix hp)

/-- Behind lists that lead back to the start a reader is at its start. -/
theorem after_flatMap (frame : ι → List α) (is : List ι) (h : ∀ i ∈ is, r.after r.start (frame i) = r.start) :
    r.after r.start (is.flatMap frame) = r.start := by
  induction is with
  | nil => rfl
  | cons i is ih =>
    rw [List.flatMap_cons, after_append, h i List.mem_cons_self]
    exact ih fun j hj => h j (List.mem_cons_of_mem i hj)

/-- Each of them is read by itself. -/
theorem given_flatMap (frame : ι → List α) (is : List ι) (h : ∀ i ∈ is, r.after r.start (frame i) = r.start) :
    r.given r.start (is.flatMap frame) = is.flatMap fun i => r.given r.start (frame i) := by
  induction is with
  | nil => rfl
  | cons i is ih =>
    rw [List.flatMap_cons, List.flatMap_cons, given_append, h i List.mem_cons_self,
      ih fun j hj => h j (List.mem_cons_of_mem i hj)]

/-- A list of frames, and a part of one more. -/
theorem given_frames {frame : ι → List α} {value : ι → β} {is : List ι} (h : ∀ i ∈ is, r.Frames (frame i) (value i))
    {p : List α} (hp : r.given r.start p = []) :
    r.given r.start (is.flatMap frame ++ p) = is.map value := by
  have hback : ∀ i ∈ is, r.after r.start (frame i) = r.start := fun i hi => (h i hi).back
  rw [given_append, after_flatMap frame is hback, hp, List.append_nil, given_flatMap frame is hback,
    List.map_eq_flatMap]
  exact List.flatMap_congr fun i hi => (h i hi).given

/-- Where each list gives something, they are frames of values when as much is given as there are values. -/
theorem flatMap_eq_map_iff {read : ι → List β} {value : ι → β} {is : List ι} (h : ∀ i ∈ is, read i ≠ []) :
    is.flatMap read = is.map value ↔ ∀ i ∈ is, read i = [value i] := by
  have hle : ∀ js : List ι, (∀ i ∈ js, read i ≠ []) → js.length ≤ (js.flatMap read).length := by
    intro js hjs
    induction js with
    | nil => exact Nat.le_refl 0
    | cons i js ih =>
      have hpos := List.length_pos_iff.mpr (hjs i List.mem_cons_self)
      have hrest := ih fun j hj => hjs j (List.mem_cons_of_mem i hj)
      rw [List.flatMap_cons, List.length_append, List.length_cons]
      omega
  constructor
  · intro heq
    induction is with
    | nil => exact fun i hi => absurd hi List.not_mem_nil
    | cons i is ih =>
      have hrest := hle is fun j hj => h j (List.mem_cons_of_mem i hj)
      have hpos := List.length_pos_iff.mpr (h i List.mem_cons_self)
      rw [List.flatMap_cons, List.map_cons] at heq
      have hlen := congrArg List.length heq
      rw [List.length_append, List.length_cons, List.length_map] at hlen
      obtain ⟨b, hb⟩ := List.length_eq_one_iff.mp (show (read i).length = 1 by omega)
      rw [hb, List.singleton_append] at heq
      obtain ⟨hvalue, htail⟩ := List.cons.inj heq
      intro j hj
      rcases List.mem_cons.mp hj with rfl | hj
      · rw [hb, hvalue]
      · exact ih (fun k hk => h k (List.mem_cons_of_mem i hk)) htail j hj
  · intro hall
    rw [List.map_eq_flatMap]
    exact List.flatMap_congr hall

/-! ## Frames of a known length -/

/-- A reader that keeps what came until it is `whole`. -/
def keeping (whole : List α → Bool) (value : List α → β) : Reader (List α) α β where
  start := []
  step s a := if whole (s ++ [a]) then ([], some (value (s ++ [a]))) else (s ++ [a], none)

/-- While nothing is whole, everything is kept. -/
theorem keeping_part {whole : List α → Bool} (value : List α → β) (f s : List α)
    (h : ∀ p, p <+: f → p ≠ [] → whole (s ++ p) = false) :
    (keeping whole value).after s f = s ++ f ∧ (keeping whole value).given s f = [] := by
  induction f generalizing s with
  | nil => exact ⟨(List.append_nil s).symm, rfl⟩
  | cons a f ih =>
    have ha := h [a] (List.prefix_append [a] f) (List.cons_ne_nil a [])
    have hstep : (keeping whole value).step s a = (s ++ [a], none) := by
      show (if whole (s ++ [a]) then _ else _) = _
      rw [ha, if_neg Bool.false_ne_true]
    have hrest := ih (s ++ [a]) fun p hp _ => by
      rw [List.append_assoc]
      exact h (a :: p) (List.cons_prefix_cons.mpr ⟨rfl, hp⟩) (List.cons_ne_nil a p)
    show (keeping whole value).after ((keeping whole value).step s a).1 f = _ ∧
      ((keeping whole value).step s a).2.toList ++ (keeping whole value).given ((keeping whole value).step s a).1 f = []
    rw [hstep, hrest.1, hrest.2, List.append_assoc]
    exact ⟨rfl, rfl⟩

theorem frames_keeping {whole : List α → Bool} {value : List α → β} (hne : f ≠ []) (hf : whole f = true)
    (h : ∀ p, p <+: f → p ≠ f → whole p = false) : (keeping whole value).Frames f (value f) := by
  obtain ⟨g, a, rfl⟩ : ∃ g a, f = g ++ [a] := ⟨f.dropLast, f.getLast hne, (List.dropLast_append_getLast hne).symm⟩
  have hpart : ∀ p, p <+: g → p ≠ [] → whole ([] ++ p) = false := by
    intro p hp _
    refine h p (hp.trans (List.prefix_append g [a])) ?_
    rintro rfl
    have hlen := hp.length_le
    rw [List.length_append, List.length_singleton] at hlen
    omega
  obtain ⟨hafter, hgiven⟩ := keeping_part value g [] hpart
  refine frames_concat hgiven ?_
  rw [show (keeping whole value).start = [] from rfl, hafter]
  show (if whole ([] ++ g ++ [a]) then _ else _) = _
  rw [List.nil_append, hf, if_pos rfl]

end Reader

end Agoo
