import Mathlib.Data.List.Basic
import Mathlib.Tactic.Common

/-!
# Programs that agree, and loops along pointers

`Agree` relates two programs that can fail: both fail alike, or both succeed and what they give is related. `each`
is a loop that goes from pointer to pointer and reads where it goes on before it runs its body. `Agree.each` is its
rule: the loop agrees with a fold over a list, if the body keeps what is left of the list in order.
-/

namespace Agoo

universe u v w

variable {ε : Type v} {ι S P S' P' : Type u} {E : Type w}

/-- Both fail alike, or both succeed and what they give is related. -/
inductive Agree (R : S → P → Prop) : Except ε S → Except ε P → Prop
  | ok {s : S} {p : P} (h : R s p) : Agree R (.ok s) (.ok p)
  | error (e : ε) : Agree R (.error e) (.error e)

namespace Agree

variable {R : S → P → Prop} {Q : S' → P' → Prop} {r : Except ε S} {r' : Except ε P}

theorem bind {f : S → Except ε S'} {f' : P → Except ε P'} (h : Agree R r r')
    (hf : ∀ s p, R s p → Agree Q (f s) (f' p)) : Agree Q (r >>= f) (r' >>= f') := by
  cases h with
  | ok h => exact hf _ _ h
  | error e => exact .error e

/-- Both begin with the same. -/
theorem same {A : Type u} {f : A → Except ε S'} {f' : A → Except ε P'} (r : Except ε A)
    (hf : ∀ a, Agree Q (f a) (f' a)) : Agree Q (r >>= f) (r >>= f') := by
  cases r with
  | ok a => exact hf a
  | error e => exact .error e

theorem mono {R' : S → P → Prop} (h : Agree R r r') (hR : ∀ s p, R s p → R' s p) : Agree R' r r' := by
  cases h with
  | ok h => exact .ok (hR _ _ h)
  | error e => exact .error e

theorem of_ok {s : S} (h : Agree R r r') (hr : r = .ok s) : ∃ p, r' = .ok p ∧ R s p := by
  cases h with
  | ok h =>
    cases hr
    exact ⟨_, rfl, h⟩
  | error e => cases hr

theorem to_ok {p : P} (h : Agree R r r') (hr : r' = .ok p) : ∃ s, r = .ok s ∧ R s p := by
  cases h with
  | ok h =>
    cases hr
    exact ⟨_, rfl, h⟩
  | error e => cases hr

theorem error_iff (h : Agree R r r') (e : ε) : r = .error e ↔ r' = .error e := by
  cases h with
  | ok h => exact ⟨nofun, nofun⟩
  | error e' => simp

end Agree

/-- A program that succeeds, in its two parts. -/
theorem bind_ok {A B : Type u} {r : Except ε A} {f : A → Except ε B} {b : B} (h : r >>= f = .ok b) :
    ∃ a, r = .ok a ∧ f a = .ok b := by
  cases r with
  | ok a => exact ⟨a, rfl, h⟩
  | error e => exact nomatch h

/-- `for (a = first; NULL != a; a = next)`; `next` is read before the body. -/
def each (next : ι → S → Except ε (Option ι)) (out : ε) (body : ι → S → Except ε S) :
    ℕ → Option ι → S → Except ε S
  | _, none, s => .ok s
  | 0, some _, _ => .error out
  | fuel + 1, some a, s => do
    let p ← next a s
    let s ← body a s
    each next out body fuel p s

/-- **A loop agrees with a fold over a list**, if `next` leads along what is left of it and the body keeps that. -/
theorem Agree.each (next : ι → S → Except ε (Option ι)) (out : ε) {body : ι → S → Except ε S}
    {body' : E → P → Except ε P} (key : E → ι) (Inv : List E → S → P → Prop)
    (hnext : ∀ e l s p, Inv (e :: l) s p → next (key e) s = .ok (l.head?.map key))
    (hbody : ∀ e l s p, Inv (e :: l) s p → Agree (Inv l) (body (key e) s) (body' e p))
    {todo : List E} {s : S} {p : P} (h : Inv todo s p) {fuel : ℕ} (hfuel : todo.length ≤ fuel) :
    Agree (Inv []) (each next out body fuel (todo.head?.map key) s) (todo.foldlM (fun p e => body' e p) p) := by
  induction todo generalizing s p fuel with
  | nil =>
    rw [List.head?_nil, Option.map_none, Agoo.each]
    exact .ok h
  | cons e l ih =>
    obtain ⟨fuel, rfl⟩ : ∃ k, fuel = k + 1 := ⟨fuel - 1, by rw [List.length_cons] at hfuel; omega⟩
    rw [List.head?_cons, Option.map_some, Agoo.each, hnext e l s p h, List.foldlM_cons]
    exact (hbody e l s p h).bind fun s p h => ih h (Nat.le_of_succ_le_succ hfuel)

end Agoo
