import Agoo.Bytes
import Mathlib.Data.List.Infix

/-!
# Lines that end in CR LF

`crlfLines` cuts a text at each CR LF. A text made of lines is cut into these lines again, so that the lines
before the first empty line are known from the text.
-/

namespace Agoo

/-- The pieces of a text between its CR LFs. -/
def crlfLines : Bytes → List Bytes
  | [] => [[]]
  | [c] => [[c]]
  | c :: d :: s =>
    if c = chr '\r' ∧ d = chr '\n' then [] :: crlfLines s else (crlfLines (d :: s)).modifyHead (c :: ·)

/-- Lines, each with its end. -/
def joinLines (ls : List Bytes) : Bytes := ls.flatMap (· ++ crlf)

@[simp] theorem joinLines_nil : joinLines [] = [] := rfl

@[simp] theorem joinLines_cons (l : Bytes) (ls : List Bytes) :
    joinLines (l :: ls) = l ++ (crlf ++ joinLines ls) := by
  unfold joinLines
  rw [List.flatMap_cons, List.append_assoc]

theorem joinLines_append (ls ks : List Bytes) : joinLines (ls ++ ks) = joinLines ls ++ joinLines ks :=
  List.flatMap_append

theorem crlfLines_ne_nil (s : Bytes) : crlfLines s ≠ [] := by
  induction s using crlfLines.induct with
  | case1 => exact List.cons_ne_nil _ _
  | case2 c => exact List.cons_ne_nil _ _
  | case3 c d s h ih =>
    rw [crlfLines, if_pos h]
    exact List.cons_ne_nil _ _
  | case4 c d s h ih =>
    obtain ⟨l, ls, hlines⟩ := List.exists_cons_of_ne_nil ih
    rw [crlfLines, if_neg h, hlines]
    exact List.cons_ne_nil (c :: l) ls

theorem modifyHead_append {ls ks : List Bytes} (h : ls ≠ []) (f : Bytes → Bytes) :
    (ls ++ ks).modifyHead f = ls.modifyHead f ++ ks := by
  obtain ⟨l, ls, rfl⟩ := List.exists_cons_of_ne_nil h
  rfl

/-- A CR LF cuts a text in two. -/
theorem crlfLines_append (s x : Bytes) : crlfLines (s ++ (crlf ++ x)) = crlfLines s ++ crlfLines x := by
  induction s using crlfLines.induct with
  | case1 => exact if_pos ⟨rfl, rfl⟩
  | case2 c =>
    have hnot : ¬ (c = chr '\r' ∧ chr '\r' = chr '\n') := fun h => absurd h.2 (by decide)
    have hend : crlfLines (crlf ++ x) = [] :: crlfLines x := if_pos ⟨rfl, rfl⟩
    have hcons : crlfLines (c :: chr '\r' :: chr '\n' :: x) = (crlfLines (crlf ++ x)).modifyHead (c :: ·) :=
      if_neg hnot
    show crlfLines (c :: chr '\r' :: chr '\n' :: x) = _
    rw [hcons, hend]
    rfl
  | case3 c d s h ih =>
    rw [List.cons_append, List.cons_append, crlfLines, crlfLines, if_pos h, if_pos h, ih]
    rfl
  | case4 c d s h ih =>
    rw [List.cons_append] at ih
    rw [List.cons_append, List.cons_append, crlfLines, crlfLines, if_neg h, if_neg h, ih,
      modifyHead_append (crlfLines_ne_nil _)]

/-- The pieces are the text again. -/
theorem joinLines_crlfLines (s : Bytes) : joinLines (crlfLines s) = s ++ crlf := by
  induction s using crlfLines.induct with
  | case1 => rfl
  | case2 c => rfl
  | case3 c d s h ih =>
    rw [crlfLines, if_pos h, joinLines_cons, ih, h.1, h.2]
    rfl
  | case4 c d s h ih =>
    obtain ⟨l, ls, hlines⟩ := List.exists_cons_of_ne_nil (crlfLines_ne_nil (d :: s))
    rw [hlines, joinLines_cons] at ih
    rw [crlfLines, if_neg h, hlines]
    show joinLines ((c :: l) :: ls) = _
    rw [joinLines_cons, List.cons_append, ih]
    rfl

/-- A text is one line. -/
def OneLine (l : Bytes) : Prop := crlfLines l = [l]

/-- What is before the first CR belongs to the first piece. -/
theorem crlfLines_plain_append {a : Bytes} (ha : chr '\r' ∉ a) (s : Bytes) :
    crlfLines (a ++ s) = (crlfLines s).modifyHead (a ++ ·) := by
  obtain ⟨l, ls, hlines⟩ := List.exists_cons_of_ne_nil (crlfLines_ne_nil s)
  rw [hlines]
  induction a with
  | nil => exact hlines
  | cons c a ih =>
    have hnext := ih fun hmem => ha (List.mem_cons_of_mem c hmem)
    have hc : ∀ d, ¬ (c = chr '\r' ∧ d = chr '\n') := fun d h => ha (h.1 ▸ List.mem_cons_self ..)
    rw [List.cons_append]
    cases htext : a ++ s with
    | nil =>
      rw [htext] at hnext
      obtain ⟨hl, rfl⟩ := List.cons.inj hnext
      have hnil : a ++ l = [] := hl.symm
      show [[c]] = [c :: (a ++ l)]
      rw [hnil]
    | cons d t =>
      rw [crlfLines, if_neg (hc d), ← htext, hnext]
      rfl

theorem oneLine_of_plain {l : Bytes} (h : chr '\r' ∉ l) : OneLine l := by
  have hlines := crlfLines_plain_append h []
  rw [List.append_nil] at hlines
  unfold OneLine
  rw [hlines]
  show [l ++ []] = [l]
  rw [List.append_nil]

/-- Each piece is one line. -/
theorem oneLine_of_mem {s l : Bytes} (hl : l ∈ crlfLines s) : OneLine l := by
  induction s using crlfLines.induct generalizing l with
  | case1 => rw [List.mem_singleton.mp hl]; rfl
  | case2 c => rw [List.mem_singleton.mp hl]; rfl
  | case3 c d s hend ih =>
    rw [crlfLines, if_pos hend] at hl
    rcases List.mem_cons.mp hl with rfl | hl
    · rfl
    · exact ih hl
  | case4 c d s hend ih =>
    obtain ⟨k, ls, hlines⟩ := List.exists_cons_of_ne_nil (crlfLines_ne_nil (d :: s))
    rw [crlfLines, if_neg hend, hlines] at hl
    rw [hlines] at ih
    rcases List.mem_cons.mp hl with rfl | hl
    · have hone : OneLine k := ih (List.mem_cons_self ..)
      have htext := joinLines_crlfLines (d :: s)
      rw [hlines, joinLines_cons] at htext
      unfold OneLine
      cases k with
      | nil => rfl
      | cons e k =>
        -- the piece begins where the text does
        obtain rfl : e = d := (List.cons.inj htext).1
        rw [crlfLines, if_neg hend, hone]
        rfl
    · exact ih (List.mem_cons_of_mem k hl)

/-- A text made of lines, and what is behind them. -/
theorem crlfLines_joinLines {ls : List Bytes} (h : ∀ l ∈ ls, OneLine l) (x : Bytes) :
    crlfLines (joinLines ls ++ x) = ls ++ crlfLines x := by
  induction ls with
  | nil => rfl
  | cons l ls ih =>
    obtain ⟨hl, hls⟩ := List.forall_mem_cons.mp h
    rw [joinLines_cons, List.append_assoc, List.append_assoc, crlfLines_append, hl, ih hls]
    rfl

end Agoo
