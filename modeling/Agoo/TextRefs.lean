import Agoo.Runs
import Mathlib.Algebra.Order.Group.Unbundled.Int
import Mathlib.Logic.Function.Basic

/-!
# References to texts (`text.c`, `res.c`, `page.c`, `con.c`)

The text of a page is in the message lists of many responses at a time. `counted_iff`: in which runs each text
is counted and freed with its holders and no message list is changed through another.
-/

namespace Agoo

namespace TextRefs

/-! ## Sums over cells -/

/-- What the first `n` cells add up to. -/
def sumTo : ℕ → (ℕ → ℕ) → ℕ
  | 0, _ => 0
  | n + 1, f => sumTo n f + f n

theorem sumTo_congr {n : ℕ} {f g : ℕ → ℕ} (h : ∀ i < n, f i = g i) : sumTo n f = sumTo n g := by
  induction n with
  | zero => rfl
  | succ n ih =>
    show sumTo n f + f n = sumTo n g + g n
    rw [ih fun i hi => h i (hi.trans n.lt_succ_self), h n n.lt_succ_self]

theorem sumTo_eq_zero {n : ℕ} {f : ℕ → ℕ} (h : ∀ i < n, f i = 0) : sumTo n f = 0 := by
  induction n with
  | zero => rfl
  | succ n ih =>
    show sumTo n f + f n = 0
    rw [ih fun i hi => h i (hi.trans n.lt_succ_self), h n n.lt_succ_self]

/-- One cell is changed. -/
theorem sumTo_change {n i : ℕ} {f g : ℕ → ℕ} (hi : i < n) (h : ∀ j, j ≠ i → g j = f j) :
    sumTo n g + f i = sumTo n f + g i := by
  induction n with
  | zero => omega
  | succ n ih =>
    show sumTo n g + g n + f i = sumTo n f + f n + g i
    rcases Nat.lt_succ_iff_lt_or_eq.mp hi with hlt | rfl
    · have hrest := ih hlt
      rw [h n hlt.ne']
      omega
    · have hrest : sumTo i g = sumTo i f := sumTo_congr fun j hj => h j hj.ne
      omega

theorem le_sumTo {n i : ℕ} (hi : i < n) (f : ℕ → ℕ) : f i ≤ sumTo n f := by
  induction n with
  | zero => omega
  | succ n ih =>
    show f i ≤ sumTo n f + f n
    rcases Nat.lt_succ_iff_lt_or_eq.mp hi with hlt | rfl
    · exact (ih hlt).trans (Nat.le_add_right _ _)
    · exact Nat.le_add_left _ _

theorem sumTo_mono {n : ℕ} {f g : ℕ → ℕ} (h : ∀ i < n, f i ≤ g i) : sumTo n f ≤ sumTo n g := by
  induction n with
  | zero => exact le_rfl
  | succ n ih => exact Nat.add_le_add (ih fun i hi => h i (hi.trans n.lt_succ_self)) (h n n.lt_succ_self)

theorem sumTo_lt {n i : ℕ} {f g : ℕ → ℕ} (h : ∀ j < n, f j ≤ g j) (hi : i < n) (hlt : f i < g i) :
    sumTo n f < sumTo n g := by
  induction n with
  | zero => omega
  | succ n ih =>
    show sumTo n f + f n < sumTo n g + g n
    have hle : ∀ j < n, f j ≤ g j := fun j hj => h j (hj.trans n.lt_succ_self)
    rcases Nat.lt_succ_iff_lt_or_eq.mp hi with hin | rfl
    · exact Nat.add_lt_add_of_lt_of_le (ih hle hin) (h n n.lt_succ_self)
    · exact Nat.add_lt_add_of_le_of_lt (sumTo_mono hle) hlt

/-! ## The code -/

/-- `struct _agooText`, and how often it was freed. -/
structure Text where
  next : Option ℕ
  refCnt : ℤ
  freed : ℕ

/-- What `agoo_text_allocate` gives. -/
def Text.init : Text := ⟨none, 0, 0⟩

/-- `agoo_text_ref`. -/
def Text.ref (x : Text) : Text := { x with refCnt := x.refCnt + 1 }

/-- `agoo_text_release`. -/
def Text.release (x : Text) : Text :=
  { x with refCnt := x.refCnt - 1, freed := if x.refCnt ≤ 1 then x.freed + 1 else x.freed }

/-- `struct _agooRes`. It is in the list of a connection until it is popped and not put back. -/
structure Res where
  con : Option ℕ
  message : Option ℕ
  final : Bool
  close : Bool
  ping : Bool

/-- Texts, pages with their `resp` and responses; pages and responses that are freed are gone. -/
structure World where
  texts : ℕ → Text
  textCnt : ℕ
  pages : ℕ → Option (Option ℕ)
  pageCnt : ℕ
  ress : ℕ → Option Res
  resCnt : ℕ

/-- How far `update_contents` comes: no text is allocated, it is not read, or it is. -/
inductive Load
  | none
  | unread
  | read

/-- What `send` or `SSL_write` does: nothing, a part, or what was left of the text. -/
inductive Sent
  | failed
  | part
  | whole

def World.init : World := ⟨fun _ => Text.init, 0, fun _ => none, 0, fun _ => none, 0⟩

namespace World

variable (w : World)

def setText (t : ℕ) (x : Text) : World := { w with texts := Function.update w.texts t x }

def setPage (p : ℕ) (page : Option (Option ℕ)) : World := { w with pages := Function.update w.pages p page }

def setRes (r : ℕ) (res : Option Res) : World := { w with ress := Function.update w.ress r res }

/-- `agoo_text_allocate`: the text is at `textCnt`. -/
def textAllocate : World := { w.setText w.textCnt Text.init with textCnt := w.textCnt + 1 }

/-- `agoo_text_ref`, if it is not `NULL`. -/
def textRef (o : Option ℕ) : World :=
  { w with texts := o.elim w.texts fun t => Function.update w.texts t (w.texts t).ref }

/-- `agoo_text_release`, if it is not `NULL`. -/
def textRelease (o : Option ℕ) : World :=
  { w with texts := o.elim w.texts fun t => Function.update w.texts t (w.texts t).release }

/-- `agoo_page_create`. -/
def pageCreate : World := { w.setPage w.pageCnt (some none) with pageCnt := w.pageCnt + 1 }

/-- `update_contents` for a page with the text `resp`. -/
def updateContents (p : ℕ) (resp : Option ℕ) : Load → World
  | .none => w
  | .unread => w.textAllocate.textRelease (some w.textCnt)
  | .read => ((w.textAllocate.textRelease resp).setPage p (some (some w.textCnt))).textRef (some w.textCnt)

/-- `agoo_page_destroy`. -/
def pageDestroy (p : ℕ) (resp : Option ℕ) : World := (w.textRelease resp).setPage p none

/-- `agoo_res_create` and `agoo_con_res_append`: the response is at `resCnt`. -/
def resCreate (c : ℕ) (close : Bool) : World :=
  { w.setRes w.resCnt (some ⟨some c, none, false, close, false⟩) with resCnt := w.resCnt + 1 }

/-- The last text of a list; the loop takes at most `fuel` steps. -/
def lastText : ℕ → ℕ → ℕ
  | 0, t => t
  | fuel + 1, t =>
    match (w.texts t).next with
    | none => t
    | some next => lastText fuel next

/-- A text is put at the end of a message list, if the response is not final. -/
def append (r : ℕ) (res : Res) (t : Option ℕ) (final : Bool) : World :=
  if res.final then w
  else
    match res.message with
    | none => w.setRes r (some { res with message := t, final := final })
    | some first =>
      let last := w.lastText w.textCnt first
      (w.setText last { w.texts last with next := t }).setRes r (some { res with final := final })

/-- `agoo_res_message_push`. -/
def resMessagePush (r : ℕ) (res : Res) (t : Option ℕ) : World := (w.textRef t).append r res t true

/-- `agoo_res_add_early`. -/
def resAddEarly (r : ℕ) (res : Res) : World := w.textAllocate.append r res (some w.textCnt) false

/-- `agoo_res_destroy`. -/
def resDestroy (r : ℕ) (res : Res) : World := (w.textRelease res.message).setRes r none

/-- `page_response`. -/
def pageResponse (c : ℕ) (resp : Option ℕ) (close : Bool) : World :=
  (w.resCreate c close).resMessagePush w.resCnt ⟨some c, none, false, close, false⟩ resp

/-- The first response in the list of a connection. -/
def head (c : ℕ) : Option ℕ :=
  (List.range w.resCnt).find? fun r => (w.ress r).any fun res => res.con = some c

/-- `agoo_con_http_write` for the first response. It is put back, unless nothing was sent. -/
def conHttpWrite (r : ℕ) (res : Res) (sent : Sent) : World :=
  match res.message with
  | none => w.setRes r (some { res with con := none })
  | some t =>
    match sent with
    | .failed => w.setRes r (some { res with con := none })
    | .part => w
    | .whole =>
      -- `agoo_res_message_next`
      let next := { res with message := (w.texts t).next }
      let w' := (w.textRelease (some t)).setRes r (some next)
      if next.message = none ∧ res.final = true then w'.resDestroy r next else w'

/-- `remove_dead_res`, along the list of the connection. -/
def removeDeadRes (c : ℕ) : List ℕ → World → World
  | [], w => w
  | r :: rs, w =>
    match w.ress r with
    | none => removeDeadRes c rs w
    | some res =>
      if res.con = some c then
        if res.message = none ∧ res.close = false ∧ res.ping = false then w
        else removeDeadRes c rs (w.resDestroy r res)
      else removeDeadRes c rs w

/-- `agoo_con_destroy`, which frees the responses themselves. -/
def conDestroy (c : ℕ) : World :=
  { w with ress := fun r => (w.ress r).filter fun res => res.con ≠ some c }

end World

/-- Pages and responses are named by their numbers. -/
inductive Action
  | pageCreate
  | updateContents (p : ℕ) (load : Load)
  | pageDestroy (p : ℕ)
  | request (c : ℕ) (close : Bool)
  | pageResponse (c p : ℕ) (close : Bool)
  /-- A new text is pushed. -/
  | push (r : ℕ)
  | addEarly (r : ℕ)
  | write (c : ℕ) (sent : Sent)
  | removeDead (c : ℕ)
  | conDestroy (c : ℕ)

/-- The page or the response must be there. -/
def step (w : World) : Action → Option World
  | .pageCreate => some w.pageCreate
  | .updateContents p load => (w.pages p).map fun resp => w.updateContents p resp load
  | .pageDestroy p => (w.pages p).map fun resp => w.pageDestroy p resp
  | .request c close => some (w.resCreate c close)
  | .pageResponse c p close => (w.pages p).map fun resp => w.pageResponse c resp close
  | .push r => (w.ress r).map fun res => w.textAllocate.resMessagePush r res (some w.textCnt)
  | .addEarly r => (w.ress r).map fun res => w.resAddEarly r res
  | .write c sent => (w.head c).bind fun r => (w.ress r).map fun res => w.conHttpWrite r res sent
  | .removeDead c => some (World.removeDeadRes c (List.range w.resCnt) w)
  | .conDestroy c => some (w.conDestroy c)

/-! ## The law -/

namespace World

variable (w : World)

/-- The texts from one on. -/
def chain : ℕ → Option ℕ → List ℕ
  | 0, _ => []
  | _, none => []
  | fuel + 1, some t => t :: chain fuel (w.texts t).next

/-- The message list of a response. -/
def messages (r : ℕ) : List ℕ := (w.ress r).elim [] fun res => w.chain w.textCnt res.message

/-- How many references pages and responses have to a text. -/
def holders (t : ℕ) : ℕ :=
  sumTo w.pageCnt (fun p => if w.pages p = some (some t) then 1 else 0) +
    sumTo w.resCnt fun r => (w.messages r).count t

end World

/-- A text with holders is counted and not freed, one without is freed, once. -/
structure Text.Counted (x : Text) (n : ℕ) : Prop where
  freed : x.freed = if n = 0 then 1 else 0
  refCnt : 0 < n → x.refCnt = n

def World.Counted (w : World) : Prop := ∀ t < w.textCnt, (w.texts t).Counted (w.holders t)

/-- The response that an action is for. -/
def Action.target (w : World) : Action → Option ℕ
  | .push r => some r
  | .addEarly r => some r
  | .write c _ => w.head c
  | _ => none

/-- A response that is there before and after has the same messages, if the action is not for it. -/
def Apart (w : World) (a : Action) : Prop :=
  ∀ w' r, step w a = some w' → (w.ress r).isSome = true → (w'.ress r).isSome = true → a.target w ≠ some r →
    w'.messages r = w.messages r

/-- Early hints are not counted; a push to a final response counts a text that is not in its list; a connection
that is destroyed does not release texts. -/
def Action.Ok (w : World) : Action → Prop
  | .push r => ∀ res, w.ress r = some res → res.final = false
  | .addEarly _ => False
  | .conDestroy c => ∀ r res, w.ress r = some res → res.con = some c → res.message = none
  | _ => True

/-! ## Counts -/

theorem Text.Counted.ref {x : Text} {n : ℕ} (h : x.Counted n) (hn : 0 < n) : x.ref.Counted (n + 1) := by
  have hfreed := h.freed
  have hcnt := h.refCnt hn
  rw [if_neg hn.ne'] at hfreed
  refine ⟨?_, fun _ => ?_⟩
  · rw [if_neg n.succ_ne_zero]
    exact hfreed
  · show x.refCnt + 1 = _
    rw [hcnt]
    rfl

theorem Text.Counted.release {x : Text} {n : ℕ} (h : x.Counted (n + 1)) : x.release.Counted n := by
  have hfreed := h.freed
  have hcnt := h.refCnt n.succ_pos
  rw [if_neg n.succ_ne_zero] at hfreed
  refine ⟨?_, fun hn => ?_⟩
  · show (if x.refCnt ≤ 1 then x.freed + 1 else x.freed) = _
    rw [hcnt, hfreed]
    exact if_congr (by omega) rfl rfl
  · show x.refCnt - 1 = _
    omega

/-- All texts are counted, with these holders. -/
def AllCounted (texts : ℕ → Text) (cnt : ℕ) (held : ℕ → ℕ) : Prop := ∀ t < cnt, (texts t).Counted (held t)

section

variable {texts : ℕ → Text} {cnt : ℕ} {held held' : ℕ → ℕ}

theorem AllCounted.congr (h : AllCounted texts cnt held) (hheld : ∀ t, held' t = held t) :
    AllCounted texts cnt held' := fun t ht => (hheld t).symm ▸ h t ht

theorem AllCounted.ref (h : AllCounted texts cnt held) {o : ℕ} (hpos : 0 < held o)
    (hheld : ∀ t, held' t = held t + if t = o then 1 else 0) :
    AllCounted (Function.update texts o (texts o).ref) cnt held' := by
  intro t ht
  rw [hheld]
  by_cases hto : t = o
  · subst hto
    rw [Function.update_self, if_pos rfl]
    exact (h t ht).ref hpos
  · rw [Function.update_of_ne hto, if_neg hto]
    exact h t ht

theorem AllCounted.release (h : AllCounted texts cnt held) {o : ℕ}
    (hheld : ∀ t, held' t + (if t = o then 1 else 0) = held t) :
    AllCounted (Function.update texts o (texts o).release) cnt held' := by
  intro t ht
  have hcounted := h t ht
  rw [← hheld t] at hcounted
  by_cases hto : t = o
  · subst hto
    rw [if_pos rfl] at hcounted
    rw [Function.update_self]
    exact hcounted.release
  · rw [if_neg hto] at hcounted
    rw [Function.update_of_ne hto]
    exact hcounted

/-- One more text. -/
theorem AllCounted.add (h : AllCounted texts cnt held) {x : Text} (hheld : ∀ t < cnt, held' t = held t)
    (hx : x.Counted (held' cnt)) : AllCounted (Function.update texts cnt x) (cnt + 1) held' := by
  intro t ht
  rcases Nat.lt_succ_iff_lt_or_eq.mp ht with hlt | rfl
  · rw [Function.update_of_ne hlt.ne, hheld t hlt]
    exact h t hlt
  · rw [Function.update_self]
    exact hx

end

/-! ## Holders -/

/-- Whether a reference is to a text. -/
def cell (o : Option ℕ) (t : ℕ) : ℕ := if o = some t then 1 else 0

theorem cell_none (t : ℕ) : cell none t = 0 := rfl

theorem cell_some (o t : ℕ) : cell (some o) t = if t = o then 1 else 0 := by
  unfold cell
  exact if_congr (by rw [Option.some.injEq, eq_comm]) rfl rfl

theorem cell_count (o : Option ℕ) (t : ℕ) : o.toList.count t = cell o t := by
  cases o with
  | none => rfl
  | some u =>
    rw [cell_some, Option.toList_some, List.count_singleton]
    exact if_congr (by rw [beq_iff_eq, eq_comm]) rfl rfl

namespace World

/-- What a page refers to. -/
def pageRef (w : World) (p : ℕ) : Option ℕ := (w.pages p).bind id

/-- What a response refers to. -/
def resRef (w : World) (r : ℕ) : Option ℕ := (w.ress r).bind Res.message

/-- The holders, where no text has a next one. -/
def held (w : World) (t : ℕ) : ℕ :=
  sumTo w.pageCnt (fun p => cell (w.pageRef p) t) + sumTo w.resCnt fun r => cell (w.resRef r) t

/-- No text has a next one, and what is referred to is there. -/
structure Shape (w : World) : Prop where
  next : ∀ t, (w.texts t).next = none
  page : ∀ p t, w.pageRef p = some t → t < w.textCnt
  message : ∀ r t, w.resRef r = some t → t < w.textCnt
  pageCnt : ∀ p resp, w.pages p = some resp → p < w.pageCnt
  resCnt : ∀ r res, w.ress r = some res → r < w.resCnt

variable {w : World}

theorem Shape.messages (h : w.Shape) (r : ℕ) : w.messages r = (w.resRef r).toList := by
  have hnone : ∀ n, w.chain n none = [] := fun n => by cases n <;> rfl
  have hmessage := h.message r
  unfold World.messages
  unfold resRef at hmessage ⊢
  cases hres : w.ress r with
  | none => rfl
  | some res =>
    rw [hres] at hmessage
    show w.chain w.textCnt res.message = res.message.toList
    cases hfirst : res.message with
    | none => exact hnone _
    | some t =>
      obtain ⟨n, hn⟩ := Nat.exists_eq_succ_of_ne_zero (Nat.ne_of_gt (Nat.zero_lt_of_lt (hmessage t hfirst)))
      rw [hn]
      show t :: w.chain n (w.texts t).next = _
      rw [h.next, hnone]
      rfl

theorem Shape.holders (h : w.Shape) (t : ℕ) : w.holders t = w.held t := by
  have hpage : ∀ p, (if w.pages p = some (some t) then 1 else 0) = cell (w.pageRef p) t := by
    intro p
    unfold cell pageRef
    refine if_congr ?_ rfl rfl
    rw [Option.bind_eq_some_iff]
    exact ⟨fun hp => ⟨_, hp, rfl⟩, fun ⟨_, hp, ht⟩ => hp.trans (congrArg some ht)⟩
  unfold World.holders held
  simp only [h.messages, cell_count, hpage]

/-! ### Cells that are changed -/

theorem pages_setPage_self (p : ℕ) (v : Option (Option ℕ)) : (w.setPage p v).pages p = v := by
  show Function.update w.pages p v p = v
  exact Function.update_self p v w.pages

theorem ress_setRes_self (r : ℕ) (v : Option Res) : (w.setRes r v).ress r = v := by
  show Function.update w.ress r v r = v
  exact Function.update_self r v w.ress

theorem pages_setPage_of_ne {p q : ℕ} (h : q ≠ p) (v : Option (Option ℕ)) :
    (w.setPage p v).pages q = w.pages q := by
  show Function.update w.pages p v q = w.pages q
  exact Function.update_of_ne h v w.pages

theorem ress_setRes_of_ne {r q : ℕ} (h : q ≠ r) (v : Option Res) : (w.setRes r v).ress q = w.ress q := by
  show Function.update w.ress r v q = w.ress q
  exact Function.update_of_ne h v w.ress

theorem pageRef_of {p : ℕ} {resp : Option ℕ} (hp : w.pages p = some resp) : w.pageRef p = resp := by
  unfold pageRef
  rw [hp]
  rfl

theorem resRef_of {r : ℕ} {res : Res} (hr : w.ress r = some res) : w.resRef r = res.message := by
  unfold resRef
  rw [hr]
  rfl

theorem pageRef_setPage_self (p : ℕ) (v : Option (Option ℕ)) : (w.setPage p v).pageRef p = v.bind id := by
  unfold pageRef
  rw [pages_setPage_self]

theorem pageRef_setPage_of_ne {p q : ℕ} (h : q ≠ p) (v : Option (Option ℕ)) :
    (w.setPage p v).pageRef q = w.pageRef q := by
  unfold pageRef
  rw [pages_setPage_of_ne h]

theorem resRef_setRes_self (r : ℕ) (v : Option Res) : (w.setRes r v).resRef r = v.bind Res.message := by
  unfold resRef
  rw [ress_setRes_self]

theorem resRef_setRes_of_ne {r q : ℕ} (h : q ≠ r) (v : Option Res) : (w.setRes r v).resRef q = w.resRef q := by
  unfold resRef
  rw [ress_setRes_of_ne h]

theorem held_setPage {p : ℕ} (hp : p < w.pageCnt) (v : Option (Option ℕ)) (t : ℕ) :
    (w.setPage p v).held t + cell (w.pageRef p) t = w.held t + cell (v.bind id) t := by
  have hsum := sumTo_change (f := fun q => cell (w.pageRef q) t)
    (g := fun q => cell ((w.setPage p v).pageRef q) t) hp fun q hq =>
      congrArg (cell · t) (pageRef_setPage_of_ne hq v)
  rw [pageRef_setPage_self] at hsum
  have hheld : (w.setPage p v).held t = sumTo w.pageCnt (fun q => cell ((w.setPage p v).pageRef q) t) +
    sumTo w.resCnt fun r => cell (w.resRef r) t := rfl
  rw [hheld]
  unfold held
  omega

theorem held_setRes {r : ℕ} (hr : r < w.resCnt) (v : Option Res) (t : ℕ) :
    (w.setRes r v).held t + cell (w.resRef r) t = w.held t + cell (v.bind Res.message) t := by
  have hsum := sumTo_change (f := fun q => cell (w.resRef q) t)
    (g := fun q => cell ((w.setRes r v).resRef q) t) hr fun q hq =>
      congrArg (cell · t) (resRef_setRes_of_ne hq v)
  rw [resRef_setRes_self] at hsum
  have hheld : (w.setRes r v).held t = sumTo w.pageCnt (fun p => cell (w.pageRef p) t) +
    sumTo w.resCnt fun q => cell ((w.setRes r v).resRef q) t := rfl
  rw [hheld]
  unfold held
  omega

/-- What is not there is not held. -/
theorem Shape.held_eq_zero (h : w.Shape) {t : ℕ} (ht : w.textCnt ≤ t) : w.held t = 0 := by
  have hzero : ∀ (o : Option ℕ), (∀ u, o = some u → u < w.textCnt) → cell o t = 0 := fun o ho =>
    if_neg fun heq => absurd (ho t heq) (Nat.not_lt.mpr ht)
  unfold held
  rw [sumTo_eq_zero fun p _ => hzero _ (h.page p), sumTo_eq_zero fun r _ => hzero _ (h.message r)]

theorem held_page_pos {p t : ℕ} (hp : p < w.pageCnt) (h : w.pageRef p = some t) : 0 < w.held t := by
  have hle := le_sumTo hp fun q => cell (w.pageRef q) t
  have hone : cell (w.pageRef p) t = 1 := if_pos h
  unfold held
  omega

/-! ### Shapes that are kept -/

theorem Shape.setText (h : w.Shape) (t : ℕ) {x : Text} (hx : x.next = none) : (w.setText t x).Shape where
  next u := by
    show (Function.update w.texts t x u).next = none
    by_cases hu : u = t
    · rw [hu, Function.update_self]
      exact hx
    · rw [Function.update_of_ne hu]
      exact h.next u
  page := h.page
  message := h.message
  pageCnt := h.pageCnt
  resCnt := h.resCnt

theorem Shape.setPage (h : w.Shape) {p : ℕ} (hp : p < w.pageCnt) {v : Option (Option ℕ)}
    (hv : ∀ t, v.bind id = some t → t < w.textCnt) : (w.setPage p v).Shape where
  next := h.next
  page q t hq := by
    by_cases heq : q = p
    · rw [heq, pageRef_setPage_self] at hq
      exact hv t hq
    · rw [pageRef_setPage_of_ne heq] at hq
      exact h.page q t hq
  message := h.message
  pageCnt q resp hq := by
    by_cases heq : q = p
    · exact heq ▸ hp
    · exact h.pageCnt q resp ((pages_setPage_of_ne heq v).symm.trans hq)
  resCnt := h.resCnt

theorem Shape.setRes (h : w.Shape) {r : ℕ} (hr : r < w.resCnt) {v : Option Res}
    (hv : ∀ t, v.bind Res.message = some t → t < w.textCnt) : (w.setRes r v).Shape where
  next := h.next
  page := h.page
  message q t hq := by
    by_cases heq : q = r
    · rw [heq, resRef_setRes_self] at hq
      exact hv t hq
    · rw [resRef_setRes_of_ne heq] at hq
      exact h.message q t hq
  pageCnt := h.pageCnt
  resCnt q res hq := by
    by_cases heq : q = r
    · exact heq ▸ hr
    · exact h.resCnt q res ((ress_setRes_of_ne heq v).symm.trans hq)

theorem Shape.pageCreate (h : w.Shape) : w.pageCreate.Shape := by
  have hmore : { w with pageCnt := w.pageCnt + 1 }.Shape :=
    ⟨h.next, h.page, h.message, fun p resp hp => (h.pageCnt p resp hp).trans (Nat.lt_succ_self _), h.resCnt⟩
  exact hmore.setPage (Nat.lt_succ_self _) nofun

theorem Shape.resCreate (h : w.Shape) (c : ℕ) (close : Bool) : (w.resCreate c close).Shape := by
  have hmore : { w with resCnt := w.resCnt + 1 }.Shape :=
    ⟨h.next, h.page, h.message, h.pageCnt, fun r res hr => (h.resCnt r res hr).trans (Nat.lt_succ_self _)⟩
  exact hmore.setRes (Nat.lt_succ_self _) nofun

theorem Shape.textRef (h : w.Shape) (o : Option ℕ) : (w.textRef o).Shape := by
  cases o with
  | none => exact h
  | some t => exact h.setText t (h.next t)

theorem Shape.textRelease (h : w.Shape) (o : Option ℕ) : (w.textRelease o).Shape := by
  cases o with
  | none => exact h
  | some t => exact h.setText t (h.next t)

/-- One more text. -/
def added (w : World) (x : Text) : World := { w.setText w.textCnt x with textCnt := w.textCnt + 1 }

theorem Shape.added (h : w.Shape) {x : Text} (hx : x.next = none) : (w.added x).Shape where
  next := (h.setText w.textCnt hx).next
  page p t hp := (h.page p t hp).trans (Nat.lt_succ_self _)
  message r t hr := (h.message r t hr).trans (Nat.lt_succ_self _)
  pageCnt := h.pageCnt
  resCnt := h.resCnt

theorem textAllocate_self (w : World) : w.textAllocate.texts w.textCnt = Text.init := by
  show Function.update w.texts w.textCnt Text.init w.textCnt = _
  exact Function.update_self _ _ _

theorem textRef_textAllocate (w : World) : w.textAllocate.textRef (some w.textCnt) = w.added ⟨none, 1, 0⟩ := by
  have htexts : Function.update w.textAllocate.texts w.textCnt (w.textAllocate.texts w.textCnt).ref =
      Function.update w.texts w.textCnt ⟨none, 1, 0⟩ := by
    rw [textAllocate_self]
    exact Function.update_idem _ _ _
  exact congrArg (fun texts => { w with texts := texts, textCnt := w.textCnt + 1 }) htexts

theorem textRelease_textAllocate (w : World) :
    w.textAllocate.textRelease (some w.textCnt) = w.added ⟨none, -1, 1⟩ := by
  have htexts : Function.update w.textAllocate.texts w.textCnt (w.textAllocate.texts w.textCnt).release =
      Function.update w.texts w.textCnt ⟨none, -1, 1⟩ := by
    rw [textAllocate_self]
    exact Function.update_idem _ _ _
  exact congrArg (fun texts => { w with texts := texts, textCnt := w.textCnt + 1 }) htexts

theorem held_pageCreate (w : World) (t : ℕ) : w.pageCreate.held t = w.held t := by
  have hset := held_setPage (w := { w with pageCnt := w.pageCnt + 1 }) (Nat.lt_succ_self _) (some none) t
  have hmore : { w with pageCnt := w.pageCnt + 1 }.held t = w.held t + cell (w.pageRef w.pageCnt) t := by
    show sumTo w.pageCnt (fun p => cell (w.pageRef p) t) + cell (w.pageRef w.pageCnt) t + _ = _
    unfold held
    exact Nat.add_right_comm _ _ _
  rw [hmore] at hset
  exact Nat.add_right_cancel hset

theorem held_resCreate (w : World) (c : ℕ) (close : Bool) (t : ℕ) : (w.resCreate c close).held t = w.held t := by
  have hset := held_setRes (w := { w with resCnt := w.resCnt + 1 }) (Nat.lt_succ_self _)
    (some ⟨some c, none, false, close, false⟩) t
  have hmore : { w with resCnt := w.resCnt + 1 }.held t = w.held t + cell (w.resRef w.resCnt) t := by
    show _ + (sumTo w.resCnt (fun r => cell (w.resRef r) t) + cell (w.resRef w.resCnt) t) = _
    unfold held
    exact (Nat.add_assoc _ _ _).symm
  rw [hmore] at hset
  exact Nat.add_right_cancel hset

/-! ## What steps keep -/

/-- All texts are counted, and what is not final has no message. -/
structure Inv (w : World) : Prop where
  shape : w.Shape
  counted : AllCounted w.texts w.textCnt w.held
  final : ∀ r res, w.ress r = some res → res.message ≠ none → res.final = true

theorem counted_textRef {held held' : ℕ → ℕ} (h : AllCounted w.texts w.textCnt held) {o : Option ℕ}
    (hpos : ∀ t, o = some t → 0 < held t) (hheld : ∀ t, held' t = held t + cell o t) :
    AllCounted (w.textRef o).texts w.textCnt held' := by
  cases o with
  | none => exact h.congr hheld
  | some o => exact h.ref (hpos o rfl) fun t => by rw [hheld, cell_some]

theorem counted_textRelease {held held' : ℕ → ℕ} (h : AllCounted w.texts w.textCnt held) {o : Option ℕ}
    (hheld : ∀ t, held' t + cell o t = held t) : AllCounted (w.textRelease o).texts w.textCnt held' := by
  cases o with
  | none => exact h.congr hheld
  | some o => exact h.release fun t => by rw [← hheld, cell_some]

theorem final_setRes {P : Res → Prop} (h : ∀ r res, w.ress r = some res → P res) {r : ℕ} {v : Option Res}
    (hv : ∀ res, v = some res → P res) (q : ℕ) (res : Res) (hq : (w.setRes r v).ress q = some res) : P res := by
  by_cases heq : q = r
  · subst heq
    exact hv res ((ress_setRes_self q v).symm.trans hq)
  · exact h q res ((ress_setRes_of_ne heq v).symm.trans hq)

theorem Inv.pageCreate (h : w.Inv) : w.pageCreate.Inv where
  shape := h.shape.pageCreate
  counted := h.counted.congr (held_pageCreate w)
  final := h.final

theorem Inv.resCreate (h : w.Inv) (c : ℕ) (close : Bool) : (w.resCreate c close).Inv where
  shape := h.shape.resCreate c close
  counted := h.counted.congr (held_resCreate w c close)
  final := final_setRes h.final fun res hres hmessage => by
    cases hres
    exact absurd rfl hmessage

/-- A page gives up its text. -/
theorem Inv.dropPage (h : w.Inv) {p : ℕ} {resp : Option ℕ} (hp : w.pages p = some resp)
    {v : Option (Option ℕ)} (hv : v.bind id = none) : ((w.textRelease resp).setPage p v).Inv where
  shape := (h.shape.textRelease resp).setPage (h.shape.pageCnt p resp hp) (by rw [hv]; exact nofun)
  counted := by
    have href := pageRef_of hp
    refine counted_textRelease h.counted fun t => ?_
    have hset := held_setPage (h.shape.pageCnt p resp hp) v t
    rw [hv, href] at hset
    exact hset
  final := h.final

/-- A response gives up its message. -/
theorem Inv.dropRes (h : w.Inv) {r : ℕ} {res : Res} (hr : w.ress r = some res)
    {v : Option Res} (hv : v.bind Res.message = none) : ((w.textRelease res.message).setRes r v).Inv where
  shape := (h.shape.textRelease res.message).setRes (h.shape.resCnt r res hr) (by rw [hv]; exact nofun)
  counted := by
    have href := resRef_of hr
    refine counted_textRelease h.counted fun t => ?_
    have hset := held_setRes (h.shape.resCnt r res hr) v t
    rw [hv, href] at hset
    exact hset
  final := final_setRes h.final fun res hres hmessage => by
    rw [hres] at hv
    exact absurd hv hmessage

/-- A response takes a text that has holders, or none. -/
theorem Inv.takeRes (h : w.Inv) {r : ℕ} (hr : r < w.resCnt) (hnone : w.resRef r = none) {o : Option ℕ}
    (ho : ∀ t, o = some t → t < w.textCnt ∧ 0 < w.held t) {res : Res} (hmessage : res.message = o)
    (hfinal : res.final = true) : ((w.textRef o).setRes r (some res)).Inv where
  shape := (h.shape.textRef o).setRes hr fun t ht => (ho t (hmessage.symm.trans ht)).1
  counted := by
    refine counted_textRef h.counted (fun t ht => (ho t ht).2) fun t => ?_
    have hset := held_setRes hr (some res) t
    rw [hnone, Option.bind_some, hmessage] at hset
    exact hset
  final := final_setRes h.final fun res' hres _ => Option.some.inj hres ▸ hfinal

/-- A new text is counted once for the cell that it is put into. -/
theorem counted_added (h : AllCounted w.texts w.textCnt w.held) (hshape : w.Shape) {x : Text} {held' : ℕ → ℕ}
    {n : ℕ} (hx : x.Counted n) (hheld : ∀ t, held' t = w.held t + if t = w.textCnt then n else 0) :
    AllCounted (w.added x).texts (w.textCnt + 1) held' := by
  refine h.add (fun t ht => ?_) ?_
  · rw [hheld, if_neg ht.ne]
    rfl
  · rw [hheld, if_pos rfl, hshape.held_eq_zero le_rfl, Nat.zero_add]
    exact hx

theorem Inv.added (h : w.Inv) {x : Text} (hx : x.Counted 0) (hnext : x.next = none) : (w.added x).Inv where
  shape := h.shape.added hnext
  counted := counted_added h.counted h.shape hx fun t => by
    rw [ite_self]
    rfl
  final := h.final

theorem counted_one : (⟨none, 1, 0⟩ : Text).Counted 1 := ⟨rfl, fun _ => rfl⟩

theorem Inv.newPage (h : w.Inv) {p : ℕ} (hp : w.pages p = some none) :
    ((w.added ⟨none, 1, 0⟩).setPage p (some (some w.textCnt))).Inv where
  shape := (h.shape.added rfl).setPage (h.shape.pageCnt p none hp) fun t ht => by
    obtain rfl := Option.some.inj ht
    exact Nat.lt_succ_self _
  counted := by
    have href : w.pageRef p = none := pageRef_of hp
    refine counted_added h.counted h.shape counted_one fun t => ?_
    have hset := held_setPage (h.shape.pageCnt p none hp) (some (some w.textCnt)) t
    rw [href, Option.bind_some, id, cell_some] at hset
    exact hset
  final := h.final

theorem Inv.newRes (h : w.Inv) {r : ℕ} (hr : r < w.resCnt) (hnone : w.resRef r = none) {res : Res}
    (hmessage : res.message = some w.textCnt) (hfinal : res.final = true) :
    ((w.added ⟨none, 1, 0⟩).setRes r (some res)).Inv where
  shape := (h.shape.added rfl).setRes hr fun t ht => by
    obtain rfl := Option.some.inj (hmessage.symm.trans ht)
    exact Nat.lt_succ_self _
  counted := by
    refine counted_added h.counted h.shape counted_one fun t => ?_
    have hset := held_setRes hr (some res) t
    rw [hnone, Option.bind_some, hmessage, cell_some] at hset
    exact hset
  final := final_setRes h.final fun res' hres _ => Option.some.inj hres ▸ hfinal

/-- What is released is not what was allocated. -/
theorem texts_release_allocate {resp : Option ℕ} (h : ∀ t, resp = some t → t < w.textCnt) :
    (w.textAllocate.textRelease resp).texts = Function.update (w.textRelease resp).texts w.textCnt Text.init := by
  cases resp with
  | none => rfl
  | some o =>
    have hne : o ≠ w.textCnt := (h o rfl).ne
    show Function.update (Function.update w.texts w.textCnt Text.init) o
      (Function.update w.texts w.textCnt Text.init o).release = _
    rw [Function.update_of_ne hne, Function.update_comm hne.symm]
    rfl

/-- A text is put in the place of another. -/
theorem updateContents_read {p : ℕ} {resp : Option ℕ} (h : ∀ t, resp = some t → t < w.textCnt) :
    w.updateContents p resp .read =
      (((w.textRelease resp).setPage p (some none)).added ⟨none, 1, 0⟩).setPage p (some (some w.textCnt)) := by
  have htexts : Function.update (w.textAllocate.textRelease resp).texts w.textCnt
      ((w.textAllocate.textRelease resp).texts w.textCnt).ref =
        Function.update (w.textRelease resp).texts w.textCnt ⟨none, 1, 0⟩ := by
    rw [texts_release_allocate h, Function.update_self, Function.update_idem]
    rfl
  have hpages : Function.update (Function.update w.pages p (some none)) p (some (some w.textCnt)) =
      Function.update w.pages p (some (some w.textCnt)) := Function.update_idem _ _ _
  show World.mk _ _ _ _ _ _ = World.mk _ _ _ _ _ _
  exact World.mk.injEq _ _ _ _ _ _ _ _ _ _ _ _ ▸ ⟨htexts, rfl, hpages.symm, rfl, rfl, rfl⟩

theorem Inv.updateContents (h : w.Inv) {p : ℕ} {resp : Option ℕ} (hp : w.pages p = some resp) (load : Load) :
    (w.updateContents p resp load).Inv := by
  cases load with
  | none => exact h
  | unread =>
    show (w.textAllocate.textRelease (some w.textCnt)).Inv
    rw [textRelease_textAllocate]
    exact h.added ⟨rfl, fun hpos => absurd hpos (Nat.lt_irrefl 0)⟩ rfl
  | read =>
    have href := pageRef_of hp
    rw [updateContents_read fun t ht => h.shape.page p t (href.trans ht)]
    exact (h.dropPage hp (v := some none) rfl).newPage (pages_setPage_self p (some none))

theorem Inv.pageDestroy (h : w.Inv) {p : ℕ} {resp : Option ℕ} (hp : w.pages p = some resp) :
    (w.pageDestroy p resp).Inv := h.dropPage hp rfl

theorem Inv.resDestroy (h : w.Inv) {r : ℕ} {res : Res} (hr : w.ress r = some res) : (w.resDestroy r res).Inv :=
  h.dropRes hr rfl

theorem Inv.pageResponse (h : w.Inv) {c p : ℕ} {resp : Option ℕ} (hp : w.pages p = some resp) (close : Bool) :
    (w.pageResponse c resp close).Inv := by
  have href := pageRef_of hp
  refine (h.resCreate c close).takeRes (r := w.resCnt) (Nat.lt_succ_self _) ?_ (fun t ht => ⟨?_, ?_⟩) rfl rfl
  · unfold resRef
    rw [show (w.resCreate c close).ress w.resCnt = _ from ress_setRes_self _ _]
    rfl
  · exact h.shape.page p t (href.trans ht)
  · rw [held_resCreate]
    exact held_page_pos (h.shape.pageCnt p resp hp) (href.trans ht)

/-- What is not final has no message. -/
theorem Inv.message_none (h : w.Inv) {r : ℕ} {res : Res} (hr : w.ress r = some res) (hfinal : res.final = false) :
    res.message = none := by
  by_contra hmessage
  rw [h.final r res hr hmessage] at hfinal
  cases hfinal

theorem append_first {r : ℕ} {res : Res} (hfinal : res.final = false) (hmessage : res.message = none)
    (o : Option ℕ) (final : Bool) :
    w.append r res o final = w.setRes r (some { res with message := o, final := final }) := by
  unfold append
  rw [if_neg (by rw [hfinal]; exact Bool.false_ne_true), hmessage]

theorem append_textCnt (w : World) (r : ℕ) (res : Res) (o : Option ℕ) (final : Bool) :
    (w.append r res o final).textCnt = w.textCnt := by
  unfold append
  split_ifs
  · rfl
  · cases res.message <;> rfl

theorem Inv.push (h : w.Inv) {r : ℕ} {res : Res} (hr : w.ress r = some res) (hfinal : res.final = false) :
    (w.textAllocate.resMessagePush r res (some w.textCnt)).Inv := by
  have hmessage := h.message_none hr hfinal
  unfold resMessagePush
  rw [append_first hfinal hmessage, textRef_textAllocate]
  exact h.newRes (h.shape.resCnt r res hr) ((resRef_of hr).trans hmessage) rfl rfl

/-- A response is changed, but not its message. -/
theorem Inv.sameRes (h : w.Inv) {r : ℕ} {res res' : Res} (hr : w.ress r = some res)
    (hmessage : res'.message = res.message) (hfinal : res'.final = res.final) : (w.setRes r (some res')).Inv where
  shape := h.shape.setRes (h.shape.resCnt r res hr) fun t ht =>
    h.shape.message r t ((resRef_of hr).trans (hmessage.symm.trans ht))
  counted := by
    refine h.counted.congr fun t => ?_
    have hset := held_setRes (h.shape.resCnt r res hr) (some res') t
    have href : w.resRef r = res'.message := (resRef_of hr).trans hmessage.symm
    rw [href] at hset
    exact Nat.add_right_cancel hset
  final := final_setRes h.final fun res'' hres hne => by
    obtain rfl := Option.some.inj hres
    exact hfinal.trans (h.final r res hr fun hnone => hne (hmessage.trans hnone))

theorem Inv.conHttpWrite (h : w.Inv) {r : ℕ} {res : Res} (hr : w.ress r = some res) (sent : Sent) :
    (w.conHttpWrite r res sent).Inv := by
  have hlost : (w.setRes r (some { res with con := none })).Inv := h.sameRes hr rfl rfl
  obtain ⟨con, message, final, close, ping⟩ := res
  cases message with
  | none => exact hlost
  | some t =>
    cases sent with
    | failed => exact hlost
    | part => exact h
    | whole =>
      have hnext := h.dropRes hr (v := some ⟨con, none, final, close, ping⟩) rfl
      unfold World.conHttpWrite
      dsimp only
      rw [h.shape.next t]
      by_cases hfinal : final = true
      · rw [if_pos ⟨rfl, hfinal⟩]
        exact hnext.resDestroy (ress_setRes_self r _)
      · rw [if_neg fun hboth => hfinal hboth.2]
        exact hnext

theorem Inv.removeDeadRes (c : ℕ) (rs : List ℕ) (h : w.Inv) : (World.removeDeadRes c rs w).Inv := by
  induction rs generalizing w with
  | nil => exact h
  | cons r rs ih =>
    unfold World.removeDeadRes
    cases hr : w.ress r with
    | none => exact ih h
    | some res =>
      dsimp only
      split_ifs
      · exact h
      · exact ih (h.resDestroy hr)
      · exact ih h

theorem resRef_conDestroy {c : ℕ} (hc : ∀ r res, w.ress r = some res → res.con = some c → res.message = none)
    (r : ℕ) : (w.conDestroy c).resRef r = w.resRef r := by
  show ((w.ress r).filter fun res => res.con ≠ some c).bind Res.message = (w.ress r).bind Res.message
  cases hr : w.ress r with
  | none => rfl
  | some res =>
    by_cases hcon : res.con = some c
    · rw [Option.filter_some, if_neg (by simpa using hcon)]
      exact (hc r res hr hcon).symm
    · rw [Option.filter_some, if_pos (by simpa using hcon)]

theorem ress_conDestroy {c r : ℕ} {res : Res} (hr : (w.conDestroy c).ress r = some res) : w.ress r = some res :=
  (Option.filter_eq_some_iff.mp hr).1

theorem resRef_of_conDestroy {c r t : ℕ} (ht : (w.conDestroy c).resRef r = some t) : w.resRef r = some t := by
  obtain ⟨res, hr, hmessage⟩ := Option.bind_eq_some_iff.mp ht
  exact Option.bind_eq_some_iff.mpr ⟨res, ress_conDestroy hr, hmessage⟩

theorem Shape.conDestroy (h : w.Shape) (c : ℕ) : (w.conDestroy c).Shape where
  next := h.next
  page := h.page
  message r t ht := h.message r t (resRef_of_conDestroy ht)
  pageCnt := h.pageCnt
  resCnt r res hr := h.resCnt r res (ress_conDestroy hr)

theorem Inv.conDestroy (h : w.Inv) {c : ℕ}
    (hc : ∀ r res, w.ress r = some res → res.con = some c → res.message = none) : (w.conDestroy c).Inv where
  shape := h.shape.conDestroy c
  counted := h.counted.congr fun t => by
    show _ + sumTo w.resCnt (fun r => cell ((w.conDestroy c).resRef r) t) = _
    simp only [resRef_conDestroy hc]
    rfl
  final r res hr := h.final r res (ress_conDestroy hr)

end World

open World

/-- What an action keeps. -/
theorem World.Inv.keeps {w w' : World} {a : Action} (h : w.Inv) (hok : a.Ok w) (hstep : step w a = some w') :
    w'.Inv := by
  cases a with
  | pageCreate =>
    obtain rfl := Option.some.inj hstep
    exact h.pageCreate
  | updateContents p load =>
    obtain ⟨resp, hp, rfl⟩ := Option.map_eq_some_iff.mp hstep
    exact h.updateContents hp load
  | pageDestroy p =>
    obtain ⟨resp, hp, rfl⟩ := Option.map_eq_some_iff.mp hstep
    exact h.pageDestroy hp
  | request c close =>
    obtain rfl := Option.some.inj hstep
    exact h.resCreate c close
  | pageResponse c p close =>
    obtain ⟨resp, hp, rfl⟩ := Option.map_eq_some_iff.mp hstep
    exact h.pageResponse hp close
  | push r =>
    obtain ⟨res, hr, rfl⟩ := Option.map_eq_some_iff.mp hstep
    exact h.push hr (hok res hr)
  | addEarly r => exact hok.elim
  | write c sent =>
    obtain ⟨r, -, hwrite⟩ := Option.bind_eq_some_iff.mp hstep
    obtain ⟨res, hr, rfl⟩ := Option.map_eq_some_iff.mp hwrite
    exact h.conHttpWrite hr sent
  | removeDead c =>
    obtain rfl := Option.some.inj hstep
    exact h.removeDeadRes c _
  | conDestroy c =>
    obtain rfl := Option.some.inj hstep
    exact h.conDestroy hok

/-! ## Where a count is lost -/

theorem Text.Counted.unique {x : Text} {n m : ℕ} (hn : x.Counted n) (hm : x.Counted m) : n = m := by
  have hfreed := hn.freed.symm.trans hm.freed
  rcases Nat.eq_zero_or_pos n with rfl | hpos
  · by_contra hne
    rw [if_pos rfl, if_neg (Ne.symm hne)] at hfreed
    cases hfreed
  · rcases Nat.eq_zero_or_pos m with rfl | hpos'
    · rw [if_neg hpos.ne', if_pos rfl] at hfreed
      cases hfreed
    · exact Int.ofNat.inj ((hn.refCnt hpos).symm.trans (hm.refCnt hpos'))

/-- A text without a reference is not counted. -/
theorem not_counted_init (n : ℕ) : ¬ Text.init.Counted n := by
  intro h
  rcases Nat.eq_zero_or_pos n with rfl | hpos
  · exact absurd h.freed (by decide)
  · have hcnt : (0 : ℤ) = n := h.refCnt hpos
    omega

namespace World

variable {w : World}

theorem held_added (w : World) (x : Text) (t : ℕ) : (w.added x).held t = w.held t := rfl

/-- A text that no one has is not counted. -/
theorem Shape.not_counted_added (h : w.Shape) : ¬ (w.added ⟨none, 1, 0⟩).Counted := by
  intro hcounted
  have hcnt := hcounted w.textCnt (Nat.lt_succ_self _)
  rw [(h.added rfl).holders, held_added, h.held_eq_zero le_rfl] at hcnt
  have hself : (w.added ⟨none, 1, 0⟩).texts w.textCnt = ⟨none, 1, 0⟩ := by
    show Function.update w.texts w.textCnt _ w.textCnt = _
    exact Function.update_self _ _ _
  rw [hself] at hcnt
  exact absurd (hcnt.unique counted_one) (by decide)

theorem Inv.not_counted_early (h : w.Inv) {r : ℕ} {res : Res} (hr : w.ress r = some res) :
    ¬ (w.resAddEarly r res).Counted := by
  have hself : (w.resAddEarly r res).texts w.textCnt = Text.init := by
    unfold resAddEarly
    by_cases hfinal : res.final = false
    · rw [append_first hfinal (h.message_none hr hfinal)]
      exact textAllocate_self w
    · rw [Bool.not_eq_false] at hfinal
      unfold append
      rw [if_pos hfinal]
      exact textAllocate_self w
  have hlt : w.textCnt < (w.resAddEarly r res).textCnt := by
    unfold resAddEarly
    rw [append_textCnt]
    exact Nat.lt_succ_self _
  intro hcounted
  have hcnt := hcounted w.textCnt hlt
  rw [hself] at hcnt
  exact not_counted_init _ hcnt

/-- A connection is destroyed with a text in the list of a response. -/
theorem Inv.not_counted_conDestroy (h : w.Inv) {c r t : ℕ} {res : Res} (hr : w.ress r = some res)
    (hcon : res.con = some c) (ht : res.message = some t) : ¬ (w.conDestroy c).Counted := by
  have hlt := h.shape.resCnt r res hr
  have href : w.resRef r = some t := Option.bind_eq_some_iff.mpr ⟨res, hr, ht⟩
  have hgone : (w.conDestroy c).resRef r = none := by
    show ((w.ress r).filter fun res => res.con ≠ some c).bind Res.message = none
    rw [hr, Option.filter_some, if_neg (by simpa using hcon)]
    rfl
  have hle : ∀ q, cell ((w.conDestroy c).resRef q) t ≤ cell (w.resRef q) t := by
    intro q
    unfold cell
    by_cases hq : (w.conDestroy c).resRef q = some t
    · rw [if_pos hq, if_pos (resRef_of_conDestroy hq)]
    · rw [if_neg hq]
      exact Nat.zero_le _
  have hheld : (w.conDestroy c).held t < w.held t := by
    refine Nat.add_lt_add_left (sumTo_lt (fun q _ => hle q) hlt ?_) _
    rw [hgone, href, cell_none, cell_some, if_pos rfl]
    exact Nat.one_pos
  have htext := h.shape.message r t href
  intro hcounted
  have hcnt := hcounted t htext
  rw [(h.shape.conDestroy c).holders] at hcnt
  exact hheld.ne (hcnt.unique (h.counted t htext))

end World

/-- An action that is not right spoils a count. -/
theorem World.Inv.spoilt {w w' : World} {a : Action} (h : w.Inv) (hok : ¬ a.Ok w) (hstep : step w a = some w') :
    ¬ w'.Counted := by
  cases a with
  | push r =>
    obtain ⟨res, hr, rfl⟩ := Option.map_eq_some_iff.mp hstep
    have hfinal : res.final = true := by
      by_contra hfinal
      refine hok fun res' hres => ?_
      rw [← Option.some.inj (hr.symm.trans hres)]
      exact Bool.not_eq_true _ ▸ hfinal
    unfold resMessagePush append
    rw [if_pos hfinal, textRef_textAllocate]
    exact h.shape.not_counted_added
  | addEarly r =>
    obtain ⟨res, hr, rfl⟩ := Option.map_eq_some_iff.mp hstep
    exact h.not_counted_early hr
  | conDestroy c =>
    obtain rfl := Option.some.inj hstep
    have hmessage : ∃ r res t, w.ress r = some res ∧ res.con = some c ∧ res.message = some t := by
      by_contra hnone
      exact hok fun r res hr hcon => Option.eq_none_iff_forall_ne_some.mpr fun t ht =>
        hnone ⟨r, res, t, hr, hcon, ht⟩
    obtain ⟨r, res, t, hr, hcon, ht⟩ := hmessage
    exact h.not_counted_conDestroy hr hcon ht
  | _ => exact absurd trivial hok

/-! ## Message lists -/

theorem ress_append_of_ne {w : World} {r q : ℕ} (h : q ≠ r) (res : Res) (o : Option ℕ) (final : Bool) :
    (w.append r res o final).ress q = w.ress q := by
  unfold append
  split_ifs
  · rfl
  · cases res.message with
    | none => exact ress_setRes_of_ne h _
    | some t => exact ress_setRes_of_ne h _

theorem ress_conHttpWrite_of_ne {w : World} {r q : ℕ} (h : q ≠ r) (res : Res) (sent : Sent) :
    (w.conHttpWrite r res sent).ress q = w.ress q := by
  obtain ⟨con, message, final, close, ping⟩ := res
  cases message with
  | none => exact ress_setRes_of_ne h _
  | some t =>
    cases sent with
    | failed => exact ress_setRes_of_ne h _
    | part => rfl
    | whole =>
      unfold conHttpWrite
      dsimp only
      split_ifs
      · exact (ress_setRes_of_ne h _).trans (ress_setRes_of_ne h _)
      · exact ress_setRes_of_ne h _

theorem ress_removeDeadRes (c : ℕ) (rs : List ℕ) (w : World) (q : ℕ) :
    (removeDeadRes c rs w).ress q = w.ress q ∨ (removeDeadRes c rs w).ress q = none := by
  induction rs generalizing w with
  | nil => exact .inl rfl
  | cons r rs ih =>
    unfold removeDeadRes
    cases hr : w.ress r with
    | none => exact ih w
    | some res =>
      dsimp only
      split_ifs
      · exact .inl rfl
      · rcases ih (w.resDestroy r res) with hsame | hgone
        · by_cases hq : q = r
          · rw [hsame, hq]
            exact .inr (ress_setRes_self r none)
          · rw [hsame]
            exact .inl (ress_setRes_of_ne hq none)
        · exact .inr hgone
      · exact ih w

/-- Which responses an action leaves as they are. -/
theorem ress_step {w w' : World} {a : Action} (h : w.Shape) (hstep : step w a = some w') {r : ℕ}
    (hr : (w.ress r).isSome = true) (hr' : (w'.ress r).isSome = true) (htarget : a.target w ≠ some r) :
    w'.ress r = w.ress r := by
  have hnew : r ≠ w.resCnt := by
    obtain ⟨res, hres⟩ := Option.isSome_iff_exists.mp hr
    exact (h.resCnt r res hres).ne
  cases a with
  | pageCreate =>
    obtain rfl := Option.some.inj hstep
    rfl
  | updateContents p load =>
    obtain ⟨resp, -, rfl⟩ := Option.map_eq_some_iff.mp hstep
    cases load <;> rfl
  | pageDestroy p =>
    obtain ⟨resp, -, rfl⟩ := Option.map_eq_some_iff.mp hstep
    rfl
  | request c close =>
    obtain rfl := Option.some.inj hstep
    exact ress_setRes_of_ne hnew _
  | pageResponse c p close =>
    obtain ⟨resp, -, rfl⟩ := Option.map_eq_some_iff.mp hstep
    have hcreate : ((w.resCreate c close).textRef resp).ress r = w.ress r :=
      ress_setRes_of_ne (w := { w with resCnt := w.resCnt + 1 }) hnew _
    exact (ress_append_of_ne hnew ⟨some c, none, false, close, false⟩ resp true).trans hcreate
  | push r' =>
    obtain ⟨res, -, rfl⟩ := Option.map_eq_some_iff.mp hstep
    exact ress_append_of_ne (fun heq => htarget (congrArg some heq.symm)) _ _ _
  | addEarly r' =>
    obtain ⟨res, -, rfl⟩ := Option.map_eq_some_iff.mp hstep
    exact ress_append_of_ne (fun heq => htarget (congrArg some heq.symm)) _ _ _
  | write c sent =>
    obtain ⟨r', hhead, hwrite⟩ := Option.bind_eq_some_iff.mp hstep
    obtain ⟨res, -, rfl⟩ := Option.map_eq_some_iff.mp hwrite
    exact ress_conHttpWrite_of_ne (fun heq => htarget (hhead.trans (congrArg some heq.symm))) _ _
  | removeDead c =>
    obtain rfl := Option.some.inj hstep
    refine (ress_removeDeadRes c _ w r).resolve_right fun hgone => ?_
    rw [hgone] at hr'
    cases hr'
  | conDestroy c =>
    obtain rfl := Option.some.inj hstep
    obtain ⟨res, hres⟩ := Option.isSome_iff_exists.mp hr'
    exact hres.trans (ress_conDestroy hres).symm

theorem World.Inv.apart {w : World} {a : Action} (h : w.Inv) (hok : a.Ok w) : Apart w a := by
  intro w' r hstep hr hr' htarget
  have hshape := (h.keeps hok hstep).shape
  rw [h.shape.messages, hshape.messages]
  unfold resRef
  rw [ress_step h.shape hstep hr hr' htarget]

/-! ## Runs -/

theorem World.Inv.init : World.init.Inv where
  shape := ⟨fun _ => rfl, nofun, nofun, nofun, nofun⟩
  counted := nofun
  final := nofun

/-- In which runs texts are counted and freed with their holders, and lists are left alone. -/
theorem counted_iff (as : List Action) :
    (Always step World.Counted World.init as ∧ Along step Apart World.init as) ↔
      Along step (fun w a => a.Ok w) World.init as := by
  have hcounted : ∀ w : World, w.Inv → w.Counted := fun w h t ht => (h.shape.holders t).symm ▸ h.counted t ht
  have hrun : Always step World.Counted World.init as ↔ Along step (fun w a => a.Ok w) World.init as :=
    always_iff_along World.Inv (fun w a w' h _ hok hstep => h.keeps hok hstep) hcounted
      (fun w a w' h _ hok hstep => h.spoilt hok hstep) Inv.init (along_true _ _)
  rw [hrun]
  exact and_iff_left_of_imp fun hok =>
    along_of_along World.Inv (fun w a w' h hok hstep => h.keeps hok hstep) (fun w a h hok => h.apart hok)
      Inv.init hok

/-- A page is being sent when the loop of its connection ends. -/
def shutdown : List Action := [.pageCreate, .updateContents 0 .read, .pageResponse 0 0 false, .conDestroy 0]

theorem shutdown_keeps_reference : ¬ ∀ as, Always step World.Counted World.init as := by
  intro h
  have hruns : runs step World.init shutdown = some ((runs step World.init shutdown).getD World.init) := rfl
  have htext := (h shutdown).last hruns 0 (by decide)
  exact absurd (htext.refCnt (by decide)) (by decide)

end TextRefs

end Agoo
