import Agoo.Publish

/-!
# References on upgraded connections

`holders s u` counts who has a reference on `u`: its connection, the publications and requests that name
it, and what threads have at hand. The wrapper has none: it is cut off when `u` is destroyed.

`refs_exact`: in a run in which no last reference is given up without the test for it, no reference is
given up that was not taken, and none is forgotten, `ref_cnt` is the number of holders, and `destroy` ran
exactly for those without holders, once.
-/

namespace Agoo

namespace Publish

/-! ## Counts -/

namespace Upgraded

/-- What concerns the references. -/
def counts (up : Upgraded) : ℤ × ℕ × Bool := (up.refCnt, up.freed, up.wrapped)

/-- After `agoo_upgraded_release`. -/
def released (up : Upgraded) : Upgraded := if up.isLast then up.unref.destroy else up.unref

/-- The count is right for `n` holders. -/
structure Counted (up : Upgraded) (n : ℕ) : Prop where
  refCnt : up.refCnt = n
  freed : up.freed = if n = 0 then 1 else 0
  wrapped : up.wrapped = decide (0 < n)

theorem Counted.congr {up up' : Upgraded} {n : ℕ} (h : up.Counted n) (hc : up'.counts = up.counts) :
    up'.Counted n := by
  obtain ⟨hcnt, hc⟩ := Prod.mk.inj hc
  obtain ⟨hfreed, hwrapped⟩ := Prod.mk.inj hc
  exact ⟨hcnt.trans h.refCnt, hfreed.trans h.freed, hwrapped.trans h.wrapped⟩

theorem Counted.ref {up : Upgraded} {n : ℕ} (h : up.Counted n) (hn : 0 < n) : up.ref.Counted (n + 1) where
  refCnt := by
    have hcnt := h.refCnt
    change up.refCnt + 1 = _
    omega
  freed := by
    change up.freed = _
    rw [h.freed, if_neg (by omega), if_neg (by omega)]
  wrapped := by
    change up.wrapped = _
    rw [h.wrapped, decide_eq_true hn, decide_eq_true (Nat.succ_pos n)]

theorem Counted.released {up : Upgraded} {n : ℕ} (h : up.Counted (n + 1)) : up.released.Counted n := by
  have hcnt := h.refCnt
  have hfreed := h.freed
  rw [if_neg (Nat.succ_ne_zero n)] at hfreed
  have hlast : up.isLast = decide (n = 0) := by
    unfold isLast
    rw [hcnt, decide_eq_decide]
    omega
  unfold Upgraded.released
  rw [hlast]
  rcases Nat.eq_zero_or_pos n with rfl | hn
  · refine ⟨?_, ?_, rfl⟩
    · change up.refCnt - 1 = _
      rw [hcnt]
      rfl
    · change up.freed + 1 = _
      rw [hfreed]
      rfl
  · have hne : n ≠ 0 := by omega
    rw [decide_eq_false hne]
    refine ⟨?_, ?_, ?_⟩
    · change up.refCnt - 1 = _
      rw [hcnt]
      omega
    · change up.freed = _
      rw [hfreed, if_neg hne]
    · change up.wrapped = _
      rw [h.wrapped, decide_eq_true (Nat.succ_pos n), decide_eq_true hn]

/-- What a step does to a count and to the number of holders. -/
inductive Move (up up' : Upgraded) (n n' : ℕ) : Prop
  | same (hc : up'.counts = up.counts) (hn : n' = n)
  | ref (hc : up'.counts = up.ref.counts) (hn : n' = n + 1) (halive : 0 < n)
  | release (hc : up'.counts = up.released.counts) (hn : n = n' + 1)

theorem Move.counted {up up' : Upgraded} {n n' : ℕ} (h : Move up up' n n') (hup : up.Counted n) :
    up'.Counted n' := by
  cases h with
  | same hc hn => exact hn ▸ hup.congr hc
  | ref hc hn halive => exact hn ▸ (hup.ref halive).congr hc
  | release hc hn =>
    subst hn
    exact hup.released.congr hc

theorem Move.zero {up up' : Upgraded} {n n' : ℕ} (h : Move up up' n n') (hn : n = 0) : n' = 0 := by
  cases h with
  | same hc hn' => omega
  | ref hc hn' halive => omega
  | release hc hn' => omega

end Upgraded

/-! ## Holders -/

/-- The publication names the connection. -/
def Pub.names (u : ℕ) (pub : Pub) : Bool := pub.up = some u

def PushReq.names (u : ℕ) (req : PushReq) : Bool := req.up = u

def Task.names (u : ℕ) : Task → Bool
  | .caller v => v = u
  | .publish pub _ => pub.names u
  | .processed pub => pub.names u
  | .handle req => req.names u

namespace Server

/-- The connection has a reference. -/
def conHolds (s : Server) (u : ℕ) : Bool := (s.up u).con.any fun c => s.conUp c = some u

/-- The references in the queues and of threads. -/
def queued (s : Server) (u : ℕ) : ℕ :=
  s.conLoops.flatten.countP (Pub.names u) + s.evalQueue.countP (PushReq.names u) +
    s.tasks.countP (Task.names u)

/-- The number of holders. -/
def holders (s : Server) (u : ℕ) : ℕ := (s.conHolds u).toNat + s.queued u

/-- The counts are right, and where threads are. -/
structure Good (s : Server) : Prop where
  counted : ∀ u < s.upCnt, (s.up u).Counted (s.holders u)
  fresh : ∀ u, s.upCnt ≤ u → s.holders u = 0
  conUp : ∀ c u, s.conUp c = some u → u < s.upCnt ∧ (s.up u).con = some c
  publishing : ∀ pub loop, .publish pub loop ∈ s.tasks → loop < s.conLoops.length
  loops : 0 < s.conLoops.length

theorem Good.conHolds {s : Server} (h : s.Good) {c u : ℕ} (hc : s.conUp c = some u) :
    s.conHolds u = true := by
  rw [Server.conHolds, (h.conUp c u hc).2, Option.any_some, hc]
  exact decide_eq_true rfl

theorem holders_pos_of_con {s : Server} {u : ℕ} (h : s.conHolds u = true) : 0 < s.holders u := by
  rw [holders, h]
  exact Nat.add_pos_left Nat.one_pos _

theorem holders_pos_of_task {s : Server} {u : ℕ} {t : Task} (ht : t ∈ s.tasks) (hu : t.names u = true) :
    0 < s.holders u := by
  have hpos : 0 < s.tasks.countP (Task.names u) := List.countP_pos_iff.mpr ⟨t, ht, hu⟩
  unfold holders queued
  omega

/-- A step that changes no connection, and each count at most by one reference. -/
theorem Good.move {s s' : Server} (h : s.Good) (hcnt : s'.upCnt = s.upCnt) (hconUp : s'.conUp = s.conUp)
    (hcon : ∀ u, (s'.up u).con = (s.up u).con) (hloops : s'.conLoops.length = s.conLoops.length)
    (htasks : ∀ pub loop, .publish pub loop ∈ s'.tasks → loop < s.conLoops.length)
    (hmove : ∀ u, Upgraded.Move (s.up u) (s'.up u) (s.holders u) ((s.conHolds u).toNat + s'.queued u)) :
    s'.Good := by
  have hholds : ∀ u, s'.holders u = (s.conHolds u).toNat + s'.queued u := by
    intro u
    have hsame : s'.conHolds u = s.conHolds u := by
      unfold Server.conHolds
      rw [hcon, hconUp]
    rw [holders, hsame]
  refine ⟨fun u hu => ?_, fun u hu => ?_, fun c u hc => ?_, fun pub loop hmem => ?_, hloops ▸ h.loops⟩
  · rw [hholds]
    exact (hmove u).counted (h.counted u (hcnt ▸ hu))
  · rw [hholds]
    exact (hmove u).zero (h.fresh u (hcnt ▸ hu))
  · rw [hcnt, hcon]
    exact h.conUp c u (hconUp ▸ hc)
  · rw [hloops]
    exact htasks pub loop hmem

/-! ## Counting -/

theorem countP_queuePush {loops : List (List Pub)} {loop : ℕ} (hloop : loop < loops.length) (pub : Pub)
    (p : Pub → Bool) :
    (loops.modify loop (· ++ [pub])).flatten.countP p = loops.flatten.countP p + (p pub).toNat := by
  induction loops generalizing loop with
  | nil => cases hloop
  | cons q loops ih =>
    cases loop with
    | zero =>
      have hone : [pub].countP p = (p pub).toNat := by cases h : p pub <;> simp [h]
      simp only [List.modify_zero_cons, List.flatten_cons, List.countP_append, hone]
      omega
    | succ loop =>
      have hrest := ih (Nat.lt_of_succ_lt_succ hloop)
      simp only [List.modify_succ_cons, List.flatten_cons, List.countP_append, hrest]
      omega

theorem countP_queuePop {loops : List (List Pub)} {loop : ℕ} {pub : Pub} {rest : List Pub}
    (hloop : loops[loop]? = some (pub :: rest)) (p : Pub → Bool) :
    (loops.set loop rest).flatten.countP p + (p pub).toNat = loops.flatten.countP p := by
  induction loops generalizing loop with
  | nil => cases hloop
  | cons q loops ih =>
    cases loop with
    | zero =>
      obtain rfl := Option.some.inj hloop
      cases h : p pub <;> simp [h]
    | succ loop =>
      have hrest := ih hloop
      simp only [List.set_cons_succ, List.flatten_cons, List.countP_append]
      omega

theorem countP_erase_task {ts : List Task} {t : Task} (ht : t ∈ ts) (p : Task → Bool) :
    (ts.erase t).countP p + (p t).toNat = ts.countP p := by
  induction ts with
  | nil => cases ht
  | cons t' ts ih =>
    by_cases heq : t' = t
    · subst heq
      rw [List.erase_cons_head]
      cases h : p t' <;> simp [h]
    · have hrest := ih ((List.mem_cons.mp ht).resolve_left fun h => heq h.symm)
      rw [List.erase_cons_tail (by simpa using heq)]
      cases h : p t' <;> simp [h] <;> omega

theorem countP_cons_task (ts : List Task) (t : Task) (p : Task → Bool) :
    (t :: ts).countP p = ts.countP p + (p t).toNat := by
  cases h : p t <;> simp [h]

/-- One more request is queued. -/
theorem queued_pushReq (s : Server) (u v : ℕ) (method : PushMethod) (hook : Bool) :
    (s.pushReq u method hook).queued v = s.queued v + (decide (u = v)).toNat := by
  have hone : [(⟨u, method, hook⟩ : PushReq)].countP (PushReq.names v) = (decide (u = v)).toNat := by
    cases h : decide (u = v) <;> simp_all [PushReq.names]
  change s.conLoops.flatten.countP (Pub.names v) +
    (s.evalQueue ++ [(⟨u, method, hook⟩ : PushReq)]).countP (PushReq.names v) +
      s.tasks.countP (Task.names v) = _
  rw [List.countP_append, hone]
  unfold queued
  omega

/-- A task is over, and others begin. -/
theorem queued_setTask {s : Server} {t : Task} (ht : t ∈ s.tasks) (ts : List Task) (v : ℕ) :
    (s.setTask t ts).queued v + (t.names v).toNat = s.queued v + ts.countP (Task.names v) := by
  have herase := countP_erase_task ht (Task.names v)
  change s.conLoops.flatten.countP (Pub.names v) + s.evalQueue.countP (PushReq.names v) +
    (ts ++ s.tasks.erase t).countP (Task.names v) + _ = _
  rw [List.countP_append]
  unfold queued
  omega

theorem setUp_con {s : Server} {u : ℕ} {up : Upgraded} (h : up.con = (s.up u).con) (v : ℕ) :
    ((s.setUp u up).up v).con = (s.up v).con := by
  by_cases hv : v = u
  · subst hv
    rw [setUp_self, h]
  · rw [setUp_other s hv]

/-- One reference is taken and recorded. -/
theorem move_ref {s s' : Server} {u : ℕ} (hup : s'.up = (s.setUp u (s.up u).ref).up)
    (hpos : 0 < s.holders u) (hqueued : ∀ v, s'.queued v = s.queued v + (decide (u = v)).toNat) (v : ℕ) :
    Upgraded.Move (s.up v) (s'.up v) (s.holders v) ((s.conHolds v).toNat + s'.queued v) := by
  by_cases h : u = v
  · subst h
    refine .ref ?_ ?_ hpos
    · rw [hup, setUp_self]
    · rw [hqueued, holders, decide_eq_true rfl]
      rfl
  · refine .same ?_ ?_
    · rw [hup, setUp_other s (Ne.symm h)]
    · rw [hqueued, holders, decide_eq_false h]
      rfl

/-- One reference is given up with its record. -/
theorem move_release {s s' : Server} {u : ℕ} {up : Upgraded} (hup : s'.up = (s.setUp u up).up)
    (hc : up.counts = (s.up u).released.counts)
    (hqueued : ∀ v, s'.queued v + (decide (u = v)).toNat = s.queued v) (v : ℕ) :
    Upgraded.Move (s.up v) (s'.up v) (s.holders v) ((s.conHolds v).toNat + s'.queued v) := by
  have hq := hqueued v
  by_cases h : u = v
  · subst h
    refine .release ?_ ?_
    · rw [hup, setUp_self, hc]
    · rw [decide_eq_true rfl] at hq
      rw [holders, ← hq]
      rfl
  · refine .same ?_ ?_
    · rw [hup, setUp_other s (Ne.symm h)]
    · rw [decide_eq_false h] at hq
      rw [holders, ← hq]
      rfl

/-- References only change places. -/
theorem move_same {s s' : Server} (hup : ∀ v, (s'.up v).counts = (s.up v).counts)
    (hqueued : ∀ v, s'.queued v = s.queued v) (v : ℕ) :
    Upgraded.Move (s.up v) (s'.up v) (s.holders v) ((s.conHolds v).toNat + s'.queued v) :=
  .same (hup v) (by rw [hqueued, holders])

/-! ## Steps -/

/-- What a run must not do: answer a second upgrade on a connection; refuse a write with a new reference;
give up the last reference in a refused write or in `pending` or `open?`; handle a request without hook;
raise in a callback. -/
def Careful (s : Server) : Action → Prop
  | .upgrade c _ => s.conUp c = none
  | .write u _ _ incRef => s.refuses u = true → incRef = false ∧ (s.up u).isLast = false
  | .query u => (s.up u).isLast = false
  | .handle => ∀ req ∈ s.evalQueue.head?, req.hook = true
  | .handled _ raised => raised = false
  | _ => True

theorem publishing_erase {s : Server} (h : s.Good) {t : Task} {ts : List Task}
    (hts : ∀ pub loop, .publish pub loop ∈ ts → loop < s.conLoops.length) (pub : Pub) (loop : ℕ)
    (hmem : .publish pub loop ∈ ts ++ s.tasks.erase t) : loop < s.conLoops.length := by
  rcases List.mem_append.mp hmem with hmem | hmem
  · exact hts pub loop hmem
  · exact h.publishing pub loop (List.mem_of_mem_erase hmem)

theorem released_of_not_last {up : Upgraded} (h : up.isLast = false) : up.released = up.unref := by
  unfold Upgraded.released
  rw [h]
  rfl

theorem Good.pushReq {s : Server} (h : s.Good) {u : ℕ} (hpos : 0 < s.holders u) (method : PushMethod)
    (hook : Bool) : (s.pushReq u method hook).Good :=
  h.move rfl rfl (setUp_con rfl) rfl h.publishing
    (move_ref rfl hpos fun v => queued_pushReq s u v method hook)

theorem Good.conPushReq {s : Server} (h : s.Good) {c u : ℕ} (hc : s.conUp c = some u) (method : PushMethod)
    (hook : Bool) : (s.pushReq u method hook).Good :=
  h.pushReq (holders_pos_of_con (h.conHolds hc)) method hook

theorem release_up (s : Server) (u : ℕ) : (s.release u).up = (s.setUp u (s.up u).released).up := by
  unfold release Upgraded.released
  split_ifs <;> rfl

theorem release_fields (s : Server) (u : ℕ) :
    (s.release u).upCnt = s.upCnt ∧ (s.release u).conUp = s.conUp ∧ (s.release u).conLoops = s.conLoops ∧
      (s.release u).tasks = s.tasks ∧ ∀ v, (s.release u).queued v = s.queued v := by
  unfold release
  split_ifs <;> exact ⟨rfl, rfl, rfl, rfl, fun _ => rfl⟩

theorem released_con (up : Upgraded) : up.released.con = up.con := by
  unfold Upgraded.released
  split_ifs <;> rfl

/-- A reference is given up after a task. -/
theorem Good.releaseTask {s : Server} (h : s.Good) {t : Task} (ht : t ∈ s.tasks) {u : ℕ}
    (hu : ∀ v, t.names v = decide (u = v)) : ((s.setTask t []).release u).Good := by
  have hqueued : ∀ v, ((s.setTask t []).release u).queued v + (decide (u = v)).toNat = s.queued v := by
    intro v
    rw [(release_fields _ u).2.2.2.2, ← hu v, queued_setTask ht]
    rfl
  obtain ⟨hcnt, hconUp, hloops, htasks, -⟩ := release_fields (s.setTask t []) u
  have hup : ((s.setTask t []).release u).up = (s.setUp u (s.up u).released).up := release_up _ u
  refine h.move hcnt hconUp (fun v => ?_) (by rw [hloops]; rfl) ?_ (move_release hup rfl hqueued)
  · rw [hup]
    exact setUp_con (released_con _) v
  · rw [htasks]
    exact publishing_erase h fun _ _ hmem => absurd hmem List.not_mem_nil

theorem publishing_cons {s : Server} (h : s.Good) {t : Task}
    (ht : ∀ pub loop, t = .publish pub loop → loop < s.conLoops.length) (pub : Pub) (loop : ℕ)
    (hmem : .publish pub loop ∈ t :: s.tasks) : loop < s.conLoops.length := by
  rcases List.mem_cons.mp hmem with heq | hmem
  · exact ht pub loop heq.symm
  · exact h.publishing pub loop hmem

/-- A task begins. -/
theorem queued_cons (s : Server) (t : Task) (v : ℕ) :
    { s with tasks := t :: s.tasks }.queued v = s.queued v + (t.names v).toNat := by
  change s.conLoops.flatten.countP (Pub.names v) + s.evalQueue.countP (PushReq.names v) +
    (t :: s.tasks).countP (Task.names v) = _
  rw [countP_cons_task]
  exact (Nat.add_assoc _ _ _).symm

/-- A reference is taken for a new task. -/
theorem Good.refTask {s : Server} (h : s.Good) {u : ℕ} (hpos : 0 < s.holders u) {t : Task}
    (hu : ∀ v, t.names v = decide (u = v))
    (ht : ∀ pub loop, t = .publish pub loop → loop < s.conLoops.length) :
    { s.setUp u (s.up u).ref with tasks := t :: s.tasks }.Good := by
  refine h.move rfl rfl (setUp_con rfl) rfl (publishing_cons h ht) (move_ref rfl hpos fun v => ?_)
  rw [← hu v]
  exact queued_cons s t v

/-- A task without a reference begins. -/
theorem Good.newTask {s : Server} (h : s.Good) {t : Task} (hu : ∀ v, t.names v = false)
    (ht : ∀ pub loop, t = .publish pub loop → loop < s.conLoops.length) :
    { s with tasks := t :: s.tasks }.Good := by
  refine h.move rfl rfl (fun _ => rfl) rfl (publishing_cons h ht) (move_same (fun _ => rfl) fun v => ?_)
  rw [queued_cons, hu]
  rfl

/-- A task passes its reference on to another. -/
theorem Good.passTask {s : Server} (h : s.Good) {t t' : Task} (ht : t ∈ s.tasks)
    (hu : ∀ v, t'.names v = t.names v)
    (ht' : ∀ pub loop, t' = .publish pub loop → loop < s.conLoops.length) : (s.setTask t [t']).Good := by
  refine h.move rfl rfl (fun _ => rfl) rfl (publishing_erase h fun pub loop hmem => ?_)
    (move_same (fun _ => rfl) fun v => ?_)
  · exact ht' pub loop (List.mem_singleton.mp hmem).symm
  · have hqueued := queued_setTask ht [t'] v
    rw [countP_cons_task, List.countP_nil, hu] at hqueued
    omega

/-- A caller gives up its reference, which is not the last, without the test for it. -/
theorem Good.unrefTask {s : Server} (h : s.Good) {u : ℕ} (ht : .caller u ∈ s.tasks)
    (hlast : (s.up u).isLast = false) : ((s.setUp u (s.up u).unref).setTask (.caller u) []).Good := by
  refine h.move rfl rfl (setUp_con rfl) rfl
    (publishing_erase h fun _ _ hmem => absurd hmem List.not_mem_nil)
    (move_release rfl (congrArg _ (released_of_not_last hlast).symm) fun v => ?_)
  have hu : Task.names v (.caller u) = decide (u = v) := by
    simp [Task.names]
  rw [← hu]
  exact queued_setTask ht [] v

/-- What concerns no reference changes. -/
theorem Good.setUp {s : Server} (h : s.Good) {u : ℕ} {up : Upgraded} (hcon : up.con = (s.up u).con)
    (hc : up.counts = (s.up u).counts) : (s.setUp u up).Good := by
  refine h.move rfl rfl (setUp_con hcon) rfl h.publishing (move_same (fun v => ?_) fun _ => rfl)
  by_cases hv : v = u
  · subst hv
    rw [setUp_self, hc]
  · rw [setUp_other s hv]

/-- The first loop is there for a publication. -/
theorem Good.first {s : Server} (h : s.Good) {pub : Pub} (pub' : Pub) (loop : ℕ)
    (heq : Task.publish pub 0 = .publish pub' loop) : loop < s.conLoops.length := by
  obtain ⟨-, rfl⟩ := Task.publish.inj heq
  exact h.loops

theorem Good.ask {s : Server} (h : s.Good) {u : ℕ} (ht : .caller u ∈ s.tasks) (incRef : Bool) {pub : Pub}
    (hpub : pub.up = some u) : (s.ask u incRef pub).Good := by
  have hu : ∀ v, Task.names v (.publish pub 0) = decide (u = v) := fun v => by
    simp [Task.names, Pub.names, hpub]
  have hgives : (s.callerGives u incRef [.publish pub 0]).Good := by
    cases incRef with
    | true => exact h.refTask (holders_pos_of_task ht (decide_eq_true rfl)) hu h.first
    | false => exact h.passTask ht hu h.first
  exact hgives.setUp rfl rfl

theorem Good.upgradedWrite {s : Server} (h : s.Good) {u : ℕ} (ht : .caller u ∈ s.tasks) (message : Bytes)
    (bin : Bool) {incRef : Bool} (hok : s.refuses u = true → incRef = false ∧ (s.up u).isLast = false) :
    (s.upgradedWrite u message bin incRef).Good := by
  unfold Server.upgradedWrite
  by_cases href : s.refuses u = true
  · obtain ⟨rfl, hlast⟩ := hok href
    rw [if_pos href]
    exact h.unrefTask ht hlast
  · rw [if_neg href]
    exact h.ask ht incRef rfl

/-- The publication is on the queue of a loop, and the task at another. -/
theorem queued_queuePush {s : Server} {loop : ℕ} (hloop : loop < s.conLoops.length) (pub : Pub) (v : ℕ) :
    (s.queuePush pub loop).queued v = s.queued v + (pub.names v).toNat := by
  change (s.conLoops.modify loop (· ++ [pub])).flatten.countP (Pub.names v) +
    s.evalQueue.countP (PushReq.names v) + s.tasks.countP (Task.names v) = _
  rw [countP_queuePush hloop]
  unfold queued
  omega

theorem Good.publishTo {s : Server} (h : s.Good) {pub : Pub} {loop : ℕ} (ht : .publish pub loop ∈ s.tasks) :
    (s.publishTo pub loop).Good := by
  have hloop := h.publishing pub loop ht
  have hlength : (s.conLoops.modify loop (· ++ [pub])).length = s.conLoops.length := List.length_modify _ _ _
  unfold Server.publishTo
  split_ifs with hlast
  · refine h.move rfl rfl (fun _ => rfl) hlength
      (publishing_erase h fun _ _ hmem => absurd hmem List.not_mem_nil) (move_same (fun _ => rfl) fun v => ?_)
    have hpush := queued_queuePush hloop pub v
    have hset := queued_setTask (s := s.queuePush pub loop) ht [] v
    change _ + (pub.names v).toNat = _ + 0 at hset
    omega
  · have htasks : ∀ (s : Server), .publish pub loop ∈ s.tasks → ∀ v,
        (s.setTask (.publish pub loop) [.publish pub (loop + 1)]).queued v = s.queued v := by
      intro s ht v
      have hset := queued_setTask ht [.publish pub (loop + 1)] v
      rw [countP_cons_task, List.countP_nil] at hset
      change _ + (pub.names v).toNat = _ + (0 + (pub.names v).toNat) at hset
      omega
    have hpublishing : ∀ pub' loop', .publish pub' loop' ∈
        [Task.publish pub (loop + 1)] ++ s.tasks.erase (.publish pub loop) → loop' < s.conLoops.length := by
      refine publishing_erase h fun pub' loop' hmem => ?_
      obtain ⟨-, rfl⟩ := Task.publish.inj (List.mem_singleton.mp hmem)
      omega
    cases hup : pub.up with
    | none =>
      have hnames : ∀ v, (pubDup pub).names v = false := fun v => by simp [Pub.names, pubDup, hup]
      have href : s.refPub pub = s := by
        unfold refPub
        rw [hup]
      rw [href]
      refine h.move rfl rfl (fun _ => rfl) (List.length_modify ..) hpublishing
        (move_same (fun _ => rfl) fun v => ?_)
      rw [htasks (s.queuePush (pubDup pub) loop) ht, queued_queuePush hloop, hnames]
      rfl
    | some u =>
      have hnames : ∀ v, (pubDup pub).names v = decide (u = v) := fun v => by simp [Pub.names, pubDup, hup]
      have href : s.refPub pub = s.setUp u (s.up u).ref := by
        unfold refPub
        rw [hup]
      have hpos : 0 < s.holders u := by
        refine holders_pos_of_task ht ?_
        simp [Task.names, Pub.names, hup]
      rw [href]
      refine h.move rfl rfl (setUp_con rfl) (List.length_modify ..) hpublishing
        (move_ref rfl hpos fun v => ?_)
      rw [htasks ((s.setUp u (s.up u).ref).queuePush (pubDup pub) loop) ht,
        queued_queuePush (s := s.setUp u (s.up u).ref) hloop, hnames]
      rfl

/-- A loop takes a publication. -/
theorem Good.take {s : Server} (h : s.Good) {pub : Pub} {rest : List Pub} {loop : ℕ}
    (hloop : s.conLoops[loop]? = some (pub :: rest)) : (s.take pub rest loop).Good := by
  refine h.move rfl rfl (fun _ => rfl) List.length_set (publishing_cons h fun _ _ heq => nomatch heq)
    (move_same (fun _ => rfl) fun v => ?_)
  have hpop := countP_queuePop hloop (Pub.names v)
  change (s.conLoops.set loop rest).flatten.countP (Pub.names v) + s.evalQueue.countP (PushReq.names v) +
    (Task.processed pub :: s.tasks).countP (Task.names v) = _
  rw [countP_cons_task]
  change _ + (_ + (pub.names v).toNat) = _
  unfold queued
  omega

/-- The server differs in what is sent, and in the patterns of a client at most. -/
structure SameRefs (s s' : Server) : Prop where
  upCnt : s'.upCnt = s.upCnt
  conUp : s'.conUp = s.conUp
  conLoops : s'.conLoops = s.conLoops
  evalQueue : s'.evalQueue = s.evalQueue
  tasks : s'.tasks = s.tasks
  con : ∀ u, (s'.up u).con = (s.up u).con
  counts : ∀ u, (s'.up u).counts = (s.up u).counts

theorem SameRefs.sent (s : Server) (sent : ℕ → List Sent) : SameRefs s { s with sent := sent } :=
  ⟨rfl, rfl, rfl, rfl, rfl, fun _ => rfl, fun _ => rfl⟩

theorem SameRefs.refl (s : Server) : SameRefs s s := .sent s s.sent

theorem SameRefs.setUp {s : Server} {u : ℕ} {up : Upgraded} (hcon : up.con = (s.up u).con)
    (hc : up.counts = (s.up u).counts) : SameRefs s (s.setUp u up) := by
  refine ⟨rfl, rfl, rfl, rfl, rfl, setUp_con hcon, fun v => ?_⟩
  by_cases hv : v = u
  · subst hv
    rw [setUp_self, hc]
  · rw [setUp_other s hv]

theorem SameRefs.good {s s' : Server} (hsame : SameRefs s s') (h : s.Good) : s'.Good := by
  refine h.move hsame.upCnt hsame.conUp hsame.con (by rw [hsame.conLoops]) ?_ (move_same hsame.counts fun v => ?_)
  · rw [hsame.tasks]
    exact h.publishing
  · unfold queued
    rw [hsame.conLoops, hsame.evalQueue, hsame.tasks]

theorem publishAll_sent (subject : Bytes) (msg : Option Message) (loop : ℕ) (us : List ℕ) (s : Server) :
    ∃ sent, us.foldl (publishOne subject msg loop) s = { s with sent := sent } := by
  induction us generalizing s with
  | nil => exact ⟨s.sent, rfl⟩
  | cons u us ih =>
    obtain ⟨sent, hone⟩ : ∃ sent, publishOne subject msg loop s u = { s with sent := sent } := by
      unfold publishOne
      split_ifs
      · exact ⟨_, rfl⟩
      · exact ⟨s.sent, rfl⟩
    obtain ⟨sent', hrest⟩ := ih { s with sent := sent }
    exact ⟨sent', by rw [List.foldl_cons, hone, hrest]⟩

/-- The switch concerns no reference. -/
theorem processKind_sameRefs {s s' : Server} {pub : Pub} {loop : ℕ} (h : s.processKind pub loop = some s') :
    SameRefs s s' := by
  obtain ⟨kind, up, subject, msg⟩ := pub
  cases kind with
  | close =>
    obtain ⟨u, -, h⟩ := Option.bind_eq_some_iff.mp h
    obtain rfl := Option.some.inj h
    split_ifs
    · exact .sent s _
    · exact .refl s
  | write =>
    obtain ⟨u, -, h⟩ := Option.bind_eq_some_iff.mp h
    obtain rfl := Option.some.inj h
    split_ifs
    · exact .sent s _
    · exact .refl s
  | sub =>
    cases up with
    | none =>
      obtain rfl := Option.some.inj h
      exact .refl s
    | some u =>
      obtain ⟨here, -, h⟩ := Option.bind_eq_some_iff.mp h
      cases here with
      | true =>
        obtain ⟨p, -, h⟩ := Option.bind_eq_some_iff.mp h
        obtain rfl := Option.some.inj h
        unfold Upgraded.addSubject
        split_ifs <;> exact .setUp rfl rfl
      | false =>
        obtain rfl := Option.some.inj h
        exact .refl s
  | un =>
    cases up with
    | none =>
      obtain rfl := Option.some.inj h
      exact .refl s
    | some u =>
      obtain ⟨here, -, h⟩ := Option.bind_eq_some_iff.mp h
      obtain rfl := Option.some.inj h
      cases here with
      | true => cases subject <;> exact .setUp rfl rfl
      | false => exact .refl s
  | msg =>
    obtain ⟨p, -, h⟩ := Option.bind_eq_some_iff.mp h
    obtain rfl := Option.some.inj h
    obtain ⟨sent, hsent⟩ := publishAll_sent p msg loop s.upList s
    unfold publishPub
    rw [hsent]
    exact .sent s sent

theorem Good.beforeSwitch {s : Server} (h : s.Good) {pub : Pub} (loop : ℕ) (ht : .processed pub ∈ s.tasks) :
    (s.beforeSwitch pub loop).Good := by
  unfold Server.beforeSwitch
  cases hup : pub.up with
  | none => exact h
  | some u =>
    dsimp only
    split_ifs
    · have hdown : (s.setUp u { s.up u with pending := (s.up u).pending - 1 }).Good := h.setUp rfl rfl
      unfold donePending
      dsimp only
      split_ifs
      · refine hdown.pushReq (holders_pos_of_task ht ?_) .onEmpty true
        simp [Task.names, Pub.names, hup]
      · exact hdown
    · exact h

theorem Good.process {s s' : Server} (h : s.Good) {pub : Pub} {loop : ℕ} (ht : .processed pub ∈ s.tasks)
    (hstep : s.processPubCon pub loop = some s') : s'.Good :=
  (processKind_sameRefs hstep).good (h.beforeSwitch loop ht)

theorem Good.destroyPub {s : Server} (h : s.Good) {pub : Pub} (ht : .processed pub ∈ s.tasks) :
    ((s.setTask (.processed pub) []).releasePub pub).Good := by
  unfold releasePub
  cases hup : pub.up with
  | none =>
    refine h.move rfl rfl (fun _ => rfl) rfl
      (publishing_erase h fun _ _ hmem => absurd hmem List.not_mem_nil) (move_same (fun _ => rfl) fun v => ?_)
    have hset := queued_setTask ht [] v
    have hnames : Task.names v (.processed pub) = false := by simp [Task.names, Pub.names, hup]
    rw [hnames] at hset
    exact hset
  | some u => exact h.releaseTask ht fun v => by simp [Task.names, Pub.names, hup]

/-- A request is taken from the queue. -/
theorem Good.handle {s : Server} (h : s.Good) {req : PushReq} {rest : List PushReq}
    (hq : s.evalQueue = req :: rest) : ({ s with evalQueue := rest }.beginHandle req).Good := by
  have hqueued : ∀ v, { s with evalQueue := rest, tasks := Task.handle req :: s.tasks }.queued v =
      s.queued v := by
    intro v
    change s.conLoops.flatten.countP (Pub.names v) + rest.countP (PushReq.names v) +
      (Task.handle req :: s.tasks).countP (Task.names v) = _
    unfold queued
    rw [countP_cons_task, hq, List.countP_cons]
    have hone : (if req.names v = true then 1 else 0) = (Task.names v (.handle req)).toNat := by
      change _ = (req.names v).toNat
      cases req.names v <;> rfl
    rw [hone]
    omega
  have htaken : { s with evalQueue := rest, tasks := Task.handle req :: s.tasks }.Good :=
    h.move rfl rfl (fun _ => rfl) rfl (publishing_cons h fun _ _ heq => nomatch heq)
      (move_same (fun _ => rfl) hqueued)
  unfold beginHandle
  split_ifs
  · have hpos := holders_pos_of_task (s := { s with evalQueue := rest, tasks := Task.handle req :: s.tasks })
      (u := req.up) List.mem_cons_self (decide_eq_true rfl)
    exact htaken.refTask hpos (fun v => by simp [Task.names, Pub.names, pubClose]) htaken.first
  · exact htaken

/-- Whether a connection holds a reference depends on its own `up` only. -/
theorem conHolds_eq {s s' : Server} {v : ℕ} (hcon : (s'.up v).con = (s.up v).con)
    (hconUp : ∀ c, s'.conUp c = some v ↔ s.conUp c = some v) : s'.conHolds v = s.conHolds v := by
  unfold Server.conHolds
  rw [hcon]
  cases (s.up v).con with
  | none => rfl
  | some c => exact decide_eq_decide.mpr (hconUp c)

/-- A connection is destroyed. -/
theorem Good.conDestroy {s : Server} (h : s.Good) (c : ℕ) : (s.conDestroy c).Good := by
  unfold Server.conDestroy
  cases hc : s.conUp c with
  | none =>
    have hconUp : Function.update s.conUp c none = s.conUp := hc ▸ Function.update_eq_self c s.conUp
    exact h.move rfl hconUp (fun _ => rfl) rfl h.publishing (move_same (fun _ => rfl) fun _ => rfl)
  | some u =>
    dsimp only
    have hnone : (s.up u).counts = ({ s.up u with con := none } : Upgraded).counts := rfl
    generalize hs' : Server.releaseCon { s with
      closed := Function.update s.closed c true
      conUp := Function.update s.conUp c none } u = s'
    have hup : s'.up = (s.setUp u ({ s.up u with con := none } : Upgraded).released).up := by
      rw [← hs', releaseCon, release_up]
      simp [Server.setUp]
    obtain ⟨hcnt, hconUp, hloops, htasks, hqueued⟩ : s'.upCnt = s.upCnt ∧
        s'.conUp = Function.update s.conUp c none ∧ s'.conLoops = s.conLoops ∧ s'.tasks = s.tasks ∧
          ∀ v, s'.queued v = s.queued v := by
      rw [← hs']
      exact release_fields _ u
    have hother : ∀ v ≠ u, s'.holders v = s.holders v := by
      intro v hv
      have hholds : s'.conHolds v = s.conHolds v := by
        refine conHolds_eq (by rw [hup, setUp_other s hv]) fun c' => ?_
        rw [hconUp]
        by_cases hcc : c' = c
        · subst hcc
          rw [Function.update_self, hc]
          simp [hv.symm]
        · rw [Function.update_of_ne hcc]
      unfold holders
      rw [hholds, hqueued]
    -- the connection was a holder, and is none now
    have hself : s.holders u = s'.holders u + 1 := by
      have hholds : s'.conHolds u = false := by
        unfold Server.conHolds
        rw [hup, setUp_self, released_con]
        rfl
      unfold holders
      rw [h.conHolds hc, hholds, hqueued]
      change 1 + s.queued u = 0 + s.queued u + 1
      omega
    refine ⟨fun v hv => ?_, fun v hv => ?_, fun c' v hcv => ?_, ?_, hloops ▸ h.loops⟩
    · rw [hcnt] at hv
      by_cases hvu : v = u
      · subst hvu
        have hold := h.counted v hv
        rw [hself] at hold
        rw [hup, setUp_self]
        exact (hold.congr hnone.symm).released
      · rw [hother v hvu, hup, setUp_other s hvu]
        exact h.counted v hv
    · rw [hcnt] at hv
      have hvu : v ≠ u := fun heq => absurd (h.conUp c u hc).1 (heq ▸ hv).not_gt
      rw [hother v hvu]
      exact h.fresh v hv
    · rw [hconUp] at hcv
      by_cases hcc : c' = c
      · subst hcc
        rw [Function.update_self] at hcv
        cases hcv
      · rw [Function.update_of_ne hcc] at hcv
        obtain ⟨hlt, hcon⟩ := h.conUp c' v hcv
        have hvu : v ≠ u := by
          rintro rfl
          have hcon' := (h.conUp c v hc).2
          rw [hcon'] at hcon
          exact hcc (Option.some.inj hcon).symm
        rw [hcnt, hup, setUp_other s hvu]
        exact ⟨hlt, hcon⟩
    · rw [hloops, htasks]
      exact h.publishing

/-- A connection without an upgrade gets one. -/
theorem Good.upgrade {s : Server} (h : s.Good) {c : ℕ} (hc : s.conUp c = none) (handler : Handler) :
    (s.rupgradedCreate c handler).Good := by
  have hup : (s.rupgradedCreate c handler).up = (s.setUp s.upCnt (upgradedCreate c handler)).up := rfl
  have hconUp : (s.rupgradedCreate c handler).conUp = Function.update s.conUp c (some s.upCnt) := rfl
  have hqueued : ∀ v, (s.rupgradedCreate c handler).queued v = s.queued v := fun _ => rfl
  have hother : ∀ v ≠ s.upCnt, (s.rupgradedCreate c handler).holders v = s.holders v := by
    intro v hv
    have hholds : (s.rupgradedCreate c handler).conHolds v = s.conHolds v := by
      refine conHolds_eq (by rw [hup, setUp_other s hv]) fun c' => ?_
      rw [hconUp]
      by_cases hcc : c' = c
      · subst hcc
        rw [Function.update_self, hc]
        simp [hv.symm]
      · rw [Function.update_of_ne hcc]
    unfold holders
    rw [hholds, hqueued]
  have hself : (s.rupgradedCreate c handler).holders s.upCnt = 1 := by
    have hzero := h.fresh s.upCnt le_rfl
    have hholds : (s.rupgradedCreate c handler).conHolds s.upCnt = true := by
      unfold Server.conHolds
      rw [hup, setUp_self, hconUp]
      simp [upgradedCreate]
    unfold holders at hzero ⊢
    rw [hholds, hqueued]
    change 1 + _ = 1
    omega
  refine ⟨fun u hu => ?_, fun u hu => ?_, fun c' u hcu => ?_, h.publishing, h.loops⟩
  · rcases Nat.lt_succ_iff_lt_or_eq.mp hu with hlt | rfl
    · rw [hother u hlt.ne, hup, setUp_other s hlt.ne]
      exact h.counted u hlt
    · rw [hself, hup, setUp_self]
      exact ⟨rfl, rfl, rfl⟩
  · have hlt : s.upCnt < u := hu
    rw [hother u hlt.ne']
    exact h.fresh u hlt.le
  · rw [hconUp] at hcu
    by_cases hcc : c' = c
    · subst hcc
      rw [Function.update_self] at hcu
      obtain rfl := Option.some.inj hcu
      rw [hup, setUp_self]
      exact ⟨Nat.lt_succ_self _, rfl⟩
    · rw [Function.update_of_ne hcc] at hcu
      obtain ⟨hlt, hcon⟩ := h.conUp c' u hcu
      rw [hup, setUp_other s hlt.ne]
      exact ⟨hlt.trans (Nat.lt_succ_self _), hcon⟩

/-- What a careful step preserves. -/
theorem good_step {s s' : Server} {a : Action} (h : s.Good) (hok : s.Careful a) (hstep : s.step a = some s') :
    s'.Good := by
  cases a with
  | upgrade c handler =>
    obtain ⟨-, hs⟩ := Option.ite_none_left_eq_some.mp hstep
    obtain rfl := Option.some.inj hs
    exact h.upgrade hok handler
  | message c bin =>
    obtain ⟨u, hc, hs⟩ := Option.bind_eq_some_iff.mp hstep
    obtain ⟨-, hs⟩ := Option.ite_none_left_eq_some.mp hs
    obtain rfl := Option.some.inj hs
    exact h.conPushReq hc _ _
  | error c =>
    obtain ⟨u, hc, hs⟩ := Option.bind_eq_some_iff.mp hstep
    obtain ⟨-, hs⟩ := Option.ite_none_right_eq_some.mp hs
    obtain rfl := Option.some.inj hs
    exact h.conPushReq hc _ _
  | closeNotice c =>
    obtain ⟨u, hc, hs⟩ := Option.bind_eq_some_iff.mp hstep
    obtain ⟨-, hs⟩ := Option.ite_none_right_eq_some.mp hs
    obtain rfl := Option.some.inj hs
    exact h.conPushReq hc _ _
  | destroyCon c =>
    obtain ⟨-, hs⟩ := Option.ite_none_left_eq_some.mp hstep
    obtain rfl := Option.some.inj hs
    exact h.conDestroy c
  | get u =>
    obtain ⟨⟨hu, hwrapped⟩, hs⟩ := Option.ite_none_right_eq_some.mp hstep
    obtain rfl := Option.some.inj hs
    have hpos : 0 < s.holders u := by
      have hcounted := (h.counted u hu).wrapped
      rw [hwrapped] at hcounted
      exact of_decide_eq_true hcounted.symm
    exact h.refTask hpos (fun v => by simp [Task.names]) fun _ _ heq => nomatch heq
  | write u message bin incRef =>
    obtain ⟨ht, hs⟩ := Option.ite_none_right_eq_some.mp hstep
    obtain rfl := Option.some.inj hs
    exact h.upgradedWrite ht message bin hok
  | subscribe u subject incRef =>
    obtain ⟨ht, hs⟩ := Option.ite_none_right_eq_some.mp hstep
    obtain rfl := Option.some.inj hs
    exact h.ask ht incRef rfl
  | unsubscribe u subject incRef =>
    obtain ⟨ht, hs⟩ := Option.ite_none_right_eq_some.mp hstep
    obtain rfl := Option.some.inj hs
    exact h.ask ht incRef rfl
  | close u incRef =>
    obtain ⟨ht, hs⟩ := Option.ite_none_right_eq_some.mp hstep
    obtain rfl := Option.some.inj hs
    exact h.ask ht incRef rfl
  | query u =>
    obtain ⟨ht, hs⟩ := Option.ite_none_right_eq_some.mp hstep
    obtain rfl := Option.some.inj hs
    exact h.unrefTask ht hok
  | publish subject message =>
    obtain rfl := Option.some.inj hstep
    exact h.newTask (fun _ => rfl) h.first
  | unsubscribeAll subject =>
    obtain rfl := Option.some.inj hstep
    exact h.newTask (fun _ => rfl) h.first
  | push pub loop =>
    obtain ⟨ht, hs⟩ := Option.ite_none_right_eq_some.mp hstep
    obtain rfl := Option.some.inj hs
    exact h.publishTo ht
  | process loop =>
    obtain ⟨pub, rest, hq, hs⟩ := s.processNext_eq_some hstep
    exact (h.take hq).process List.mem_cons_self hs
  | destroyPub pub =>
    obtain ⟨ht, hs⟩ := Option.ite_none_right_eq_some.mp hstep
    obtain rfl := Option.some.inj hs
    exact h.destroyPub ht
  | handle =>
    obtain ⟨req, rest, hq, rfl⟩ := s.handleNext_eq_some hstep
    rw [if_pos (hok req (by rw [hq]; rfl))]
    exact h.handle hq
  | handled req raised =>
    obtain ⟨⟨ht, -⟩, hs⟩ := Option.ite_none_right_eq_some.mp hstep
    obtain rfl := Option.some.inj hs
    rw [hok]
    exact h.releaseTask ht fun v => rfl

theorem good_start (extra : ℕ) (loop : ℕ → ℕ) (maxPushPending : ℤ) :
    (start extra loop maxPushPending).Good := by
  have hflat : ∀ n, (List.replicate n ([] : List Pub)).flatten = [] := fun n => by
    rw [List.flatten_replicate_nil]
  refine ⟨nofun, fun u _ => ?_, nofun, nofun, ?_⟩
  · change 0 + ((List.replicate (extra + 1) ([] : List Pub)).flatten.countP _ + 0 + 0) = 0
    rw [hflat]
    rfl
  · change 0 < (List.replicate (extra + 1) ([] : List Pub)).length
    rw [List.length_replicate]
    exact Nat.succ_pos _

/-- The count of each upgraded connection is the number of its holders, and it was destroyed once if it
has none, and never else. -/
def Exact (s : Server) : Prop :=
  ∀ u < s.upCnt, (s.up u).refCnt = s.holders u ∧ (s.up u).freed = if s.holders u = 0 then 1 else 0

/-- **In a careful run the counts are the numbers of holders in every state, and an upgraded connection
is destroyed once, when the last holder lets go.** -/
theorem refs_exact (extra : ℕ) (loop : ℕ → ℕ) (maxPushPending : ℤ) (as : List Action)
    (h : Along step Careful (start extra loop maxPushPending) as) :
    Always step Exact (start extra loop maxPushPending) as := by
  have hgood : Always step Good (start extra loop maxPushPending) as :=
    always_of_along Good (fun _ _ _ hs hok hstep => good_step hs hok hstep)
      (good_start extra loop maxPushPending) h
  exact hgood.mono fun s hs u hu => ⟨(hs.counted u hu).refCnt, (hs.counted u hu).freed⟩

instance (s : Server) : DecidablePred s.Careful
  | .upgrade c _ => inferInstanceAs (Decidable (s.conUp c = none))
  | .write u _ _ incRef =>
    inferInstanceAs (Decidable (s.refuses u = true → incRef = false ∧ (s.up u).isLast = false))
  | .query u => inferInstanceAs (Decidable ((s.up u).isLast = false))
  | .handle => inferInstanceAs (Decidable (∀ req ∈ s.evalQueue.head?, req.hook = true))
  | .handled _ raised => inferInstanceAs (Decidable (raised = false))
  | .message _ _ | .error _ | .closeNotice _ | .destroyCon _ | .get _ | .subscribe _ _ _
  | .unsubscribe _ _ _ | .close _ _ | .publish _ _ | .unsubscribeAll _ | .push _ _ | .process _
  | .destroyPub _ => inferInstanceAs (Decidable True)

/-- A message is handled and answered with a write, a second write is refused, and the client goes. -/
def clientRun : List Action :=
  let answer := pubWrite 0 (bytes "b") false
  [.upgrade 0 ⟨false, false, true, true, false⟩, .message 0 false, .handle, .get 0,
    .write 0 (bytes "b") false false, .get 0, .write 0 (bytes "c") false false, .push answer 0,
    .handled ⟨0, .onMsg, true⟩ false, .closeNotice 0, .destroyCon 0, .process 0, .destroyPub answer,
    .push answer 1, .process 1, .destroyPub answer, .handle, .push (pubClose 0) 0, .push (pubClose 0) 1,
    .handled ⟨0, .onClose, true⟩ false, .process 0, .destroyPub (pubClose 0), .process 1,
    .destroyPub (pubClose 0)]

theorem refs_exact_client : Always step Exact (start 1 (fun _ => 0) 1) clientRun :=
  refs_exact 1 (fun _ => 0) 1 clientRun (by decide)

/-- A wrapper has no reference. -/
theorem wrapper_not_counted : ¬ ∀ as : List Action, Always step
    (fun s => ∀ u < s.upCnt, (s.up u).refCnt = s.holders u + (s.up u).wrapped.toNat)
      (start 0 (fun _ => 0) 32) as := by
  intro h
  have hcount := (h [.upgrade 0 ⟨false, false, true, true, false⟩]).2 0 (by decide)
  revert hcount
  decide

end Server

end Publish

end Agoo
