import Agoo.EvalKeys
import Agoo.Subject

/-!
# Publishing events to GraphQL subscriptions (`server.c`)

`agoo_server_gpublish` evaluates the query of each subscription whose subject matches on the event, and
appends the text to its connection. It leaves the loop at the first query that fails, and one error is
passed through all evaluations.

`gpublish_iff`: each matching subscription gets one message exactly when all queries succeed in their
turn; where those that succeed leave no error and do not change what others see, exactly when all
succeed alone, and then it is the text that the subscription gets alone.
-/

namespace Agoo

namespace GqlPublish

open Eval Subject

variable {ρ ω : Type}

/-! ## Subscriptions -/

/-- `sub->query`: a document, the selections of its first operation, and what evaluations change of it. -/
structure Query where
  doc : Doc
  opsSels : List Sel
  funcs : Funcs
  cells : List (GqlValue ℕ)

/-- `struct _gqlSub`, with a number for its address. -/
structure GqlSub where
  id : ℕ
  con : ℕ
  subject : Bytes
  query : Query

inductive GsubOp
  | add (sub : GqlSub)
  | del (id : ℕ)

/-- `agoo_server_add_gsub`. -/
def addGsub (subs : List GqlSub) (sub : GqlSub) : List GqlSub := sub :: subs

/-- `agoo_server_del_gsub`, for a list in which no subscription is twice. -/
def delGsub (subs : List GqlSub) (id : ℕ) : List GqlSub := subs.filter (·.id ≠ id)

/-- `gsub_list` after some calls. -/
def gsubList (ops : List GsubOp) : List GqlSub :=
  ops.foldl (fun subs op =>
    match op with
    | .add sub => addGsub subs sub
    | .del id => delGsub subs id) []

/-! ## Evaluation -/

/-- `sel->type` and `sel->sels` of the first selection; without a type the number is that of none. -/
def firstSel (env : Env ρ ω) : Sel → ℕ × List Sel
  | .field head _ sels => (head.type.getD env.table.types.length, sels)
  | .spread _ _ => (env.table.types.length, [])
  | .inline _ _ _ _ => (env.table.types.length, [])

/-- The evaluation in `gpub_eval`, into a new object. -/
def gpubSels (env : Env ρ ω) (query : Query) (event : ρ) : EvalM ω Unit :=
  match query.opsSels with
  | [] => Eval.setErr .type (bytes "subscription not valid")
  | sel :: _ =>
    evalSels env query.doc (.ruby event) (some (fieldOf [] (firstSel env sel).1)) (firstSel env sel).2 0

/-- `gpub_eval`: the text, if there is one, and the state after it. -/
def gpubEval (env : Env ρ ω) (query : Query) (event : ρ) (err : Option Err) (w : ω) :
    Except Stop Bytes × State ω :=
  let r := exec (gpubSels env query event) ⟨query.funcs, query.cells, err, [], w⟩
  (r.1.map fun _ => valueJson env.floatText 0 0 (.object r.2.result), r.2)

/-- What `agoo_server_gpublish` leaves: the messages with the connections they are appended to, and why
the loop was left. -/
structure Outcome (ω : Type) where
  messages : List (ℕ × Bytes)
  stop : Option Stop
  err : Option Err
  world : ω

/-- A message before all others. -/
def Outcome.cons (m : ℕ × Bytes) (o : Outcome ω) : Outcome ω := { o with messages := m :: o.messages }

/-- The loop of `agoo_server_gpublish`. -/
def gpublishLoop (env : Env ρ ω) (subject : Bytes) (event : ρ) :
    List GqlSub → Option Err → ω → Outcome ω
  | [], err, w => ⟨[], none, err, w⟩
  | sub :: subs, err, w =>
    if subjectCheck sub.subject subject then
      match gpubEval env sub.query event err w with
      | (.ok t, s) => (gpublishLoop env subject event subs s.err s.world).cons (sub.con, t)
      | (.error stop, s) => ⟨[], some stop, s.err, s.world⟩
    else gpublishLoop env subject event subs err w

/-- The error of an event without a type. -/
def noType : Err :=
  errSet .type (bytes "Not able to determine the type for a GraphQL publish.")

/-- `agoo_server_gpublish`. -/
def gpublish (env : Env ρ ω) (subs : List GqlSub) (subject : Bytes) (event : ρ) (w : ω) : Outcome ω :=
  match env.refType event w with
  | none => ⟨[], some .fail, some noType, w⟩
  | some _ => gpublishLoop env subject event subs none w

/-! ## What should be sent -/

/-- The subscriptions whose subject matches. -/
def matching (subs : List GqlSub) (subject : Bytes) : List GqlSub :=
  subs.filter fun sub => subjectCheck sub.subject subject

/-- The query has selections, and their evaluation does not fail. -/
def Succeeds (env : Env ρ ω) (event : ρ) (err : Option Err) (w : ω) (query : Query) : Prop :=
  ∃ sel rest, query.opsSels = sel :: rest ∧
    (exec (evalSels env query.doc (.ruby event) (some (fieldOf [] (firstSel env sel).1))
      (firstSel env sel).2 0) ⟨query.funcs, query.cells, err, [], w⟩).1 = .ok ()

/-- The queries succeed one after the other. -/
def AllSucceed (env : Env ρ ω) (event : ρ) : List GqlSub → Option Err → ω → Prop
  | [], _, _ => True
  | sub :: subs, err, w => Succeeds env event err w sub.query ∧
      AllSucceed env event subs (gpubEval env sub.query event err w).2.err
        (gpubEval env sub.query event err w).2.world

/-- What the subscription gets when it is the only one. -/
def alone (env : Env ρ ω) (subject : Bytes) (event : ρ) (w : ω) (sub : GqlSub) : List (ℕ × Bytes) :=
  (gpublish env [sub] subject event w).messages

/-- A query that succeeds alone leaves no error, and nothing that another one sees is changed. -/
def Apart (env : Env ρ ω) (event : ρ) (w : ω) (sub : GqlSub) : Prop :=
  Succeeds env event none w sub.query →
    (gpubEval env sub.query event none w).2.err = none ∧ (gpubEval env sub.query event none w).2.world = w

/-- Each matching subscription gets one message, and no other one gets any. -/
def Reaches (env : Env ρ ω) (subs : List GqlSub) (subject : Bytes) (event : ρ) (w : ω) : Prop :=
  (gpublish env subs subject event w).messages.map Prod.fst = (matching subs subject).map (·.con)

/-- And what it gets does not depend on the others. -/
def AsAlone (env : Env ρ ω) (subs : List GqlSub) (subject : Bytes) (event : ρ) (w : ω) : Prop :=
  Reaches env subs subject event w ∧
    (gpublish env subs subject event w).messages =
      (matching subs subject).flatMap (alone env subject event w)

/-- The event has a type, or there is nobody to tell. -/
def Typed (env : Env ρ ω) (subs : List GqlSub) (subject : Bytes) (event : ρ) (w : ω) : Prop :=
  env.refType event w ≠ none ∨ matching subs subject = []

/-! ## The loop -/

section Loop

variable {env : Env ρ ω} {subject : Bytes} {event : ρ}

/-- `gpub_eval` has a text when the evaluation does not fail. -/
theorem succeeds_iff (err : Option Err) (w : ω) (query : Query) :
    Succeeds env event err w query ↔ ∃ t, (gpubEval env query event err w).1 = .ok t := by
  unfold Succeeds gpubEval gpubSels
  dsimp only
  cases query.opsSels with
  | nil =>
    constructor
    · rintro ⟨sel, rest, h, -⟩
      cases h
    · rintro ⟨t, h⟩
      cases h
  | cons sel rest =>
    dsimp only
    have hrest : ∀ o : Except Stop Unit, (∃ sel' rest', sel :: rest = sel' :: rest' ∧
        (exec (evalSels env query.doc (.ruby event) (some (fieldOf [] (firstSel env sel').1))
          (firstSel env sel').2 0) ⟨query.funcs, query.cells, err, [], w⟩).1 = o) ↔
        (exec (evalSels env query.doc (.ruby event) (some (fieldOf [] (firstSel env sel).1))
          (firstSel env sel).2 0) ⟨query.funcs, query.cells, err, [], w⟩).1 = o := by
      intro o
      constructor
      · rintro ⟨sel', rest', heq, h⟩
        obtain ⟨rfl, rfl⟩ := List.cons.inj heq
        exact h
      · exact fun h => ⟨sel, rest, rfl, h⟩
    rw [hrest]
    cases (exec (evalSels env query.doc (.ruby event) (some (fieldOf [] (firstSel env sel).1))
      (firstSel env sel).2 0) ⟨query.funcs, query.cells, err, [], w⟩).1 with
    | ok u => exact ⟨fun _ => ⟨_, rfl⟩, fun _ => rfl⟩
    | error stop =>
      constructor
      · intro h
        cases h
      · rintro ⟨t, h⟩
        cases h

/-- A subscription that does not match is passed over. -/
theorem gpublishLoop_filter (subs : List GqlSub) (err : Option Err) (w : ω) :
    gpublishLoop env subject event (matching subs subject) err w =
      gpublishLoop env subject event subs err w := by
  induction subs generalizing err w with
  | nil => rfl
  | cons sub subs ih =>
    unfold matching at ih ⊢
    by_cases h : subjectCheck sub.subject subject = true
    · rw [List.filter_cons, if_pos h]
      unfold gpublishLoop
      rw [if_pos h, if_pos h]
      cases gpubEval env sub.query event err w with
      | mk o s =>
        cases o with
        | ok t => exact congrArg (Outcome.cons _) (ih s.err s.world)
        | error stop => rfl
    · rw [List.filter_cons, if_neg h, ih]
      conv_rhs => unfold gpublishLoop
      rw [if_neg h]

theorem gpublishLoop_ok {sub : GqlSub} (h : subjectCheck sub.subject subject = true) {err : Option Err}
    {w : ω} {t : Bytes} (hok : (gpubEval env sub.query event err w).1 = .ok t) (subs : List GqlSub) :
    gpublishLoop env subject event (sub :: subs) err w =
      (gpublishLoop env subject event subs (gpubEval env sub.query event err w).2.err
        (gpubEval env sub.query event err w).2.world).cons (sub.con, t) := by
  conv_lhs => unfold gpublishLoop
  rw [if_pos h]
  cases hr : gpubEval env sub.query event err w with
  | mk o s =>
    rw [hr] at hok
    obtain rfl : o = .ok t := hok
    rfl

theorem gpublishLoop_error {sub : GqlSub} (h : subjectCheck sub.subject subject = true) {err : Option Err}
    {w : ω} (hno : ¬ Succeeds env event err w sub.query) (subs : List GqlSub) :
    (gpublishLoop env subject event (sub :: subs) err w).messages = [] := by
  unfold gpublishLoop
  rw [if_pos h]
  cases hr : gpubEval env sub.query event err w with
  | mk o s =>
    cases o with
    | ok t => exact absurd ((succeeds_iff err w _).mpr ⟨t, by rw [hr]⟩) hno
    | error stop => rfl

/-- All get a message exactly when no query fails in its turn. -/
theorem recipients_iff {subs : List GqlSub} (h : ∀ sub ∈ subs, subjectCheck sub.subject subject = true)
    (err : Option Err) (w : ω) :
    (gpublishLoop env subject event subs err w).messages.map Prod.fst = subs.map (·.con) ↔
      AllSucceed env event subs err w := by
  induction subs generalizing err w with
  | nil => exact ⟨fun _ => trivial, fun _ => rfl⟩
  | cons sub subs ih =>
    have hsub := h sub List.mem_cons_self
    by_cases hs : Succeeds env event err w sub.query
    · obtain ⟨t, ht⟩ := (succeeds_iff err w _).mp hs
      have hrest := ih (fun s hs => h s (List.mem_cons_of_mem _ hs))
        (gpubEval env sub.query event err w).2.err (gpubEval env sub.query event err w).2.world
      rw [gpublishLoop_ok hsub ht]
      unfold Outcome.cons AllSucceed
      rw [List.map_cons, List.map_cons, ← hrest, and_iff_right hs]
      exact ⟨fun heq => (List.cons.inj heq).2, fun heq => congrArg (sub.con :: ·) heq⟩
    · rw [gpublishLoop_error hsub hs]
      exact ⟨fun heq => (nomatch heq), fun hall => absurd hall.1 hs⟩

/-- For an event with a type `agoo_server_gpublish` is its loop. -/
theorem gpublish_typed {w : ω} (h : env.refType event w ≠ none) (subs : List GqlSub) :
    gpublish env subs subject event w = gpublishLoop env subject event subs none w := by
  unfold gpublish
  cases htype : env.refType event w with
  | none => exact absurd htype h
  | some t => rfl

theorem gpublish_untyped {w : ω} (h : env.refType event w = none) (subs : List GqlSub) :
    (gpublish env subs subject event w).messages = [] := by
  unfold gpublish
  rw [h]

theorem alone_ok {sub : GqlSub} (h : subjectCheck sub.subject subject = true) {w : ω}
    (htype : env.refType event w ≠ none) {t : Bytes}
    (hok : (gpubEval env sub.query event none w).1 = .ok t) :
    alone env subject event w sub = [(sub.con, t)] := by
  unfold alone
  rw [gpublish_typed htype, gpublishLoop_ok h hok]
  rfl

/-- Queries that keep to themselves all succeed exactly when each does alone, and then all texts are
those that the subscriptions get alone. -/
theorem texts_iff {subs : List GqlSub} (h : ∀ sub ∈ subs, subjectCheck sub.subject subject = true) {w : ω}
    (htype : env.refType event w ≠ none) (hapart : ∀ sub ∈ subs, Apart env event w sub) :
    (AllSucceed env event subs none w ↔ ∀ sub ∈ subs, Succeeds env event none w sub.query) ∧
      ((∀ sub ∈ subs, Succeeds env event none w sub.query) →
        (gpublishLoop env subject event subs none w).messages = subs.flatMap (alone env subject event w)) := by
  induction subs with
  | nil => exact ⟨⟨fun _ _ h => (nomatch h), fun _ => trivial⟩, fun _ => rfl⟩
  | cons sub subs ih =>
    have hsub := h sub List.mem_cons_self
    obtain ⟨hall, htexts⟩ := ih (fun s hs => h s (List.mem_cons_of_mem _ hs))
      fun s hs => hapart s (List.mem_cons_of_mem _ hs)
    by_cases hs : Succeeds env event none w sub.query
    · obtain ⟨herr, hworld⟩ := hapart sub List.mem_cons_self hs
      obtain ⟨t, ht⟩ := (succeeds_iff none w _).mp hs
      refine ⟨?_, fun hsucceed => ?_⟩
      · unfold AllSucceed
        rw [herr, hworld, hall, List.forall_mem_cons]
      · rw [gpublishLoop_ok hsub ht, herr, hworld, List.flatMap_cons, alone_ok hsub htype ht,
          ← htexts fun s hs => hsucceed s (List.mem_cons_of_mem _ hs)]
        rfl
    · exact ⟨⟨fun hall => absurd hall.1 hs, fun hall => absurd (hall sub List.mem_cons_self) hs⟩,
        fun hall => absurd (hall sub List.mem_cons_self) hs⟩

theorem matching_subject {subs : List GqlSub} (sub : GqlSub) (h : sub ∈ matching subs subject) :
    subjectCheck sub.subject subject = true := by
  unfold matching at h
  exact (List.mem_filter.mp h).2

/-- For an event without a type nothing is sent. -/
theorem reaches_untyped {w : ω} (h : env.refType event w = none) (subs : List GqlSub) :
    Reaches env subs subject event w ↔ matching subs subject = [] := by
  unfold Reaches
  rw [gpublish_untyped h, List.map_nil, eq_comm, List.map_eq_nil_iff]

theorem reaches_typed {w : ω} (h : env.refType event w ≠ none) (subs : List GqlSub) :
    Reaches env subs subject event w ↔ AllSucceed env event (matching subs subject) none w := by
  unfold Reaches
  rw [gpublish_typed h, ← gpublishLoop_filter, recipients_iff matching_subject]

end Loop

/-- **Each matching subscription gets one message and no other one does exactly when the event has a type
and no query of them fails in its turn; where queries that succeed leave no error and nothing changed
for others, each gets what it gets alone exactly when no query of them fails.** -/
theorem gpublish_iff (env : Env ρ ω) (ops : List GsubOp) (subject : Bytes) (event : ρ) (w : ω) :
    (Reaches env (gsubList ops) subject event w ↔
      Typed env (gsubList ops) subject event w ∧
        AllSucceed env event (matching (gsubList ops) subject) none w) ∧
    ((∀ sub ∈ matching (gsubList ops) subject, Apart env event w sub) →
      (AsAlone env (gsubList ops) subject event w ↔
        Typed env (gsubList ops) subject event w ∧
          ∀ sub ∈ matching (gsubList ops) subject, Succeeds env event none w sub.query)) := by
  generalize gsubList ops = subs
  unfold AsAlone Typed
  by_cases htype : env.refType event w = none
  · rw [reaches_untyped htype, gpublish_untyped htype]
    simp only [htype, ne_eq, not_true_eq_false, false_or]
    constructor
    · constructor
      · intro h
        rw [h]
        exact ⟨rfl, trivial⟩
      · exact And.left
    · intro _
      constructor
      · rintro ⟨h, -⟩
        rw [h]
        exact ⟨rfl, fun _ h => (nomatch h)⟩
      · rintro ⟨h, -⟩
        rw [h]
        exact ⟨rfl, rfl⟩
  · rw [reaches_typed htype, and_iff_right (Or.inl htype), and_iff_right (Or.inl htype)]
    refine ⟨Iff.rfl, fun hapart => ?_⟩
    obtain ⟨hall, htexts⟩ := texts_iff matching_subject htype hapart
    rw [hall, gpublish_typed htype, ← gpublishLoop_filter]
    exact ⟨And.left, fun h => ⟨h, htexts h⟩⟩

/-! ## One query that fails -/

/-- `&gql_time_type`. -/
def gqlTimeType : ℕ := 4

/-- The number of the type `Event`. -/
def eventType : ℕ := gqlInit.types.length

/-- An event with a time, for which Ruby gives an object that is none. -/
def eventEnv : Env Bytes Unit :=
  { Sample.env with
    table := gqlInit.addType ⟨bytes "Event", none, [], .object, false, true,
      .fields [fieldOf (bytes "at") gqlTimeType] []⟩
    isString := fun _ _ => none
    refType := fun ref _ => if ref = bytes "event" then some eventType else none
    coerce := fun _ _ w => (.error (.null (some
      (errSet .eval (bytes "Failed to coerce a Object into a Time.")))), w) }

/-- `subscription { event { … } }`. -/
def eventQuery (sels : List Sel) : Query :=
  ⟨⟨.subscription, [], [], [], []⟩,
    [.field ⟨none, bytes "event", some eventType, []⟩ [] sels], .ruby, []⟩

/-- It asks for the name of the type. -/
def named : GqlSub :=
  ⟨0, 7, bytes "news", eventQuery [.field ⟨none, bytes "__typename", none, []⟩ [] []]⟩

/-- It asks for the time. -/
def timed : GqlSub :=
  ⟨1, 8, bytes "news", eventQuery [.field ⟨none, bytes "at", some gqlTimeType, []⟩ [] []]⟩

/-- **A subscription that gets its message alone gets none behind one whose query fails.** -/
theorem gpublish_breaks :
    AsAlone eventEnv (gsubList [.add named]) (bytes "news") (bytes "event") () ∧
      alone eventEnv (bytes "news") (bytes "event") () named =
        [(7, bytes "\x7b\"__typename\":\"Event\"\x7d")] ∧
      (gpublish eventEnv (gsubList [.add named, .add timed]) (bytes "news") (bytes "event")
        ()).messages = [] ∧
      ¬ Reaches eventEnv (gsubList [.add named, .add timed]) (bytes "news") (bytes "event") () := by
  unfold AsAlone Reaches
  decide +kernel

end GqlPublish

end Agoo
