import Agoo.GqlIntro
import Agoo.Json

/-!
# Requests to the GraphQL hook (`gql_eval_post_hook`)

The body of a POST is a query, or an object of JSON with a query, the name of an operation and variables. The members
of the object are read in order, and the first with a value of another kind ends the request. What is done with the
query then is any function here.

`post_null_iff`: **`agoo_doc_init` is given no query and asks for its length exactly when the body is an object of which
all members are taken and none is a query.**
-/

namespace Agoo

namespace Post

open Eval (stringGet)

/-! ## The code -/

abbrev Vars := List (Bytes × GqlValue ℕ)

/-- What is read of a request: of the query string the name of the operation, and the text of the variables as it is
decoded; the header from the value of `Content-Type` on; and the body. -/
structure PostReq where
  operationName : Option Bytes
  varJson : Option Bytes
  contentType : Option Bytes
  body : Bytes

/-- `sdl_parse_doc`, `set_doc_op` and `gql_doc_eval`, which may have a status for its error; and whether the operation
that was set is a subscription. -/
structure Docs (D : Type) where
  parse : Bytes → Vars → Except Err D
  setOp : D → Option Bytes → D
  isSubscription : D → Bool
  eval : D → Except (Option ℕ × Err) (GqlValue ℕ)

/-- The response: `err_resp`, or `value_resp` with a value or with none, which is the head of an event stream. -/
inductive Answer
  | error (status : ℕ) (e : Err)
  | value (v : GqlValue ℕ)
  | stream

inductive Outcome
  | answered (a : Answer)
  /-- `strlen(NULL)`. -/
  | nullRead
  /-- The reader of JSON has no fuel. -/
  | spent

/-- The code of the error is replaced, its message is kept. -/
def refused (status : Option ℕ) (e : Err) : Outcome :=
  .answered (.error (status.getD 400) { e with code := .eval })

/-- `parse_query_vars`: the last variable is the first. -/
def parseQueryVars (text : Bytes) : ExceptT Err Option Vars := do
  match ← Json.gqlJsonParse text with
  | .object ms => return ms.reverse
  | _ => throw (errSet .eval (bytes "expected variables to be an object."))

/-- The variables of the query string. -/
def queryVars (req : PostReq) : Option (Except Err Vars) :=
  match req.varJson with
  | none => some (.ok [])
  | some text => parseQueryVars text

/-- What was read of an object. -/
structure Asked where
  query : Option Bytes
  opName : Option Bytes
  vars : Vars

def needString (v : GqlValue ℕ) (msg : Bytes) : Except Err Bytes :=
  match stringGet v with
  | some s => .ok s
  | none => .error (errSet .type msg)

/-- A member of the object. -/
def member (a : Asked) (m : Bytes × GqlValue ℕ) : Except Err Asked :=
  if m.1 = bytes "query" then
    (needString m.2 (bytes "query must be an string")).map fun s => { a with query := some s }
  else if m.1 = bytes "operationName" then
    (needString m.2 (bytes "operationName must be an string")).map fun s => { a with opName := some s }
  else if m.1 = bytes "variables" then
    match m.2 with
    | .object ms => .ok { a with vars := ms.reverse ++ a.vars }
    | .null => .ok a
    | _ => .error (errSet .eval (bytes "expected variables to be an object or null."))
  else .ok a

variable {D : Type} (docs : Docs D)

/-- From `sdl_parse_doc` on. -/
def evalDoc (query : Bytes) (vars : Vars) (opName : Option Bytes) : Outcome :=
  match docs.parse query vars with
  | .error e => refused none e
  | .ok doc =>
    let doc := docs.setOp doc opName
    match docs.eval doc with
    | .error (status, e) => refused status e
    | .ok v => .answered (if docs.isSubscription doc then .stream else .value v)

/-- A body of JSON. -/
def evalJson (a : Asked) (body : Bytes) : Outcome :=
  match (Json.gqlJsonParse body : Option (Except Err (GqlValue ℕ))) with
  | none => .spent
  | some (.error e) => refused none e
  | some (.ok (.object ms)) =>
    match ms.foldlM member a with
    | .error e => refused none e
    | .ok a =>
      match a.query with
      | none => .nullRead
      | some query => evalDoc docs query a.vars a.opName
  | some (.ok _) => refused none (errSet .type (bytes "JSON request must be an object"))

def isGraphql (s : Bytes) : Bool := strncasecmp (bytes "application/graphql") s 19

def isJson (s : Bytes) : Bool := strncasecmp (bytes "application/json") s 16

/-- `eval_post`, and what `gql_eval_post_hook` does with its result. -/
def evalPost (req : PostReq) : Outcome :=
  match queryVars req with
  | none => .spent
  | some (.error e) => refused none e
  | some (.ok vars) =>
    match req.contentType with
    | none => refused none (errSet .type (bytes "required Content-Type not in the HTTP header"))
    | some s =>
      if isGraphql s then evalDoc docs req.body vars req.operationName
      else if isJson s then evalJson docs ⟨none, req.operationName, vars⟩ req.body
      else refused none (errSet .type (bytes "unsupported content type"))

/-! ## What is read of an object -/

/-- The strings of the members with a key. -/
def strings (key : Bytes) (ms : List (Bytes × GqlValue ℕ)) : List Bytes :=
  ms.filterMap fun m => if m.1 = key then stringGet m.2 else none

/-- The variables of a member. -/
def varsIn (m : Bytes × GqlValue ℕ) : Vars :=
  if m.1 = bytes "variables" then
    match m.2 with
    | .object ms => ms
    | _ => []
  else []

/-- The member has a value of the kind that is asked for. -/
structure Taken (m : Bytes × GqlValue ℕ) : Prop where
  string : m.1 = bytes "query" ∨ m.1 = bytes "operationName" → (stringGet m.2).isSome = true
  object : m.1 = bytes "variables" → m.2 = .null ∨ ∃ ms, m.2 = .object ms

/-- The last query and the last name count, and the variables of the last member hide those before. -/
def Asked.readAll (a : Asked) (ms : List (Bytes × GqlValue ℕ)) : Asked where
  query := (strings (bytes "query") ms).getLast?.or a.query
  opName := (strings (bytes "operationName") ms).getLast?.or a.opName
  vars := (ms.flatMap varsIn).reverse ++ a.vars

theorem strings_cons (key : Bytes) (m : Bytes × GqlValue ℕ) (ms : List (Bytes × GqlValue ℕ)) :
    strings key (m :: ms) = strings key [m] ++ strings key ms := by
  unfold strings
  rw [← List.filterMap_append, List.singleton_append]

theorem strings_of_key {key s : Bytes} {m : Bytes × GqlValue ℕ} (hkey : m.1 = key) (hs : stringGet m.2 = some s) :
    strings key [m] = [s] := by
  unfold strings
  rw [List.filterMap_cons, if_pos hkey, hs]
  rfl

theorem strings_of_ne {key : Bytes} {m : Bytes × GqlValue ℕ} (hkey : m.1 ≠ key) : strings key [m] = [] := by
  unfold strings
  rw [List.filterMap_cons, if_neg hkey]
  rfl

theorem readAll_nil (a : Asked) : a.readAll [] = a := rfl

/-- One member after the other. -/
theorem readAll_cons (a : Asked) (m : Bytes × GqlValue ℕ) (ms : List (Bytes × GqlValue ℕ)) :
    a.readAll (m :: ms) = (a.readAll [m]).readAll ms := by
  have hlast : ∀ key (o : Option Bytes), (strings key (m :: ms)).getLast?.or o =
      (strings key ms).getLast?.or ((strings key [m]).getLast?.or o) := by
    intro key o
    rw [strings_cons, List.getLast?_append, Option.or_assoc]
  unfold Asked.readAll
  dsimp only
  rw [hlast, hlast, List.flatMap_cons, List.flatMap_cons, List.flatMap_nil, List.append_nil, List.reverse_append,
    List.append_assoc]

/-- What is done with a string. -/
theorem needString_map_iff {v : GqlValue ℕ} {msg : Bytes} {f : Bytes → Asked} {a' : Asked} :
    (needString v msg).map f = .ok a' ↔ ∃ s, stringGet v = some s ∧ f s = a' := by
  unfold needString
  cases stringGet v with
  | none => exact ⟨fun h => (by cases h), fun ⟨s, h, _⟩ => (by cases h)⟩
  | some s =>
    refine ⟨fun h => ⟨s, rfl, Except.ok.inj h⟩, fun ⟨s', hs, ha⟩ => ?_⟩
    rw [← Option.some.inj hs] at ha
    rw [← ha]
    rfl

/-- A member that must be a string. -/
theorem string_iff {a a' : Asked} {m : Bytes × GqlValue ℕ} {f : Bytes → Asked}
    (hkey : m.1 = bytes "query" ∨ m.1 = bytes "operationName")
    (hall : ∀ s, stringGet m.2 = some s → a.readAll [m] = f s) :
    (∃ s, stringGet m.2 = some s ∧ f s = a') ↔ Taken m ∧ a' = a.readAll [m] := by
  have hvars : m.1 ≠ bytes "variables" := by
    rcases hkey with h | h
    · rw [h]
      decide
    · rw [h]
      decide
  constructor
  · rintro ⟨s, hs, rfl⟩
    exact ⟨⟨fun _ => by rw [hs]; rfl, fun h => absurd h hvars⟩, (hall s hs).symm⟩
  · rintro ⟨htaken, rfl⟩
    obtain ⟨s, hs⟩ := Option.isSome_iff_exists.mp (htaken.string hkey)
    exact ⟨s, hs, (hall s hs).symm⟩

theorem varsIn_of_ne {m : Bytes × GqlValue ℕ} (h : m.1 ≠ bytes "variables") : varsIn m = [] := if_neg h

/-- A member that is no string. -/
theorem readAll_vars {a : Asked} {m : Bytes × GqlValue ℕ} (hquery : m.1 ≠ bytes "query")
    (hname : m.1 ≠ bytes "operationName") : a.readAll [m] = { a with vars := (varsIn m).reverse ++ a.vars } := by
  unfold Asked.readAll
  rw [strings_of_ne hquery, strings_of_ne hname, List.flatMap_singleton]
  rfl

/-- A member is read when it is taken. -/
theorem member_iff {a a' : Asked} {m : Bytes × GqlValue ℕ} : member a m = .ok a' ↔ Taken m ∧ a' = a.readAll [m] := by
  have hvars : bytes "query" ≠ bytes "variables" := by decide
  have hvars' : bytes "operationName" ≠ bytes "variables" := by decide
  have hname : bytes "query" ≠ bytes "operationName" := by decide
  unfold member
  by_cases hquery : m.1 = bytes "query"
  · rw [if_pos hquery, needString_map_iff]
    refine string_iff (Or.inl hquery) fun s hs => ?_
    unfold Asked.readAll
    rw [strings_of_key hquery hs, strings_of_ne (hquery ▸ hname), List.flatMap_singleton,
      varsIn_of_ne (hquery ▸ hvars)]
    rfl
  by_cases hop : m.1 = bytes "operationName"
  · rw [if_neg hquery, if_pos hop, needString_map_iff]
    refine string_iff (Or.inr hop) fun s hs => ?_
    unfold Asked.readAll
    rw [strings_of_ne hquery, strings_of_key hop hs, List.flatMap_singleton, varsIn_of_ne (hop ▸ hvars')]
    rfl
  rw [if_neg hquery, if_neg hop, readAll_vars hquery hop]
  have hstring : m.1 = bytes "query" ∨ m.1 = bytes "operationName" → (stringGet m.2).isSome = true := fun h =>
    (h.elim hquery hop).elim
  by_cases hkey : m.1 = bytes "variables"
  · have hin : varsIn m = match m.2 with
        | .object ms => ms
        | _ => [] := if_pos hkey
    rw [if_pos hkey, hin]
    obtain ⟨key, v⟩ := m
    cases v with
    | object ms =>
      exact ⟨fun h => ⟨⟨hstring, fun _ => Or.inr ⟨ms, rfl⟩⟩, (Except.ok.inj h).symm⟩, fun h => h.2 ▸ rfl⟩
    | null => exact ⟨fun h => ⟨⟨hstring, fun _ => Or.inl rfl⟩, (Except.ok.inj h).symm⟩, fun h => h.2 ▸ rfl⟩
    | bool | int | i64 | float | string | token | var | list =>
      refine ⟨fun h => (by cases h), fun h => ?_⟩
      rcases h.1.object hkey with hnull | ⟨ms, hms⟩
      · cases hnull
      · cases hms
  · rw [if_neg hkey, varsIn_of_ne hkey]
    exact ⟨fun h => ⟨⟨hstring, fun h => absurd h hkey⟩, (Except.ok.inj h).symm⟩, fun h => h.2 ▸ rfl⟩

/-- An object is read when all its members are taken. -/
theorem foldlM_member_iff {a a' : Asked} {ms : List (Bytes × GqlValue ℕ)} :
    ms.foldlM member a = .ok a' ↔ (∀ m ∈ ms, Taken m) ∧ a' = a.readAll ms := by
  induction ms generalizing a with
  | nil =>
    rw [readAll_nil]
    exact ⟨fun h => ⟨fun m hm => absurd hm List.not_mem_nil, (Except.ok.inj h).symm⟩, fun h => h.2 ▸ rfl⟩
  | cons m ms ih =>
    rw [List.foldlM_cons, readAll_cons, List.forall_mem_cons]
    cases hm : member a m with
    | error e =>
      refine ⟨fun h => (by cases h), fun h => ?_⟩
      have hok : member a m = .ok (a.readAll [m]) := member_iff.mpr ⟨h.1.1, rfl⟩
      rw [hm] at hok
      cases hok
    | ok a₁ =>
      obtain ⟨htaken, rfl⟩ := member_iff.mp hm
      show ms.foldlM member (a.readAll [m]) = .ok a' ↔ _
      rw [ih, and_iff_right htaken]

theorem strings_eq_nil_iff {key : Bytes} {ms : List (Bytes × GqlValue ℕ)}
    (h : ∀ m ∈ ms, m.1 = key → (stringGet m.2).isSome = true) :
    strings key ms = [] ↔ ∀ m ∈ ms, m.1 ≠ key := by
  unfold strings
  rw [List.filterMap_eq_nil_iff]
  refine ⟨fun hnone m hm hkey => ?_, fun hne m hm => if_neg (hne m hm)⟩
  have hnil := hnone m hm
  have hsome := h m hm hkey
  rw [if_pos hkey] at hnil
  rw [hnil] at hsome
  cases hsome

/-! ## Requests -/

variable {docs}

theorem evalDoc_ne_null (query : Bytes) (vars : Vars) (opName : Option Bytes) :
    evalDoc docs query vars opName ≠ .nullRead := by
  unfold evalDoc refused
  split
  · exact fun h => by cases h
  · dsimp only
    split
    · exact fun h => by cases h
    · exact fun h => by cases h

theorem evalJson_null_iff {opName : Option Bytes} {vars : Vars} {body : Bytes} :
    evalJson docs ⟨none, opName, vars⟩ body = .nullRead ↔
      ∃ ms, Json.gqlJsonParse body = some (.ok (.object ms)) ∧ (∀ m ∈ ms, Taken m) ∧
        ∀ m ∈ ms, m.1 ≠ bytes "query" := by
  unfold evalJson
  generalize (Json.gqlJsonParse body : Option (Except Err (GqlValue ℕ))) = parsed
  have hrefused : ∀ status e, refused status e ≠ .nullRead := fun status e h => by cases h
  split
  · exact ⟨fun h => (by cases h), fun ⟨ms, h, _⟩ => (by cases h)⟩
  · exact ⟨fun h => absurd h (hrefused _ _), fun ⟨ms, h, _⟩ => (by cases h)⟩
  · next ms =>
    have hread : ∀ a, ms.foldlM member (⟨none, opName, vars⟩ : Asked) = .ok a ↔
        (∀ m ∈ ms, Taken m) ∧ a = Asked.readAll ⟨none, opName, vars⟩ ms := fun a => foldlM_member_iff
    have hquery : (∀ m ∈ ms, Taken m) → ((Asked.readAll ⟨none, opName, vars⟩ ms).query = none ↔
        ∀ m ∈ ms, m.1 ≠ bytes "query") := by
      intro htaken
      rw [← strings_eq_nil_iff fun m hm hkey => (htaken m hm).string (Or.inl hkey), ← List.getLast?_eq_none_iff]
      show (List.getLast? _).or none = none ↔ _
      rw [Option.or_none]
    cases hfold : ms.foldlM member (⟨none, opName, vars⟩ : Asked) with
    | error e =>
      refine ⟨fun h => absurd h (hrefused _ _), fun ⟨ms', hms, htaken, _⟩ => ?_⟩
      obtain rfl : ms = ms' := by cases hms; rfl
      have hok := (hread _).mpr ⟨htaken, rfl⟩
      rw [hfold] at hok
      cases hok
    | ok a =>
      obtain ⟨htaken, rfl⟩ := (hread a).mp hfold
      dsimp only
      cases hnone : (Asked.readAll ⟨none, opName, vars⟩ ms).query with
      | none => exact ⟨fun _ => ⟨ms, rfl, htaken, (hquery htaken).mp hnone⟩, fun _ => rfl⟩
      | some query =>
        refine ⟨fun h => absurd h (evalDoc_ne_null _ _ _), fun ⟨ms', hms, _, hno⟩ => ?_⟩
        obtain rfl : ms = ms' := by cases hms; rfl
        have hq := (hquery htaken).mpr hno
        rw [hnone] at hq
        cases hq
  · next v hv =>
    refine ⟨fun h => absurd h (hrefused _ _), fun ⟨ms, h, _⟩ => ?_⟩
    cases h
    exact absurd rfl (hv ms)

/-- **The length of no string is asked for exactly when the body is an object of JSON of which all members are taken and
none is a query**, whatever is done with queries. -/
theorem post_null_iff (docs : Docs D) (req : PostReq) :
    evalPost docs req = .nullRead ↔
      ∃ vars s ms, queryVars req = some (.ok vars) ∧ req.contentType = some s ∧ isGraphql s = false ∧
        isJson s = true ∧ Json.gqlJsonParse req.body = some (.ok (.object ms)) ∧ (∀ m ∈ ms, Taken m) ∧
        ∀ m ∈ ms, m.1 ≠ bytes "query" := by
  unfold evalPost
  cases hvars : queryVars req with
  | none => exact ⟨fun h => (by cases h), fun ⟨_, _, _, h, _⟩ => (by cases h)⟩
  | some result =>
    cases result with
    | error e => exact ⟨fun h => (by cases h), fun ⟨_, _, _, h, _⟩ => (by cases h)⟩
    | ok vars =>
      cases hct : req.contentType with
      | none => exact ⟨fun h => (by cases h), fun ⟨_, _, _, _, h, _⟩ => (by cases h)⟩
      | some s =>
        dsimp only
        by_cases hgraphql : isGraphql s = true
        · rw [if_pos hgraphql]
          refine ⟨fun h => absurd h (evalDoc_ne_null _ _ _), fun ⟨_, s', _, _, hs, hno, _⟩ => ?_⟩
          rw [Option.some.inj hs, hno] at hgraphql
          cases hgraphql
        · rw [if_neg hgraphql]
          by_cases hjson : isJson s = true
          · rw [if_pos hjson, evalJson_null_iff]
            constructor
            · rintro ⟨ms, hms, htaken, hno⟩
              exact ⟨vars, s, ms, rfl, rfl, eq_false_of_ne_true hgraphql, hjson, hms, htaken, hno⟩
            · rintro ⟨_, _, ms, -, -, -, -, hms, htaken, hno⟩
              exact ⟨ms, hms, htaken, hno⟩
          · rw [if_neg hjson]
            refine ⟨fun h => (by cases h), fun ⟨_, s', _, _, hs, _, hyes, _⟩ => ?_⟩
            rw [← Option.some.inj hs] at hyes
            exact absurd hyes hjson

example (docs : Docs D) :
    evalPost docs ⟨none, none, some (bytes "application/json"), bytes "\x7b\x7d"⟩ = .nullRead := rfl

end Post

end Agoo
