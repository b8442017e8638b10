import Agoo.Conversion
import Agoo.EvalRuns
import Agoo.Runs

/-!
# Arguments are converted in place (`resolve`, `gql_extract_arg`)

A selection argument and a variable share one value, which `gql_value_convert` writes for one use and leaves so for
the next. `unchanged_iff`: which uses of the values of a query leave all of them as they were supplied.
-/

namespace Agoo

namespace Convert

open SecTime (timeParse)

/-! ## What a conversion writes -/

/-- The kinds that the converter to a kind takes. -/
def takes : ScalarKind → List ScalarKind
  | .bool => [.int, .i64, .float, .string, .token]
  | .int => [.i64, .float, .string]
  | .i64 => [.int, .float, .string, .time]
  | .float => [.int, .i64, .string, .time]
  | .string => [.bool, .int, .i64, .float, .token, .id, .time, .uuid]
  | .token => [.string, .id]
  | .id => [.string, .token]
  | .time => [.i64, .string]
  | .uuid => [.string]
  | .null | .var | .list | .object => []

/-- The number is in range, or the text is read. -/
def Reads (env : Env) (m : Memory) : ScalarKind → ScalarKind → Prop
  | .int, .i64 => -0x80000000 ≤ m.cell.i64 ∧ m.cell.i64 ≤ 0x7FFFFFFF
  | .int, .float => (env.float.toInt m.cell.f).isSome
  | .int, .string => ∃ i, wholeNumber env (text env m) = some i ∧ -0x80000000 ≤ i ∧ i ≤ 0x7FFFFFFF
  | .i64, .float => (env.float.toI64 m.cell.f).isSome
  | .i64, .string => (wholeNumber env (text env m)).isSome
  | .float, .string => at0 (text env m) (env.float.strtod (text env m)).2 = 0
  | .time, .string => (timeParse (text env m) (-1)).isSome
  | .uuid, .string => (parseUuid (text env m)).isSome
  | _, _ => True

/-- The converter to a kind writes a value of a kind. -/
structure Taken (env : Env) (m : Memory) (t k : ScalarKind) : Prop where
  kind : k ∈ takes t
  reads : Reads env m t k

/-- A conversion to a type writes the value. -/
def Changes (env : Env) (m : Memory) (type : TargetType) : Prop :=
  ∃ t k, type.base.scalarKind = some t ∧ m.cell.type.scalarKind = some k ∧ Taken env m t k

/-- A converter makes a value of the kind where `P`, and leaves what was there else. -/
def Writes (m : Memory) (t : ScalarKind) (P : Prop) (o : Outcome) : Prop :=
  (P ∧ o.cell.type = .core t) ∨ (¬ P ∧ o.toMemory = m)

variable {env : Env} {m : Memory} {k : ScalarKind}

theorem Taken.ne {t : ScalarKind} (h : Taken env m t k) : k ≠ t := by
  rintro rfl
  have hkind := h.kind
  cases k <;> exact absurd hkind (by decide)

/-- The converter fails, for the kind or for what the value is. -/
theorem writes_kind {t : ScalarKind} (h : k ∉ takes t) (e : ErrCode) : Writes m t (Taken env m t k) (failed m e) :=
  Or.inr ⟨fun ht => h ht.kind, rfl⟩

theorem writes_unread {t : ScalarKind} (h : ¬ Reads env m t k) (e : ErrCode) :
    Writes m t (Taken env m t k) (failed m e) := Or.inr ⟨fun ht => h ht.reads, rfl⟩

theorem writes_value {t : ScalarKind} {o : Outcome} (hkind : k ∈ takes t) (hreads : Reads env m t k)
    (htype : o.cell.type = .core t) : Writes m t (Taken env m t k) o := Or.inl ⟨⟨hkind, hreads⟩, htype⟩

theorem stringSet_type (c : Cell) (str : Bytes) (len : ℕ) : (stringSet env m c str len).cell.type = c.type := by
  have htwice : ∀ (off off' : ℕ) (bs bs' : Bytes), ((c.write off bs).write off' bs').type = c.type :=
    fun off off' bs bs' => (write_type _ _ _).trans (write_type _ _ _)
  unfold stringSet
  dsimp only
  generalize (if len = 0 then strlen str else len) = n
  split_ifs
  · exact htwice _ _ _ _
  · cases env.malloc with
    | some p => exact htwice _ _ _ _
    | none => exact htwice _ _ _ _

theorem gqlStringSet_type (str : Bytes) : (gqlStringSet env m str).cell.type = .core .string :=
  stringSet_type (m.cell.withType (.core .string)) str str.length

theorem writes_bool (hk : m.cell.type.scalarKind = some k) :
    Writes m .bool (Taken env m .bool k) (convertToBool env m) := by
  unfold convertToBool
  rw [hk]
  cases k with
  | int | i64 | float => exact writes_value (by decide) trivial (write_type _ _ _)
  | string | token =>
    refine writes_value (by decide) trivial ?_
    dsimp only
    split_ifs
    · exact write_type _ _ _
    · exact write_type _ _ _
    · rfl
  | null | bool | var | time | uuid | id | list | object => exact writes_kind (by decide) _

theorem writes_int (hk : m.cell.type.scalarKind = some k) :
    Writes m .int (Taken env m .int k) (convertToInt env m) := by
  unfold convertToInt
  rw [hk]
  cases k with
  | i64 =>
    dsimp only
    split_ifs with h
    · refine writes_unread ?_ _
      rintro ⟨hlow, hhigh⟩
      omega
    · exact writes_value (by decide) ⟨by omega, by omega⟩ (write_type _ _ _)
  | float =>
    dsimp only
    cases hf : env.float.toInt m.cell.f with
    | some i => exact writes_value (by decide) (Option.isSome_of_eq_some hf) (write_type _ _ _)
    | none =>
      refine writes_unread ?_ _
      exact Option.not_isSome_iff_eq_none.mpr hf
  | string =>
    dsimp only
    cases hn : wholeNumber env (text env m) with
    | none =>
      refine writes_unread ?_ _
      rintro ⟨j, hj, -⟩
      cases hn.symm.trans hj
    | some i =>
      dsimp only
      split_ifs with h
      · refine writes_unread ?_ _
        rintro ⟨j, hj, hlow, hhigh⟩
        obtain rfl := Option.some.inj (hn.symm.trans hj)
        omega
      · exact writes_value (by decide) ⟨i, hn, by omega, by omega⟩ (write_type _ _ _)
  | null | bool | int | token | var | time | uuid | id | list | object => exact writes_kind (by decide) _

theorem writes_i64 (hk : m.cell.type.scalarKind = some k) :
    Writes m .i64 (Taken env m .i64 k) (convertToI64 env m) := by
  unfold convertToI64
  rw [hk]
  cases k with
  | int | time => exact writes_value (by decide) trivial (write_type _ _ _)
  | float =>
    dsimp only
    cases hf : env.float.toI64 m.cell.f with
    | some i => exact writes_value (by decide) (Option.isSome_of_eq_some hf) (write_type _ _ _)
    | none =>
      refine writes_unread ?_ _
      exact Option.not_isSome_iff_eq_none.mpr hf
  | string =>
    dsimp only
    cases hn : wholeNumber env (text env m) with
    | some i => exact writes_value (by decide) (Option.isSome_of_eq_some hn) (write_type _ _ _)
    | none =>
      refine writes_unread ?_ _
      exact Option.not_isSome_iff_eq_none.mpr hn
  | null | bool | i64 | token | var | uuid | id | list | object => exact writes_kind (by decide) _

theorem writes_float (hk : m.cell.type.scalarKind = some k) :
    Writes m .float (Taken env m .float k) (convertToFloat env m) := by
  unfold convertToFloat
  rw [hk]
  cases k with
  | int | i64 | time => exact writes_value (by decide) trivial (write_type _ _ _)
  | string =>
    dsimp only
    split_ifs with h
    · refine writes_unread ?_ _
      exact h
    · exact writes_value (by decide) (not_not.mp h) (write_type _ _ _)
  | null | bool | float | token | var | uuid | id | list | object => exact writes_kind (by decide) _

theorem writes_string (hk : m.cell.type.scalarKind = some k) :
    Writes m .string (Taken env m .string k) (convertToString env m) := by
  unfold convertToString
  rw [hk]
  cases k with
  | bool | int | i64 | float | time | uuid =>
    dsimp only
    exact writes_value (by decide) trivial (gqlStringSet_type _)
  | token | id => exact writes_value (by decide) trivial rfl
  | null | string | var | list | object => exact writes_kind (by decide) _

theorem writes_token (hk : m.cell.type.scalarKind = some k) :
    Writes m .token (Taken env m .token k) (convertToToken m) := by
  unfold convertToToken
  rw [hk]
  cases k with
  | string | id => exact writes_value (by decide) trivial rfl
  | null | bool | int | i64 | float | token | var | time | uuid | list | object => exact writes_kind (by decide) _

theorem writes_id (hk : m.cell.type.scalarKind = some k) :
    Writes m .id (Taken env m .id k) (convertToId m) := by
  unfold convertToId
  rw [hk]
  cases k with
  | string | token => exact writes_value (by decide) trivial rfl
  | null | bool | int | i64 | float | id | var | time | uuid | list | object => exact writes_kind (by decide) _

theorem writes_time (hk : m.cell.type.scalarKind = some k) :
    Writes m .time (Taken env m .time k) (convertToTime env m) := by
  unfold convertToTime
  rw [hk]
  cases k with
  | i64 => exact writes_value (by decide) trivial (write_type _ _ _)
  | string =>
    dsimp only
    cases ht : timeParse (text env m) (-1) with
    | some nsecs => exact writes_value (by decide) (Option.isSome_of_eq_some ht) (write_type _ _ _)
    | none =>
      refine writes_unread ?_ _
      exact Option.not_isSome_iff_eq_none.mpr ht
  | null | bool | int | float | token | id | var | time | uuid | list | object => exact writes_kind (by decide) _

theorem writes_uuid (hk : m.cell.type.scalarKind = some k) :
    Writes m .uuid (Taken env m .uuid k) (convertToUuid env m) := by
  unfold convertToUuid
  rw [hk]
  cases k with
  | string =>
    dsimp only
    cases hp : parseUuid (text env m) with
    | some p =>
      exact writes_value (by decide) (Option.isSome_of_eq_some hp) ((write_type _ _ _).trans (write_type _ _ _))
    | none =>
      refine writes_unread ?_ _
      exact Option.not_isSome_iff_eq_none.mpr hp
  | null | bool | int | i64 | float | token | id | var | time | uuid | list | object =>
    exact writes_kind (by decide) _

/-! ### All converters -/

theorem convert_same {type : TargetType} (h : type.base = .value m.cell.type) :
    (gqlValueConvert env m type).toMemory = m := by
  unfold gqlValueConvert
  rw [if_pos h]
  rfl

/-- A type without a scalar kind makes nothing of a value. -/
theorem convert_none {type : TargetType} (h : type.base.scalarKind = none) :
    (gqlValueConvert env m type).toMemory = m := by
  by_cases hsame : type.base = .value m.cell.type
  · exact convert_same hsame
  · unfold gqlValueConvert
    rw [if_neg hsame, h]
    rfl

/-- An enum is converted to nothing. -/
theorem convert_enum (h : m.cell.type.scalarKind = none) (type : TargetType) :
    (gqlValueConvert env m type).toMemory = m := by
  by_cases hsame : type.base = .value m.cell.type
  · exact convert_same hsame
  · unfold gqlValueConvert convertToBool convertToInt convertToI64 convertToFloat convertToString convertToToken
      convertToId convertToTime convertToUuid
    rw [if_neg hsame, h]
    cases type.base.scalarKind with
    | none => rfl
    | some t => cases t <;> rfl

/-- What `gql_value_convert` does, by the kinds of the type and of the value. -/
theorem convert_writes {type : TargetType} {t : ScalarKind} (ht : type.base.scalarKind = some t)
    (hk : m.cell.type.scalarKind = some k) (hne : type.base ≠ .value m.cell.type) :
    Writes m t (Taken env m t k) (gqlValueConvert env m type) := by
  unfold gqlValueConvert
  rw [if_neg hne, ht]
  cases t with
  | bool => exact writes_bool hk
  | int => exact writes_int hk
  | i64 => exact writes_i64 hk
  | float => exact writes_float hk
  | string => exact writes_string hk
  | token => exact writes_token hk
  | id => exact writes_id hk
  | time => exact writes_time hk
  | uuid => exact writes_uuid hk
  | null | var | list | object => exact Or.inr ⟨fun h => absurd h.kind List.not_mem_nil, rfl⟩

/-- **A conversion changes a value exactly if it writes it.** -/
theorem convert_changes_iff (env : Env) (m : Memory) (type : TargetType) :
    (gqlValueConvert env m type).toMemory ≠ m ↔ Changes env m type := by
  constructor
  · intro hne
    have hsame : type.base ≠ .value m.cell.type := fun h => hne (convert_same h)
    obtain ⟨t, ht⟩ := Option.ne_none_iff_exists'.mp fun h => hne (convert_none h)
    obtain ⟨k, hk⟩ := Option.ne_none_iff_exists'.mp fun h => hne (convert_enum h type)
    rcases convert_writes ht hk hsame with ⟨htaken, -⟩ | ⟨-, hkept⟩
    · exact ⟨t, k, ht, hk, htaken⟩
    · exact absurd hkept hne
  · rintro ⟨t, k, ht, hk, htaken⟩ hkept
    have hsame : type.base ≠ .value m.cell.type := by
      intro hsame
      rw [hsame] at ht
      exact htaken.ne (Option.some.inj (hk.symm.trans ht))
    rcases convert_writes ht hk hsame with ⟨-, htype⟩ | ⟨hnot, -⟩
    · rw [← congrArg (fun m : Memory => m.cell.type) hkept] at hk
      rw [htype] at hk
      exact htaken.ne (Option.some.inj hk).symm
    · exact hnot htaken

end Convert

namespace ArgUses

open Agoo.Convert

/-! ## Uses of the values of a query -/

/-- An argument of a selection: what its conversion finds, its value or that of its variable, and the type that the
field's argument of that name has, if there is one. -/
structure ArgUse where
  env : Env
  cell : Option ℕ
  declared : Option TargetType

/-- What a value of the query is used for. -/
inductive Use
  /-- In the loop of `resolve`. -/
  | resolve (a : ArgUse)
  /-- In the loop of `gql_extract_arg`. -/
  | extract (a : ArgUse)
  /-- For the `if` of a directive, in `frag_include`. -/
  | directive (cell : Option ℕ)

/-- What comes of it: the value that is handed on, a null pointer with an error or without one, or a boolean if the
value is one. -/
inductive Result
  | value (m : Memory)
  | fails
  | nothing
  | crash
  | truth (b : Option Bool)

/-- The value that a pointer leads to. -/
def valueAt (store : List Memory) (cell : Option ℕ) : Option Memory := cell.bind fun i => store[i]?

/-- The value is written in place. -/
def putAt (store : List Memory) (cell : Option ℕ) (m : Memory) : List Memory :=
  cell.elim store fun i => store.set i m

/-- The value after `if (v->type != fa->type && GQL_SCALAR_VAR != v->type->scalar_kind)`, and whether there is no
error. -/
def convertArg (env : Env) (m : Memory) : Option TargetType → Memory × Bool
  | none => (m, true)
  | some t =>
    if t ≠ .value m.cell.type ∧ m.cell.type.scalarKind ≠ some .var then
      ((gqlValueConvert env m t).toMemory, (gqlValueConvert env m t).err.isNone)
    else (m, true)

/-- `gql_null_create`. -/
def nullValue : Memory := ⟨Cell.create (.core .null), fun _ => []⟩

/-- A use, with the values after it. -/
def handle (store : List Memory) : Use → List Memory × Result
  | .resolve a =>
    let c := convertArg a.env ((valueAt store a.cell).getD nullValue) a.declared
    (putAt store a.cell c.1, if c.2 then .value c.1 else .fails)
  | .extract a =>
    match valueAt store a.cell with
    | some m =>
      let c := convertArg a.env m a.declared
      (putAt store a.cell c.1, if c.2 then .value c.1 else .fails)
    | none => (store, if a.declared.isSome then .crash else .nothing)
  | .directive cell =>
    (store, .truth ((valueAt store cell).bind fun m => if m.cell.type = .core .bool then some m.cell.b else none))

/-- The arguments in `resolve`, up to the first that cannot be converted. -/
def resolveArgs (store : List Memory) : List ArgUse → List Memory × Option (List Memory)
  | [] => (store, some [])
  | a :: rest =>
    match (handle store (.resolve a)).2 with
    | .value m =>
      let r := resolveArgs (handle store (.resolve a)).1 rest
      (r.1, r.2.map (m :: ·))
    | _ => ((handle store (.resolve a)).1, none)

def step (store : List Memory) (u : Use) : Option (List Memory) := some (handle store u).1

/-- What comes of uses, each on what those before it left. -/
def results : List Memory → List Use → List Result
  | _, [] => []
  | store, u :: uses => (handle store u).2 :: results (handle store u).1 uses

/-- The argument has a value that is no variable, and it is written when it is converted to the type declared. -/
def ArgUse.Converts (store : List Memory) (a : ArgUse) : Prop :=
  ∃ m t, valueAt store a.cell = some m ∧ a.declared = some t ∧ m.cell.type.scalarKind ≠ some .var ∧
    Changes a.env m t

def Use.Converts (store : List Memory) : Use → Prop
  | .resolve a => a.Converts store
  | .extract a => a.Converts store
  | .directive _ => False

/-- The query as it was supplied, and what comes of each use what comes of it alone. -/
structure Unchanged (store : List Memory) (uses : List Use) : Prop where
  values : Always step (fun s => s = store) store uses
  alone : results store uses = uses.map fun u => (handle store u).2

/-! ### One use -/

theorem convertArg_eq_iff (env : Env) (m : Memory) (declared : Option TargetType) :
    (convertArg env m declared).1 = m ↔
      ¬ ∃ t, declared = some t ∧ m.cell.type.scalarKind ≠ some .var ∧ Changes env m t := by
  cases declared with
  | none => exact iff_of_true rfl (by rintro ⟨t, ht, -⟩; cases ht)
  | some t =>
    have hchanges := convert_changes_iff env m t
    unfold convertArg
    dsimp only
    split_ifs with h
    · rw [← not_iff_not, not_not]
      refine hchanges.trans ⟨fun hc => ⟨t, rfl, h.2, hc⟩, ?_⟩
      rintro ⟨t', ht, -, hc⟩
      obtain rfl := Option.some.inj ht
      exact hc
    · refine iff_of_true rfl ?_
      rintro ⟨t', ht, hvar, hc⟩
      obtain rfl := Option.some.inj ht
      have hsame : t = .value m.cell.type := by
        by_contra hne
        exact h ⟨hne, hvar⟩
      exact hchanges.mpr hc (convert_same (by rw [hsame]; rfl))

theorem putAt_eq_iff {store : List Memory} {cell : Option ℕ} {m : Memory} (h : valueAt store cell = some m)
    (m' : Memory) : putAt store cell m' = store ↔ m' = m := by
  obtain ⟨i, rfl, hi⟩ := Option.bind_eq_some_iff.mp h
  obtain ⟨hlt, rfl⟩ := List.getElem?_eq_some_iff.mp hi
  constructor
  · intro hset
    have hget : (store.set i m')[i]? = store[i]? := congrArg (fun l : List Memory => l[i]?) hset
    rw [List.getElem?_set_self hlt, hi] at hget
    exact Option.some.inj hget
  · rintro rfl
    exact List.set_getElem_self hlt

theorem putAt_none {store : List Memory} {cell : Option ℕ} (h : valueAt store cell = none) (m : Memory) :
    putAt store cell m = store := by
  cases cell with
  | none => rfl
  | some i => exact List.set_eq_of_length_le (List.getElem?_eq_none_iff.mp h)

theorem arg_eq_iff {store : List Memory} {a : ArgUse} {m : Memory} (h : valueAt store a.cell = some m) :
    putAt store a.cell (convertArg a.env m a.declared).1 = store ↔ ¬ a.Converts store := by
  rw [putAt_eq_iff h, convertArg_eq_iff]
  refine not_congr ⟨fun ⟨t, ht⟩ => ⟨m, t, h, ht⟩, ?_⟩
  rintro ⟨m', t, hm', ht⟩
  obtain rfl := Option.some.inj (h.symm.trans hm')
  exact ⟨t, ht⟩

theorem not_converts {store : List Memory} {a : ArgUse} (h : valueAt store a.cell = none) : ¬ a.Converts store := by
  rintro ⟨m, t, hm, -⟩
  rw [h] at hm
  cases hm

/-- A use leaves the query exactly if it converts no value. -/
theorem handle_eq_iff (store : List Memory) (u : Use) : (handle store u).1 = store ↔ ¬ u.Converts store := by
  cases u with
  | resolve a =>
    change putAt store a.cell (convertArg a.env ((valueAt store a.cell).getD nullValue) a.declared).1 = store ↔ _
    cases hv : valueAt store a.cell with
    | none => exact iff_of_true (putAt_none hv _) (not_converts hv)
    | some m => exact arg_eq_iff hv
  | extract a =>
    cases hv : valueAt store a.cell with
    | none => exact iff_of_true (by simp only [handle, hv]) (not_converts hv)
    | some m =>
      simp only [handle, hv]
      exact arg_eq_iff hv
  | directive cell => exact iff_of_true rfl id

/-! ### Runs -/

/-- The loop of `resolve` is a run of uses. -/
theorem resolveArgs_run (store : List Memory) (args : List ArgUse) :
    ∃ n, runs step store ((args.take n).map Use.resolve) = some (resolveArgs store args).1 := by
  induction args generalizing store with
  | nil => exact ⟨0, rfl⟩
  | cons a rest ih =>
    unfold resolveArgs
    obtain ⟨n, hn⟩ := ih (handle store (.resolve a)).1
    cases hr : (handle store (.resolve a)).2 with
    | value m => exact ⟨n + 1, hn⟩
    | fails => exact ⟨1, rfl⟩
    | nothing => exact ⟨1, rfl⟩
    | crash => exact ⟨1, rfl⟩
    | truth b => exact ⟨1, rfl⟩

/-- **However the values of a query are used, they are left as they were supplied, and each use yields what it yields
alone, if and only if none of the uses converts its value.** -/
theorem unchanged_iff (store : List Memory) (uses : List Use) :
    Unchanged store uses ↔ ∀ u ∈ uses, ¬ u.Converts store := by
  induction uses with
  | nil => exact ⟨fun _ => List.forall_mem_nil _, fun _ => ⟨rfl, rfl⟩⟩
  | cons u uses ih =>
    rw [List.forall_mem_cons, ← ih, ← handle_eq_iff]
    constructor
    · rintro ⟨hvalues, halone⟩
      have hnext := ((always_cons (show step store u = some (handle store u).1 from rfl)).mp hvalues).2
      have hu : (handle store u).1 = store := by
        cases uses with
        | nil => exact hnext
        | cons => exact hnext.1
      rw [hu] at hnext
      rw [results, hu, List.map_cons] at halone
      exact ⟨hu, hnext, (List.cons.inj halone).2⟩
    · rintro ⟨hu, hvalues, halone⟩
      have hstep : step store u = some store := congrArg some hu
      refine ⟨(always_cons hstep).mpr ⟨rfl, hvalues⟩, ?_⟩
      rw [results, hu, halone, List.map_cons]

/-- A variable of 1 is used for a Boolean and then for an Int. -/
def oneTwice : List Use :=
  [.resolve ⟨bareEnv, some 0, some (.value (.core .bool))⟩, .resolve ⟨bareEnv, some 0, some (.value (.core .int))⟩]

/-- The second use is refused, for there is a Boolean now. -/
theorem second_use_refused :
    (results [written (.core .int) 0 [1, 0, 0, 0]] oneTwice)[1]? = some .fails ∧
      ¬ Unchanged [written (.core .int) 0 [1, 0, 0, 0]] oneTwice := by
  have hsecond : (results [written (.core .int) 0 [1, 0, 0, 0]] oneTwice)[1]? = some .fails := rfl
  refine ⟨hsecond, fun h => ?_⟩
  rw [h.alone] at hsecond
  cases Option.some.inj hsecond

end ArgUses

/-! ## Whole evaluations -/

namespace Eval

variable {ρ ω : Type}

/-- The values of a document after conversions of its arguments, each to a type that a field declares for it. -/
inductive Reached (env : Env ρ ω) (doc : Doc) (cells : List (GqlValue ℕ)) : List (GqlValue ℕ) → Prop
  | start : Reached env doc cells cells
  | convert {cells' : List (GqlValue ℕ)} {sel : Sel} {a : Arg} {t : ℕ} {f : GqlField} {fa : GqlArg} {i : ℕ}
      {v : GqlValue ℕ} (before : Reached env doc cells cells') (node : sel ∈ doc.nodes) (arg : a ∈ sel.args)
      (field : f ∈ env.table.fields t) (declared : fieldArg (some f) a.name = some fa) (cell : a.cell = some i)
      (value : cells'[i]? = some v) (e : Option Err) :
      Reached env doc cells (cells'.set i (env.convert fa.type v e).value)

theorem free_reached (env : Env ρ ω) (doc : Doc) (cells : List (GqlValue ℕ)) :
    Free fun s : State ω => Reached env doc cells s.cells := by
  intro s s' hcells _ hs
  rw [hcells]
  exact hs

/-- **An evaluation changes values only by conversions of arguments of its document.** -/
theorem docEval_reached (env : Env ρ ω) (doc : Doc) (s : State ω) :
    Reached env doc s.cells (exec (docEval env doc) s).2.cells := by
  have hfree := free_reached env doc s.cells
  have hconv : ∀ sel ∈ doc.nodes, ∀ a ∈ sel.args, ∀ field : Option GqlField,
      (∀ f, field = some f → ∃ t, f ∈ env.table.fields t) →
        Converts env (fun s' => Reached env doc s.cells s'.cells) field a := by
    intro sel hsel a ha field hfield fa hfa s' v i hs' hcell hv
    cases field with
    | none => cases hfa
    | some f =>
      obtain ⟨t, hf⟩ := hfield f rfl
      exact hs'.convert hsel ha hf hfa hcell hv s'.err
  have hop : Meets (fun s' => Reached env doc s.cells s'.cells) Anything (evalOp env doc) := by
    unfold evalOp
    cases env.rootType.bind fun t => getField env.table t doc.kind.str with
    | none => exact meets_setErr hfree.stable _ _
    | some field =>
      refine (meets_resolve hfree.stable doc.kind _ _ 0 fun a ha => absurd ha List.not_mem_nil).bind fun r hr => ?_
      exact meets_give hfree (fun t f d _ => meets_evalSelsFrom hfree hconv (fun _ _ _ _ => meets_throw _) _ t f d
        (List.subset_append_left _ _)) r.1 hr
  exact (hop { s with funcs := .ruby, result := [] } .start).1

/-- Where no conversion of an argument changes its value, an evaluation leaves all values. -/
theorem docEval_unchanged {env : Env ρ ω} {doc : Doc} {s : State ω}
    (h : ∀ sel ∈ doc.nodes, ∀ a ∈ sel.args, ∀ t, ∀ f ∈ env.table.fields t, ∀ fa, fieldArg (some f) a.name = some fa →
      ∀ i v, a.cell = some i → s.cells[i]? = some v → ∀ e, (env.convert fa.type v e).value = v) :
    (exec (docEval env doc) s).2.cells = s.cells := by
  have hall : ∀ {cells}, Reached env doc s.cells cells → cells = s.cells := by
    intro cells hreached
    induction hreached with
    | start => rfl
    | convert _ node arg field declared cell value e ih =>
      subst ih
      rw [h _ node _ arg _ _ field _ declared _ _ cell value e]
      obtain ⟨hlt, rfl⟩ := List.getElem?_eq_some_iff.mp value
      exact List.set_getElem_self hlt
  exact hall (docEval_reached env doc s)

end Eval

end Agoo
