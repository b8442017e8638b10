import Agoo.QueryDecode
import Agoo.Numbers

/-!
# Query parameters (`agoo_req_query_value`)

A parameter is looked for with `strstr` in the whole query, so that its name is also found inside other names
and values. `finds_iff`: it is found by its name if nothing before it reads as the name; then the parameters
of a GraphQL request lie apart, and decoding one leaves the others as they were (`query_value_iff`).
-/

namespace Agoo

namespace Query

/-! ## The code -/

/-- A pointer into the query, as an offset, and a length. -/
structure Slice where
  start : ℤ
  len : ℤ
  deriving DecidableEq

/-- `index`: the first such character of a C string. -/
def index (s : Bytes) (c : Byte) : Option ℕ := find [c] (cstr s)

/-- `*vlenp` for a value. -/
def valueLen (value : Bytes) : ℤ :=
  match index value (chr '&') with
  | none => toInt (strlen value)
  | some fin => toInt fin

/-- `agoo_req_query_value` in the memory from `r->query.start` on. -/
def agooReqQueryValue (query key : Bytes) (klen : ℤ) : Option Slice :=
  (strstr query (cstr key)).map fun found : ℕ =>
    let klen := if klen ≤ 0 then toInt (strlen key) else klen
    let value : ℤ := found + klen + 1
    ⟨value, valueLen (query.drop value.toNat)⟩

/-- A key, which is a C string, handed over with its length or with none. -/
structure Key where
  text : Bytes
  klen : ℤ
  noNul : 0 ∉ text
  size : text.length < 0x80000000
  fits : klen = text.length ∨ klen ≤ 0

/-- A key of the source, with its `sizeof` less one. -/
def Key.literal (s : String) (h : 0 ∉ bytes s ∧ (bytes s).length < 0x80000000) : Key :=
  ⟨bytes s, (bytes s).length, h.1, h.2, .inl rfl⟩

def indentStr : Key := Key.literal "indent" (of_decide_eq_true rfl)

def operationNameStr : Key := Key.literal "operationName" (of_decide_eq_true rfl)

def queryStr : Key := Key.literal "query" (of_decide_eq_true rfl)

def subscriptionStr : Key := Key.literal "subscription" (of_decide_eq_true rfl)

def variablesStr : Key := Key.literal "variables" (of_decide_eq_true rfl)

def hookKeys : List Key := [indentStr, queryStr, subscriptionStr, operationNameStr, variablesStr]

/-- The parameter of a key. -/
def lookup (query : Bytes) (k : Key) : Option Slice := agooReqQueryValue query k.text k.klen

/-- The parameters that `gql_eval_get_hook` decodes, in this order: `parse_query_vars`, the query itself and
`set_doc_op`. -/
def hookSlices (query : Bytes) : List Slice :=
  match (lookup query queryStr).or (lookup query subscriptionStr) with
  | none => []
  | some gq => (lookup query variablesStr).toList ++ gq :: (lookup query operationNameStr).toList

/-- The memory of the query with a parameter decoded. -/
def decodeAt (query : Bytes) (s : Slice) : Bytes :=
  query.take s.start.toNat ++ (agooReqQueryDecode (query.drop s.start.toNat) s.len.toNat).1

/-- The memory after the first `n` parameters are decoded. -/
def hookMemory (query : Bytes) (n : ℕ) : Bytes := ((hookSlices query).take n).foldl decodeAt query

def Slice.bytes (query : Bytes) (s : Slice) : Bytes := (query.drop s.start.toNat).take s.len.toNat

/-! ## The law -/

/-- `name=value`. -/
structure Pair where
  name : Bytes
  value : Bytes
  plain : chr '&' ∉ name ∧ chr '=' ∉ name ∧ chr '&' ∉ value ∧ chr '=' ∉ value

def Pair.text (p : Pair) : Bytes := p.name ++ chr '=' :: p.value

/-- The pairs joined by `&`. -/
def joined : List Pair → Bytes
  | [] => []
  | [p] => p.text
  | p :: p' :: ps => p.text ++ chr '&' :: joined (p' :: ps)

/-- A query; `r->query.len` is an `int`. -/
structure QueryText where
  pairs : List Pair
  size : (joined pairs).length < 0x80000000

/-- The first pair of a name: where it starts, and its value. -/
def firstNamed (name : Bytes) : List Pair → Option (ℕ × Bytes)
  | [] => none
  | p :: ps =>
    if p.name = name then some (0, p.value)
    else (firstNamed name ps).map fun found => (found.1 + p.text.length + 1, found.2)

/-- The query with its NUL in memory. -/
def QueryText.memory (q : QueryText) (rest : Bytes) : Bytes := joined q.pairs ++ 0 :: rest

/-- The value of the first pair of the name is found, and nothing if there is no such pair. -/
def FindsByName (q : QueryText) (rest : Bytes) (k : Key) : Prop :=
  lookup (q.memory rest) k =
    (firstNamed k.text q.pairs).map fun found => ⟨found.1 + k.text.length + 1, found.2.length⟩

/-- Decoding a parameter leaves the others as they are. -/
def HookKeeps (query : Bytes) : Prop :=
  ∀ n, ∀ hn : n < (hookSlices query).length, ∀ j, ∀ hj : j < (hookSlices query).length, j ≠ n →
    (hookSlices query)[j].bytes (hookMemory query (n + 1)) = (hookSlices query)[j].bytes (hookMemory query n)

/-- A GraphQL request is served with the parameters that were sent. -/
structure Served (q : QueryText) (rest : Bytes) : Prop where
  found : ∀ k ∈ hookKeys, FindsByName q rest k
  kept : HookKeeps (q.memory rest)

/-- No text that reads as the name stands before the first pair of the name, or anywhere if there is no such
pair. The query ends for `strstr` at a NUL. -/
def Unambiguous (q : QueryText) (name : Bytes) : Prop :=
  match firstNamed name q.pairs with
  | none => ∀ i, ¬ name <+: (cstr (joined q.pairs)).drop i
  | some (start, value) => (∀ i < start, ¬ name <+: (cstr (joined q.pairs)).drop i) ∧
      0 ∉ (joined q.pairs).take (start + name.length + 1 + value.length)

/-! ## Pairs -/

theorem cstr_append_of_mem {a : Bytes} (h : 0 ∈ a) (b : Bytes) : cstr (a ++ b) = cstr a := by
  induction a with
  | nil => cases h
  | cons c a ih =>
    unfold cstr
    by_cases hc : c = 0
    · subst hc
      rfl
    · have hmem : 0 ∈ a := (List.mem_cons.mp h).resolve_left fun h => hc h.symm
      have hcons (s : Bytes) : (c :: s).takeWhile (· != 0) = c :: s.takeWhile (· != 0) :=
        List.takeWhile_cons_of_pos (bne_iff_ne.mpr hc)
      rw [List.cons_append, hcons, hcons]
      exact congrArg (c :: ·) (ih hmem)

theorem cstr_memory (s rest : Bytes) : cstr (s ++ 0 :: rest) = cstr s := by
  by_cases h : 0 ∈ s
  · exact cstr_append_of_mem h _
  · rw [cstr_append_zero h, cstr_of_not_mem h]

/-- What stands before and behind the first pair of a name. -/
theorem joined_of_firstNamed {name v : Bytes} {start : ℕ} {ps : List Pair}
    (h : firstNamed name ps = some (start, v)) : ∃ a b, joined ps = a ++ (name ++ chr '=' :: (v ++ b)) ∧
      a.length = start ∧ (b = [] ∨ ∃ b', b = chr '&' :: b') ∧ chr '&' ∉ v := by
  induction ps generalizing start with
  | nil => cases h
  | cons p ps ih =>
    unfold firstNamed at h
    split_ifs at h with hname
    · cases h
      subst hname
      cases ps with
      | nil => exact ⟨[], [], by simp [joined, Pair.text], rfl, .inl rfl, p.plain.2.2.1⟩
      | cons p' ps =>
        exact ⟨[], chr '&' :: joined (p' :: ps), by simp [joined, Pair.text], rfl, .inr ⟨_, rfl⟩, p.plain.2.2.1⟩
    · obtain ⟨found, hfound, heq⟩ := Option.map_eq_some_iff.mp h
      cases heq
      obtain ⟨a, b, hjoin, hlen, hb, hv⟩ := ih hfound
      cases ps with
      | nil => cases hfound
      | cons p' ps =>
        refine ⟨p.text ++ chr '&' :: a, b, ?_, ?_, hb, hv⟩
        · rw [joined, hjoin]
          simp
        · rw [List.length_append, List.length_cons, hlen]
          omega

/-! ## One key -/

theorem find_singleton_none {c : Byte} {s : Bytes} (h : c ∉ s) : find [c] s = none := by
  rw [find_eq_none_iff]
  rintro i - hpre
  exact h (List.mem_of_mem_drop (hpre.subset (List.mem_singleton_self c)))

theorem find_singleton {c : Byte} {s : Bytes} (h : c ∉ s) (t : Bytes) :
    find [c] (s ++ c :: t) = some s.length := by
  rw [find_eq_some_iff]
  refine ⟨by simp, by simp, fun j hj hpre => ?_⟩
  rw [List.drop_append_of_le_length (by omega), List.drop_eq_getElem_cons hj, List.cons_append,
    List.cons_prefix_cons] at hpre
  exact h (hpre.1 ▸ List.getElem_mem hj)

/-- The length of a value: up to the next `&` or the NUL. -/
theorem valueLen_iff {v b rest : Bytes} (hv : chr '&' ∉ v) (hb : b = [] ∨ ∃ b', b = chr '&' :: b')
    (hsize : v.length < 0x80000000) :
    valueLen (v ++ b ++ 0 :: rest) = v.length ↔ 0 ∉ v := by
  unfold valueLen index strlen
  by_cases h0 : 0 ∈ v
  · have hcstr : cstr (v ++ b ++ 0 :: rest) = cstr v := by rw [List.append_assoc, cstr_append_of_mem h0]
    have hnone : find [chr '&'] (cstr v) = none := find_singleton_none fun h => hv ((cstr_isPre v).subset h)
    have hlt : (cstr v).length < v.length := by
      refine lt_of_le_of_ne (cstr_length_le v) fun heq => ?_
      exact zero_not_mem_cstr v (by rw [(cstr_isPre v).eq_of_length heq]; exact h0)
    rw [hcstr, hnone]
    dsimp only
    rw [toInt_of_int (by omega) (by omega)]
    simp only [h0, not_true_eq_false, iff_false]
    omega
  · refine iff_of_true ?_ h0
    rcases hb with rfl | ⟨b', rfl⟩
    · rw [List.append_nil, cstr_append_zero h0, find_singleton_none hv]
      exact toInt_of_int (by omega) (by omega)
    · have hcstr : cstr (v ++ chr '&' :: b' ++ 0 :: rest) = v ++ chr '&' :: cstr (b' ++ 0 :: rest) := by
        rw [List.append_assoc, cstr_append h0]
        rfl
      rw [hcstr, find_singleton hv]
      exact toInt_of_int (by omega) (by omega)

section

variable {q : QueryText} {rest : Bytes} {k : Key}

theorem Key.length_eq (k : Key) : (if k.klen ≤ 0 then toInt (strlen k.text) else k.klen) = k.text.length := by
  have hlen : strlen k.text = k.text.length := congrArg List.length (cstr_of_not_mem k.noNul)
  have hsize := k.size
  have hint : toInt (strlen k.text) = k.text.length := by
    rw [hlen]
    exact toInt_of_int (by omega) (by omega)
  split_ifs with hneg
  · exact hint
  · exact k.fits.resolve_right hneg

/-- What is found for a key is behind its first occurrence. -/
theorem lookup_eq : lookup (q.memory rest) k = (find k.text (cstr (joined q.pairs))).map fun i : ℕ =>
    ⟨i + k.text.length + 1, valueLen ((q.memory rest).drop (i + k.text.length + 1))⟩ := by
  unfold lookup agooReqQueryValue strstr
  rw [cstr_of_not_mem k.noNul]
  have hcstr : cstr (q.memory rest) = cstr (joined q.pairs) := cstr_memory _ _
  rw [hcstr]
  congr 1
  funext i
  rw [k.length_eq]
  dsimp only
  have hnat : ((i : ℤ) + (k.text.length : ℤ) + 1).toNat = i + k.text.length + 1 := by omega
  rw [hnat]

theorem find_none_iff {name s : Bytes} : find name s = none ↔ ∀ i, ¬ name <+: s.drop i := by
  rw [find_eq_none_iff]
  refine ⟨fun h i hpre => ?_, fun h i _ => h i⟩
  by_cases hi : i ≤ s.length
  · exact h i hi hpre
  · refine h s.length le_rfl ?_
    rw [List.drop_length]
    rwa [List.drop_of_length_le (by omega)] at hpre

theorem finds_iff : FindsByName q rest k ↔ Unambiguous q k.text := by
  unfold FindsByName Unambiguous
  rw [lookup_eq]
  cases hfirst : firstNamed k.text q.pairs with
  | none => rw [Option.map_none, Option.map_eq_none_iff, find_none_iff]
  | some found =>
    obtain ⟨start, v⟩ := found
    obtain ⟨a, b, hjoin, rfl, hb, hv⟩ := joined_of_firstNamed hfirst
    have hsize := q.size
    rw [hjoin] at hsize
    simp only [List.length_append, List.length_cons] at hsize
    have hdrop : (q.memory rest).drop (a.length + k.text.length + 1) = v ++ b ++ 0 :: rest := by
      have heq : q.memory rest = a ++ k.text ++ [chr '='] ++ (v ++ b ++ 0 :: rest) := by
        unfold QueryText.memory
        rw [hjoin]
        simp only [List.append_assoc, List.cons_append, List.nil_append]
      rw [heq]
      exact List.drop_left' (by simp [Nat.add_assoc])
    have htake : (joined q.pairs).take (a.length + k.text.length + 1 + v.length) =
        a ++ k.text ++ chr '=' :: v := by
      have heq : joined q.pairs = (a ++ k.text ++ chr '=' :: v) ++ b := by
        rw [hjoin]
        simp only [List.append_assoc, List.cons_append]
      rw [heq]
      exact List.take_left' (by simp [Nat.add_assoc, Nat.add_comm 1])
    have hcstr (h : 0 ∉ a ++ k.text) : cstr (joined q.pairs) = a ++ k.text ++ cstr (chr '=' :: (v ++ b)) := by
      rw [hjoin, ← List.append_assoc, cstr_append h]
    dsimp only
    rw [htake, Option.map_some, Option.map_eq_some_iff]
    constructor
    · rintro ⟨i, hfind, heq⟩
      have hi : i = a.length := by
        have := congrArg Slice.start heq
        dsimp only at this
        omega
      subst hi
      have hval := congrArg Slice.len heq
      dsimp only at hval
      rw [hdrop, valueLen_iff hv hb (by omega)] at hval
      obtain ⟨-, -, hmin⟩ := find_eq_some_iff.mp hfind
      -- the C string reaches behind the name, so no NUL stands before
      have hle := find_add_length_le hfind
      have hpre : a ++ k.text <+: cstr (joined q.pairs) := by
        refine List.prefix_of_prefix_length_le ?_ (cstr_isPre _) (by rw [List.length_append]; exact hle)
        exact ⟨chr '=' :: (v ++ b), by rw [hjoin, List.append_assoc]⟩
      have h0 : 0 ∉ a ++ k.text := fun h => zero_not_mem_cstr _ (hpre.subset h)
      refine ⟨hmin, ?_⟩
      rw [List.mem_append, List.mem_cons]
      rintro (h | h | h)
      · exact h0 h
      · exact absurd h (by decide)
      · exact hval h
    · rintro ⟨hmin, h0⟩
      have h1 : 0 ∉ a ++ k.text := fun h => h0 (List.mem_append_left _ h)
      have h2 : 0 ∉ v := fun h => h0 (List.mem_append_right _ (List.mem_cons_of_mem _ h))
      refine ⟨a.length, find_eq_some_iff.mpr ⟨?_, ?_, hmin⟩, ?_⟩
      · rw [hcstr h1, List.length_append, List.length_append]
        omega
      · rw [hcstr h1, List.append_assoc, List.drop_left]
        exact List.prefix_append _ _
      · rw [hdrop, (valueLen_iff hv hb (by omega)).mpr h2]

end

/-! ## The parameters of a request -/

/-- A byte or more lies between two parameters. -/
def Apart (s t : Slice) : Prop :=
  s.start.toNat + s.len.toNat < t.start.toNat ∨ t.start.toNat + t.len.toNat < s.start.toNat

theorem Apart.symm {s t : Slice} (h : Apart s t) : Apart t s := Or.symm h

/-- The NUL behind a parameter is in memory. -/
def Within (query : Bytes) (s : Slice) : Prop := s.start.toNat + s.len.toNat < query.length

theorem decode_room {query : Bytes} {s : Slice} (h : Within query s) :
    s.len.toNat < (query.drop s.start.toNat).length := by
  unfold Within at h
  rw [List.length_drop]
  omega

theorem length_decodeAt {query : Bytes} {s : Slice} (h : Within query s) :
    (decodeAt query s).length = query.length := by
  obtain ⟨out, hlen, -, hdecode⟩ := decode_shape (decode_room h)
  unfold decodeAt
  unfold Within at h
  rw [hdecode]
  simp only [List.length_append, List.length_take, List.length_cons, List.length_drop]
  omega

theorem take_decodeAt {query : Bytes} {s : Slice} (h : Within query s) :
    (decodeAt query s).take s.start.toNat = query.take s.start.toNat := by
  unfold decodeAt
  unfold Within at h
  exact List.take_left' (by rw [List.length_take]; omega)

theorem drop_decodeAt {query : Bytes} {s : Slice} (h : Within query s) :
    (decodeAt query s).drop (s.start.toNat + s.len.toNat + 1) = query.drop (s.start.toNat + s.len.toNat + 1) := by
  have hdrop := (decode_bounded (decode_room h)).2
  unfold decodeAt
  unfold Within at h
  rw [List.drop_append, List.drop_of_length_le (by rw [List.length_take]; omega), List.nil_append,
    List.length_take,
    show s.start.toNat + s.len.toNat + 1 - min s.start.toNat query.length = s.len.toNat + 1 by omega, hdrop,
    List.drop_drop, Nat.add_assoc]

/-- A parameter apart from the one that is decoded is as it was. -/
theorem bytes_decodeAt {query : Bytes} {s t : Slice} (h : Within query s) (ha : Apart s t) :
    t.bytes (decodeAt query s) = t.bytes query := by
  unfold Slice.bytes
  rcases ha with ha | ha
  · have hdrop (m : Bytes) : m.drop t.start.toNat = (m.drop (s.start.toNat + s.len.toNat + 1)).drop
        (t.start.toNat - (s.start.toNat + s.len.toNat + 1)) := by
      rw [List.drop_drop]
      congr 1
      omega
    rw [hdrop, hdrop query, drop_decodeAt h]
  · have htake (m : Bytes) : (m.drop t.start.toNat).take t.len.toNat =
        ((m.take s.start.toNat).drop t.start.toNat).take t.len.toNat := by
      rw [List.drop_take, List.take_take]
      congr 1
      omega
    rw [htake, htake query, take_decodeAt h]

/-- Parameters that lie apart are decoded without a change to each other. -/
theorem hookKeeps_of_apart {query : Bytes} (hwithin : ∀ s ∈ hookSlices query, Within query s)
    (hapart : (hookSlices query).Pairwise Apart) : HookKeeps query := by
  have hlen (n : ℕ) : (hookMemory query n).length = query.length := by
    induction n with
    | zero => rfl
    | succ n ih =>
      unfold hookMemory at ih ⊢
      by_cases hn : n < (hookSlices query).length
      · have hmem := hwithin _ (List.getElem_mem hn)
        rw [List.take_succ_eq_append_getElem hn, List.foldl_append]
        change (decodeAt _ _).length = _
        rw [length_decodeAt, ih]
        unfold Within at hmem ⊢
        rw [ih]
        exact hmem
      · rw [List.take_of_length_le (by omega)]
        rwa [List.take_of_length_le (by omega)] at ih
  intro n hn j hj hne
  have hmem := hwithin _ (List.getElem_mem hn)
  have hnext : hookMemory query (n + 1) = decodeAt (hookMemory query n) (hookSlices query)[n] := by
    unfold hookMemory
    rw [List.take_succ_eq_append_getElem hn, List.foldl_append]
    rfl
  rw [hnext, bytes_decodeAt]
  · unfold Within at hmem ⊢
    rw [hlen]
    exact hmem
  · rcases Nat.lt_or_gt_of_ne hne with hlt | hlt
    · exact (List.pairwise_iff_getElem.mp hapart j n hj hn hlt).symm
    · exact List.pairwise_iff_getElem.mp hapart n j hn hj hlt

/-- The values of two names are in two pairs. -/
theorem firstNamed_apart {k₁ k₂ v₁ v₂ : Bytes} {s₁ s₂ : ℕ} {ps : List Pair} (hne : k₁ ≠ k₂)
    (h₁ : firstNamed k₁ ps = some (s₁, v₁)) (h₂ : firstNamed k₂ ps = some (s₂, v₂)) :
    s₁ + k₁.length + 1 + v₁.length < s₂ ∨ s₂ + k₂.length + 1 + v₂.length < s₁ := by
  induction ps generalizing s₁ s₂ with
  | nil => cases h₁
  | cons p ps ih =>
    have hlen : p.text.length = p.name.length + 1 + p.value.length := by
      unfold Pair.text
      rw [List.length_append, List.length_cons]
      omega
    unfold firstNamed at h₁ h₂
    by_cases hp₁ : p.name = k₁
    · have hp₂ : p.name ≠ k₂ := fun h => hne (hp₁.symm.trans h)
      rw [if_pos hp₁] at h₁
      rw [if_neg hp₂] at h₂
      obtain ⟨found, hfound, heq⟩ := Option.map_eq_some_iff.mp h₂
      cases heq
      cases h₁
      rw [← hp₁]
      omega
    · rw [if_neg hp₁] at h₁
      obtain ⟨found₁, hfound₁, heq₁⟩ := Option.map_eq_some_iff.mp h₁
      cases heq₁
      by_cases hp₂ : p.name = k₂
      · rw [if_pos hp₂] at h₂
        cases h₂
        rw [← hp₂]
        omega
      · rw [if_neg hp₂] at h₂
        obtain ⟨found₂, hfound₂, heq₂⟩ := Option.map_eq_some_iff.mp h₂
        cases heq₂
        have := ih hfound₁ hfound₂
        omega

section

variable {q : QueryText} {rest : Bytes}

theorem lookup_within {k : Key} {s : Slice} (hfind : FindsByName q rest k)
    (h : lookup (q.memory rest) k = some s) : Within (q.memory rest) s := by
  rw [hfind] at h
  obtain ⟨⟨start, v⟩, hfirst, rfl⟩ := Option.map_eq_some_iff.mp h
  obtain ⟨a, b, hjoin, rfl, -, -⟩ := joined_of_firstNamed hfirst
  unfold Within QueryText.memory
  rw [hjoin]
  simp only [List.length_append, List.length_cons]
  omega

theorem lookup_apart {k₁ k₂ : Key} {s₁ s₂ : Slice} (hne : k₁.text ≠ k₂.text) (hfind₁ : FindsByName q rest k₁)
    (hfind₂ : FindsByName q rest k₂) (h₁ : lookup (q.memory rest) k₁ = some s₁)
    (h₂ : lookup (q.memory rest) k₂ = some s₂) : Apart s₁ s₂ := by
  rw [hfind₁] at h₁
  rw [hfind₂] at h₂
  obtain ⟨⟨start₁, v₁⟩, hfirst₁, rfl⟩ := Option.map_eq_some_iff.mp h₁
  obtain ⟨⟨start₂, v₂⟩, hfirst₂, rfl⟩ := Option.map_eq_some_iff.mp h₂
  have := firstNamed_apart hne hfirst₁ hfirst₂
  unfold Apart
  dsimp only
  omega

/-- The parameters of a request that are found by their names are those of different keys. -/
theorem hookSlices_apart (hfind : ∀ k ∈ hookKeys, FindsByName q rest k) :
    (∀ s ∈ hookSlices (q.memory rest), Within (q.memory rest) s) ∧
      (hookSlices (q.memory rest)).Pairwise Apart := by
  unfold hookSlices
  cases hgq : (lookup (q.memory rest) queryStr).or (lookup (q.memory rest) subscriptionStr) with
  | none => exact ⟨nofun, List.Pairwise.nil⟩
  | some gq =>
    obtain ⟨k, hk, hkey, hgq⟩ : ∃ k ∈ hookKeys, (k.text ≠ variablesStr.text ∧ k.text ≠ operationNameStr.text) ∧
        lookup (q.memory rest) k = some gq := by
      rcases Option.or_eq_some_iff.mp hgq with h | ⟨-, h⟩
      · exact ⟨queryStr, by simp [hookKeys], by decide, h⟩
      · exact ⟨subscriptionStr, by simp [hookKeys], by decide, h⟩
    have hvar : variablesStr ∈ hookKeys := by simp [hookKeys]
    have hop : operationNameStr ∈ hookKeys := by simp [hookKeys]
    have hsome (o : Option Slice) : o.toList.Pairwise Apart := by
      cases o with
      | none => exact List.Pairwise.nil
      | some s => exact List.pairwise_singleton _ s
    constructor
    · intro s hs
      simp only [List.mem_append, List.mem_cons, Option.mem_toList] at hs
      rcases hs with hs | rfl | hs
      · exact lookup_within (hfind _ hvar) hs
      · exact lookup_within (hfind _ hk) hgq
      · exact lookup_within (hfind _ hop) hs
    · rw [List.pairwise_append, List.pairwise_cons]
      refine ⟨hsome _, ⟨fun t ht => ?_, hsome _⟩, fun s hs t ht => ?_⟩
      · exact lookup_apart hkey.2 (hfind _ hk) (hfind _ hop) hgq (Option.mem_toList.mp ht)
      · have hs := Option.mem_toList.mp hs
        rcases List.mem_cons.mp ht with rfl | ht
        · exact lookup_apart hkey.1.symm (hfind _ hvar) (hfind _ hk) hs hgq
        · exact lookup_apart (by decide) (hfind _ hvar) (hfind _ hop) hs (Option.mem_toList.mp ht)

/-- A parameter is found by its name if and only if nothing before it reads as the name, and if this is so for
the keys of a GraphQL request, then decoding one parameter leaves the others as they are. -/
theorem query_value_iff (q : QueryText) (rest : Bytes) :
    (∀ k, FindsByName q rest k ↔ Unambiguous q k.text) ∧
      (Served q rest ↔ ∀ k ∈ hookKeys, Unambiguous q k.text) := by
  refine ⟨fun k => finds_iff, fun h k hk => finds_iff.mp (h.found k hk), fun h => ?_⟩
  have hfind (k : Key) (hk : k ∈ hookKeys) : FindsByName q rest k := finds_iff.mpr (h k hk)
  obtain ⟨hwithin, hapart⟩ := hookSlices_apart hfind
  exact ⟨hfind, hookKeeps_of_apart hwithin hapart⟩

end

/-- `name=query&query={a}`. -/
def misread : QueryText where
  pairs :=
    [⟨bytes "name", bytes "query", of_decide_eq_true rfl⟩, ⟨bytes "query", bytes "{a}", of_decide_eq_true rfl⟩]
  size := of_decide_eq_true rfl

theorem value_taken_for_name : ¬ FindsByName misread [] queryStr := by
  unfold FindsByName
  decide

end Query

end Agoo
