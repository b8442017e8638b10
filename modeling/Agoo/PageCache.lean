import Agoo.Chains
import Agoo.Err

/-!
# The page cache and the mime table (`page.c`)

Three chained tables share one shape: a base-77 polynomial hash, a bucket index mixed from it, and
slots that keep the hash, the length and the bytes of the key. A slot matches a key when hash and
length agree and, for keys of more than `maxKeyUniq` bytes, `strncmp` finds the bytes equal.

`sets_get_iff`: after any sequence of sets, a lookup is right exactly when the last set whose key
the slots cannot tell from the key looked up was made for that very key, or stored the value last
set for it. Short keys are told apart by the hash alone, and base 77 does not separate bytes.
-/

namespace Agoo

def maxKeyUniq : ℕ := 9
def maxKeyLen : ℕ := 1024
def pageBucketSize : ℕ := 1024
def pageBucketMask : UInt64 := 1023
def maxMimeKeyLen : ℕ := 15
def mimeBucketSize : ℕ := 64
def mimeBucketMask : UInt64 := 63

/-- `struct _slot` and `struct _mimeSlot`. -/
structure Slot (α : Type) where
  key : Bytes
  value : α
  hash : UInt64
  klen : ℕ

/-- The three tables of `struct _cache`. -/
structure Cache (α : Type) where
  buckets : Fin pageBucketSize → List (Slot α)
  ruckets : Fin pageBucketSize → List (Slot α)
  muckets : Fin mimeBucketSize → List (Slot Bytes)

/-- The cache after the `memset` of `agoo_pages_init`. -/
def Cache.empty (α : Type) : Cache α := ⟨fun _ => [], fun _ => [], fun _ => []⟩

/-- `calc_hash`: `h = 77 * h + (*k - 0x2D)` in 64 bits, the difference sign extended. -/
def calcHash (key : Bytes) : UInt64 := key.foldl (fun h k => 77 * h + (k.toUInt64 - 0x2D)) 0

/-- Odd shifts and XORs, before the mask. -/
def mixHash (h : UInt64) : UInt64 := h ^^^ (h <<< 5) ^^^ (h >>> 7)

theorem mask_lt {n : ℕ} (mask h : UInt64) (hm : mask.toNat < n) : (mask &&& h).toNat < n := by
  rw [UInt64.toNat_and]
  exact lt_of_le_of_lt Nat.and_le_left hm

/-- `get_bucketp` and `get_rucketp`: the index of a hash in either page table. -/
def bucketIndex (h : UInt64) : Fin pageBucketSize :=
  ⟨(pageBucketMask &&& mixHash h).toNat, mask_lt _ _ (by decide)⟩

/-- `get_mime_bucketp`. -/
def mimeBucketIndex (h : UInt64) : Fin mimeBucketSize :=
  ⟨(mimeBucketMask &&& mixHash h).toNat, mask_lt _ _ (by decide)⟩

variable {α : Type}

/-- The test of every lookup loop: hash, length and, past `maxKeyUniq` bytes, `strncmp`. -/
def Slot.matches (key : Bytes) (s : Slot α) : Bool :=
  calcHash key == s.hash && key.length == s.klen &&
    (key.length ≤ maxKeyUniq || strncmp s.key key key.length)

/-- The slot filled for a key: `strncpy` stops at a NUL. -/
def slotOf (key : Bytes) (value : α) : Slot α := ⟨cstr key, value, calcHash key, key.length⟩

/-- The lookup loop of `cache_get`, `cache_root_get` and `mime_get`. -/
def bucketGet (bucket : List (Slot α)) (key : Bytes) : Option α :=
  (bucket.find? (Slot.matches key)).map Slot.value

def cacheGet (c : Cache α) (key : Bytes) : Option α :=
  bucketGet (c.buckets (bucketIndex (calcHash key))) key

def cacheRootGet (c : Cache α) (key : Bytes) : Option α :=
  bucketGet (c.ruckets (bucketIndex (calcHash key))) key

/-- `mime_get`: the key is a C string. -/
def mimeGet (c : Cache α) (key : Bytes) : Option Bytes :=
  bucketGet (c.muckets (mimeBucketIndex (calcHash (cstr key)))) (cstr key)

def Slot.setValue (value : α) (s : Slot α) : Slot α := { s with value := value }

/-- Store in a bucket: replace the value of the first match or push a slot. -/
def slotPut (bucket : List (Slot α)) (key : Bytes) (value : α) : List (Slot α) :=
  Chain.put (Slot.matches key) (Slot.setValue value) (slotOf key value) bucket

/-- `bucket_set`: the page handed back is the replaced one, or the page itself when the key is
longer than `maxKeyLen` and nothing is stored. -/
def bucketSet (bucket : List (Slot α)) (key : Bytes) (value : α) : Option α × List (Slot α) :=
  if maxKeyLen < key.length then (some value, bucket)
  else (bucketGet bucket key, slotPut bucket key value)

def cacheSet (c : Cache α) (key : Bytes) (value : α) : Option α × Cache α :=
  let i := bucketIndex (calcHash key)
  let r := bucketSet (c.buckets i) key value
  (r.1, { c with buckets := Function.update c.buckets i r.2 })

def cacheRootSet (c : Cache α) (key : Bytes) (value : α) : Option α × Cache α :=
  let i := bucketIndex (calcHash key)
  let r := bucketSet (c.ruckets i) key value
  (r.1, { c with ruckets := Function.update c.ruckets i r.2 })

/-- `mime_set`: a suffix longer than `maxMimeKeyLen` is an error and changes nothing. -/
def mimeSet (c : Cache α) (key value : Bytes) : Except Err (Cache α) :=
  if maxMimeKeyLen < strlen key then
    .error (errSet .arg (cstr key ++ bytes " is too long for a file extension. Maximum is 15"))
  else
    let i := mimeBucketIndex (calcHash (cstr key))
    .ok { c with
      muckets := Function.update c.muckets i (slotPut (c.muckets i) (cstr key) (cstr value)) }

/-! ## Keys the slots cannot tell apart -/

/-- Two keys that every slot matches alike: equal hash and length and, past `maxKeyUniq` bytes,
equal bytes up to the first NUL. -/
def Alike (a b : Bytes) : Prop :=
  calcHash a = calcHash b ∧ a.length = b.length ∧ (a.length ≤ maxKeyUniq ∨ cstr a = cstr b)

instance : DecidableRel Alike := fun _ _ => by unfold Alike; infer_instance

theorem Alike.refl (a : Bytes) : Alike a a := ⟨rfl, rfl, Or.inr rfl⟩

theorem Alike.symm {a b : Bytes} (h : Alike a b) : Alike b a :=
  ⟨h.1.symm, h.2.1.symm, h.2.2.imp (fun hl => h.2.1 ▸ hl) Eq.symm⟩

theorem Alike.trans {a b c : Bytes} (h : Alike a b) (k : Alike b c) : Alike a c := by
  refine ⟨h.1.trans k.1, h.2.1.trans k.2.1, ?_⟩
  rcases h.2.2 with hl | he
  · exact Or.inl hl
  · rcases k.2.2 with kl | ke
    · exact Or.inl (h.2.1 ▸ kl)
    · exact Or.inr (he.trans ke)

/-- Comparing the stored bytes of `b` with `a` over `a`'s length compares the two C strings. -/
theorem strncmp_stored {a b : Bytes} (h : a.length = b.length) :
    strncmp (cstr b) a a.length = decide (cstr a = cstr b) := by
  have ha : (cstr a).take a.length = cstr a := List.take_of_length_le (cstr_length_le a)
  have hb : (cstr b).take a.length = cstr b := List.take_of_length_le (h ▸ cstr_length_le b)
  rw [strncmp, cstr_cstr, ha, hb]
  by_cases he : cstr a = cstr b
  · simp [he]
  · simp [he, Ne.symm he]

/-- The slot of `b` matches `a` exactly when the two keys are alike. -/
theorem matches_slotOf (a b : Bytes) (v : α) : (slotOf b v).matches a = decide (Alike a b) := by
  by_cases hlen : a.length = b.length
  · have hs := strncmp_stored hlen
    simp only [Slot.matches, slotOf, Alike, hs]
    simp [hlen]
    rfl
  · have : ¬ Alike a b := fun h => hlen h.2.1
    simp [Slot.matches, slotOf, hlen, this]

theorem matches_of_alike {a b : Bytes} (h : Alike a b) (s : Slot α) : s.matches a = s.matches b := by
  obtain ⟨hh, hl, hc⟩ := h
  unfold Slot.matches
  rw [hh, hl]
  rcases hc with hc | hc
  · simp [hl ▸ hc]
  · unfold strncmp
    rw [hc]

/-- No slot matches two keys that are not alike. -/
theorem alike_of_matches {a b : Bytes} {s : Slot α} (ha : s.matches a) (hb : s.matches b) :
    Alike a b := by
  simp only [Slot.matches, Bool.and_eq_true, beq_iff_eq, Bool.or_eq_true, decide_eq_true_eq,
    strncmp] at ha hb
  obtain ⟨⟨hha, hla⟩, hca⟩ := ha
  obtain ⟨⟨hhb, hlb⟩, hcb⟩ := hb
  have hlen : a.length = b.length := hla.trans hlb.symm
  refine ⟨hha.trans hhb.symm, hlen, ?_⟩
  rcases hca with hca | hca
  · exact Or.inl hca
  · rcases hcb with hcb | hcb
    · exact Or.inl (hlen ▸ hcb)
    · right
      rw [List.take_of_length_le (cstr_length_le a)] at hca
      rw [List.take_of_length_le (cstr_length_le b)] at hcb
      rw [← hca, ← hcb, hlen]

@[simp] theorem matches_setValue (key : Bytes) (v : α) (s : Slot α) :
    (s.setValue v).matches key = s.matches key := rfl

@[simp] theorem value_setValue (v : α) (s : Slot α) : (s.setValue v).value = v := rfl

/-! ## One set, then a lookup -/

/-- A lookup after a store in the same bucket sees the store exactly under the keys alike. -/
theorem bucketGet_slotPut (bucket : List (Slot α)) (k key : Bytes) (v : α) :
    bucketGet (slotPut bucket k v) key = if Alike key k then some v else bucketGet bucket key := by
  unfold bucketGet slotPut
  by_cases h : Alike key k
  · have hp : (Slot.matches key : Slot α → Bool) = Slot.matches k := funext (matches_of_alike h)
    have hself : (slotOf k v).matches k = true := by simp [matches_slotOf, Alike.refl]
    rw [hp, Chain.find_put_self hself (by simp), if_pos h, Option.map_some]
    cases bucket.find? (Slot.matches k) <;> rfl
  · have hne : ∀ s : Slot α, s.matches k → s.matches key = false := fun s hs =>
      Bool.eq_false_iff.mpr fun hk => h (alike_of_matches hk hs)
    have hnew : (slotOf k v).matches key = false := by simp [matches_slotOf, h]
    rw [Chain.find_put_other hne (by simpa using hne) hnew, if_neg h]

/-- The same over a bucket array: keys in other buckets are not alike. -/
theorem bucketGet_update {n : ℕ} (t : Fin n → List (Slot α)) (ix : UInt64 → Fin n)
    (k key : Bytes) (v : α) :
    bucketGet (Function.update t (ix (calcHash k)) (slotPut (t (ix (calcHash k))) k v)
      (ix (calcHash key))) key =
      if Alike key k then some v else bucketGet (t (ix (calcHash key))) key := by
  by_cases hix : ix (calcHash key) = ix (calcHash k)
  · rw [hix, Function.update_self, bucketGet_slotPut]
  · rw [Function.update_of_ne hix, if_neg fun h => hix (congrArg ix h.1)]

theorem cacheGet_cacheSet (c : Cache α) (k key : Bytes) (v : α) :
    cacheGet (cacheSet c k v).2 key =
      if k.length ≤ maxKeyLen ∧ Alike key k then some v else cacheGet c key := by
  unfold cacheGet cacheSet bucketSet
  by_cases hl : maxKeyLen < k.length
  · simp [hl, Nat.not_le.mpr hl, Function.update_eq_self]
  · simpa [hl, Nat.not_lt.mp hl] using bucketGet_update c.buckets bucketIndex k key v

theorem cacheRootGet_cacheRootSet (c : Cache α) (k key : Bytes) (v : α) :
    cacheRootGet (cacheRootSet c k v).2 key =
      if k.length ≤ maxKeyLen ∧ Alike key k then some v else cacheRootGet c key := by
  unfold cacheRootGet cacheRootSet bucketSet
  by_cases hl : maxKeyLen < k.length
  · simp [hl, Nat.not_le.mpr hl, Function.update_eq_self]
  · simpa [hl, Nat.not_lt.mp hl] using bucketGet_update c.ruckets bucketIndex k key v

/-- A refused page comes straight back; a stored one hands back what its key answered before. -/
theorem bucketSet_old (bucket : List (Slot α)) (key : Bytes) (v : α) :
    (bucketSet bucket key v).1 = if maxKeyLen < key.length then some v else bucketGet bucket key := by
  unfold bucketSet
  split <;> rfl

/-! ## Sequences of sets -/

inductive CacheOp (α : Type)
  | cacheSet (key : Bytes) (value : α)
  | cacheRootSet (key : Bytes) (value : α)
  | mimeSet (key value : Bytes)

def CacheOp.apply (c : Cache α) : CacheOp α → Cache α
  | .cacheSet key value => (Agoo.cacheSet c key value).2
  | .cacheRootSet key value => (Agoo.cacheRootSet c key value).2
  | .mimeSet key value =>
    match Agoo.mimeSet c key value with
    | .ok c' => c'
    | .error _ => c

/-- The cache after the sets `ops`, made in order on an empty cache. -/
def runSets (ops : List (CacheOp α)) : Cache α := ops.foldl CacheOp.apply (Cache.empty α)

/-- The accepted sets of the page table, newest first. -/
def pageSets (ops : List (CacheOp α)) : List (Bytes × α) :=
  ops.reverse.filterMap fun
    | .cacheSet k v => if k.length ≤ maxKeyLen then some (k, v) else none
    | _ => none

/-- The accepted sets of the root table, newest first. -/
def rootSets (ops : List (CacheOp α)) : List (Bytes × α) :=
  ops.reverse.filterMap fun
    | .cacheRootSet k v => if k.length ≤ maxKeyLen then some (k, v) else none
    | _ => none

/-- The accepted sets of the mime table, newest first, keys and values as C strings. -/
def mimeSets (ops : List (CacheOp α)) : List (Bytes × Bytes) :=
  ops.reverse.filterMap fun
    | .mimeSet k v => if strlen k ≤ maxMimeKeyLen then some (cstr k, cstr v) else none
    | _ => none

/-- What the most recent set for exactly `key` stored. -/
def lastSet {β : Type} (sets : List (Bytes × β)) (key : Bytes) : Option β :=
  (sets.find? fun s => s.1 == key).map Prod.snd

/-- The most recent set under a key alike `key`. -/
def lastAlike {β : Type} (sets : List (Bytes × β)) (key : Bytes) : Option (Bytes × β) :=
  sets.find? fun s => decide (Alike key s.1)

theorem runSets_concat (ops : List (CacheOp α)) (op : CacheOp α) :
    runSets (ops ++ [op]) = op.apply (runSets ops) := by
  simp [runSets]

theorem lastAlike_cons {β : Type} (k : Bytes) (v : β) (sets : List (Bytes × β)) (key : Bytes) :
    lastAlike ((k, v) :: sets) key = if Alike key k then some (k, v) else lastAlike sets key := by
  unfold lastAlike
  by_cases h : Alike key k <;> simp [h]

/-- The mime table after one operation. -/
theorem mimeGet_apply_mimeSet (c : Cache α) (k v key : Bytes) :
    mimeGet (CacheOp.apply c (.mimeSet k v)) key =
      if strlen k ≤ maxMimeKeyLen ∧ Alike (cstr key) (cstr k) then some (cstr v)
      else mimeGet c key := by
  unfold CacheOp.apply mimeSet mimeGet
  by_cases hl : maxMimeKeyLen < strlen k
  · simp [hl, Nat.not_le.mpr hl]
  · simpa [hl, Nat.not_lt.mp hl] using
      bucketGet_update c.muckets mimeBucketIndex (cstr k) (cstr key) (cstr v)

/-- A set of the mime table leaves the page tables alone. -/
theorem apply_mimeSet_pages (c : Cache α) (k v : Bytes) :
    (CacheOp.apply c (.mimeSet k v)).buckets = c.buckets ∧
      (CacheOp.apply c (.mimeSet k v)).ruckets = c.ruckets := by
  unfold CacheOp.apply mimeSet
  by_cases hl : maxMimeKeyLen < strlen k <;> simp [hl]

/-- **Each table answers with the last set alike the key.** -/
theorem cacheGet_runSets (ops : List (CacheOp α)) (key : Bytes) :
    cacheGet (runSets ops) key = (lastAlike (pageSets ops) key).map Prod.snd := by
  induction ops using List.reverseRecOn with
  | nil => rfl
  | append_singleton ops op ih =>
    rw [runSets_concat]
    cases op with
    | cacheSet k v =>
      have hsets : pageSets (ops ++ [.cacheSet k v]) =
          if k.length ≤ maxKeyLen then (k, v) :: pageSets ops else pageSets ops := by
        by_cases hl : k.length ≤ maxKeyLen <;> simp [pageSets, hl]
      rw [hsets, CacheOp.apply, cacheGet_cacheSet, ih]
      by_cases hl : k.length ≤ maxKeyLen
      · by_cases ha : Alike key k <;> simp [hl, ha, lastAlike_cons]
      · simp [hl]
    | cacheRootSet k v =>
      rw [show pageSets (ops ++ [.cacheRootSet k v]) = pageSets ops by simp [pageSets]]
      exact ih
    | mimeSet k v =>
      rw [show pageSets (ops ++ [.mimeSet k v]) = pageSets ops by simp [pageSets], ← ih, cacheGet,
        (apply_mimeSet_pages _ k v).1]
      rfl

theorem cacheRootGet_runSets (ops : List (CacheOp α)) (key : Bytes) :
    cacheRootGet (runSets ops) key = (lastAlike (rootSets ops) key).map Prod.snd := by
  induction ops using List.reverseRecOn with
  | nil => rfl
  | append_singleton ops op ih =>
    rw [runSets_concat]
    cases op with
    | cacheSet k v =>
      rw [show rootSets (ops ++ [.cacheSet k v]) = rootSets ops by simp [rootSets]]
      exact ih
    | cacheRootSet k v =>
      have hsets : rootSets (ops ++ [.cacheRootSet k v]) =
          if k.length ≤ maxKeyLen then (k, v) :: rootSets ops else rootSets ops := by
        by_cases hl : k.length ≤ maxKeyLen <;> simp [rootSets, hl]
      rw [hsets, CacheOp.apply, cacheRootGet_cacheRootSet, ih]
      by_cases hl : k.length ≤ maxKeyLen
      · by_cases ha : Alike key k <;> simp [hl, ha, lastAlike_cons]
      · simp [hl]
    | mimeSet k v =>
      rw [show rootSets (ops ++ [.mimeSet k v]) = rootSets ops by simp [rootSets], ← ih,
        cacheRootGet, (apply_mimeSet_pages _ k v).2]
      rfl

theorem mimeGet_runSets (ops : List (CacheOp α)) (key : Bytes) :
    mimeGet (runSets ops) key = (lastAlike (mimeSets ops) (cstr key)).map Prod.snd := by
  induction ops using List.reverseRecOn with
  | nil => rfl
  | append_singleton ops op ih =>
    rw [runSets_concat]
    cases op with
    | cacheSet k v =>
      rw [show mimeSets (ops ++ [.cacheSet k v]) = mimeSets ops by simp [mimeSets]]
      exact ih
    | cacheRootSet k v =>
      rw [show mimeSets (ops ++ [.cacheRootSet k v]) = mimeSets ops by simp [mimeSets]]
      exact ih
    | mimeSet k v =>
      have hsets : mimeSets (ops ++ [.mimeSet k v]) =
          if strlen k ≤ maxMimeKeyLen then (cstr k, cstr v) :: mimeSets ops else mimeSets ops := by
        by_cases hl : strlen k ≤ maxMimeKeyLen <;> simp [mimeSets, hl]
      rw [hsets, mimeGet_apply_mimeSet, ih]
      by_cases hl : strlen k ≤ maxMimeKeyLen
      · by_cases ha : Alike (cstr key) (cstr k) <;> simp [hl, ha, lastAlike_cons]
      · simp [hl]

/-! ## When a lookup is faithful -/

/-- `got` is a faithful answer for `key`: a value only if the last set for `key` stored it. -/
def Faithful {β : Type} (sets : List (Bytes × β)) (key : Bytes) (got : Option β) : Prop :=
  ∀ v, got = some v → lastSet sets key = some v

/-- The last set whose key the slots cannot tell from `key` was made for `key` itself, or stored
what `key` was last given. -/
def LastAlikeIsOwn {β : Type} (sets : List (Bytes × β)) (key : Bytes) : Prop :=
  ∀ k v, lastAlike sets key = some (k, v) → k = key ∨ lastSet sets key = some v

/-- When the last alike set is for the key itself, it is also the last set of the key. -/
theorem lastSet_of_lastAlike_self {β : Type} {sets : List (Bytes × β)} {key : Bytes} {v : β}
    (h : lastAlike sets key = some (key, v)) : lastSet sets key = some v := by
  induction sets with
  | nil => cases h
  | cons s sets ih =>
    obtain ⟨k, w⟩ := s
    rw [lastAlike_cons] at h
    by_cases ha : Alike key k
    · rw [if_pos ha] at h
      cases h
      simp [lastSet]
    · rw [if_neg ha] at h
      have hk : k ≠ key := fun e => ha (e ▸ Alike.refl k)
      have := ih h
      simpa [lastSet, hk] using this

theorem faithful_lastAlike_iff {β : Type} (sets : List (Bytes × β)) (key : Bytes) :
    Faithful sets key ((lastAlike sets key).map Prod.snd) ↔ LastAlikeIsOwn sets key := by
  constructor
  · intro h k v hk
    exact Or.inr (h v (by rw [hk]; rfl))
  · intro h v hv
    obtain ⟨⟨k, w⟩, hk, rfl⟩ := Option.map_eq_some_iff.mp hv
    rcases h k w hk with rfl | hs
    · exact lastSet_of_lastAlike_self hk
    · exact hs

/-- **A lookup is faithful exactly when the last set alike its key is its own.** -/
theorem sets_get_iff (ops : List (CacheOp α)) (key : Bytes) :
    (Faithful (pageSets ops) key (cacheGet (runSets ops) key) ↔
      LastAlikeIsOwn (pageSets ops) key) ∧
    (Faithful (rootSets ops) key (cacheRootGet (runSets ops) key) ↔
      LastAlikeIsOwn (rootSets ops) key) ∧
    (Faithful (mimeSets ops) (cstr key) (mimeGet (runSets ops) key) ↔
      LastAlikeIsOwn (mimeSets ops) (cstr key)) := by
  refine ⟨?_, ?_, ?_⟩
  · rw [cacheGet_runSets]
    exact faithful_lastAlike_iff _ _
  · rw [cacheRootGet_runSets]
    exact faithful_lastAlike_iff _ _
  · rw [mimeGet_runSets]
    exact faithful_lastAlike_iff _ _

/-- The pages of `az` and `b-` share a slot: 77 times the step from `a` to `b` is the step from
`-` to `z`. -/
theorem sets_get_collides :
    ¬ ∀ (ops : List (CacheOp ℕ)) (key : Bytes), key.length ≤ maxKeyLen →
      Faithful (pageSets ops) key (cacheGet (runSets ops) key) := by
  intro h
  have hget : cacheGet (runSets [.cacheSet (bytes "az") 1]) (bytes "b-") = some 1 := by
    decide +kernel
  have := h [.cacheSet (bytes "az") 1] (bytes "b-") (by decide) 1 hget
  revert this
  decide +kernel

end Agoo
