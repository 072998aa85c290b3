import ArcVcs.Atom
import ArcVcs.Lib.Collections
import ArcVcs.Lib.Recency
import ArcVcs.Lib.Encoding

/-!
# The weighted cache

`WeightedLruCache` keeps a map of entries, a queue of their keys and the number of bytes they have.
A new entry makes room for itself by removing the entries at the front of the queue.
-/

namespace ArcVcs

structure WeightedEntry where
  bytes : Bytes
  weight : ℕ
deriving DecidableEq

structure WeightedLruCache where
  capacityBytes : ℕ
  usedBytes : ℕ
  entries : FMap Blake3Hash WeightedEntry
  lru : List Blake3Hash
  freeBuffers : List Bytes

namespace WeightedLruCache

def new (capacityBytes : ℕ) : WeightedLruCache := ⟨capacityBytes, 0, ∅, [], []⟩

def touch (cache : WeightedLruCache) (key : Blake3Hash) : WeightedLruCache :=
  { cache with lru := (cache.lru.filter fun k => decide (k ≠ key)) ++ [key] }

/-- Take an entry out of the map. Its buffer is cleared and kept. -/
def discard (cache : WeightedLruCache) (key : Blake3Hash) : WeightedLruCache :=
  match cache.entries.lookup key with
  | none => cache
  | some entry =>
      { cache with
        usedBytes := cache.usedBytes - entry.weight
        entries := cache.entries.erase key
        freeBuffers := [] :: cache.freeBuffers }

theorem discard_with_lru (cache : WeightedLruCache) (key : Blake3Hash) (lru : List Blake3Hash) :
    { cache with lru }.discard key = { cache.discard key with lru } := by
  rw [discard, discard]
  cases cache.entries.lookup key <;> rfl

theorem lru_discard (cache : WeightedLruCache) (key : Blake3Hash) :
    (cache.discard key).lru = cache.lru := by
  rw [discard]
  cases cache.entries.lookup key <;> rfl

def evictUntil (incoming : ℕ) (cache : WeightedLruCache) : WeightedLruCache :=
  if cache.capacityBytes < Usize.saturatingAdd cache.usedBytes incoming then
    match h : cache.lru with
    | [] => cache
    | key :: lru =>
        have : ({ cache with lru }.discard key).lru.length < cache.lru.length := by
          rw [lru_discard, h]
          exact Nat.lt_succ_self _
        evictUntil incoming ({ cache with lru }.discard key)
  else cache
termination_by cache.lru.length

def get (cache : WeightedLruCache) (key : Blake3Hash) : Option Bytes × WeightedLruCache :=
  match cache.entries.lookup key with
  | none => (none, cache)
  | some entry => (some entry.bytes, cache.touch key)

def heldBytes (cache : WeightedLruCache) : ℕ :=
  ∑ key ∈ cache.entries.keys, (cache.entries.lookup key).elim 0 fun entry => entry.bytes.length

/-- `put` takes the previous entry of the key out of the map and of the queue. -/
def removePrevious (cache : WeightedLruCache) (key : Blake3Hash) : WeightedLruCache :=
  match cache.entries.lookup key with
  | none => cache
  | some _ => { cache.discard key with lru := cache.lru.filter fun k => decide (k ≠ key) }

/-- There is no result when the address space cannot hold the bytes. -/
def put (cache : WeightedLruCache) (key : Blake3Hash) (bytes : Bytes) : Option WeightedLruCache :=
  if cache.capacityBytes < bytes.length then some cache
  else
    let cache := evictUntil bytes.length (cache.removePrevious key)
    if Usize.greatest < cache.heldBytes + bytes.length then none
    else
      -- a recycled buffer is cleared before it is filled
      let stored := bytes
      some { cache with
        usedBytes := Usize.saturatingAdd cache.usedBytes stored.length
        entries := cache.entries.insert key ⟨stored, bytes.length⟩
        lru := cache.lru ++ [key]
        freeBuffers := cache.freeBuffers.tail }

/-- One call of `get` or `put`. -/
def step (cache : WeightedLruCache) :
    Recency.Op Blake3Hash Bytes → Option (Option Bytes × WeightedLruCache)
  | .get key => some (cache.get key)
  | .put key bytes => (cache.put key bytes).map fun cache => (none, cache)

/-! ## The cache and the list of its entries in order of use -/

open Recency (keys find total evict remove)

/-- The cache has these entries, the least recently used one first. -/
structure Represents (capacity : ℕ) (cache : WeightedLruCache) (l : List (Blake3Hash × Bytes)) :
    Prop where
  budget : cache.capacityBytes = capacity
  lru : cache.lru = keys l
  nodup : (keys l).Nodup
  lookup : ∀ key, cache.entries.lookup key = (find key l).map fun bytes => ⟨bytes, bytes.length⟩
  used : cache.usedBytes = total List.length l
  fits : total List.length l ≤ capacity

variable {capacity incoming : ℕ} {cache cache' : WeightedLruCache}
  {l : List (Blake3Hash × Bytes)} {key : Blake3Hash} {bytes : Bytes}

theorem represents_new (capacity : ℕ) : Represents capacity (new capacity) [] where
  budget := rfl
  lru := rfl
  nodup := List.nodup_nil
  lookup _ := rfl
  used := rfl
  fits := Nat.zero_le _

theorem Represents.keys_entries (h : Represents capacity cache l) :
    cache.entries.keys = (keys l).toFinset := by
  ext key
  rw [List.mem_toFinset, ← not_iff_not, FMap.notMem_keys_iff, h.lookup, Option.map_eq_none_iff,
    Recency.find_eq_none_iff]

theorem Represents.sum_entries (h : Represents capacity cache l) {f : WeightedEntry → ℕ}
    (hf : ∀ bytes : Bytes, f ⟨bytes, bytes.length⟩ = bytes.length) :
    ∑ key ∈ cache.entries.keys, (cache.entries.lookup key).elim 0 f = total List.length l := by
  rw [h.keys_entries, ← Recency.sum_keys_eq_total List.length h.nodup]
  refine Finset.sum_congr rfl fun key _ => ?_
  rw [h.lookup]
  cases find key l with
  | none => rfl
  | some bytes => exact hf bytes

theorem Represents.heldBytes (h : Represents capacity cache l) :
    cache.heldBytes = total List.length l :=
  h.sum_entries fun _ => rfl

theorem Represents.touch (h : Represents capacity cache l) (hfind : find key l = some bytes) :
    Represents capacity (cache.touch key) (Recency.touch key bytes l) where
  budget := h.budget
  lru := by rw [Recency.keys_touch, WeightedLruCache.touch, h.lru]
  nodup := by
    rw [Recency.keys_touch]
    exact Recency.nodup_filter_append h.nodup key
  lookup other := by
    rw [Recency.find_touch]
    split_ifs with heq
    · rw [heq, ← hfind]
      exact h.lookup key
    · exact h.lookup other
  used := by
    rw [Recency.total_touch List.length h.nodup hfind]
    exact h.used
  fits := by
    rw [Recency.total_touch List.length h.nodup hfind]
    exact h.fits

theorem Represents.discard (h : Represents capacity cache l) (hfind : find key l = some bytes)
    {lru : List Blake3Hash} (hlru : lru = keys (remove key l)) :
    Represents capacity { cache.discard key with lru } (remove key l) := by
  have hlookup : cache.entries.lookup key = some ⟨bytes, bytes.length⟩ := by
    rw [h.lookup, hfind]
    rfl
  have htotal := Recency.total_remove List.length h.nodup hfind
  rw [WeightedLruCache.discard, hlookup]
  refine ⟨h.budget, hlru, ?_, fun other => ?_, ?_, ?_⟩
  · rw [Recency.keys_remove]
    exact h.nodup.filter _
  · dsimp only
    rw [FMap.lookup_erase_eq, Recency.find_remove]
    split_ifs
    · rfl
    · exact h.lookup other
  · dsimp only
    rw [h.used, ← htotal, Nat.add_sub_cancel_left]
  · exact (Nat.le_of_add_left_le htotal.le).trans h.fits

theorem Represents.evictUntil (h : Represents capacity cache l) (hincoming : incoming ≤ capacity)
    (hsum : capacity < Usize.greatest ∨ total List.length l + incoming ≤ Usize.greatest) :
    Represents capacity (evictUntil incoming cache)
      (evict List.length (capacity - incoming) l) := by
  induction l generalizing cache with
  | nil =>
      have hroom : ¬ cache.capacityBytes < Usize.saturatingAdd cache.usedBytes incoming := by
        rw [h.budget, h.used, Recency.total_nil, not_lt]
        exact (min_le_left _ _).trans ((Nat.zero_add incoming).trans_le hincoming)
      rw [WeightedLruCache.evictUntil, if_neg hroom]
      exact h
  | cons e rest ih =>
      obtain ⟨key, bytes⟩ := e
      have hroom : cache.capacityBytes < Usize.saturatingAdd cache.usedBytes incoming
          ↔ capacity - incoming < total List.length ((key, bytes) :: rest) := by
        rw [h.budget, h.used, Usize.saturatingAdd, lt_min_iff]
        omega
      have hfind : find key ((key, bytes) :: rest) = some bytes := if_pos rfl
      have hhead := Recency.remove_middle [] rest h.nodup
      rw [List.nil_append, List.nil_append] at hhead
      rw [WeightedLruCache.evictUntil]
      by_cases hlt : capacity - incoming < total List.length ((key, bytes) :: rest)
      · rw [if_pos (hroom.mpr hlt), Recency.evict_cons_of_lt hlt]
        split
        · rename_i hnil
          cases hnil.symm.trans h.lru
        · rename_i key' lru hcons
          obtain ⟨rfl, rfl⟩ := List.cons.inj (hcons.symm.trans h.lru)
          have hrest : Represents capacity ({ cache with lru := keys rest }.discard key') rest := by
            have hdiscard := h.discard hfind (congrArg keys hhead).symm
            rw [hhead] at hdiscard
            rw [discard_with_lru]
            exact hdiscard
          refine ih hrest (hsum.imp_right fun hle => ?_)
          rw [Recency.total_cons] at hle
          omega
      · rw [if_neg (hroom.not.mpr hlt), Recency.evict_of_le (not_lt.mp hlt)]
        exact h

theorem evictUntil_of_saturated (hbudget : Usize.greatest ≤ cache.capacityBytes) :
    WeightedLruCache.evictUntil incoming cache = cache := by
  rw [WeightedLruCache.evictUntil, if_neg]
  exact not_lt.mpr ((min_le_right _ _).trans hbudget)

theorem Represents.removePrevious (h : Represents capacity cache l) (key : Blake3Hash) :
    Represents capacity (cache.removePrevious key) (remove key l) := by
  rw [WeightedLruCache.removePrevious]
  cases hfind : find key l with
  | none =>
      have hnone : cache.entries.lookup key = none := by rw [h.lookup, hfind]; rfl
      rw [hnone, Recency.remove_of_notMem (Recency.find_eq_none_iff.mp hfind)]
      exact h
  | some bytes =>
      have hsome : cache.entries.lookup key = some ⟨bytes, bytes.length⟩ := by
        rw [h.lookup, hfind]
        rfl
      rw [hsome]
      exact h.discard hfind (by rw [Recency.keys_remove, h.lru])

theorem Represents.append (h : Represents capacity cache l) (hkey : key ∉ keys l)
    (hfits : total List.length l + bytes.length ≤ capacity)
    (hsum : total List.length l + bytes.length ≤ Usize.greatest) :
    Represents capacity { cache with
      usedBytes := Usize.saturatingAdd cache.usedBytes bytes.length
      entries := cache.entries.insert key ⟨bytes, bytes.length⟩
      lru := cache.lru ++ [key]
      freeBuffers := cache.freeBuffers.tail } (l ++ [(key, bytes)]) where
  budget := h.budget
  lru := by
    dsimp only
    rw [h.lru, Recency.keys_append]
    rfl
  nodup := by
    rw [Recency.keys_append]
    refine List.nodup_append.mpr ⟨h.nodup, List.nodup_singleton key, fun k hk j hj heq => hkey ?_⟩
    have hj : j = key := List.mem_singleton.mp hj
    rwa [heq, hj] at hk
  lookup other := by
    dsimp only
    rw [FMap.lookup_insert_eq, Recency.find_append]
    split_ifs with heq
    · rw [heq, Recency.find_eq_none_iff.mpr hkey, find, if_pos rfl]
      rfl
    · rw [h.lookup, find, if_neg (Ne.symm heq), find, Option.or_none]
  used := by
    dsimp only
    rw [h.used, Usize.saturatingAdd_eq hsum, Recency.total_append]
    rfl
  fits := by
    rw [Recency.total_append]
    exact hfits

theorem put_spec (h : Represents capacity cache l) (key : Blake3Hash) (bytes : Bytes) :
    (∀ cache', cache.put key bytes = some cache' →
        Represents capacity cache' (Recency.put List.length capacity key bytes l))
      ∧ (capacity < Usize.greatest → ∃ cache', cache.put key bytes = some cache') := by
  rw [put, h.budget, Recency.put]
  by_cases hlong : capacity < bytes.length
  · rw [if_pos hlong, if_pos hlong]
    exact ⟨fun cache' heq => Option.some_inj.mp heq ▸ h, fun _ => ⟨cache, rfl⟩⟩
  have hincoming := not_lt.mp hlong
  have hremoved := h.removePrevious key
  have hle := Recency.total_evict_le List.length (capacity - bytes.length) (remove key l)
  rw [if_neg hlong, if_neg hlong]
  dsimp only
  by_cases hheld : Usize.greatest
      < (evictUntil bytes.length (cache.removePrevious key)).heldBytes + bytes.length
  · rw [if_pos hheld]
    refine ⟨fun cache' heq => (by cases heq), fun hcapacity => ?_⟩
    rw [(hremoved.evictUntil hincoming (Or.inl hcapacity)).heldBytes] at hheld
    omega
  · rw [if_neg hheld]
    refine ⟨fun cache' heq => ?_, fun _ => ⟨_, rfl⟩⟩
    by_cases hsum : capacity < Usize.greatest
        ∨ total List.length (remove key l) + bytes.length ≤ Usize.greatest
    · have hevicted := hremoved.evictUntil hincoming hsum
      rw [hevicted.heldBytes] at hheld
      have hkey : key ∉ keys (evict List.length (capacity - bytes.length) (remove key l)) :=
        fun hmem => Recency.notMem_keys_remove key l
          (((Recency.evict_sublist _ _ _).map Prod.fst).subset hmem)
      rw [← Option.some_inj.mp heq]
      exact hevicted.append hkey (by omega) (not_lt.mp hheld)
    · rw [not_or, not_lt, not_le] at hsum
      rw [evictUntil_of_saturated (hsum.1.trans_eq hremoved.budget.symm), hremoved.heldBytes]
        at hheld
      exact absurd hsum.2 hheld

theorem step_spec (cache : WeightedLruCache) (l : List (Blake3Hash × Bytes))
    (op : Recency.Op Blake3Hash Bytes) (out : Option Bytes) (cache' : WeightedLruCache)
    (h : Represents capacity cache l) (hstep : cache.step op = some (out, cache')) :
    (Recency.step List.length capacity l op).1 = out
      ∧ Represents capacity cache' (Recency.step List.length capacity l op).2 := by
  cases op with
  | get key =>
      rw [step, WeightedLruCache.get, h.lookup] at hstep
      rw [Recency.step, Recency.get]
      cases hfind : find key l with
      | none =>
          rw [hfind] at hstep
          cases hstep
          exact ⟨rfl, h⟩
      | some bytes =>
          rw [hfind] at hstep
          cases hstep
          exact ⟨rfl, h.touch hfind⟩
  | put key bytes =>
      obtain ⟨cache'', hput, heq⟩ := Option.map_eq_some_iff.mp hstep
      cases heq
      exact ⟨rfl, (put_spec h key bytes).1 cache' hput⟩

theorem exists_step (hcapacity : capacity < Usize.greatest) (cache : WeightedLruCache)
    (l : List (Blake3Hash × Bytes)) (op : Recency.Op Blake3Hash Bytes)
    (h : Represents capacity cache l) : ∃ res, cache.step op = some res := by
  cases op with
  | get key => exact ⟨_, rfl⟩
  | put key bytes =>
      obtain ⟨cache', hput⟩ := (put_spec h key bytes).2 hcapacity
      exact ⟨_, congrArg (Option.map _) hput⟩

def weightOf (cache : WeightedLruCache) (ks : List Blake3Hash) : ℕ :=
  (ks.map fun key => (cache.entries.lookup key).elim 0 WeightedEntry.weight).sum

theorem Represents.weightOf (h : Represents capacity cache l)
    {part : List (Blake3Hash × Bytes)} (hpart : part.Sublist l) :
    cache.weightOf (keys part) = total List.length part := by
  rw [WeightedLruCache.weightOf, keys, List.map_map, total]
  refine congrArg List.sum (List.map_congr_left fun e he => ?_)
  rw [Function.comp_apply, h.lookup, Recency.find_of_mem h.nodup (hpart.subset he)]
  rfl

theorem Represents.evicted (h : Represents capacity cache l)
    (hput : cache.put key bytes = some cache') (hfits : bytes.length ≤ capacity) :
    ∃ n, cache'.lru = (cache.lru.filter fun k => decide (k ≠ key)).drop n ++ [key]
      ∧ cache.weightOf ((cache.lru.filter fun k => decide (k ≠ key)).drop n) + bytes.length
        ≤ capacity
      ∧ ∀ m < n, capacity
        < cache.weightOf ((cache.lru.filter fun k => decide (k ≠ key)).drop m) + bytes.length := by
  obtain ⟨n, hn, hle, hleast⟩ :=
    Recency.evict_eq_drop List.length (capacity - bytes.length) (remove key l)
  have hlru := ((put_spec h key bytes).1 cache' hput).lru
  have hweight : ∀ m, cache.weightOf ((cache.lru.filter fun k => decide (k ≠ key)).drop m)
      = total List.length ((remove key l).drop m) := by
    intro m
    rw [h.lru, ← Recency.keys_remove, keys, ← List.map_drop]
    exact h.weightOf ((List.drop_sublist m _).trans List.filter_sublist)
  refine ⟨n, ?_, by rw [hweight]; omega, fun m hm => ?_⟩
  · rw [hlru, Recency.put, if_neg (not_lt.mpr hfits), hn, Recency.keys_append, h.lru,
      ← Recency.keys_remove, keys, List.map_drop]
    rfl
  · have hlt := hleast m hm
    rw [hweight]
    omega

/-- The cache answers as the reference does after all operations. Then the bytes that it counts are
the weights of its entries and at most the capacity, and the queue has each key once, in order of
use. A new entry removes the least recently used ones that it has to. -/
theorem weighted_lru_refines (capacity : ℕ) (ops : List (Recency.Op Blake3Hash Bytes)) :
    (capacity < Usize.greatest → ∃ res, Recency.run step ops (new capacity) = some res)
      ∧ ∀ outs cache, Recency.run step ops (new capacity) = some (outs, cache) →
        (Recency.reference List.length capacity ops []).1 = outs
          ∧ (∀ key, (cache.entries.lookup key).map WeightedEntry.bytes
            = find key (Recency.reference List.length capacity ops []).2)
          ∧ cache.lru = keys (Recency.reference List.length capacity ops []).2
          ∧ cache.lru.Nodup ∧ cache.lru.toFinset = cache.entries.keys
          ∧ cache.usedBytes = ∑ key ∈ cache.entries.keys,
            (cache.entries.lookup key).elim 0 WeightedEntry.weight
          ∧ cache.usedBytes ≤ capacity
          ∧ ∀ key bytes cache', cache.put key bytes = some cache' → bytes.length ≤ capacity →
            ∃ n, cache'.lru = (cache.lru.filter fun k => decide (k ≠ key)).drop n ++ [key]
              ∧ cache.weightOf ((cache.lru.filter fun k => decide (k ≠ key)).drop n)
                + bytes.length ≤ capacity
              ∧ ∀ m < n, capacity
                < cache.weightOf ((cache.lru.filter fun k => decide (k ≠ key)).drop m)
                  + bytes.length := by
  refine ⟨fun hcapacity => ?_, fun outs cache hrun => ?_⟩
  · exact Recency.exists_run step_spec (exists_step hcapacity) ops (represents_new capacity)
  · obtain ⟨houts, h⟩ := Recency.run_refines step_spec (represents_new capacity) hrun
    refine ⟨houts, fun key => ?_, h.lru, h.lru ▸ h.nodup, ?_, ?_, h.used.trans_le h.fits,
      fun key bytes cache' hput hfits => h.evicted hput hfits⟩
    · rw [h.lookup, Option.map_map]
      exact congrFun Option.map_id _
    · rw [h.keys_entries, h.lru]
    · rw [h.used, h.sum_entries fun _ => rfl]

end WeightedLruCache

end ArcVcs
