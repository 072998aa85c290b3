import ArcVcs.Atom
import ArcVcs.Lib.Collections
import ArcVcs.Lib.DoublyLinked
import ArcVcs.Lib.Recency

/-!
# The cache of a fixed number of slots

`TinyLinkedLruCache` links its occupied slots in order of use and keeps an index of their keys and a
stack of the free slots. A new key takes a free slot, or the one at the head of the list.
-/

namespace ArcVcs

/-- An occupied slot. The slots are numbered from 0 to `N`. -/
structure TinyEntry (N : ℕ) where
  key : Blake3Hash
  bytes : Bytes
  prev : Option (Fin N)
  next : Option (Fin N)

/-- The last free slot is the first one of `free`. -/
structure TinyLinkedLruCache (N : ℕ) where
  slots : Fin N → Option (TinyEntry N)
  index : FMap Blake3Hash (Fin N)
  head : Option (Fin N)
  tail : Option (Fin N)
  free : List (Fin N)

namespace TinyLinkedLruCache

variable {N : ℕ}

def default (N : ℕ) : TinyLinkedLruCache N := ⟨fun _ => none, ∅, none, none, List.finRange N⟩

/-- `if let Some(entry) = self.slots[idx].as_mut()`. -/
def modify (cache : TinyLinkedLruCache N) (idx : Fin N) (f : TinyEntry N → TinyEntry N) :
    TinyLinkedLruCache N :=
  { cache with slots := Function.update cache.slots idx ((cache.slots idx).map f) }

/-- The same behind an `if let Some(idx)`. -/
def modifyAt (cache : TinyLinkedLruCache N) (at_ : Option (Fin N))
    (f : TinyEntry N → TinyEntry N) : TinyLinkedLruCache N :=
  match at_ with
  | none => cache
  | some idx => cache.modify idx f

def detach (cache : TinyLinkedLruCache N) (idx : Fin N) : TinyLinkedLruCache N :=
  match cache.slots idx with
  | none => cache
  | some entry =>
      let cache := cache.modifyAt entry.prev fun prevEntry => { prevEntry with next := entry.next }
      let cache := cache.modifyAt entry.next fun nextEntry => { nextEntry with prev := entry.prev }
      let head := if cache.head = some idx then entry.next else cache.head
      let tail := if cache.tail = some idx then entry.prev else cache.tail
      let cache := { cache with head, tail }
      cache.modify idx fun cur => { cur with prev := none, next := none }

def pushBack (cache : TinyLinkedLruCache N) (idx : Fin N) : TinyLinkedLruCache N :=
  match cache.tail with
  | some tailIdx =>
      let cache := cache.modify tailIdx fun tail => { tail with next := some idx }
      let cache := cache.modify idx fun cur => { cur with prev := some tailIdx, next := none }
      { cache with tail := some idx }
  | none =>
      let cache := { cache with head := some idx, tail := some idx }
      cache.modify idx fun cur => { cur with prev := none, next := none }

def moveToBack (cache : TinyLinkedLruCache N) (idx : Fin N) : TinyLinkedLruCache N :=
  if cache.tail = some idx then cache else (cache.detach idx).pushBack idx

/-- There is no result when there is neither a free slot nor a head. -/
def allocateSlot (cache : TinyLinkedLruCache N) : Option (Fin N × TinyLinkedLruCache N) :=
  match cache.free with
  | idx :: free => some (idx, { cache with free })
  | [] =>
      match cache.head with
      | none => none
      | some idx =>
          let cache := cache.detach idx
          match cache.slots idx with
          | none => some (idx, cache)
          | some old =>
              some (idx, { cache with
                slots := Function.update cache.slots idx none
                index := cache.index.erase old.key })

def get (cache : TinyLinkedLruCache N) (key : Blake3Hash) : Option Bytes × TinyLinkedLruCache N :=
  match cache.index.lookup key with
  | none => (none, cache)
  | some idx =>
      match cache.slots idx with
      | none => (none, cache)
      | some entry => (some entry.bytes, cache.moveToBack idx)

def put (cache : TinyLinkedLruCache N) (key : Blake3Hash) (bytes : Bytes) :
    Option (TinyLinkedLruCache N) :=
  if N = 0 then some cache
  else
    match cache.index.lookup key with
    | some idx => some ((cache.modify idx fun entry => { entry with bytes }).moveToBack idx)
    | none =>
        match cache.allocateSlot with
        | none => none
        | some (idx, cache) =>
            let cache := { cache with
              slots := Function.update cache.slots idx (some ⟨key, bytes, none, none⟩)
              index := cache.index.insert key idx }
            some (cache.pushBack idx)

/-- One call of `get` or `put`. -/
def step (cache : TinyLinkedLruCache N) :
    Recency.Op Blake3Hash Bytes → Option (Option Bytes × TinyLinkedLruCache N)
  | .get key => some (cache.get key)
  | .put key bytes => (cache.put key bytes).map fun cache => (none, cache)

/-! ## The links of the slots -/

variable {cache : TinyLinkedLruCache N} {idx : Fin N}

def links (cache : TinyLinkedLruCache N) : Links (Fin N) where
  prev idx := (cache.slots idx).bind TinyEntry.prev
  next idx := (cache.slots idx).bind TinyEntry.next
  head := cache.head
  tail := cache.tail

/-- The key and the bytes of a slot. -/
def payload (cache : TinyLinkedLruCache N) (idx : Fin N) : Option (Blake3Hash × Bytes) :=
  (cache.slots idx).map fun entry => (entry.key, entry.bytes)

@[simp] theorem slots_modify (f : TinyEntry N → TinyEntry N) (j : Fin N) :
    (cache.modify idx f).slots j = if idx = j then (cache.slots j).map f else cache.slots j := by
  by_cases h : j = idx
  · subst h
    exact (Function.update_self ..).trans (if_pos rfl).symm
  · exact (Function.update_of_ne h ..).trans (if_neg (Ne.symm h)).symm

@[simp] theorem slots_modifyAt (at_ : Option (Fin N)) (f : TinyEntry N → TinyEntry N)
    (j : Fin N) : (cache.modifyAt at_ f).slots j
      = if at_ = some j then (cache.slots j).map f else cache.slots j := by
  cases at_ with
  | none => rfl
  | some idx => simp [modifyAt]

theorem modifyAt_fields (at_ : Option (Fin N)) (f : TinyEntry N → TinyEntry N) :
    (cache.modifyAt at_ f).index = cache.index ∧ (cache.modifyAt at_ f).head = cache.head
      ∧ (cache.modifyAt at_ f).tail = cache.tail ∧ (cache.modifyAt at_ f).free = cache.free := by
  cases at_ <;> exact ⟨rfl, rfl, rfl, rfl⟩

theorem slots_detach (h : (cache.slots idx).isSome = true) (j : Fin N) :
    (cache.detach idx).slots j = (cache.slots j).map fun entry => { entry with
      prev := (cache.links.detach idx).prev j
      next := (cache.links.detach idx).next j } := by
  obtain ⟨entry, hentry⟩ := Option.isSome_iff_exists.mp h
  have hprev : cache.links.prev idx = entry.prev := by simp only [links, hentry, Option.bind_some]
  have hnext : cache.links.next idx = entry.next := by simp only [links, hentry, Option.bind_some]
  simp only [detach, hentry, Links.detach, hprev, hnext, slots_modify, slots_modifyAt]
  cases hj : cache.slots j with
  | none => simp
  | some cur =>
      have hprevj : cache.links.prev j = cur.prev := by simp only [links, hj, Option.bind_some]
      have hnextj : cache.links.next j = cur.next := by simp only [links, hj, Option.bind_some]
      simp only [hprevj, hnextj, Option.map_some]
      by_cases hij : idx = j
      · simp only [hij, if_true]
        split_ifs <;> rfl
      · simp only [hij, Ne.symm hij, if_false]
        split_ifs <;> rfl

theorem detach_fields (h : (cache.slots idx).isSome = true) :
    (cache.detach idx).index = cache.index ∧ (cache.detach idx).free = cache.free
      ∧ (cache.detach idx).head = (cache.links.detach idx).head
      ∧ (cache.detach idx).tail = (cache.links.detach idx).tail := by
  obtain ⟨entry, hentry⟩ := Option.isSome_iff_exists.mp h
  simp only [detach, hentry, Links.detach, modify, modifyAt_fields, links, Option.bind_some,
    and_self]

theorem slots_pushBack (j : Fin N) :
    (cache.pushBack idx).slots j = (cache.slots j).map fun entry => { entry with
      prev := (cache.links.pushBack idx).prev j
      next := (cache.links.pushBack idx).next j } := by
  cases hj : cache.slots j with
  | none => cases htail : cache.tail <;> simp [pushBack, htail, hj]
  | some cur =>
      have hprevj : cache.links.prev j = cur.prev := by simp only [links, hj, Option.bind_some]
      have hnextj : cache.links.next j = cur.next := by simp only [links, hj, Option.bind_some]
      have hlinks : cache.links.tail = cache.tail := rfl
      simp only [Links.pushBack, hprevj, hnextj, hlinks, Option.map_some]
      cases htail : cache.tail with
      | none =>
          simp only [pushBack, htail, slots_modify, hj]
          by_cases hij : idx = j
          · simp [hij]
          · simp [hij, Ne.symm hij]
      | some tailIdx =>
          simp only [pushBack, htail, slots_modify, hj]
          by_cases hij : idx = j
          · simp only [hij, if_true]
            split_ifs <;> rfl
          · simp only [hij, Ne.symm hij, if_false, Option.some.injEq]
            split_ifs <;> rfl

theorem pushBack_fields :
    (cache.pushBack idx).index = cache.index ∧ (cache.pushBack idx).free = cache.free
      ∧ (cache.pushBack idx).head = (cache.links.pushBack idx).head
      ∧ (cache.pushBack idx).tail = (cache.links.pushBack idx).tail := by
  cases htail : cache.tail <;> simp [pushBack, Links.pushBack, links, modify, htail]

theorem payload_of_slots {cache' : TinyLinkedLruCache N} {links' : Links (Fin N)}
    (h : ∀ j, cache'.slots j = (cache.slots j).map fun entry =>
      { entry with prev := links'.prev j, next := links'.next j }) (j : Fin N) :
    cache'.payload j = cache.payload j := by
  rw [payload, payload, h, Option.map_map]
  rfl

theorem links_of_slots {cache' : TinyLinkedLruCache N} {links' : Links (Fin N)}
    (h : ∀ j, cache'.slots j = (cache.slots j).map fun entry =>
      { entry with prev := links'.prev j, next := links'.next j }) {j : Fin N}
    (hj : (cache.slots j).isSome = true) :
    cache'.links.prev j = links'.prev j ∧ cache'.links.next j = links'.next j := by
  obtain ⟨entry, hentry⟩ := Option.isSome_iff_exists.mp hj
  simp only [links, h, hentry, Option.map_some, Option.bind_some, and_self]

theorem payload_update (entry : Option (TinyEntry N)) (index : FMap Blake3Hash (Fin N))
    (j : Fin N) :
    ({ cache with slots := Function.update cache.slots idx entry, index } :
        TinyLinkedLruCache N).payload j
      = if idx = j then entry.map fun entry => (entry.key, entry.bytes) else cache.payload j := by
  rw [payload]
  split_ifs with hj
  · subst hj
    exact congrArg (Option.map _) (Function.update_self ..)
  · exact congrArg (Option.map _) (Function.update_of_ne (Ne.symm hj) ..)

theorem are_update {order : List (Fin N)} (h : cache.links.Are order) (hidx : idx ∉ order)
    (entry : Option (TinyEntry N)) (index : FMap Blake3Hash (Fin N)) :
    ({ cache with slots := Function.update cache.slots idx entry, index } :
        TinyLinkedLruCache N).links.Are order := by
  refine h.congr rfl rfl fun j hj => ?_
  have hne : j ≠ idx := fun heq => hidx (heq ▸ hj)
  have hslot : Function.update cache.slots idx entry j = cache.slots j :=
    Function.update_of_ne hne ..
  simp only [links, hslot, and_self]

/-! ## The cache and its slots in order of use -/

open Recency (keys find total evict remove)

/-- The slots in order of use with their keys and bytes. A slot that is taken from the free ones and
not occupied yet is reserved. -/
structure Represents (reserved : Option (Fin N)) (cache : TinyLinkedLruCache N)
    (es : List (Fin N × Blake3Hash × Bytes)) : Prop where
  links : cache.links.Are (es.map Prod.fst)
  keys_nodup : (keys (es.map Prod.snd)).Nodup
  payload : ∀ idx entry, cache.payload idx = some entry ↔ (idx, entry) ∈ es
  index : ∀ key idx, cache.index.lookup key = some idx ↔ ∃ bytes, (idx, key, bytes) ∈ es
  free_nodup : cache.free.Nodup
  mem_free : ∀ idx, idx ∈ cache.free ↔ idx ∉ es.map Prod.fst ∧ some idx ≠ reserved

section Steps

variable {es before after : List (Fin N × Blake3Hash × Bytes)} {reserved : Option (Fin N)}
  {key : Blake3Hash} {bytes : Bytes}

theorem represents_default (N : ℕ) : Represents none (default N) [] where
  links := {
    nodup := List.nodup_nil
    head := rfl
    tail := rfl
    node := fun before i after h => by cases before <;> cases h }
  keys_nodup := List.nodup_nil
  payload idx entry := iff_of_false (by simp [TinyLinkedLruCache.payload, default]) List.not_mem_nil
  index key idx := iff_of_false (by simp [default]) (by simp)
  free_nodup := List.nodup_finRange N
  mem_free idx := by simp [default]

theorem Represents.isSome (h : Represents reserved cache es) {idx : Fin N}
    (hidx : idx ∈ es.map Prod.fst) : (cache.slots idx).isSome = true := by
  obtain ⟨⟨idx, entry⟩, hmem, rfl⟩ := List.mem_map.mp hidx
  have hpayload := (h.payload idx entry).mpr hmem
  rw [TinyLinkedLruCache.payload] at hpayload
  exact Option.isSome_map.symm.trans (Option.isSome_iff_exists.mpr ⟨entry, hpayload⟩)

theorem Represents.are_detach {e : Fin N × Blake3Hash × Bytes}
    (h : Represents reserved cache (before ++ e :: after)) :
    (cache.detach e.1).links.Are ((before ++ after).map Prod.fst) := by
  have hsome : ∀ idx ∈ (before ++ e :: after).map Prod.fst, (cache.slots idx).isSome = true :=
    fun idx => h.isSome
  have he : e.1 ∈ (before ++ e :: after).map Prod.fst :=
    List.mem_map_of_mem (List.mem_append_right before List.mem_cons_self)
  have hlinks := h.links
  rw [List.map_append, List.map_cons] at hlinks
  have hfields := detach_fields (hsome e.1 he)
  rw [List.map_append]
  refine hlinks.detach.congr hfields.2.2.1 hfields.2.2.2 fun idx hidx => ?_
  refine links_of_slots (slots_detach (hsome e.1 he)) (hsome idx ?_)
  rw [List.map_append, List.map_cons]
  rcases List.mem_append.mp hidx with hidx | hidx
  · exact List.mem_append_left _ hidx
  · exact List.mem_append_right _ (List.mem_cons_of_mem _ hidx)

theorem are_pushBack {order : List (Fin N)} (h : cache.links.Are order) (hidx : idx ∉ order)
    (hsome : ∀ j ∈ order ++ [idx], (cache.slots j).isSome = true) :
    (cache.pushBack idx).links.Are (order ++ [idx]) :=
  (h.pushBack hidx).congr pushBack_fields.2.2.1 pushBack_fields.2.2.2 fun j hj =>
    links_of_slots slots_pushBack (hsome j hj)

theorem Represents.of_perm {cache' : TinyLinkedLruCache N}
    {es' : List (Fin N × Blake3Hash × Bytes)} (h : Represents reserved cache es)
    (hperm : es'.Perm es) (hlinks : cache'.links.Are (es'.map Prod.fst))
    (hpayload : ∀ j, cache'.payload j = cache.payload j) (hindex : cache'.index = cache.index)
    (hfree : cache'.free = cache.free) : Represents reserved cache' es' where
  links := hlinks
  keys_nodup := ((hperm.map Prod.snd).map Prod.fst).nodup_iff.mpr h.keys_nodup
  payload j entry := by rw [hpayload, h.payload, hperm.mem_iff]
  index key j := by simp only [hindex, h.index, hperm.mem_iff]
  free_nodup := hfree ▸ h.free_nodup
  mem_free j := by rw [hfree, h.mem_free, (hperm.map Prod.fst).mem_iff]

theorem Represents.moveToBack {e : Fin N × Blake3Hash × Bytes}
    (h : Represents reserved cache (before ++ e :: after)) :
    Represents reserved (cache.moveToBack e.1) (before ++ after ++ [e]) := by
  have hperm : (before ++ after ++ [e]).Perm (before ++ e :: after) :=
    (List.perm_append_singleton e _).trans List.perm_middle.symm
  have hnodup := h.links.nodup
  rw [List.map_append, List.map_cons, List.nodup_append, List.nodup_cons] at hnodup
  obtain ⟨-, ⟨hafter, -⟩, hbefore⟩ := hnodup
  rw [TinyLinkedLruCache.moveToBack]
  split_ifs with htail
  · have hlast := h.links.tail.symm.trans htail
    cases after using List.reverseRecOn with
    | nil =>
        rw [List.append_nil]
        exact h
    | append_singleton after a _ =>
        rw [← List.cons_append, ← List.append_assoc, List.map_append, List.map_singleton,
          List.getLast?_concat] at hlast
        refine absurd ?_ hafter
        rw [← Option.some.inj hlast]
        exact List.mem_map_of_mem (List.mem_append_right after List.mem_cons_self)
  · have he : (cache.slots e.1).isSome = true :=
      h.isSome (List.mem_map_of_mem (List.mem_append_right before List.mem_cons_self))
    have hpayload : ∀ j, ((cache.detach e.1).pushBack e.1).payload j = cache.payload j := fun j =>
      (payload_of_slots slots_pushBack j).trans (payload_of_slots (slots_detach he) j)
    refine h.of_perm hperm ?_ hpayload (pushBack_fields.1.trans (detach_fields he).1)
      (pushBack_fields.2.1.trans (detach_fields he).2.1)
    have hnotMem : e.1 ∉ (before ++ after).map Prod.fst := by
      rw [List.map_append, List.mem_append, not_or]
      exact ⟨fun hmem => hbefore _ hmem _ List.mem_cons_self rfl, hafter⟩
    rw [List.map_append, List.map_singleton]
    refine are_pushBack h.are_detach hnotMem fun j hj => ?_
    rw [slots_detach he, Option.isSome_map]
    refine h.isSome ?_
    rw [← List.map_singleton, ← List.map_append] at hj
    exact (hperm.map Prod.fst).subset hj

theorem mem_middle (before : List (Fin N × Blake3Hash × Bytes)) {idx j : Fin N}
    {x y : Blake3Hash × Bytes} (hnodup : ((before ++ (idx, x) :: after).map Prod.fst).Nodup) :
    (j, y) ∈ before ++ (idx, x) :: after ↔ if idx = j then x = y else (j, y) ∈ before ++ after := by
  rw [List.map_append, List.map_cons, List.nodup_append, List.nodup_cons] at hnodup
  obtain ⟨-, ⟨hafter, -⟩, hbefore⟩ := hnodup
  simp only [List.mem_append, List.mem_cons, Prod.mk.injEq]
  split_ifs with hj
  · subst hj
    constructor
    · rintro (hmem | ⟨-, rfl⟩ | hmem)
      · exact absurd rfl (hbefore idx (List.mem_map_of_mem hmem) idx List.mem_cons_self)
      · rfl
      · exact absurd (List.mem_map_of_mem hmem) hafter
    · rintro rfl
      exact Or.inr (Or.inl ⟨rfl, rfl⟩)
  · simp [Ne.symm hj]

theorem Represents.setBytes {old : Bytes}
    (h : Represents reserved cache (before ++ (idx, key, old) :: after)) (bytes : Bytes) :
    Represents reserved (cache.modify idx fun entry => { entry with bytes })
      (before ++ (idx, key, bytes) :: after) := by
  have hslots : (before ++ (idx, key, bytes) :: after).map Prod.fst
      = (before ++ (idx, key, old) :: after).map Prod.fst := by simp
  have hnodup := h.links.nodup
  have hold : cache.payload idx = some (key, old) :=
    (h.payload idx (key, old)).mpr (List.mem_append_right before List.mem_cons_self)
  refine ⟨?_, ?_, fun j entry => ?_, fun other j => ?_, h.free_nodup, fun j => ?_⟩
  · rw [hslots]
    refine h.links.congr rfl rfl fun j _ => ?_
    simp only [TinyLinkedLruCache.links, slots_modify]
    split_ifs <;> cases cache.slots j <;> exact ⟨rfl, rfl⟩
  · have hkeys := h.keys_nodup
    simpa [Recency.keys] using hkeys
  · rw [mem_middle before (hslots ▸ hnodup), TinyLinkedLruCache.payload, slots_modify]
    split_ifs with hj
    · subst hj
      obtain ⟨cur, hcur, heq⟩ := Option.map_eq_some_iff.mp hold
      obtain ⟨rfl, -⟩ := Prod.mk.inj heq
      rw [hcur]
      exact Option.some_inj
    · have hpayload := h.payload j entry
      rwa [mem_middle before hnodup, if_neg hj] at hpayload
  · refine (h.index other j).trans ?_
    simp only [List.mem_append, List.mem_cons, Prod.mk.injEq, exists_or, exists_and_left,
      exists_eq, and_true]
  · rw [hslots]
    exact h.mem_free j

/-! ### Taking a slot for a new entry -/

theorem Represents.length_le (h : Represents reserved cache es) : es.length ≤ N := by
  have hle := h.links.nodup.length_le_card
  rwa [List.length_map, Fintype.card_fin] at hle

theorem Represents.popFree {free : List (Fin N)} (h : Represents none cache es)
    (hfree : cache.free = idx :: free) :
    idx ∉ es.map Prod.fst ∧ es.length < N
      ∧ Represents (some idx) { cache with free } es := by
  have hnodup := h.free_nodup
  rw [hfree, List.nodup_cons] at hnodup
  have hidx : idx ∉ es.map Prod.fst := ((h.mem_free idx).mp (hfree ▸ List.mem_cons_self)).1
  have hroom := (List.nodup_cons.mpr ⟨hidx, h.links.nodup⟩).length_le_card
  rw [List.length_cons, List.length_map, Fintype.card_fin] at hroom
  refine ⟨hidx, hroom, h.links, h.keys_nodup, h.payload, h.index, hnodup.2, fun j => ?_⟩
  have hmem := h.mem_free j
  rw [hfree, List.mem_cons] at hmem
  constructor
  · intro hj
    refine ⟨(hmem.mp (Or.inr hj)).1, fun heq => hnodup.1 ?_⟩
    rwa [← Option.some.inj heq]
  · rintro ⟨hj, hne⟩
    refine (hmem.mpr ⟨hj, (Option.some_ne_none j)⟩).resolve_left fun heq => hne ?_
    rw [heq]

theorem Represents.length_of_free_nil (h : Represents none cache es) (hfree : cache.free = []) :
    es.length = N := by
  refine h.length_le.antisymm ?_
  have hall : (Finset.univ : Finset (Fin N)) ⊆ (es.map Prod.fst).toFinset := by
    intro j _
    by_contra hj
    rw [List.mem_toFinset] at hj
    have hmem := (h.mem_free j).mpr ⟨hj, Option.some_ne_none j⟩
    rw [hfree] at hmem
    cases hmem
  have hle := (Finset.card_le_card hall).trans (List.toFinset_card_le _)
  rwa [Finset.card_univ, Fintype.card_fin, List.length_map] at hle

theorem Represents.takeHead (h : Represents none cache ((idx, key, bytes) :: es)) :
    Represents (some idx) { cache.detach idx with
      slots := Function.update (cache.detach idx).slots idx none
      index := (cache.detach idx).index.erase key } es := by
  have hslots : idx ∉ es.map Prod.fst ∧ (es.map Prod.fst).Nodup := List.nodup_cons.mp h.links.nodup
  have hkeys : key ∉ keys (es.map Prod.snd) ∧ (keys (es.map Prod.snd)).Nodup :=
    List.nodup_cons.mp h.keys_nodup
  have hsome : (cache.slots idx).isSome = true := h.isSome (List.mem_map_of_mem List.mem_cons_self)
  obtain ⟨hindex, hfreeEq, -, -⟩ := detach_fields hsome
  have hdetach : (cache.detach idx).links.Are (es.map Prod.fst) :=
    @Represents.are_detach N cache [] es none (idx, key, bytes) h
  refine ⟨are_update hdetach hslots.1 .., hkeys.2, fun j entry => ?_, fun other j => ?_, ?_,
    fun j => ?_⟩
  · rw [payload_update]
    split_ifs with hj
    · exact iff_of_false (Option.some_ne_none entry).symm fun hmem =>
        hslots.1 (hj ▸ List.mem_map_of_mem hmem)
    · have hmiddle : (j, entry) ∈ (idx, key, bytes) :: es
          ↔ if idx = j then (key, bytes) = entry else (j, entry) ∈ es :=
        mem_middle [] h.links.nodup
      rw [payload_of_slots (slots_detach hsome), h.payload, hmiddle, if_neg hj]
  · dsimp only
    rw [FMap.lookup_erase_eq, hindex]
    split_ifs with hother
    · refine iff_of_false not_false ?_
      rintro ⟨bytes, hmem⟩
      refine hkeys.1 (hother ▸ ?_)
      exact List.mem_map_of_mem (List.mem_map_of_mem hmem)
    · rw [h.index]
      simp [hother]
  · dsimp only
    rw [hfreeEq]
    exact h.free_nodup
  · dsimp only
    rw [hfreeEq, h.mem_free, List.map_cons, List.mem_cons, not_or]
    simp only [ne_eq, reduceCtorEq, not_false_eq_true, and_true, Option.some.injEq]
    exact and_comm

theorem Represents.append (h : Represents (some idx) cache es) (hidx : idx ∉ es.map Prod.fst)
    (hkey : key ∉ keys (es.map Prod.snd)) (bytes : Bytes) :
    Represents none (({ cache with
      slots := Function.update cache.slots idx (some ⟨key, bytes, none, none⟩)
      index := cache.index.insert key idx } : TinyLinkedLruCache N).pushBack idx)
      (es ++ [(idx, key, bytes)]) := by
  have hlinks := are_update h.links hidx (some ⟨key, bytes, none, none⟩)
    (cache.index.insert key idx)
  have hnodup : ((es ++ [(idx, key, bytes)]).map Prod.fst).Nodup := by
    rw [List.map_append]
    exact List.nodup_append_comm.mp (List.nodup_cons.mpr ⟨hidx, h.links.nodup⟩)
  have hpayload : ∀ j entry, (({ cache with
      slots := Function.update cache.slots idx (some ⟨key, bytes, none, none⟩)
      index := cache.index.insert key idx } : TinyLinkedLruCache N).pushBack idx).payload j
        = some entry ↔ (j, entry) ∈ es ++ [(idx, key, bytes)] := by
    intro j entry
    rw [payload_of_slots slots_pushBack, payload_update, mem_middle es hnodup, List.append_nil]
    split_ifs with hj
    · exact Option.some_inj
    · exact h.payload j entry
  refine ⟨?_, ?_, hpayload, fun other j => ?_, ?_, fun j => ?_⟩
  · rw [List.map_append]
    refine are_pushBack hlinks hidx fun j hj => ?_
    have hj : j ∈ (es ++ [(idx, key, bytes)]).map Prod.fst := by
      rwa [List.map_append, List.map_singleton]
    obtain ⟨⟨j, entry⟩, hmem, rfl⟩ := List.mem_map.mp hj
    have hsome := (hpayload j entry).mpr hmem
    rw [payload_of_slots slots_pushBack] at hsome
    exact Option.isSome_map.symm.trans (Option.isSome_iff_exists.mpr ⟨entry, hsome⟩)
  · rw [List.map_append, Recency.keys_append]
    exact List.nodup_append_comm.mp (List.nodup_cons.mpr ⟨hkey, h.keys_nodup⟩)
  · rw [pushBack_fields.1]
    dsimp only
    rw [FMap.lookup_insert_eq]
    have hnone : ∀ bytes, (j, key, bytes) ∉ es := fun bytes hmem =>
      hkey (List.mem_map_of_mem (List.mem_map_of_mem hmem))
    simp only [List.mem_append, List.mem_singleton, Prod.mk.injEq]
    split_ifs with hother
    · subst hother
      simp [hnone, eq_comm]
    · rw [h.index]
      simp [hother]
  · rw [pushBack_fields.2.1]
    exact h.free_nodup
  · rw [pushBack_fields.2.1]
    refine (h.mem_free j).trans ?_
    rw [List.map_append, List.mem_append, not_or, List.map_singleton, List.mem_singleton]
    simp only [ne_eq, Option.some.injEq, reduceCtorEq, not_false_eq_true, and_true]

theorem allocateSlot_spec (hN : N ≠ 0) (h : Represents none cache es) :
    ∃ idx cache' es', cache.allocateSlot = some (idx, cache')
      ∧ es' = (if es.length < N then es else es.tail) ∧ idx ∉ es'.map Prod.fst
      ∧ Represents (some idx) cache' es' := by
  rw [allocateSlot]
  cases hfree : cache.free with
  | cons idx free =>
      obtain ⟨hidx, hroom, hpop⟩ := h.popFree hfree
      exact ⟨idx, _, es, rfl, (if_pos hroom).symm, hidx, hpop⟩
  | nil =>
      have hlength := h.length_of_free_nil hfree
      cases es with
      | nil => exact absurd hlength.symm hN
      | cons e es =>
          obtain ⟨idx, key, bytes⟩ := e
          have hhead : cache.head = some idx := h.links.head
          have hsome : (cache.slots idx).isSome = true :=
            h.isSome (List.mem_map_of_mem List.mem_cons_self)
          have hold : (cache.detach idx).payload idx = some (key, bytes) :=
            (payload_of_slots (slots_detach hsome) idx).trans
              ((h.payload idx (key, bytes)).mpr List.mem_cons_self)
          obtain ⟨old, hslot, heq⟩ := Option.map_eq_some_iff.mp hold
          obtain ⟨rfl, -⟩ := Prod.mk.inj heq
          refine ⟨idx, _, es, ?_, (if_neg hlength.not_lt).symm,
            (List.nodup_cons.mp h.links.nodup).1, h.takeHead⟩
          simp only [hhead, hslot]

theorem Represents.lookup_eq_none (h : Represents reserved cache es)
    (hnone : cache.index.lookup key = none) : key ∉ keys (es.map Prod.snd) := by
  intro hkey
  obtain ⟨⟨key, bytes⟩, hmem, rfl⟩ := List.mem_map.mp hkey
  obtain ⟨⟨idx, key, bytes⟩, hmem, heq⟩ := List.mem_map.mp hmem
  cases heq
  cases hnone.symm.trans ((h.index key idx).mpr ⟨bytes, hmem⟩)

theorem Represents.lookup_eq_some (h : Represents reserved cache es)
    (hsome : cache.index.lookup key = some idx) :
    ∃ before after bytes, es = before ++ (idx, key, bytes) :: after
      ∧ find key (es.map Prod.snd) = some bytes
      ∧ ∀ value, ((before ++ after ++ [(idx, key, value)]).map Prod.snd)
        = Recency.touch key value (es.map Prod.snd) := by
  obtain ⟨bytes, hmem⟩ := (h.index key idx).mp hsome
  have hkeys := h.keys_nodup
  have hfind := Recency.find_of_mem hkeys (List.mem_map_of_mem hmem)
  obtain ⟨before, after, rfl⟩ := List.append_of_mem hmem
  refine ⟨before, after, bytes, rfl, hfind, fun value => ?_⟩
  have hmap : (before ++ (idx, key, bytes) :: after).map Prod.snd
      = before.map Prod.snd ++ (key, bytes) :: after.map Prod.snd := List.map_append
  rw [hmap] at hkeys ⊢
  rw [Recency.touch, Recency.remove_middle _ _ hkeys, List.map_append, List.map_append]
  rfl

theorem get_spec (h : Represents none cache es) (key : Blake3Hash) :
    (cache.get key).1 = (Recency.get key (es.map Prod.snd)).1
      ∧ ∃ es', es'.map Prod.snd = (Recency.get key (es.map Prod.snd)).2
        ∧ Represents none (cache.get key).2 es' := by
  rw [TinyLinkedLruCache.get, Recency.get]
  cases hlookup : cache.index.lookup key with
  | none =>
      rw [Recency.find_eq_none_iff.mpr (h.lookup_eq_none hlookup)]
      exact ⟨rfl, es, rfl, h⟩
  | some idx =>
      obtain ⟨before, after, bytes, rfl, hfind, htouch⟩ := h.lookup_eq_some hlookup
      have hpayload : cache.payload idx = some (key, bytes) :=
        (h.payload idx (key, bytes)).mpr (List.mem_append_right before List.mem_cons_self)
      obtain ⟨entry, hslot, heq⟩ := Option.map_eq_some_iff.mp hpayload
      obtain ⟨-, rfl⟩ := Prod.mk.inj heq
      simp only [hslot, hfind]
      exact ⟨trivial, _, htouch entry.bytes, h.moveToBack⟩

theorem put_spec (hN : N ≠ 0) (h : Represents none cache es) (key : Blake3Hash) (bytes : Bytes) :
    ∃ cache' es', cache.put key bytes = some cache'
      ∧ es'.map Prod.snd = Recency.put (fun _ => 1) N key bytes (es.map Prod.snd)
      ∧ Represents none cache' es' := by
  have hlength : (es.map Prod.snd).length ≤ N := by
    rw [List.length_map]
    exact h.length_le
  rw [TinyLinkedLruCache.put, if_neg hN]
  cases hlookup : cache.index.lookup key with
  | some idx =>
      have hkeys := h.keys_nodup
      obtain ⟨before, after, old, rfl, hfind, htouch⟩ := h.lookup_eq_some hlookup
      rw [Recency.put_of_find hkeys hlength hfind]
      exact ⟨_, _, rfl, htouch bytes, (h.setBytes bytes).moveToBack⟩
  | none =>
      have hkey := h.lookup_eq_none hlookup
      obtain ⟨idx, cache', es', hallocate, rfl, hidx, hreserved⟩ := allocateSlot_spec hN h
      have hmap : (if es.length < N then es else es.tail).map Prod.snd
          = if es.length < N then es.map Prod.snd else (es.map Prod.snd).tail := by
        rw [apply_ite (List.map Prod.snd), List.map_tail]
      have hkey' : key ∉ keys ((if es.length < N then es else es.tail).map Prod.snd) := by
        rw [hmap]
        split_ifs
        · exact hkey
        · exact fun hmem => hkey (((List.tail_sublist _).map Prod.fst).subset hmem)
      refine ⟨_, _, by simp only [hallocate], ?_, hreserved.append hidx hkey' bytes⟩
      rw [Recency.put_of_notMem hN hlength hkey, List.map_append, hmap, List.length_map]
      rfl

/-- The cache with its entries in order of use. -/
def Refines (cache : TinyLinkedLruCache N) (l : List (Blake3Hash × Bytes)) : Prop :=
  ∃ es, es.map Prod.snd = l ∧ Represents none cache es

theorem step_spec (hN : N ≠ 0) (cache : TinyLinkedLruCache N) (l : List (Blake3Hash × Bytes))
    (op : Recency.Op Blake3Hash Bytes) (out : Option Bytes) (cache' : TinyLinkedLruCache N)
    (h : Refines cache l) (hstep : cache.step op = some (out, cache')) :
    (Recency.step (fun _ => 1) N l op).1 = out
      ∧ Refines cache' (Recency.step (fun _ => 1) N l op).2 := by
  obtain ⟨es, rfl, h⟩ := h
  cases op with
  | get key =>
      have heq : cache.get key = (out, cache') := Option.some_inj.mp hstep
      obtain ⟨hout, hnext⟩ := get_spec h key
      rw [heq] at hout hnext
      exact ⟨hout.symm, hnext⟩
  | put key bytes =>
      obtain ⟨next, es', hput, hl, hnext⟩ := put_spec hN h key bytes
      rw [step, hput] at hstep
      cases hstep
      exact ⟨rfl, es', hl, hnext⟩

theorem exists_step (hN : N ≠ 0) (cache : TinyLinkedLruCache N) (l : List (Blake3Hash × Bytes))
    (op : Recency.Op Blake3Hash Bytes) (h : Refines cache l) :
    ∃ res, cache.step op = some res := by
  obtain ⟨es, rfl, h⟩ := h
  cases op with
  | get key => exact ⟨_, rfl⟩
  | put key bytes =>
      obtain ⟨next, es', hput, -, -⟩ := put_spec hN h key bytes
      exact ⟨_, congrArg (Option.map _) hput⟩

end Steps

/-- The list, the index and the free slots fit together: the occupied slots are in the list, each
once, those and no others are in the index under their keys, and the others are free. -/
structure Consistent (cache : TinyLinkedLruCache N) (order : List (Fin N)) : Prop where
  links : cache.links.Are order
  live : ∀ idx, idx ∈ order ↔ (cache.slots idx).isSome = true
  index : ∀ key idx, cache.index.lookup key = some idx
    ↔ ∃ entry, cache.slots idx = some entry ∧ entry.key = key
  free_nodup : cache.free.Nodup
  mem_free : ∀ idx, idx ∈ cache.free ↔ cache.slots idx = none

theorem Represents.consistent {es : List (Fin N × Blake3Hash × Bytes)}
    (h : Represents none cache es) : cache.Consistent (es.map Prod.fst) := by
  have hlive : ∀ idx, idx ∈ es.map Prod.fst ↔ (cache.slots idx).isSome = true := by
    refine fun idx => ⟨h.isSome, fun hsome => ?_⟩
    obtain ⟨entry, hentry⟩ := Option.isSome_iff_exists.mp hsome
    exact List.mem_map_of_mem ((h.payload idx _).mp (congrArg (Option.map _) hentry))
  refine ⟨h.links, hlive, fun key idx => ?_, h.free_nodup, fun idx => ?_⟩
  · rw [h.index]
    constructor
    · rintro ⟨bytes, hmem⟩
      obtain ⟨entry, hentry, heq⟩ := Option.map_eq_some_iff.mp ((h.payload idx _).mpr hmem)
      exact ⟨entry, hentry, congrArg Prod.fst heq⟩
    · rintro ⟨entry, hentry, rfl⟩
      exact ⟨entry.bytes, (h.payload idx _).mp (congrArg (Option.map _) hentry)⟩
  · rw [h.mem_free, and_iff_left (Option.some_ne_none idx), hlive, Bool.not_eq_true,
      Option.isSome_eq_false_iff, Option.isNone_iff_eq_none]

/-- A cache with at least one slot answers every run of operations, and as the list of the most
recently used entries does. After all of them it is consistent, with the entries of its slots in
order of use. -/
theorem tiny_lru_refines (n : ℕ) (ops : List (Recency.Op Blake3Hash Bytes)) :
    ∃ outs cache order, Recency.run step ops (default (n + 1)) = some (outs, cache)
      ∧ (Recency.reference (fun _ => 1) (n + 1) ops []).1 = outs
      ∧ (Recency.reference (fun _ => 1) (n + 1) ops []).2.length ≤ n + 1
      ∧ cache.Consistent order
      ∧ order.map cache.payload
        = (Recency.reference (fun _ => 1) (n + 1) ops []).2.map some := by
  have hN : n + 1 ≠ 0 := Nat.succ_ne_zero n
  have hinit : Refines (default (n + 1)) [] := ⟨[], rfl, represents_default (n + 1)⟩
  obtain ⟨⟨outs, cache⟩, hrun⟩ := Recency.exists_run (step_spec hN) (exists_step hN) ops hinit
  obtain ⟨houts, es, hl, h⟩ := Recency.run_refines (step_spec hN) hinit hrun
  refine ⟨outs, cache, es.map Prod.fst, hrun, houts, ?_, h.consistent, ?_⟩
  · rw [← hl, List.length_map]
    exact h.length_le
  · rw [← hl, List.map_map, List.map_map]
    exact List.map_congr_left fun e he => (h.payload e.1 e.2).mpr he

end TinyLinkedLruCache

end ArcVcs
