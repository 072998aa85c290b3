import ArcVcs.Closure
import ArcVcs.Lib.Program
import ArcVcs.NativeFetch

/-!
# The native pull

`sync_native_with_semantic_gate` asks for the hashes that it computes to be missing, checks the
blocks and writes them. The computation only follows the records of the local store, so it asks
for the remote heads but not for what lies between them and the local history.
-/

namespace ArcVcs

inductive PullError where
  | missing (error : SearchError)
  | sync (error : SyncError)
  | policy
deriving DecidableEq

/-- Fetches the blocks of some ids and decodes them. -/
abbrev Transfer := List Blake3Hash → Except SyncError (List (CasWireBlock × Change))

/-- A transfer that succeeds returns one remote record or more for each id, and nothing else. -/
def Transfer.Honest (transfer : Transfer) (remote : ObjectStore) : Prop :=
  ∀ ids blocks, transfer ids = .ok blocks →
    (∀ id, id ∈ ids ↔ id ∈ blocks.map fun block => block.1.hash)
      ∧ ∀ block ∈ blocks, remote.lookup block.1.hash = some block.1.bytes

def adoptBlocks (store : ObjectStore) (blocks : List (CasWireBlock × Change)) : ObjectStore :=
  blocks.foldl (fun store block => store.writeChangeBytes block.1.hash block.1.bytes) store

/-- `sync_native_with_semantic_gate` up to the adoption of the frontier, with what the peer
answers and what the policy accepts. `none` means that the fuel ran out. -/
def nativePull [Serde] (transfer : Transfer) (policy : List Atom → Bool) (store : ObjectStore)
    (localFrontier remoteFrontier : List Blake3Hash) : Option (Except PullError ObjectStore) :=
  match store.computeMissingHashes localFrontier remoteFrontier with
  | none => none
  | some (.error e) => some (.error (.missing e))
  | some (.ok missing) =>
      if missing.isEmpty then some (.ok store)
      else
        match transfer missing with
        | .error e => some (.error (.sync e))
        | .ok blocks =>
            if policy (blocks.flatMap fun block => block.2.atoms) = false then
              some (.error .policy)
            else some (.ok (adoptBlocks store blocks))

/-! ## The transfer is honest -/

theorem FMap.mem_keys_putOnce {κ ν : Type*} [DecidableEq κ] {m : FMap κ ν} {k j : κ} {v : ν} :
    j ∈ (m.putOnce k v).keys ↔ j = k ∨ j ∈ m.keys := by
  rw [FMap.mem_keys_iff, FMap.lookup_putOnce]
  by_cases hj : j = k
  · subst hj
    by_cases hk : j ∈ m.keys
    · simpa [hk] using FMap.mem_keys_iff.mp hk
    · simp [hk]
  · simp [hj, FMap.mem_keys_iff]

theorem mem_keys_adoptBlocks {store : ObjectStore} {blocks : List (CasWireBlock × Change)}
    {id : Blake3Hash} :
    id ∈ (adoptBlocks store blocks).keys
      ↔ id ∈ store.keys ∨ id ∈ blocks.map fun block => block.1.hash := by
  induction blocks generalizing store with
  | nil => simp [adoptBlocks]
  | cons block blocks ih =>
      rw [adoptBlocks, List.foldl_cons]
      refine ih.trans ?_
      rw [ObjectStore.writeChangeBytes, FMap.mem_keys_putOnce, List.map_cons, List.mem_cons,
        or_assoc, or_left_comm]

section Honest

variable [Crypto]

omit [Crypto] in
theorem checkRemaining_eq_ok_iff {remaining : Finset Blake3Hash} {blocks out : List CasWireBlock} :
    checkRemaining remaining blocks = .ok out ↔ remaining = ∅ ∧ blocks = out := by
  rw [checkRemaining]
  split_ifs with h
  · simp [h]
  · simp [not_not.mp h]

theorem receiveBlocks_stream {store : ObjectStore} {requested : Finset Blake3Hash}
    {ids : List Blake3Hash} {remaining : Finset Blake3Hash} {blocks out : List CasWireBlock}
    (hids : ∀ id ∈ ids, id ∈ requested)
    (hrun : receiveBlocks requested (streamRequestedBlocks store ids) remaining blocks = .ok out) :
    ∃ new, out = blocks ++ new ∧ (∀ block ∈ new, block.hash ∈ requested)
      ∧ (∀ block ∈ new, store.lookup block.hash = some block.bytes)
      ∧ ∀ id ∈ remaining, id ∈ new.map CasWireBlock.hash := by
  induction ids generalizing remaining blocks with
  | nil =>
      obtain ⟨rfl, rfl⟩ := checkRemaining_eq_ok_iff.mp hrun
      exact ⟨[], by simp⟩
  | cons id ids ih =>
      rw [streamRequestedBlocks, ObjectStore.readChangeBytes] at hrun
      cases hlook : store.lookup id with
      | none =>
          rw [hlook] at hrun
          obtain ⟨rfl, rfl⟩ := checkRemaining_eq_ok_iff.mp hrun
          exact ⟨[], by simp⟩
      | some bytes =>
          rw [hlook] at hrun
          dsimp only at hrun
          rw [receiveBlocks, if_neg (not_not.mpr (hids id List.mem_cons_self))] at hrun
          split_ifs at hrun
          obtain ⟨new, rfl, hreq, hstored, hall⟩ :=
            ih (fun x hx => hids x (.tail _ hx)) hrun
          refine ⟨⟨id, bytes⟩ :: new, by simp, ?_, ?_, fun x hx => ?_⟩
          · simpa using ⟨hids id List.mem_cons_self, hreq⟩
          · simpa using ⟨hlook, hstored⟩
          · by_cases hxid : x = id
            · simp [hxid]
            · exact List.mem_cons_of_mem _ (hall x (Finset.mem_erase.mpr ⟨hxid, hx⟩))

theorem fetchCasBlocks_honest {store : ObjectStore} {ids : List Blake3Hash}
    {blocks : List CasWireBlock}
    (hrun : fetchCasBlocks (streamRequestedBlocks store) ids = .ok blocks) :
    (∀ id, id ∈ ids ↔ id ∈ blocks.map CasWireBlock.hash)
      ∧ ∀ block ∈ blocks, store.lookup block.hash = some block.bytes := by
  obtain ⟨new, rfl, hreq, hstored, hall⟩ :=
    receiveBlocks_stream (fun id hid => List.mem_toFinset.mpr hid) hrun
  refine ⟨fun id => ⟨fun hid => hall id (List.mem_toFinset.mpr hid), fun hid => ?_⟩, hstored⟩
  obtain ⟨block, hblock, rfl⟩ := List.mem_map.mp hid
  exact List.mem_toFinset.mp (hreq block hblock)

omit [Crypto] in
theorem map_fst_of_mapM {α β ε : Type} {f : α → Except ε β} {xs : List α} {out : List (α × β)}
    (h : (xs.mapM fun x => (f x).map fun y => (x, y)) = .ok out) : out.map Prod.fst = xs := by
  induction xs generalizing out with
  | nil =>
      obtain rfl : [] = out := Except.ok.inj h
      rfl
  | cons x xs ih =>
      rw [List.mapM_cons] at h
      obtain ⟨y, hy, h⟩ := Except.bind_eq_ok_iff.mp h
      obtain ⟨rest, hrest, h⟩ := Except.bind_eq_ok_iff.mp h
      obtain rfl := Except.ok.inj h
      cases hf : f x with
      | error e => simp [hf, Except.map] at hy
      | ok b =>
          obtain rfl : (x, b) = y := by simpa [hf, Except.map] using hy
          rw [List.map_cons, ih hrest]

/-- The native transfer is honest when it succeeds. A block is labelled with the id of its change,
which is not the hash that the client checks: collisions apart, only an empty request succeeds. -/
theorem honest_nativeTransfer [Ed25519] [Serde] (remote : ObjectStore) :
    Transfer.Honest (nativeTransfer (streamRequestedBlocks remote)) remote := by
  intro ids blocks hrun
  rw [nativeTransfer] at hrun
  cases hfetch : fetchCasBlocks (streamRequestedBlocks remote) ids with
  | error e => simp [hfetch] at hrun
  | ok fetched =>
      rw [hfetch] at hrun
      have hfst : blocks.map Prod.fst = fetched := map_fst_of_mapM hrun
      obtain ⟨hids, hstored⟩ := fetchCasBlocks_honest hfetch
      subst hfst
      refine ⟨fun id => ?_, fun block hblock => hstored _ (List.mem_map_of_mem hblock)⟩
      rw [hids, List.map_map]
      rfl

end Honest

/-- **A pull transfers the whole closure iff all that the local store lacks are heads** that the
local frontier does not name. -/
theorem nativePull_closure_iff [Serde] {transfer : Transfer} {remote : ObjectStore}
    (htransfer : transfer.Honest remote) (policy : List Atom → Bool) {store store' : ObjectStore}
    (hclosed : store.Closed) {localFrontier remoteFrontier : List Blake3Hash}
    (hpull : nativePull transfer policy store localFrontier remoteFrontier = some (.ok store')) :
    (∀ h ∈ remoteFrontier, ∀ a, remote.Reaches h a → a ∈ store'.keys)
      ↔ ∀ h ∈ remoteFrontier, ∀ a, remote.Reaches h a → a ∉ store.keys →
        a ∈ remoteFrontier ∧ a ∉ localFrontier := by
  rw [nativePull] at hpull
  cases hcompute : store.computeMissingHashes localFrontier remoteFrontier with
  | none => simp [hcompute] at hpull
  | some computed =>
      cases computed with
      | error e => simp [hcompute] at hpull
      | ok missing =>
          have hkeys : ∀ a, a ∈ store'.keys ↔ a ∈ store.keys ∨ a ∈ missing := by
            intro a
            simp only [hcompute] at hpull
            split_ifs at hpull with hempty
            · obtain rfl := Except.ok.inj (Option.some.inj hpull)
              simp [List.isEmpty_iff.mp hempty]
            · cases hrun : transfer missing with
              | error e => simp [hrun] at hpull
              | ok blocks =>
                  simp only [hrun] at hpull
                  split_ifs at hpull with hpolicy
                  · cases hpull
                  · obtain rfl := Except.ok.inj (Option.some.inj hpull)
                    rw [mem_keys_adoptBlocks, (htransfer missing blocks hrun).1]
          refine forall_congr' fun h => forall_congr' fun hh => forall_congr' fun a =>
            forall_congr' fun hreach => ?_
          rw [hkeys]
          constructor
          · intro hmem ha
            exact (ObjectStore.mem_computeMissingHashes hclosed hcompute ha).mp
              (hmem.resolve_left ha)
          · intro himp
            by_cases ha : a ∈ store.keys
            · exact .inl ha
            · exact .inr
                ((ObjectStore.mem_computeMissingHashes hclosed hcompute ha).mpr (himp ha))

def pulledChange : Change :=
  @Change.newWithMetadata (@Crypto.ofBytes (Serde.sample [])) {recordedChange.id} [] "next"
    (.human "" "" 7) .human false 7

def pulledBytes : Bytes := @Bincode.serialize (Serde.sample []) pulledChange

def pulledStore : ObjectStore :=
  FMap.insertAll ∅ [(recordedChange.id, recordedBytes), (pulledChange.id, pulledBytes)]

def deliverPulled : Transfer := fun ids =>
  if ids = [pulledChange.id] then .ok [(⟨pulledChange.id, pulledBytes⟩, pulledChange)]
  else .error .decode

theorem deliverPulled_honest : deliverPulled.Honest pulledStore := by
  intro ids blocks hrun
  rw [deliverPulled] at hrun
  split_ifs at hrun with hids
  obtain rfl := Except.ok.inj hrun
  refine ⟨fun id => by simp [hids], fun block hblock => ?_⟩
  obtain rfl := List.mem_singleton.mp hblock
  decide +kernel

/-- A peer that is two changes ahead. -/
theorem nativePull_two_changes :
    letI := Serde.sample [(recordedBytes, recordedChange), (pulledBytes, pulledChange)]
    ∃ store', nativePull deliverPulled (fun _ => true) ∅ [] [pulledChange.id] = some (.ok store')
      ∧ ¬ ∀ h ∈ [pulledChange.id], ∀ a, pulledStore.Reaches h a → a ∈ store'.keys := by
  let _ := Serde.sample [(recordedBytes, recordedChange), (pulledBytes, pulledChange)]
  have hclosed : (∅ : ObjectStore).Closed :=
    ObjectStore.closed_of_recordedDeps (by decide)
  have hread : pulledStore.readChange pulledChange.id = .ok pulledChange := by decide +kernel
  have hreach : pulledStore.Reaches pulledChange.id recordedChange.id :=
    .single ⟨pulledChange, hread, Finset.mem_singleton_self _⟩
  have hpull : nativePull deliverPulled (fun _ => true) ∅ [] [pulledChange.id]
      = some (.ok (Finmap.singleton pulledChange.id pulledBytes)) := by decide +kernel
  refine ⟨_, hpull, fun hall => ?_⟩
  have hiff := nativePull_closure_iff deliverPulled_honest (fun _ => true) hclosed hpull
  have hhead := hiff.mp hall _ (List.mem_singleton_self _) _ hreach (by decide)
  exact absurd (List.mem_singleton.mp hhead.1) (by decide +kernel)

/-- Only the head of a peer that is two changes ahead is transferred. From a peer whose head the
local frontier names but the local store lacks, nothing is. -/
theorem nativePull_leaves_ancestor :
    letI := Serde.sample [(recordedBytes, recordedChange), (pulledBytes, pulledChange)]
    letI := Crypto.ofBytes
    letI := Ed25519.sample
    (∅ : ObjectStore).Closed ∧ pulledStore.Closed ∧ deliverPulled.Honest pulledStore
      ∧ pulledStore.Reaches pulledChange.id recordedChange.id
      ∧ nativePull deliverPulled (fun _ => true) ∅ [] [pulledChange.id]
        = some (.ok (Finmap.singleton pulledChange.id pulledBytes))
      ∧ recordedChange.id ∉ (Finmap.singleton pulledChange.id pulledBytes : ObjectStore).keys
      ∧ nativePull (nativeTransfer (streamRequestedBlocks pulledStore)) (fun _ => true) ∅
        [pulledChange.id] [pulledChange.id] = some (.ok ∅) := by
  let _ := Serde.sample [(recordedBytes, recordedChange), (pulledBytes, pulledChange)]
  have hread : pulledStore.readChange pulledChange.id = .ok pulledChange := by decide +kernel
  refine ⟨ObjectStore.closed_of_recordedDeps (by decide),
    ObjectStore.closed_of_recordedDeps (by decide +kernel), deliverPulled_honest,
    .single ⟨pulledChange, hread, Finset.mem_singleton_self _⟩, ?_⟩
  decide +kernel

end ArcVcs
