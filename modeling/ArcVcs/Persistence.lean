import ArcVcs.Ingress

/-!
# What the ingress persists

The content-addressed store compares the hash of a record with its key, and the server offers it
records under change ids, which are hashes of payloads. So no verified change is ever stored.
-/

namespace ArcVcs

section Verify

variable [Crypto] [Ed25519]

theorem verified_of_verifyChanges {changes : List Change} (h : verifyChanges changes = .ok ())
    {c : Change} (hc : c ∈ changes) : c.verifySignature = true := by
  induction changes with
  | nil => simp at hc
  | cons a changes ih =>
      rw [verifyChanges] at h
      split_ifs at h with ha
      rcases List.mem_cons.mp hc with rfl | hc
      · simpa using ha
      · exact ih h hc

end Verify

theorem DeltaPayload.mem_of_changeMap {payload : DeltaPayload} {id : Blake3Hash} {c : Change}
    (h : payload.changeMap.lookup id = some c) : c ∈ payload.changes ∧ c.id = id := by
  by_cases hid : id ∈ (payload.changes.map fun c => (c.id, c)).map Prod.fst
  · obtain ⟨e, he, hfst, hlook⟩ := FMap.lookup_insertAll_of_mem ∅ _ hid
    obtain ⟨b, hb, rfl⟩ := List.mem_map.mp he
    obtain rfl : b = c := Option.some_inj.mp (hlook.symm.trans h)
    exact ⟨hb, hfst⟩
  · rw [DeltaPayload.changeMap, FMap.lookup_insertAll_of_notMem _ _ hid] at h
    simp at h

theorem collapseLoop_of_failing_writes {σ : Type} [Crypto] {write : σ → Change → Except Unit σ}
    {app : AppState} {changeMap : FMap Blake3Hash Change} {w : Wiring}
    (hfail : ∀ id c, changeMap.lookup id = some c → ∀ store, write store c = .error ())
    {fuel : ℕ} {inDegree : FMap Blake3Hash ℕ} {queue : List Blake3Hash}
    {rewritten : FMap Blake3Hash Blake3Hash} {processed : ℕ} {disk disk' : ServerDisk σ}
    {out : FMap Blake3Hash Blake3Hash × ℕ}
    (h : collapseLoop write app changeMap w fuel inDegree queue rewritten processed disk
      = some (.ok out, disk')) : out = (rewritten, processed) := by
  cases fuel with
  | zero => simp [collapseLoop] at h
  | succ fuel =>
      cases queue with
      | nil =>
          simp only [collapseLoop, Program.pure_run, Option.some.injEq, Prod.mk.injEq,
            Except.ok.injEq] at h
          exact h.1.symm
      | cons id queue =>
          rw [collapseLoop] at h
          cases hlook : changeMap.lookup id with
          | none => simp [hlook] at h
          | some c =>
              rw [hlook] at h
              obtain ⟨rewritten', disk₁, hprocess, -⟩ := Program.bind_eq_ok_iff.mp h
              have hstore : ∀ d, storeChange write c d = some (.error .internalServerError, d) := by
                intro d
                rw [storeChange, hfail id c hlook]
              rw [processChange] at hprocess
              split_ifs at hprocess
              · obtain ⟨_, d, hs, -⟩ := Program.bind_eq_ok_iff.mp hprocess
                simp [hstore] at hs
              · obtain ⟨_, d, hs, -⟩ := Program.bind_eq_ok_iff.mp hprocess
                simp [hstore] at hs

theorem collapse_of_failing_writes {σ : Type} [Crypto] [Serde] {write : σ → Change → Except Unit σ}
    {app : AppState} {payload : DeltaPayload}
    (hfail : ∀ c ∈ payload.changes, ∀ store, write store c = .error ()) {disk disk' : ServerDisk σ}
    {rewritten : FMap Blake3Hash Blake3Hash}
    (h : collapse write app payload disk = some (.ok rewritten, disk')) :
    payload.changes = [] ∧ rewritten = ∅ := by
  rw [collapse] at h
  split_ifs at h
  · simp [Program.throw] at h
  · obtain ⟨out, disk₁, hloop, hend⟩ := Program.bind_eq_ok_iff.mp h
    obtain rfl := collapseLoop_of_failing_writes
      (fun id c hlook => hfail c (DeltaPayload.mem_of_changeMap hlook).1) hloop
    by_cases hlength : 0 < payload.changes.length
    · simp [hlength, Program.throw] at hend
    · have hnil : payload.changes = [] := by simpa using hlength
      simp only [if_neg hlength, Program.pure_run, Option.some.injEq, Prod.mk.injEq,
        Except.ok.injEq] at hend
      exact ⟨hnil, hend.1.symm⟩

/-- The changes of the payload and their canonical forms are read back as they are. -/
structure Persisted [Crypto] [Serde] (app : AppState) (payload : DeltaPayload)
    (rewritten : FMap Blake3Hash Blake3Hash) (store : ObjectStore) : Prop where
  changes : ∀ c ∈ payload.changes, store.readChange c.id = .ok c
  canonical : ∀ c ∈ payload.changes, c.id ∈ rewritten.keys →
    store.readChange (canonicalOf app rewritten c).id = .ok (canonicalOf app rewritten c)

section Ingress

variable [Crypto] [Ed25519] [Serde]

theorem writeObject_verified [LawfulCrypto] {c : Change} (hc : c.verifySignature = true)
    (hinj : Set.InjOn Crypto.hashBytes {Bincode.serialize c, Bincode.idPayload c.payload})
    (store : ObjectStore) :
    store.writeObject c.id (Bincode.serialize c) = .error .hashMismatch := by
  rw [ObjectStore.writeObject, if_pos]
  exact hashBytes_ne_id (Bincode.encodes_serialize c) hc hinj

omit [Ed25519] in
theorem collapse_nil {σ : Type} (write : σ → Change → Except Unit σ) {app : AppState}
    (happ : app.serverAuthor.isServer = true) {payload : DeltaPayload}
    (hnil : payload.changes = []) (disk : ServerDisk σ) :
    collapse write app payload disk = some (.ok ∅, disk) := by
  have hready : (Wiring.ofPayload payload).ready = ∅ := by
    rw [Wiring.ofPayload, hnil]
    rfl
  have hiter : Serde.iter (∅ : Finset Blake3Hash) = [] := by
    have hperm := Serde.iter_perm ∅
    rw [show (∅ : Finset Blake3Hash).sorted = [] from rfl] at hperm
    exact hperm.eq_nil
  rw [collapse]
  simp only [happ, Bool.true_eq_false, if_false, hnil, hready, hiter]
  rfl

theorem postSync_eq_ok_iff {σ : Type} {write : σ → Change → Except Unit σ} {app : AppState}
    {view : String} {payload : DeltaPayload} {disk disk' : ServerDisk σ} {response : SyncResponse} :
    postSync write app view payload disk = some (.ok response, disk')
      ↔ verifyPayload payload = .ok () ∧ missingBlobs disk.blobs payload.changes = []
        ∧ ∃ disk₁, collapse write app payload disk = some (.ok response.rewrittenMap, disk₁)
          ∧ updateView view payload response.rewrittenMap disk₁ = some (.ok response, disk') := by
  rw [postSync, Program.bind_eq_ok_iff]
  constructor
  · rintro ⟨rewritten, disk₁, hingest, hview⟩
    obtain rfl : rewritten = response.rewrittenMap := by
      simp only [updateView, Option.some.injEq, Prod.mk.injEq, Except.ok.injEq] at hview
      rw [← hview.1]
    rw [ingest] at hingest
    split at hingest
    · simp at hingest
    · rename_i hverify
      dsimp only at hingest
      split_ifs at hingest with hmissing
      · simp at hingest
      · exact ⟨hverify, not_not.mp hmissing, disk₁, hingest, hview⟩
  · rintro ⟨hverify, hmissing, disk₁, hcollapse, hview⟩
    refine ⟨_, disk₁, ?_, hview⟩
    rw [ingest, hverify]
    dsimp only
    rw [if_neg (not_not.mpr hmissing), hcollapse]

/-- **The ingress persists a verified payload iff it has no changes.** -/
theorem ingress_persists_iff [LawfulCrypto] {payload : DeltaPayload}
    (hverified : verifyPayload payload = .ok ())
    (hinj : ∀ c ∈ payload.changes,
      Set.InjOn Crypto.hashBytes {Bincode.serialize c, Bincode.idPayload c.payload})
    {app : AppState} (happ : app.serverAuthor.isServer = true) (view : String)
    (disk : ServerDisk ObjectStore) :
    ((∃ store, processIncomingSignedDelta disk.store true (some payload) = .ok (payload, store)
        ∧ ∀ c ∈ payload.changes, store.readChange c.id = .ok c) ↔ payload.changes = [])
      ∧ ((∃ response disk', postSync writeChange app view payload disk
            = some (.ok response, disk')
          ∧ Persisted app payload response.rewrittenMap disk'.store) ↔ payload.changes = []) := by
  have hrefused : ∀ c ∈ payload.changes, ∀ store : ObjectStore,
      store.writeObject c.id (Bincode.serialize c) = .error .hashMismatch :=
    fun c hc => writeObject_verified (verified_of_verifyChanges hverified hc) (hinj c hc)
  refine ⟨⟨?_, fun hnil => ?_⟩, ⟨?_, fun hnil => ?_⟩⟩
  · rintro ⟨store, hrun, -⟩
    cases hchanges : payload.changes with
    | nil => rfl
    | cons c changes =>
        have hpersist : persistChanges disk.store payload.changes = .error .hashMismatch := by
          rw [hchanges, persistChanges, hrefused c (by simp [hchanges])]
        simp [processIncomingSignedDelta, hverified, hpersist] at hrun
  · refine ⟨disk.store, ?_, by simp [hnil]⟩
    simp [processIncomingSignedDelta, hverified, hnil, persistChanges]
  · rintro ⟨response, disk', hrun, -⟩
    obtain ⟨-, -, disk₁, hcollapse, -⟩ := postSync_eq_ok_iff.mp hrun
    refine (collapse_of_failing_writes (fun c hc store => ?_) hcollapse).1
    rw [writeChange, hrefused c hc]
  · have hmissing : missingBlobs disk.blobs payload.changes = [] := by
      simp [missingBlobs, referencedBlobs, hnil]
    refine ⟨⟨loadHeads disk view ∪ payload.viewHeads.image (remap ∅), ∅⟩, _,
      postSync_eq_ok_iff.mpr
        ⟨hverified, hmissing, disk, collapse_nil writeChange happ hnil disk, rfl⟩, ?_, ?_⟩
    · simp [hnil]
    · simp [hnil]

end Ingress

/-- A server that is sent one change. -/
theorem ingress_one_change :
    letI := Serde.sample [(recordedBytes, recordedChange)]
    letI := Crypto.ofBytes
    letI := Ed25519.sample
    let payload : DeltaPayload := ⟨[recordedChange], {recordedChange.id}⟩
    ¬ ∃ store, processIncomingSignedDelta ∅ true (some payload) = .ok (payload, store)
      ∧ ∀ c ∈ payload.changes, store.readChange c.id = .ok c := by
  intro payload
  let _ := Serde.sample [(recordedBytes, recordedChange)]
  let _ := Crypto.ofBytes
  let _ := Ed25519.sample
  have := Crypto.ofBytes_lawful
  have hverified : verifyPayload payload = .ok () := by decide +kernel
  have hne : Crypto.hashBytes (Bincode.serialize recordedChange)
      ≠ Crypto.hashBytes (Bincode.idPayload recordedChange.payload) := by decide +kernel
  have hinj : ∀ c ∈ payload.changes,
      Set.InjOn Crypto.hashBytes {Bincode.serialize c, Bincode.idPayload c.payload} := by
    intro c hc
    obtain rfl := List.mem_singleton.mp hc
    rw [Set.injOn_pair]
    exact fun h => absurd h hne
  have happ : (AppState.mk (.server "s" 3) 3).serverAuthor.isServer = true := rfl
  have hiff := (ingress_persists_iff hverified hinj happ "main" ⟨∅, ∅, ∅⟩).1
  exact fun h => absurd (hiff.mp h) (List.cons_ne_nil _ _)

/-- The store refuses the record of a verified change, and the request fails. -/
theorem ingress_refuses_change :
    letI := Serde.sample [(recordedBytes, recordedChange)]
    letI := Crypto.ofBytes
    letI := Ed25519.sample
    let payload : DeltaPayload := ⟨[recordedChange], {recordedChange.id}⟩
    verifyPayload payload = .ok ()
      ∧ persistChanges ∅ payload.changes = .error .hashMismatch
      ∧ (postSync writeChange ⟨.server "s" 3, 3⟩ "main" payload ⟨∅, ∅, ∅⟩).map Prod.fst
        = some (.error .internalServerError) := by
  decide +kernel

end ArcVcs
