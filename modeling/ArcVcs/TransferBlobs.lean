import ArcVcs.Replicas

/-!
# The blobs of a transfer

A transfer copies the blobs that the `insert` and `delete` atoms of the missing changes name, and
not those of `blob` and `conflict` atoms. The receiver can then materialize the view exactly when it
has these from elsewhere.
-/

namespace ArcVcs

open Repo

namespace Atom

def blobRefs : Atom → List Blake3Hash
  | insert _ contentHash => [contentHash]
  | delete _ priorHash => [priorHash]
  | blob _ hash _ => [hash]
  | conflict bases sides _ => bases ++ sides
  | directory _ => []
  | move _ _ => []
  | mount _ _ => []
  | semanticsPreserving _ _ => []

end Atom

def Change.blobRefs (change : Change) : List Blake3Hash := change.atoms.flatMap Atom.blobRefs

/-- The hash is referred to by a change of the history under one of the ids. -/
def RefersTo (history : FMap Blake3Hash Change) (ids : Set Blake3Hash) (hash : Blake3Hash) : Prop :=
  ∃ id ∈ ids, ∃ c, readChange history id = .ok c ∧ hash ∈ c.blobRefs

def CopiedWith (history : FMap Blake3Hash Change) (ids : Set Blake3Hash) (hash : Blake3Hash) :
    Prop :=
  ∃ id ∈ ids, ∃ c, readChange history id = .ok c ∧ hash ∈ copiedHashes c.atoms

section Copies

variable [Crypto] {disk : Blake3Hash → Bool} {peer : Peer} {blobs : FMap Blake3Hash Bytes}
  {hash j : Blake3Hash} {hashes : List Blake3Hash}

def Peer.SendsBlobs (peer : Peer) : Prop :=
  ∀ hash bytes, peer.blob hash = .ok bytes → Crypto.hashBytes bytes = hash

theorem lookup_copiedBlob (hpeer : peer.SendsBlobs) {bytes : Bytes} :
    (copiedBlob disk peer blobs hash).lookup j = some bytes
      ↔ blobs.lookup j = some bytes
        ∨ j = hash ∧ hash ∉ blobs.keys ∧ peer.blob hash = .ok bytes ∧ disk hash = true := by
  rw [copiedBlob]
  by_cases hmem : hash ∈ blobs.keys
  · simp [hmem]
  rw [if_neg hmem]
  cases hblob : peer.blob hash with
  | error e => simp
  | ok bytes' =>
      dsimp only
      rw [hpeer hash bytes' hblob]
      by_cases hdisk : disk hash = true
      · rw [if_pos hdisk, FMap.lookup_putOnce]
        by_cases hj : j = hash
        · subst hj
          have hnone : blobs.lookup j = none := by
            simpa [FMap.mem_keys_iff, Option.eq_none_iff_forall_ne_some] using hmem
          simp [hmem, hnone, hdisk]
        · simp [hj]
      · rw [if_neg hdisk]
        simp [hdisk]

theorem copyable_iff (hpeer : peer.SendsBlobs) :
    Copyable disk peer hash ↔ (∃ bytes, peer.blob hash = .ok bytes) ∧ disk hash = true := by
  constructor
  · rintro ⟨bytes, hblob, hdisk⟩
    exact ⟨⟨bytes, hblob⟩, hpeer hash bytes hblob ▸ hdisk⟩
  · rintro ⟨⟨bytes, hblob⟩, hdisk⟩
    exact ⟨bytes, hblob, (hpeer hash bytes hblob).symm ▸ hdisk⟩

theorem mem_keys_copiedBlob (hpeer : peer.SendsBlobs) :
    j ∈ (copiedBlob disk peer blobs hash).keys
      ↔ j ∈ blobs.keys ∨ j = hash ∧ Copyable disk peer hash := by
  rw [FMap.mem_keys_iff, FMap.mem_keys_iff, copyable_iff hpeer]
  simp only [lookup_copiedBlob hpeer]
  constructor
  · rintro ⟨bytes, hold | ⟨hj, -, hblob, hdisk⟩⟩
    · exact .inl ⟨bytes, hold⟩
    · exact .inr ⟨hj, ⟨bytes, hblob⟩, hdisk⟩
  · rintro (⟨bytes, hold⟩ | ⟨rfl, ⟨bytes, hblob⟩, hdisk⟩)
    · exact ⟨bytes, .inl hold⟩
    · by_cases hmem : j ∈ blobs.keys
      · obtain ⟨bytes', hold⟩ := FMap.mem_keys_iff.mp hmem
        exact ⟨bytes', .inl hold⟩
      · exact ⟨bytes, .inr ⟨rfl, hmem, hblob, hdisk⟩⟩

theorem mem_keys_foldl_copiedBlob (hpeer : peer.SendsBlobs) :
    j ∈ (hashes.foldl (copiedBlob disk peer) blobs).keys
      ↔ j ∈ blobs.keys ∨ j ∈ hashes ∧ Copyable disk peer j := by
  induction hashes generalizing blobs with
  | nil => simp
  | cons hash hashes ih =>
      rw [List.foldl_cons, ih, mem_keys_copiedBlob hpeer, List.mem_cons]
      constructor
      · rintro ((hold | ⟨rfl, hcopy⟩) | ⟨hmem, hcopy⟩)
        · exact .inl hold
        · exact .inr ⟨.inl rfl, hcopy⟩
        · exact .inr ⟨.inr hmem, hcopy⟩
      · rintro (hold | ⟨rfl | hmem, hcopy⟩)
        · exact .inl (.inl hold)
        · exact .inl (.inr ⟨rfl, hcopy⟩)
        · exact .inr ⟨hmem, hcopy⟩

theorem lookup_foldl_copiedBlob (hpeer : peer.SendsBlobs) {bytes : Bytes}
    (h : (hashes.foldl (copiedBlob disk peer) blobs).lookup j = some bytes) :
    blobs.lookup j = some bytes ∨ peer.blob j = .ok bytes := by
  induction hashes generalizing blobs with
  | nil => exact .inl h
  | cons hash hashes ih =>
      rcases ih h with h | h
      · rcases (lookup_copiedBlob hpeer).mp h with hold | ⟨rfl, -, hblob, -⟩
        · exact .inl hold
        · exact .inr hblob
      · exact .inr h

end Copies

/-! ## Replay reads the blobs of `insert` atoms only -/

section Replay

variable {env env' : ApplyEnv} {change : Change}

theorem applyAtoms_congr (hignore : env.agentIgnore = env'.agentIgnore)
    (hsparse : env.sparse = env'.sparse) {atoms : List Atom}
    (hstore : ∀ atom ∈ atoms, ∀ at_ hash, atom = .insert at_ hash →
      env.store hash = env'.store hash) (r : Replay) :
    applyAtoms env change atoms r = applyAtoms env' change atoms r := by
  induction atoms generalizing r with
  | nil => rfl
  | cons atom atoms ih =>
      have hatom : applyAtom env change r atom = applyAtom env' change r atom := by
        rw [applyAtom, applyAtom, hignore, hsparse]
        cases atom with
        | insert at_ hash =>
            simp only [executeAtom, hstore _ List.mem_cons_self at_ hash rfl]
        | _ => rfl
      rw [applyAtoms, applyAtoms, hatom]
      cases applyAtom env' change r atom with
      | error e => rfl
      | ok r' => exact ih (fun a ha => hstore a (List.mem_cons_of_mem _ ha)) r'

theorem applySequence_congr (hignore : env.agentIgnore = env'.agentIgnore)
    (hsparse : env.sparse = env'.sparse) {changes : List Change}
    (hstore : ∀ c ∈ changes, ∀ hash ∈ c.blobRefs, env.store hash = env'.store hash)
    (state : MaterializedState) :
    applySequence env changes state = applySequence env' changes state := by
  induction changes generalizing state with
  | nil => rfl
  | cons c cs ih =>
      have hc : applyChangeScoped env c ⟨state, none⟩ = applyChangeScoped env' c ⟨state, none⟩ := by
        refine applyAtoms_congr hignore hsparse (fun atom hatom at_ hash heq => ?_) _
        refine hstore c List.mem_cons_self hash (List.mem_flatMap.mpr ⟨atom, hatom, ?_⟩)
        simp [heq, Atom.blobRefs]
      rw [applySequence, applySequence, hc]
      rcases applyChangeScoped env' c ⟨state, none⟩ with ⟨_ | _, r⟩
      · rfl
      · exact ih (fun c' hc' => hstore c' (List.mem_cons_of_mem _ hc')) r.state

end Replay

/-! ## Transfers -/

section Transfers

variable [Crypto] [Serde]

/-- The server answers with the changes and the blobs of the repository. -/
structure Peer.Serves (server : Peer) (repo : Repo) : Prop where
  object : ∀ id c, server.object id = .ok c ↔ readChange repo.store id = .ok c
  blob : ∀ hash bytes, server.blob hash = .ok bytes ↔ readBlob repo.blobs hash = .ok bytes

/-- A transfer of a view that returns, with the receiver before and after it. -/
inductive Transferred (disk : Blake3Hash → Bool) (sender : Repo) (heads : Finset Blake3Hash)
    (s u : Repo) : Prop
  | fetchLocal {fuel : ℕ} {view : String} {out : Finset Blake3Hash}
      (hview : sender.views.lookup view = some heads)
      (h : Thread.Returns (fetchLocal disk fuel sender view) s out u)
  | bfsFetchChanges {fuel n : ℕ} {server : Peer} (hserver : server.Serves sender)
      (h : Thread.Returns (bfsFetchChanges disk fuel server heads) s n u)
  | pushLocal {fuel : ℕ} {view : String} (hview : sender.views.lookup view = some heads)
      (h : Thread.Returns (pushLocal disk fuel sender view) s () u)

/-- The sender has the history of the heads with its blobs. -/
structure Complete (history : FMap Blake3Hash Change) (heads : Finset Blake3Hash) (sender : Repo) :
    Prop where
  sub : ∀ id c, readChange sender.store id = .ok c → readChange history id = .ok c
  stored : ∀ id ∈ History history heads, Stores sender.store id
  blobs : ∀ hash, RefersTo history (History history heads) hash →
    ∃ bytes, readBlob sender.blobs hash = .ok bytes

/-- The receiver's store is closed under dependencies and under referenced blobs. -/
structure Receives (history : FMap Blake3Hash Change) (receiver : Repo) : Prop where
  replica : Replica history receiver.store
  blobs : ∀ id c, readChange receiver.store id = .ok c → ∀ hash ∈ c.blobRefs,
    hash ∈ receiver.blobs.keys
  intact : ∀ hash bytes, receiver.blobs.lookup hash = some bytes → Crypto.hashBytes bytes = hash

/-- The contents of two repositories do not collide. -/
def NoCollisions (s s' : Repo) : Prop :=
  Set.InjOn Crypto.hashBytes
    {bytes | ∃ hash, s.blobs.lookup hash = some bytes ∨ s'.blobs.lookup hash = some bytes}

/-- The receiver has the blobs of the history. They read as at the sender, and so its changes replay
to the same state. -/
structure Materializes (history : FMap Blake3Hash Change) (heads : Finset Blake3Hash)
    (sender u : Repo) : Prop where
  present : ∀ hash, RefersTo history (History history heads) hash → hash ∈ u.blobs.keys
  same : ∀ hash, RefersTo history (History history heads) hash →
    readBlob u.blobs hash = readBlob sender.blobs hash
  replay : ∀ changes : List Change,
    (∀ c ∈ changes, ∃ id ∈ History history heads, readChange history id = .ok c) →
      ∀ agentIgnore sparse state,
        applySequence ⟨readBlob u.blobs, agentIgnore, sparse⟩ changes state
          = applySequence ⟨readBlob sender.blobs, agentIgnore, sparse⟩ changes state

/-- The blobs of the missing changes are there, or the transfer copies them and the disk takes
them. -/
def BlobsReached (history : FMap Blake3Hash Change) (heads : Finset Blake3Hash)
    (disk : Blake3Hash → Bool) (s : Repo) : Prop :=
  ∀ hash, RefersTo history (missingHistory history s.store heads) hash → hash ∈ s.blobs.keys
    ∨ CopiedWith history (missingHistory history s.store heads) hash ∧ disk hash = true

variable {history : FMap Blake3Hash Change} {heads : Finset Blake3Hash} {sender s u : Repo}
  {disk : Blake3Hash → Bool} {server : Peer}

omit [Serde] in
theorem serves_ofRepo (repo : Repo) : (Peer.ofRepo repo).Serves repo where
  object id c := by
    rw [Peer.ofRepo]
    cases h : readChange repo.store id <;> simp [h, Except.mapError]
  blob hash bytes := by
    rw [Peer.ofRepo]
    cases h : readBlob repo.blobs hash <;> simp [h, Except.mapError]

omit [Serde] in
theorem Peer.Serves.sendsBlobs (h : server.Serves sender) : server.SendsBlobs :=
  fun hash bytes hblob => (readBlob_eq_ok_iff.mp ((h.blob hash bytes).mp hblob)).2

omit [Serde] in
theorem Complete.honest (h : Complete history heads sender) (hserver : server.Serves sender) :
    server.Honest history := fun id c hc => h.sub id c ((hserver.object id c).mp hc)

/-- The changes that a transfer writes. -/
structure Written (history : FMap Blake3Hash Change) (heads : Finset Blake3Hash) (s : Repo)
    (changes : List Change) : Prop where
  missing : ∀ c ∈ changes, c.id ∈ missingHistory history s.store heads
    ∧ readChange history c.id = .ok c
  all : ∀ id ∈ missingHistory history s.store heads, ∃ c ∈ changes, c.id = id

omit [Crypto] in
theorem Written.of_search {peer : Peer}
    {put : FMap Blake3Hash Change → Change → FMap Blake3Hash Change} {turned : List Blake3Hash}
    {got : List (Blake3Hash × Change)} (hpeer : peer.Honest history)
    (hput : Peer.Faithful put peer) (hreplica : Replica history s.store)
    (h : TransferSearch put peer s.store (Serde.iter heads) [] turned got true) :
    Written history heads s (got.map Prod.snd) := by
  have hread (p : Blake3Hash × Change) (hp : p ∈ got) : readChange history p.1 = .ok p.2 :=
    hpeer _ _ (h.source_of_mem hp)
  have hid (p : Blake3Hash × Change) (hp : p ∈ got) : p.2.id = p.1 :=
    (readChange_eq_ok_iff.mp (hread p hp)).2
  constructor
  · intro c hc
    obtain ⟨p, hp, rfl⟩ := List.mem_map.mp hc
    rw [hid p hp]
    exact ⟨got_missing hpeer hput h (List.mem_map_of_mem hp), hread p hp⟩
  · intro id hmissing
    rw [← got_eq_missing hpeer hput hreplica h rfl] at hmissing
    obtain ⟨p, hp, rfl⟩ := List.mem_map.mp hmissing
    exact ⟨p.2, List.mem_map_of_mem hp, hid p hp⟩

/-- **What each of the transfers does to the blobs.** -/
theorem Transferred.blobs (hsender : Complete history heads sender) (hs : Receives history s)
    (h : Transferred disk sender heads s u) :
    ∃ peer changes, Peer.Serves peer sender ∧ Written history heads s changes
      ∧ u.blobs = (changesHashes changes).foldl (copiedBlob disk peer) s.blobs := by
  cases h with
  | @fetchLocal fuel view out hview h =>
      rw [Repo.fetchLocal, hview] at h
      obtain ⟨out', hstop, hout⟩ := Thread.stops_of_bind_pure h
      obtain ⟨vg, rfl, -⟩ := hout out rfl
      obtain ⟨turned, got, ended, hrun, hend⟩ :=
        fetchLoop_run (copies_copyBlobIfReadable disk _) hstop
      obtain ⟨rfl, -, hblobs⟩ := hend vg.1 vg.2 rfl
      have hpeer := hsender.honest (serves_ofRepo sender)
      exact ⟨_, _, serves_ofRepo sender,
        .of_search hpeer hpeer.faithful hs.replica hrun.search, hblobs⟩
  | @bfsFetchChanges fuel n server hserver h =>
      obtain ⟨out', hstop, hout⟩ := Thread.stops_of_bind_pure h
      obtain ⟨vg, rfl, -⟩ := hout n rfl
      obtain ⟨turned, got, ended, hrun, hend⟩ := fetchLoop_run (copies_copyBlob disk server) hstop
      obtain ⟨rfl, -, hblobs⟩ := hend vg.1 vg.2 rfl
      have hpeer := hsender.honest hserver
      exact ⟨_, _, hserver, .of_search hpeer hpeer.faithful hs.replica hrun.search, hblobs⟩
  | @pushLocal fuel view hview h =>
      obtain ⟨turned, got, hsearch, -, hblobs⟩ := pushLocal_returns hview h
      have hpeer : (Peer.ofStore sender.store).Honest history :=
        fun id c hc => hsender.sub id c (sends_ofStore.mp hc)
      have hput : Peer.Faithful (fun store _ => store) (Peer.ofStore sender.store) :=
        ⟨fun _ _ _ _ _ h => h, fun _ _ _ _ _ h => .inl h⟩
      exact ⟨_, _, serves_ofRepo sender, .of_search hpeer hput hs.replica hsearch, hblobs⟩

omit [Crypto] [Serde] in
theorem Written.mem_changesHashes {changes : List Change} (h : Written history heads s changes)
    {hash : Blake3Hash} : hash ∈ changesHashes changes
      ↔ CopiedWith history (missingHistory history s.store heads) hash := by
  constructor
  · intro hmem
    obtain ⟨c, hc, hhash⟩ := List.mem_flatMap.mp hmem
    obtain ⟨hmissing, hread⟩ := h.missing c hc
    exact ⟨c.id, hmissing, c, hread, hhash⟩
  · rintro ⟨id, hid, c, hread, hhash⟩
    obtain ⟨c', hc', rfl⟩ := h.all id hid
    obtain rfl : c' = c := Except.ok.inj ((h.missing c' hc').2.symm.trans hread)
    exact List.mem_flatMap.mpr ⟨c', hc', hhash⟩

omit [Serde] in
theorem Receives.mem_of_stored (hs : Receives history s) {hash : Blake3Hash}
    (h : RefersTo history {id | id ∈ History history heads ∧ Stores s.store id} hash) :
    hash ∈ s.blobs.keys := by
  obtain ⟨id, ⟨-, c', hc'⟩, c, hread, hhash⟩ := h
  obtain rfl : c' = c := Except.ok.inj ((hs.replica.sub id c' hc').symm.trans hread)
  exact hs.blobs id c' hc' hash hhash

/-- **Which blobs the receiver has** after a transfer. -/
theorem Transferred.present_iff (hsender : Complete history heads sender) (hs : Receives history s)
    (h : Transferred disk sender heads s u) :
    (∀ hash, RefersTo history (History history heads) hash → hash ∈ u.blobs.keys)
      ↔ BlobsReached history heads disk s := by
  obtain ⟨peer, changes, hpeer, hwritten, hblobs⟩ := h.blobs hsender hs
  have hkeys (hash : Blake3Hash) : hash ∈ u.blobs.keys ↔ hash ∈ s.blobs.keys
      ∨ CopiedWith history (missingHistory history s.store heads) hash
        ∧ Copyable disk peer hash := by
    rw [hblobs, mem_keys_foldl_copiedBlob hpeer.sendsBlobs, hwritten.mem_changesHashes]
  constructor
  · rintro hall hash ⟨id, hid, c, hread, hhash⟩
    refine ((hkeys hash).mp (hall hash ⟨id, hid.1, c, hread, hhash⟩)).imp_right fun hcopied => ?_
    exact ⟨hcopied.1, ((copyable_iff hpeer.sendsBlobs).mp hcopied.2).2⟩
  · rintro hreached hash ⟨id, hid, c, hread, hhash⟩
    by_cases hthere : Stores s.store id
    · exact (hkeys hash).mpr (.inl (hs.mem_of_stored ⟨id, ⟨hid, hthere⟩, c, hread, hhash⟩))
    · refine (hkeys hash).mpr ((hreached hash ⟨id, ⟨hid, hthere⟩, c, hread, hhash⟩).imp_right ?_)
      rintro ⟨hcopied, hdisk⟩
      obtain ⟨bytes, hbytes⟩ := hsender.blobs hash ⟨id, hid, c, hread, hhash⟩
      exact ⟨hcopied, (copyable_iff hpeer.sendsBlobs).mpr
        ⟨⟨bytes, (hpeer.blob hash bytes).mpr hbytes⟩, hdisk⟩⟩

theorem Transferred.readBlob_eq (hsender : Complete history heads sender)
    (hs : Receives history s) (hinj : NoCollisions s sender)
    (h : Transferred disk sender heads s u) {hash : Blake3Hash}
    (hrefers : RefersTo history (History history heads) hash) (hmem : hash ∈ u.blobs.keys) :
    readBlob u.blobs hash = readBlob sender.blobs hash := by
  obtain ⟨peer, changes, hpeer, -, hblobs⟩ := h.blobs hsender hs
  obtain ⟨bytes, hbytes⟩ := hsender.blobs hash hrefers
  obtain ⟨bytes', hbytes'⟩ := FMap.mem_keys_iff.mp hmem
  obtain ⟨hlook, hhash⟩ := readBlob_eq_ok_iff.mp hbytes
  rw [hbytes]
  refine readBlob_eq_ok_iff.mpr ⟨?_, hhash⟩
  rw [hbytes']
  rw [hblobs] at hbytes'
  rcases lookup_foldl_copiedBlob hpeer.sendsBlobs hbytes' with hold | hnew
  · refine congrArg some (hinj ⟨hash, .inl hold⟩ ⟨hash, .inr hlook⟩ ?_)
    rw [hs.intact hash bytes' hold, hhash]
  · exact congrArg some (Except.ok.inj (((hpeer.blob hash bytes').mp hnew).symm.trans hbytes))

/-- **A transfer lets the receiver materialize the view** exactly when it comes by the blobs that
the missing changes refer to. -/
theorem transferred_materializes_iff (hsender : Complete history heads sender)
    (hs : Receives history s) (hinj : NoCollisions s sender)
    (h : Transferred disk sender heads s u) :
    Materializes history heads sender u ↔ BlobsReached history heads disk s := by
  rw [← h.present_iff hsender hs]
  refine ⟨fun hmat => hmat.present, fun hpresent => ?_⟩
  have hsame (hash : Blake3Hash) (hrefers : RefersTo history (History history heads) hash) :
      readBlob u.blobs hash = readBlob sender.blobs hash :=
    h.readBlob_eq hsender hs hinj hrefers (hpresent hash hrefers)
  refine ⟨hpresent, hsame, fun changes hchanges agentIgnore sparse state => ?_⟩
  refine applySequence_congr ?_ ?_ (fun c hc hash hhash => ?_) state
  · rfl
  · rfl
  · obtain ⟨id, hid, hread⟩ := hchanges c hc
    exact hsame hash ⟨id, hid, c, hread, hhash⟩

end Transfers

/-! ## Views with one change -/

def logoHash : Blake3Hash := Crypto.sample.hashBytes [1]

def oneChange (atom : Atom) : FMap Blake3Hash Change :=
  (∅ : FMap Blake3Hash Change).insert 1 (.bare 1 ∅ [atom])

/-- A repository with one change and the blob. -/
def logoRepo (atom : Atom) : Repo :=
  { Repo.init with
    store := oneChange atom
    blobs := (∅ : FMap Blake3Hash Bytes).insert logoHash [1]
    views := (∅ : FMap String (Finset Blake3Hash)).insert "main" {1} }

theorem readChange_oneChange {atom : Atom} {id : Blake3Hash} {c : Change} :
    readChange (oneChange atom) id = .ok c ↔ id = 1 ∧ c = .bare 1 ∅ [atom] := by
  rw [readChange_eq_ok_iff, oneChange, FMap.lookup_insert_eq]
  constructor
  · rintro ⟨hlook, rfl⟩
    split_ifs at hlook with hid
    · exact ⟨hid, (Option.some_inj.mp hlook).symm⟩
    · simp at hlook
  · rintro ⟨rfl, rfl⟩
    exact ⟨rfl, rfl⟩

theorem blobRefs_bare (id : Blake3Hash) (deps : Finset Blake3Hash) (atom : Atom) :
    (Change.bare id deps [atom]).blobRefs = atom.blobRefs := List.flatMap_singleton ..

section Logo

variable {atom : Atom}

theorem complete_logoRepo (hrefs : ∀ hash ∈ atom.blobRefs, hash = logoHash) :
    @Complete Crypto.sample (oneChange atom) {1} (logoRepo atom) := by
  let _ := Crypto.sample
  refine ⟨fun _ _ h => h, ?_, ?_⟩
  · refine history_subset (T := {id | Stores (oneChange atom) id}) (fun id hid => ?_) ?_
    · rw [Finset.mem_singleton.mp hid]
      exact ⟨_, readChange_oneChange.mpr ⟨rfl, rfl⟩⟩
    · rintro id - c hc d hd
      obtain ⟨-, rfl⟩ := readChange_oneChange.mp hc
      exact absurd hd (Finset.notMem_empty d)
  · rintro hash ⟨id, -, c, hread, hhash⟩
    obtain ⟨-, rfl⟩ := readChange_oneChange.mp hread
    rw [blobRefs_bare] at hhash
    obtain rfl := hrefs hash hhash
    exact ⟨[1], readBlob_eq_ok_iff.mpr ⟨by simp [logoRepo], rfl⟩⟩

theorem receives_init : @Receives Crypto.sample (oneChange atom) Repo.init := by
  let _ := Crypto.sample
  refine ⟨⟨?_, ?_, ?_⟩, ?_, ?_⟩ <;> simp [Repo.init, readChange, Keyed, ClosedStore]

theorem noCollisions_logoRepo : @NoCollisions Crypto.sample Repo.init (logoRepo atom) := by
  let _ := Crypto.sample
  have hone {bytes : Bytes} (h : ∃ hash, Repo.init.blobs.lookup hash = some bytes
      ∨ (logoRepo atom).blobs.lookup hash = some bytes) : bytes = [1] := by
    obtain ⟨hash, h | h⟩ := h
    · simp [Repo.init] at h
    · rw [logoRepo, FMap.lookup_insert_eq] at h
      split_ifs at h
      · exact (Option.some_inj.mp h).symm
      · simp at h
  intro bytes hbytes bytes' hbytes' _
  rw [hone hbytes, hone hbytes']

def logoFetch (atom : Atom) : Option (Option (Except PeerError (Finset Blake3Hash)) × Repo) :=
  let _ := Crypto.sample
  let _ := Serde.sample []
  Thread.runFor 12 (fetchLocal (fun _ => true) 9 (logoRepo atom) "main") .init

theorem transferred_logoFetch {u : Repo} (h : logoFetch atom = some (some (.ok {1}), u)) :
    @Transferred Crypto.sample (Serde.sample []) (fun _ => true) (logoRepo atom) {1} .init u :=
  let _ := Crypto.sample
  let _ := Serde.sample []
  .fetchLocal (by simp [logoRepo]) (Thread.stops_of_runFor h)

end Logo

theorem refersTo_oneChange {atom : Atom} {hash : Blake3Hash} (h : hash ∈ atom.blobRefs) :
    RefersTo (oneChange atom) (History (oneChange atom) {1}) hash :=
  ⟨1, mem_history_of_mem (Finset.mem_singleton_self 1), _, readChange_oneChange.mpr ⟨rfl, rfl⟩,
    by rwa [blobRefs_bare]⟩

/-- A view with an `insert` atom is fetched with its blob. -/
theorem materializes_insert : ∃ u, @Materializes Crypto.sample
    (oneChange (.insert ["file", "a"] logoHash)) {1} (logoRepo (.insert ["file", "a"] logoHash))
    u := by
  let _ := Crypto.sample
  let _ := Serde.sample []
  have hout : (logoFetch (.insert ["file", "a"] logoHash)).map Prod.fst
      = some (some (.ok {1})) := by
    decide
  obtain ⟨⟨out, u⟩, hrun, rfl⟩ := Option.map_eq_some_iff.mp hout
  refine ⟨u, (transferred_materializes_iff (complete_logoRepo ?_) receives_init
    noCollisions_logoRepo (transferred_logoFetch hrun)).mpr ?_⟩
  · exact fun hash hhash => List.mem_singleton.mp hhash
  · rintro hash ⟨id, hid, c, hread, hhash⟩
    refine .inr ⟨⟨id, hid, c, hread, ?_⟩, rfl⟩
    obtain ⟨-, rfl⟩ := readChange_oneChange.mp hread
    exact hhash

/-- A view with a `blob` atom is fetched without its blob. -/
theorem fetch_leaves_blob : ¬ ∀ (history : FMap Blake3Hash Change) (heads : Finset Blake3Hash)
    (disk : Blake3Hash → Bool) (sender s u : Repo), @Complete Crypto.sample history heads sender →
      @Receives Crypto.sample history s → @NoCollisions Crypto.sample s sender →
      @Transferred Crypto.sample (Serde.sample []) disk sender heads s u →
      @Materializes Crypto.sample history heads sender u := by
  intro hall
  let _ := Crypto.sample
  have hout : (logoFetch (.blob "logo.png" logoHash 1)).map (fun out => (out.1, out.2.blobs.keys))
      = some (some (.ok {1}), ∅) := by decide
  obtain ⟨⟨out, u⟩, hrun, heq⟩ := Option.map_eq_some_iff.mp hout
  obtain ⟨rfl, hkeys⟩ := Prod.mk.inj heq
  have hsender : Complete (oneChange (.blob "logo.png" logoHash 1)) {1} _ :=
    complete_logoRepo fun hash hhash => List.mem_singleton.mp hhash
  have hmat := hall _ {1} _ _ _ u hsender receives_init noCollisions_logoRepo
    (transferred_logoFetch hrun)
  have hmem := hmat.present logoHash (refersTo_oneChange (List.mem_singleton_self logoHash))
  rw [hkeys] at hmem
  exact absurd hmem (Finset.notMem_empty logoHash)

end ArcVcs
