import ArcVcs.Histories
import ArcVcs.Lib.PrunedSearch
import ArcVcs.Lib.Solo
import ArcVcs.Serial

/-!
# Transfers between repositories

`fetch_local`, `bfs_fetch_changes` and `push_local` of the sync commands. A fetch stores each change
before its dependencies, and then the blobs that the `insert` and `delete` atoms name. A push first
collects the changes that the remote has not, and stores them in the same order.
-/

namespace ArcVcs

inductive PeerError where
  | repo (error : RepoError)
  | notFound (id : Blake3Hash)
  | deserialise (id : Blake3Hash)
  | missingBlob (hash : Blake3Hash)
  | writeBlob (hash : Blake3Hash)
deriving DecidableEq

/-- Where a transfer reads the changes and the blobs that it copies. -/
structure Peer where
  object : Blake3Hash → Except PeerError Change
  blob : Blake3Hash → Except PeerError Bytes

/-- A repository in the file system. -/
def Peer.ofRepo [Crypto] (repo : Repo) : Peer where
  object id := (Repo.readChange repo.store id).mapError .repo
  blob hash := (Repo.readBlob repo.blobs hash).mapError fun _ => .missingBlob hash

def Peer.Sends (peer : Peer) (id : Blake3Hash) (c : Change) : Prop := peer.object id = .ok c

def Peer.ofStore (store : FMap Blake3Hash Change) : Peer where
  object id := (Repo.readChange store id).mapError .repo
  blob hash := .error (.missingBlob hash)

abbrev SyncM (α : Type) := Thread Repo PeerError α

namespace Repo

def syncAction {α : Type} (action : RepoM α) : Program Repo PeerError α := fun s =>
  (action s).map fun out => (out.1.mapError .repo, out.2)

def sync {α : Type} (action : RepoM α) : SyncM α := .perform (syncAction action)

def getState : SyncM Repo := .perform .get

section Blobs

variable [Crypto] (disk : Blake3Hash → Bool) (peer : Peer)

/-- `write_blob`, on a disk that may not take the file. -/
def writeBlob (bytes : Bytes) : SyncM Unit :=
  if disk (Crypto.hashBytes bytes) then sync (putBlob (Crypto.hashBytes bytes) bytes)
  else .throw (.writeBlob (Crypto.hashBytes bytes))

def copyBlob (hash : Blake3Hash) : SyncM Unit := do
  let s ← getState
  if hash ∈ s.blobs.keys then pure ()
  else do
    let bytes ← .ofExcept (peer.blob hash)
    writeBlob disk bytes

/-- `fetch_local` drops the errors of a copy. -/
def copyBlobIfReadable (hash : Blake3Hash) : SyncM Unit := do
  let _ ← (copyBlob disk peer hash).attempt
  pure ()

end Blobs

/-- The blobs of a change: those of its `insert` and `delete` atoms. -/
def copyBlobs (copy : Blake3Hash → SyncM Unit) : List Atom → SyncM Unit
  | [] => pure ()
  | .insert _ contentHash :: atoms => do
      copy contentHash
      copyBlobs copy atoms
  | .delete _ priorHash :: atoms => do
      copy priorHash
      copyBlobs copy atoms
  | _ :: atoms => copyBlobs copy atoms

section Fetch

variable [Serde] (copy : Blake3Hash → SyncM Unit) (peer : Peer)

omit [Serde] in
def loadChange (s : Repo) (id : Blake3Hash) (change : Change) : SyncM Unit :=
  if (s.graph.get id).isNone then sync (graphAddChange change) else pure ()

omit [Serde] in
/-- One id of the queue. It returns the change when it was not there. -/
def fetchChange (id : Blake3Hash) : SyncM (Option Change) := do
  let s ← getState
  match readChange s.store id with
  | .ok change => do
      loadChange s id change
      pure none
  | .error _ => do
      let change ← .ofExcept (peer.object id)
      sync (writeChange change)
      copyBlobs copy change.atoms
      sync (graphAddChange change)
      pure (some change)

/-- The loop of a fetch. It returns the visited ids, and for each id of them that was downloaded
the change that was. -/
def fetchLoop : ℕ → List Blake3Hash → List Blake3Hash → List (Blake3Hash × Change) →
    SyncM (List Blake3Hash × List (Blake3Hash × Change))
  | 0, _, _, _ => .hang
  | _ + 1, [], visited, got => pure (visited, got)
  | fuel + 1, id :: queue, visited, got =>
      if id ∈ visited then fetchLoop fuel queue visited got
      else do
        match ← fetchChange copy peer id with
        | none => fetchLoop fuel queue (visited ++ [id]) got
        | some change =>
            fetchLoop fuel (queue ++ (Serde.iter change.deps).filter fun d => d ∉ visited ++ [id])
              (visited ++ [id]) (got ++ [(id, change)])

end Fetch

section Commands

variable [Crypto] [Serde] (disk : Blake3Hash → Bool)

def fetchLocal (fuel : ℕ) (remote : Repo) (view : String) : SyncM (Finset Blake3Hash) :=
  match remote.views.lookup view with
  | none => .throw (.repo (.viewLoad view))
  | some heads => do
      let peer := Peer.ofRepo remote
      let _ ← fetchLoop (copyBlobIfReadable disk peer) peer fuel (Serde.iter heads) [] []
      pure heads

def bfsFetchChanges (fuel : ℕ) (server : Peer) (roots : Finset Blake3Hash) : SyncM ℕ := do
  let out ← fetchLoop (copyBlob disk server) server fuel (Serde.iter roots) [] []
  pure out.1.length

def readRecord (id : Blake3Hash) : RepoM Change := fun s => some (readChange s.store id, s)

/-- The loop of `push_local` over the ids that the remote may not have. -/
def pushDelta (localStore : FMap Blake3Hash Change) :
    ℕ → List Blake3Hash → List Blake3Hash → List Change → SyncM (List Change)
  | 0, _, _, _ => .hang
  | _ + 1, [], _, delta => pure delta
  | fuel + 1, id :: queue, visited, delta =>
      if id ∈ visited then pushDelta localStore fuel queue visited delta
      else do
        match ← (sync (readRecord id)).attempt with
        | .ok _ => pushDelta localStore fuel queue (visited ++ [id]) delta
        | .error _ => do
            let change ← .ofExcept (readChange localStore id |>.mapError .repo)
            pushDelta localStore fuel
              (queue ++ (Serde.iter change.deps).filter fun d => d ∉ visited ++ [id])
              (visited ++ [id]) (delta ++ [change])

/-- Write the changes to the remote, each one before its blobs. -/
def pushChanges (copy : Blake3Hash → SyncM Unit) : List Change → SyncM Unit
  | [] => pure ()
  | change :: delta => do
      sync (writeChange change)
      copyBlobs copy change.atoms
      pushChanges copy delta

/-- `push_local`, on the remote. -/
def pushLocal (fuel : ℕ) (localRepo : Repo) (view : String) : SyncM Unit :=
  match localRepo.views.lookup view with
  | none => .throw (.repo (.viewLoad view))
  | some localHeads => do
      let remoteHeads ← (sync (loadView view)).attempt
      let delta ← pushDelta localRepo.store fuel (Serde.iter localHeads) [] []
      pushChanges (copyBlob disk (Peer.ofRepo localRepo)) delta
      sync (saveView view (remoteHeads.toOption.getD ∅ ∪ localHeads))

end Commands

/-! ## What a copy does -/

section Copies

variable {α β : Type} {disk : Blake3Hash → Bool} {peer : Peer} {hash : Blake3Hash} {s t u : Repo}

def copiedBlob [Crypto] (disk : Blake3Hash → Bool) (peer : Peer) (blobs : FMap Blake3Hash Bytes)
    (hash : Blake3Hash) : FMap Blake3Hash Bytes :=
  if hash ∈ blobs.keys then blobs
  else
    match peer.blob hash with
    | .error _ => blobs
    | .ok bytes =>
        if disk (Crypto.hashBytes bytes) then blobs.putOnce (Crypto.hashBytes bytes) bytes
        else blobs

/-- The blobs that a transfer copies for a change. -/
def copiedHashes (atoms : List Atom) : List Blake3Hash :=
  atoms.filterMap fun
    | .insert _ contentHash => some contentHash
    | .delete _ priorHash => some priorHash
    | _ => none

/-- A way to copy blobs: it changes nothing else, and a copy that returns has done what `copied`
says. -/
structure Copies (copy : Blake3Hash → SyncM Unit)
    (copied : FMap Blake3Hash Bytes → Blake3Hash → FMap Blake3Hash Bytes) : Prop where
  frame : ∀ hash s out u, Thread.Stops (copy hash) s out u → ∃ blobs, u = { s with blobs := blobs }
  returned : ∀ hash s u, Thread.Returns (copy hash) s () u →
    u = { s with blobs := copied s.blobs hash }

theorem stops_getState_bind_iff {f : Repo → SyncM α} {out : Option (Except PeerError α)} :
    Thread.Stops (getState >>= f) s out u ↔ (out = none ∧ u = s) ∨ Thread.Stops (f s) s out u :=
  Thread.stops_perform_bind_iff rfl

theorem stops_sync_bind_iff {action : RepoM α} {f : α → SyncM β} {a : α}
    {out : Option (Except PeerError β)} (hrun : action s = some (.ok a, t)) :
    Thread.Stops (sync action >>= f) s out u ↔ (out = none ∧ u = s) ∨ Thread.Stops (f a) t out u :=
  Thread.stops_perform_bind_iff (by rw [syncAction, hrun]; rfl)

theorem stops_sync_iff {action : RepoM α} {a : α} {out : Option (Except PeerError α)}
    (hrun : action s = some (.ok a, t)) : Thread.Stops (sync action) s out u
      ↔ (out = none ∧ u = s) ∨ u = t ∧ (out = none ∨ out = some (.ok a)) :=
  Thread.stops_perform_iff_of_run (by rw [syncAction, hrun]; rfl)

/-- The blob of a hash can be copied: the peer has it and the disk takes it. -/
def Copyable [Crypto] (disk : Blake3Hash → Bool) (peer : Peer) (hash : Blake3Hash) : Prop :=
  ∃ bytes, peer.blob hash = .ok bytes ∧ disk (Crypto.hashBytes bytes) = true

theorem copyBlob_cases [Crypto] {out : Option (Except PeerError Unit)}
    (h : Thread.Stops (copyBlob disk peer hash) s out u) :
    (out = none ∧ u = s) ∨ u = { s with blobs := copiedBlob disk peer s.blobs hash }
      ∧ ∀ a, out = some (.ok a) → hash ∈ s.blobs.keys ∨ Copyable disk peer hash := by
  rcases stops_getState_bind_iff.mp h with hstop | h
  · exact .inl hstop
  rw [copiedBlob]
  by_cases hmem : hash ∈ s.blobs.keys
  · rw [if_pos hmem] at h ⊢
    exact .inr ⟨(Thread.stops_pure_iff.mp h).1, fun _ _ => .inl hmem⟩
  rw [if_neg hmem] at h ⊢
  rcases Thread.stops_ofExcept_bind_iff.mp h with ⟨bytes, hread, h⟩ | ⟨e, hread, hu, hout⟩
  · rw [hread]
    rw [writeBlob] at h
    dsimp only
    by_cases hdisk : disk (Crypto.hashBytes bytes) = true
    · rw [if_pos hdisk] at h ⊢
      rcases (stops_sync_iff rfl).mp h with hstop | ⟨hu, -⟩
      · exact .inl hstop
      · exact .inr ⟨hu, fun _ _ => .inr ⟨bytes, hread, hdisk⟩⟩
    · rw [if_neg hdisk] at h ⊢
      obtain ⟨hu, hout⟩ := Thread.stops_throw_iff.mp h
      refine .inr ⟨hu, fun a ha => ?_⟩
      rcases hout with hout | hout <;> simp [hout] at ha
  · rw [hread]
    refine .inr ⟨hu, fun a ha => ?_⟩
    rcases hout with hout | hout <;> simp [hout] at ha

theorem copies_copyBlob [Crypto] (disk : Blake3Hash → Bool) (peer : Peer) :
    Copies (copyBlob disk peer) (copiedBlob disk peer) where
  frame hash s out u h := by
    rcases copyBlob_cases h with ⟨-, rfl⟩ | ⟨rfl, -⟩
    · exact ⟨u.blobs, rfl⟩
    · exact ⟨_, rfl⟩
  returned hash s u h := by
    rcases copyBlob_cases h with ⟨h, -⟩ | ⟨rfl, -⟩
    · cases h
    · rfl

theorem copies_copyBlobIfReadable [Crypto] (disk : Blake3Hash → Bool) (peer : Peer) :
    Copies (copyBlobIfReadable disk peer) (copiedBlob disk peer) where
  frame hash s out u h := by
    have hframe {out' : Option (Except PeerError (Except PeerError Unit))}
        (h : Thread.Stops (copyBlob disk peer hash).attempt s out' u) :
        ∃ blobs, u = { s with blobs := blobs } := by
      rcases Thread.stops_attempt_iff.mp h with ⟨-, h⟩ | ⟨r, -, h⟩
      · exact (copies_copyBlob disk peer).frame hash s _ u h
      · exact (copies_copyBlob disk peer).frame hash s _ u h
    rcases Thread.stops_bind_iff.mp h with ⟨-, h⟩ | ⟨e, -, h⟩ | ⟨r, t, hcopy, h⟩
    · exact hframe h
    · exact hframe h
    · obtain ⟨rfl, -⟩ := Thread.stops_pure_iff.mp h
      exact hframe hcopy
  returned hash s u h := by
    obtain ⟨r, t, hcopy, h⟩ := Thread.returns_bind_iff.mp h
    obtain ⟨rfl, -⟩ := Thread.stops_pure_iff.mp h
    rcases Thread.stops_attempt_iff.mp hcopy with ⟨h, -⟩ | ⟨r', -, h⟩
    · cases h
    rcases copyBlob_cases h with ⟨h, -⟩ | ⟨h, -⟩
    · cases h
    · exact h

variable {copy : Blake3Hash → SyncM Unit}
  {copied : FMap Blake3Hash Bytes → Blake3Hash → FMap Blake3Hash Bytes} {atoms : List Atom}

/-- By induction on the atoms. -/
theorem Copies.frame_copyBlobs (hcopy : Copies copy copied) {out : Option (Except PeerError Unit)}
    (h : Thread.Stops (copyBlobs copy atoms) s out u) : ∃ blobs, u = { s with blobs := blobs } := by
  have hseq {hash : Blake3Hash} {rest : SyncM Unit} {s : Repo}
      (h : Thread.Stops (copy hash >>= fun _ => rest) s out u)
      (hrest : ∀ {s}, Thread.Stops rest s out u → ∃ blobs, u = { s with blobs := blobs }) :
      ∃ blobs, u = { s with blobs := blobs } := by
    rcases Thread.stops_bind_iff.mp h with ⟨-, h⟩ | ⟨e, -, h⟩ | ⟨_, t, hfirst, h⟩
    · exact hcopy.frame _ _ _ _ h
    · exact hcopy.frame _ _ _ _ h
    · obtain ⟨blobs, rfl⟩ := hcopy.frame _ _ _ _ hfirst
      obtain ⟨blobs', rfl⟩ := hrest h
      exact ⟨blobs', rfl⟩
  induction atoms generalizing s with
  | nil => exact ⟨s.blobs, (Thread.stops_pure_iff.mp h).1⟩
  | cons atom atoms ih =>
      cases atom with
      | insert _ _ => exact hseq h ih
      | delete _ _ => exact hseq h ih
      | _ => exact ih h

/-- By induction on the atoms. -/
theorem Copies.returned_copyBlobs (hcopy : Copies copy copied)
    (h : Thread.Returns (copyBlobs copy atoms) s () u) :
    u = { s with blobs := (copiedHashes atoms).foldl copied s.blobs } := by
  have hseq {hash : Blake3Hash} {rest : SyncM Unit} {s : Repo}
      (h : Thread.Returns (copy hash >>= fun _ => rest) s () u) :
      Thread.Returns rest { s with blobs := copied s.blobs hash } () u := by
    obtain ⟨_, t, hfirst, h⟩ := Thread.returns_bind_iff.mp h
    rwa [hcopy.returned _ _ _ hfirst] at h
  induction atoms generalizing s with
  | nil => exact (Thread.stops_pure_iff.mp h).1
  | cons atom atoms ih =>
      cases atom with
      | insert _ _ => exact ih (hseq h)
      | delete _ _ => exact ih (hseq h)
      | _ => exact ih h

end Copies

/-! ## What a fetch does -/

/-- The record under the id can be read. -/
def Stores (store : FMap Blake3Hash Change) (id : Blake3Hash) : Prop :=
  ∃ c, readChange store id = .ok c

/-- A breadth-first search that turns back at what the store has, and gets the rest from a peer. -/
abbrev TransferSearch [Serde] (put : FMap Blake3Hash Change → Change → FMap Blake3Hash Change)
    (peer : Peer) : FMap Blake3Hash Change → List Blake3Hash → List Blake3Hash → List Blake3Hash →
    List (Blake3Hash × Change) → Bool → Prop :=
  PrunedSearch.Search Stores put peer.Sends fun c => Serde.iter c.deps

/-- The search of a fetch, which writes what the peer sends. -/
abbrev FetchSearch [Serde] (peer : Peer) : FMap Blake3Hash Change → List Blake3Hash →
    List Blake3Hash → List Blake3Hash → List (Blake3Hash × Change) → Bool → Prop :=
  TransferSearch (fun store c => store.putOnce c.id c) peer

section Fetch

variable [Serde] {copy : Blake3Hash → SyncM Unit} {peer : Peer}
  {copied : FMap Blake3Hash Bytes → Blake3Hash → FMap Blake3Hash Bytes} {s u : Repo}
  {id : Blake3Hash}

omit [Serde] in
theorem not_stores_of_error {store : FMap Blake3Hash Change} {e : RepoError}
    (h : readChange store id = .error e) : ¬ Stores store id := by
  rintro ⟨c, hc⟩
  rw [h] at hc
  cases hc

/-- What one id of the queue does to the repository: nothing, the change that is there is loaded,
or the change that the peer sends is written, and loaded at the end. -/
inductive ChangeFetched (peer : Peer)
    (copied : FMap Blake3Hash Bytes → Blake3Hash → FMap Blake3Hash Bytes) (id : Blake3Hash)
    (s : Repo) : Option (Except PeerError (Option Change)) → Repo → Prop
  | unchanged {out : Option (Except PeerError (Option Change))}
      (hout : ∀ r, out ≠ some (.ok r)) : ChangeFetched peer copied id s out s
  | turned {c : Change} {graph : ChangeGraph} (hread : readChange s.store id = .ok c)
      (hgraph : graph = s.graph ∨ graph = s.graph.addChange c) :
      ChangeFetched peer copied id s (some (.ok none)) { s with graph := graph }
  | turning {c : Change} {graph : ChangeGraph} (hread : readChange s.store id = .ok c)
      (hgraph : graph = s.graph ∨ graph = s.graph.addChange c) :
      ChangeFetched peer copied id s none { s with graph := graph }
  | written {c : Change} {blobs : FMap Blake3Hash Bytes} {graph : ChangeGraph}
      {out : Option (Except PeerError (Option Change))} (hread : ¬ Stores s.store id)
      (hsends : peer.Sends id c) (hgraph : graph = s.graph ∨ graph = s.graph.addChange c)
      (hout : ∀ r, out ≠ some (.ok r)) : ChangeFetched peer copied id s out
        { s with store := s.store.putOnce c.id c, blobs := blobs, graph := graph }
  | got {c : Change} (hread : ¬ Stores s.store id) (hsends : peer.Sends id c) :
      ChangeFetched peer copied id s (some (.ok (some c)))
        { s with
          store := s.store.putOnce c.id c
          blobs := (copiedHashes c.atoms).foldl copied s.blobs
          graph := s.graph.addChange c }

omit [Serde] in
theorem fetchChange_cases (hcopy : Copies copy copied)
    {out : Option (Except PeerError (Option Change))}
    (h : Thread.Stops (fetchChange copy peer id) s out u) :
    ChangeFetched peer copied id s out u := by
  rcases stops_getState_bind_iff.mp h with ⟨rfl, rfl⟩ | h
  · exact .unchanged (by simp)
  cases hread : readChange s.store id with
  | ok c =>
      rw [hread] at h
      dsimp only at h
      rw [loadChange] at h
      by_cases hnone : (s.graph.get id).isNone = true
      · rw [if_pos hnone] at h
        rcases (stops_sync_bind_iff rfl).mp h with ⟨rfl, rfl⟩ | h
        · exact .unchanged (by simp)
        · obtain ⟨rfl, rfl | rfl⟩ := Thread.stops_pure_iff.mp h
          · exact .turning hread (.inr rfl)
          · exact .turned hread (.inr rfl)
      · rw [if_neg hnone] at h
        obtain ⟨rfl, rfl | rfl⟩ := Thread.stops_pure_iff.mp h
        · exact .turning hread (.inl rfl)
        · exact .turned hread (.inl rfl)
  | error e =>
      rw [hread] at h
      have hstores := not_stores_of_error hread
      rcases Thread.stops_ofExcept_bind_iff.mp h with ⟨c, hsends, h⟩ | ⟨e', -, hu, hout⟩
      · rcases (stops_sync_bind_iff rfl).mp h with ⟨rfl, rfl⟩ | h
        · exact .unchanged (by simp)
        rcases Thread.stops_bind_iff.mp h with ⟨rfl, hblobs⟩ | ⟨e, rfl, hblobs⟩ | ⟨_, t, hblobs, h⟩
        · obtain ⟨blobs, rfl⟩ := hcopy.frame_copyBlobs hblobs
          exact .written hstores hsends (.inl rfl) (by simp)
        · obtain ⟨blobs, rfl⟩ := hcopy.frame_copyBlobs hblobs
          exact .written hstores hsends (.inl rfl) (by simp)
        have ht := hcopy.returned_copyBlobs hblobs
        rcases (stops_sync_bind_iff rfl).mp h with ⟨rfl, rfl⟩ | h
        · rw [ht]
          exact .written hstores hsends (.inl rfl) (by simp)
        · obtain ⟨rfl, rfl | rfl⟩ := Thread.stops_pure_iff.mp h
          · rw [ht]
            exact .written hstores hsends (.inr rfl) (by simp)
          · rw [ht]
            exact .got hstores hsends
      · rw [hu]
        refine .unchanged fun r hr => ?_
        rcases hout with hout | hout <;> simp [hout] at hr

/-- What a fetch has done to the repository when it ends, or is stopped. -/
structure FetchRun (peer : Peer) (s u : Repo) (queue visited turned : List Blake3Hash)
    (got : List (Blake3Hash × Change)) (ended : Bool) : Prop where
  search : FetchSearch peer s.store queue visited turned got ended
  store : u.store = putChanges s.store (got.map Prod.snd)
  loaded : ∀ x c, u.graph.get x = some c → s.graph.get x = some c
    ∨ c.id = x ∧ (readChange s.store x = .ok c ∨ c ∈ got.map Prod.snd)
  frame : u = { s with store := u.store, blobs := u.blobs, graph := u.graph }

theorem FetchRun.stop {queue visited : List Blake3Hash} {graph : ChangeGraph}
    (hgraph : ∀ x c, graph.get x = some c → s.graph.get x = some c
      ∨ c.id = x ∧ readChange s.store x = .ok c) :
    FetchRun peer s { s with graph := graph } queue visited [] [] false where
  search := .stop _ _ _
  store := rfl
  loaded x c h := (hgraph x c h).imp_right fun h => ⟨h.1, .inl h.2⟩
  frame := rfl

omit [Serde] in
theorem get_of_graph_cases {graph g : ChangeGraph} {c c' : Change} {x : Blake3Hash}
    (hgraph : graph = g ∨ graph = g.addChange c) (h : graph.get x = some c') :
    g.get x = some c' ∨ c'.id = x ∧ c' = c := by
  rcases hgraph with rfl | rfl
  · exact .inl h
  · rw [ChangeGraph.get_addChange] at h
    split_ifs at h with hx
    · obtain rfl := Option.some_inj.mp h
      exact .inr ⟨hx.symm, rfl⟩
    · exact .inl h

omit [Serde] in
theorem readChange_putOnce {store : FMap Blake3Hash Change} {c c' : Change} {x : Blake3Hash}
    (h : readChange (store.putOnce c.id c) x = .ok c') : readChange store x = .ok c' ∨ c' = c := by
  obtain ⟨hlook, hid⟩ := readChange_eq_ok_iff.mp h
  rw [FMap.lookup_putOnce] at hlook
  split_ifs at hlook with hx
  · exact .inr (Option.some_inj.mp hlook).symm
  · exact .inl (readChange_eq_ok_iff.mpr ⟨hlook, hid⟩)

theorem FetchRun.turn {graph : ChangeGraph} {c : Change} {queue visited turned : List Blake3Hash}
    {got : List (Blake3Hash × Change)} {ended : Bool} (hid : id ∉ visited)
    (hread : readChange s.store id = .ok c)
    (hgraph : graph = s.graph ∨ graph = s.graph.addChange c)
    (h : FetchRun peer { s with graph := graph } u queue (visited ++ [id]) turned got ended) :
    FetchRun peer s u (id :: queue) visited (id :: turned) got ended where
  search := .turn hid ⟨c, hread⟩ h.search
  store := h.store
  loaded x c' hx := by
    rcases h.loaded x c' hx with hold | hnew
    · rcases get_of_graph_cases hgraph hold with hold | ⟨rfl, rfl⟩
      · exact .inl hold
      · obtain ⟨-, rfl⟩ := readChange_eq_ok_iff.mp hread
        exact .inr ⟨rfl, .inl hread⟩
    · exact .inr hnew
  frame := h.frame

theorem FetchRun.get {blobs : FMap Blake3Hash Bytes} {graph : ChangeGraph} {c : Change}
    {queue visited turned : List Blake3Hash} {got : List (Blake3Hash × Change)} {ended : Bool}
    (hid : id ∉ visited) (hread : ¬ Stores s.store id) (hsends : peer.Sends id c)
    (hgraph : graph = s.graph ∨ graph = s.graph.addChange c)
    (h : FetchRun peer
      { s with store := s.store.putOnce c.id c, blobs := blobs, graph := graph } u
      (queue ++ (Serde.iter c.deps).filter fun d => d ∉ visited ++ [id]) (visited ++ [id])
      turned got ended) :
    FetchRun peer s u (id :: queue) visited turned ((id, c) :: got) ended where
  search := .get hid hread hsends h.search
  store := h.store
  loaded x c' hx := by
    rcases h.loaded x c' hx with hold | ⟨hcx, hnew | hnew⟩
    · exact (get_of_graph_cases hgraph hold).imp_right fun ⟨hcx, hc⟩ => ⟨hcx, .inr (by simp [hc])⟩
    · rcases readChange_putOnce hnew with hold | hc
      · exact .inr ⟨hcx, .inl hold⟩
      · exact .inr ⟨hcx, .inr (by simp [hc])⟩
    · exact .inr ⟨hcx, .inr (List.mem_cons_of_mem _ hnew)⟩
  frame := h.frame

/-- The blobs that a list of changes makes a transfer copy. -/
def changesHashes (changes : List Change) : List Blake3Hash :=
  changes.flatMap fun c => copiedHashes c.atoms

omit [Serde] in
theorem changesHashes_cons (c : Change) (changes : List Change) :
    changesHashes (c :: changes) = copiedHashes c.atoms ++ changesHashes changes :=
  List.flatMap_cons

theorem ChangeFetched.stopped {out : Option (Except PeerError (Option Change))}
    (h : ChangeFetched peer copied id s out u) {visited : List Blake3Hash} (hid : id ∉ visited)
    (queue : List Blake3Hash) (hout : ∀ r, out ≠ some (.ok r)) :
    ∃ turned got, FetchRun peer s u (id :: queue) visited turned got false := by
  cases h with
  | unchanged => exact ⟨[], [], .stop fun _ _ h => .inl h⟩
  | turned => exact absurd rfl (hout _)
  | turning hread hgraph =>
      exact ⟨[id], [], .turn hid hread hgraph (.stop fun _ _ h => .inl h)⟩
  | @written c _ _ _ hread hsends hgraph =>
      exact ⟨[], [(id, c)], .get hid hread hsends hgraph (.stop fun _ _ h => .inl h)⟩
  | got => exact absurd rfl (hout _)

/-- By induction on the fuel. -/
theorem fetchLoop_run (hcopy : Copies copy copied) {fuel : ℕ} {queue visited : List Blake3Hash}
    {got₀ : List (Blake3Hash × Change)}
    {out : Option (Except PeerError (List Blake3Hash × List (Blake3Hash × Change)))}
    (h : Thread.Stops (fetchLoop copy peer fuel queue visited got₀) s out u) :
    ∃ turned got ended, FetchRun peer s u queue visited turned got ended
      ∧ ∀ v g, out = some (.ok (v, g)) → ended = true ∧ g = got₀ ++ got
        ∧ u.blobs = (changesHashes (got.map Prod.snd)).foldl copied s.blobs := by
  induction fuel generalizing queue visited got₀ s with
  | zero =>
      obtain ⟨rfl, rfl⟩ := Thread.stops_hang h
      exact ⟨[], [], false, .stop fun _ _ h => .inl h, by simp⟩
  | succ fuel ih =>
      cases queue with
      | nil =>
          obtain ⟨rfl, hout⟩ := Thread.stops_pure_iff.mp h
          refine ⟨[], [], true, ⟨.done _ _, rfl, fun _ _ h => .inl h, rfl⟩, fun v g hvg => ?_⟩
          obtain hout | hout := hout
          · simp [hout] at hvg
          · obtain ⟨-, rfl⟩ : visited = v ∧ got₀ = g := by simpa [hout] using hvg
            exact ⟨rfl, by simp, rfl⟩
      | cons id queue =>
          rw [fetchLoop] at h
          by_cases hid : id ∈ visited
          · rw [if_pos hid] at h
            obtain ⟨turned, got, ended, hrun, hout⟩ := ih h
            exact ⟨turned, got, ended, ⟨.skip hid hrun.search, hrun.store, hrun.loaded, hrun.frame⟩,
              hout⟩
          rw [if_neg hid] at h
          rcases Thread.stops_bind_iff.mp h with ⟨rfl, hone⟩ | ⟨e, rfl, hone⟩ | ⟨r, t, hone, h⟩
          · obtain ⟨turned, got, hrun⟩ :=
              (fetchChange_cases hcopy hone).stopped hid queue (by simp)
            exact ⟨turned, got, false, hrun, by simp⟩
          · obtain ⟨turned, got, hrun⟩ :=
              (fetchChange_cases hcopy hone).stopped hid queue (by simp)
            exact ⟨turned, got, false, hrun, by simp⟩
          · cases fetchChange_cases hcopy hone with
            | unchanged hout => exact absurd rfl (hout _)
            | written _ _ _ hout => exact absurd rfl (hout _)
            | turned hread hgraph =>
                obtain ⟨turned, got, ended, hrun, hout⟩ := ih h
                exact ⟨id :: turned, got, ended, hrun.turn hid hread hgraph, hout⟩
            | @got c hread hsends =>
                obtain ⟨turned, got, ended, hrun, hout⟩ := ih h
                refine ⟨turned, (id, c) :: got, ended, hrun.get hid hread hsends (.inr rfl), ?_⟩
                intro v g hvg
                obtain ⟨hended, hg, hblobs⟩ := hout v g hvg
                refine ⟨hended, by simp [hg], ?_⟩
                rw [hblobs, List.map_cons, changesHashes_cons, List.foldl_append]

end Fetch

/-! ## What a push does -/

section Push

variable {copy : Blake3Hash → SyncM Unit}
  {copied : FMap Blake3Hash Bytes → Blake3Hash → FMap Blake3Hash Bytes} {s u : Repo}

theorem sends_ofStore {store : FMap Blake3Hash Change} {id : Blake3Hash} {c : Change} :
    (Peer.ofStore store).Sends id c ↔ readChange store id = .ok c := by
  rw [Peer.Sends, Peer.ofStore]
  cases hread : readChange store id <;> simp [hread, Except.mapError]

theorem exists_loadView (view : String) (s : Repo) : ∃ r, loadView view s = some (r, s) := by
  rw [loadView]
  change ∃ r, (match s.views.lookup view with
    | none => Program.throw (.viewLoad view)
    | some heads => pure heads : RepoM (Finset Blake3Hash)) s = some (r, s)
  cases s.views.lookup view with
  | none => exact ⟨_, rfl⟩
  | some heads => exact ⟨_, rfl⟩

theorem stops_loadView {view : String} {out : Option (Except PeerError (Finset Blake3Hash))}
    (h : Thread.Stops (sync (loadView view)) s out u) : u = s := by
  obtain ⟨r, hrun⟩ := exists_loadView view s
  rcases Thread.stops_perform_iff.mp h with ⟨-, rfl⟩ | ⟨r', hrun', -⟩
  · rfl
  · rw [syncAction, hrun] at hrun'
    exact (Prod.mk.inj (Option.some_inj.mp hrun')).2.symm

theorem returns_readRecord {id : Blake3Hash} {r : Except PeerError Change}
    (h : Thread.Returns (sync (readRecord id)).attempt s r u) :
    u = s ∧ r = (readChange s.store id).mapError .repo := by
  rcases Thread.stops_attempt_iff.mp h with ⟨hout, -⟩ | ⟨r', hout, h⟩
  · cases hout
  obtain rfl : r = r' := Except.ok.inj (Option.some_inj.mp hout)
  rcases (Thread.stops_perform_iff_of_run rfl).mp h with ⟨hout, -⟩ | ⟨rfl, hout | hout⟩
  · cases hout
  · cases hout
  · exact ⟨rfl, Option.some_inj.mp hout⟩

/-- By induction on the fuel. -/
theorem pushDelta_returns [Serde] {localStore : FMap Blake3Hash Change} {fuel : ℕ}
    {queue visited : List Blake3Hash} {delta₀ delta : List Change}
    (h : Thread.Returns (pushDelta localStore fuel queue visited delta₀) s delta u) :
    u = s ∧ ∃ turned got, TransferSearch (fun store _ => store) (Peer.ofStore localStore) s.store
      queue visited turned got true ∧ delta = delta₀ ++ got.map Prod.snd := by
  induction fuel generalizing queue visited delta₀ with
  | zero => cases (Thread.stops_hang h).1
  | succ fuel ih =>
      cases queue with
      | nil =>
          obtain ⟨rfl, hout | hout⟩ := Thread.stops_pure_iff.mp h
          · cases hout
          · obtain rfl := Except.ok.inj (Option.some_inj.mp hout)
            exact ⟨rfl, [], [], .done _ _, by simp⟩
      | cons id queue =>
          rw [pushDelta] at h
          by_cases hid : id ∈ visited
          · rw [if_pos hid] at h
            obtain ⟨hu, turned, got, hsearch, hdelta⟩ := ih h
            exact ⟨hu, turned, got, .skip hid hsearch, hdelta⟩
          rw [if_neg hid] at h
          obtain ⟨r, t, hread, h⟩ := Thread.returns_bind_iff.mp h
          obtain ⟨rfl, rfl⟩ := returns_readRecord hread
          cases hthere : readChange t.store id with
          | ok c =>
              rw [hthere] at h
              obtain ⟨hu, turned, got, hsearch, hdelta⟩ := ih h
              exact ⟨hu, id :: turned, got, .turn hid ⟨c, hthere⟩ hsearch, hdelta⟩
          | error e =>
              rw [hthere] at h
              rcases Thread.stops_ofExcept_bind_iff.mp h with ⟨c, hc, h⟩ | ⟨e', -, -, hout | hout⟩
              · obtain ⟨hu, turned, got, hsearch, hdelta⟩ := ih h
                refine ⟨hu, turned, (id, c) :: got, ?_, by simp [hdelta]⟩
                exact .get hid (not_stores_of_error hthere) hc hsearch
              · cases hout
              · cases hout

theorem pushChanges_returns (hcopy : Copies copy copied) {delta : List Change}
    (h : Thread.Returns (pushChanges copy delta) s () u) :
    u = { s with
      store := putChanges s.store delta
      blobs := (changesHashes delta).foldl copied s.blobs } := by
  induction delta generalizing s with
  | nil => exact (Thread.stops_pure_iff.mp h).1
  | cons c delta ih =>
      rcases (stops_sync_bind_iff rfl).mp h with ⟨hout, -⟩ | h
      · cases hout
      obtain ⟨_, t, hblobs, h⟩ := Thread.returns_bind_iff.mp h
      rw [hcopy.returned_copyBlobs hblobs] at h
      rw [ih h, changesHashes_cons, List.foldl_append]
      rfl

theorem pushLocal_returns [Crypto] [Serde] {disk : Blake3Hash → Bool} {fuel : ℕ} {localRepo : Repo}
    {view : String} {localHeads : Finset Blake3Hash}
    (hview : localRepo.views.lookup view = some localHeads)
    (h : Thread.Returns (pushLocal disk fuel localRepo view) s () u) :
    ∃ turned got, TransferSearch (fun store _ => store) (Peer.ofStore localRepo.store) s.store
        (Serde.iter localHeads) [] turned got true
      ∧ u.store = putChanges s.store (got.map Prod.snd)
      ∧ u.blobs = (changesHashes (got.map Prod.snd)).foldl
        (copiedBlob disk (Peer.ofRepo localRepo)) s.blobs := by
  rw [pushLocal, hview] at h
  obtain ⟨remoteHeads, t, hheads, hrest⟩ := Thread.returns_bind_iff.mp h
  obtain rfl : t = s := by
    rcases Thread.stops_attempt_iff.mp hheads with ⟨hout, -⟩ | ⟨r, -, hload⟩
    · cases hout
    · exact stops_loadView hload
  obtain ⟨delta, t', hdelta, hrest⟩ := Thread.returns_bind_iff.mp hrest
  obtain ⟨rfl, turned, got, hsearch, rfl⟩ := pushDelta_returns hdelta
  obtain ⟨_, w, hwritten, hsave⟩ := Thread.returns_bind_iff.mp hrest
  have hw := pushChanges_returns (copies_copyBlob disk _) hwritten
  rcases (stops_sync_iff rfl).mp hsave with ⟨hout, -⟩ | ⟨rfl, -⟩
  · cases hout
  · rw [hw]
    exact ⟨turned, got, hsearch, rfl, rfl⟩

end Push

end Repo

end ArcVcs
