import ArcVcs.ObjectStore

/-!
# Fetching blocks over the native transport

The server answers a request with one block for each id, the stored record labelled with the
id, and an end mark. The client compares the hash of each block with its label, and so does the
gate in front of the repository.
-/

namespace ArcVcs

/-- A record on the wire. -/
structure CasWireBlock where
  hash : Blake3Hash
  bytes : Bytes
deriving DecidableEq

/-- What the peer sends while blocks are read. -/
inductive SyncFrame where
  | payloadStream (block : CasWireBlock)
  /-- A payload frame without content. -/
  | endOfStream
  | keepAlive
  | other
deriving DecidableEq

inductive NetError where
  | unexpectedFrame
  | notRequested
  | hashVerification (id : Blake3Hash)
  | omitted (ids : Finset Blake3Hash)
deriving DecidableEq

/-- The loop of `maybe_stream_requested_blocks`. At an id that cannot be read the connection
ends. -/
def streamRequestedBlocks (store : ObjectStore) : List Blake3Hash → List SyncFrame
  | [] => [.endOfStream]
  | hash :: requested =>
      match store.readChangeBytes hash with
      | .error _ => []
      | .ok bytes => .payloadStream ⟨hash, bytes⟩ :: streamRequestedBlocks store requested

section Client

variable [Crypto]

/-- What is left to do when no more blocks come. -/
def checkRemaining (remaining : Finset Blake3Hash) (blocks : List CasWireBlock) :
    Except NetError (List CasWireBlock) :=
  if remaining ≠ ∅ then .error (.omitted remaining) else .ok blocks

/-- The loop of `fetch_cas_blocks`. -/
def receiveBlocks (requested : Finset Blake3Hash) : List SyncFrame → Finset Blake3Hash →
    List CasWireBlock → Except NetError (List CasWireBlock)
  | [], remaining, blocks => checkRemaining remaining blocks
  | .keepAlive :: frames, remaining, blocks => receiveBlocks requested frames remaining blocks
  | .other :: _, _, _ => .error .unexpectedFrame
  | .endOfStream :: _, remaining, blocks => checkRemaining remaining blocks
  | .payloadStream block :: frames, remaining, blocks =>
      if block.hash ∉ requested then .error .notRequested
      else if Crypto.hashBytes block.bytes ≠ block.hash then
        .error (.hashVerification block.hash)
      else receiveBlocks requested frames (remaining.erase block.hash) (blocks ++ [block])

/-- `fetch_cas_blocks`, with what the peer sends in answer to the request. -/
def fetchCasBlocks (peer : List Blake3Hash → List SyncFrame) (missingHashes : List Blake3Hash) :
    Except NetError (List CasWireBlock) :=
  receiveBlocks missingHashes.toFinset (peer missingHashes) missingHashes.toFinset []

end Client

inductive SyncError where
  | transfer (error : NetError)
  | blockHashMismatch (id : Blake3Hash)
  | decode
  | changeIdMismatch (id : Blake3Hash)
  | verification (id : Blake3Hash)
deriving DecidableEq

section Gate

variable [Crypto] [Ed25519] [Serde]

/-- The checks of `sync_native_with_semantic_gate` on one downloaded block. -/
def decodeBlock (block : CasWireBlock) : Except SyncError Change :=
  if Crypto.hashBytes block.bytes ≠ block.hash then .error (.blockHashMismatch block.hash)
  else
    match Serde.deserialize block.bytes with
    | none => .error .decode
    | some change =>
        if change.id ≠ block.hash then .error (.changeIdMismatch block.hash)
        else if change.verifySignature = false then .error (.verification change.id)
        else .ok change

/-- The transfer of a pull: fetch the blocks and decode all of them. -/
def nativeTransfer (peer : List Blake3Hash → List SyncFrame) (missingHashes : List Blake3Hash) :
    Except SyncError (List (CasWireBlock × Change)) :=
  match fetchCasBlocks peer missingHashes with
  | .error e => .error (.transfer e)
  | .ok blocks => blocks.mapM fun block => (decodeBlock block).map fun change => (block, change)

/-- **The first block that an honest server sends is refused.** -/
theorem nativeTransfer_eq [LawfulCrypto] {server : ObjectStore} {changes : List Change}
    (hserver : ∀ c ∈ changes, ∃ bytes, server.Holds c bytes
      ∧ Set.InjOn Crypto.hashBytes {bytes, Bincode.idPayload c.payload}) :
    nativeTransfer (streamRequestedBlocks server) (changes.map Change.id)
      = match changes with
        | [] => .ok []
        | c :: _ => .error (.transfer (.hashVerification c.id)) := by
  cases changes with
  | nil => rfl
  | cons c changes =>
      obtain ⟨bytes, hholds, hinj⟩ := hserver c List.mem_cons_self
      have hhash : Crypto.hashBytes bytes ≠ c.id :=
        hashBytes_ne_id hholds.encodes hholds.verified hinj
      have hread : server.readChangeBytes c.id = .ok bytes := by
        rw [ObjectStore.readChangeBytes, hholds.stored]
      have hmem : c.id ∈ (c.id :: changes.map Change.id).toFinset := by simp
      have hfetch : fetchCasBlocks (streamRequestedBlocks server) (c.id :: changes.map Change.id)
          = .error (.hashVerification c.id) := by
        rw [fetchCasBlocks, streamRequestedBlocks, hread]
        dsimp only
        rw [receiveBlocks, if_neg (not_not.mpr hmem), if_pos hhash]
      rw [List.map_cons, nativeTransfer, hfetch]

/-- **A pull from an honest server passes the checks iff it pulls nothing**, and any other one
fails with a hash mismatch. -/
theorem nativeTransfer_passes_iff [LawfulCrypto] {server : ObjectStore} {changes : List Change}
    (hserver : ∀ c ∈ changes, ∃ bytes, server.Holds c bytes
      ∧ Set.InjOn Crypto.hashBytes {bytes, Bincode.idPayload c.payload}) :
    ((∃ out, nativeTransfer (streamRequestedBlocks server) (changes.map Change.id) = .ok out)
        ↔ changes = [])
      ∧ ((∃ id, nativeTransfer (streamRequestedBlocks server) (changes.map Change.id)
          = .error (.transfer (.hashVerification id))) ↔ changes ≠ []) := by
  rw [nativeTransfer_eq hserver]
  cases changes with
  | nil => simp
  | cons c changes => simp

end Gate

/-- A server that holds one change. -/
theorem nativeTransfer_one_change :
    letI := Serde.sample [(recordedBytes, recordedChange)]
    letI := Crypto.ofBytes
    letI := Ed25519.sample
    let server : ObjectStore := Finmap.singleton recordedChange.id recordedBytes
    ¬ ∃ out, nativeTransfer (streamRequestedBlocks server) [recordedChange.id] = .ok out := by
  intro server
  let _ := Serde.sample [(recordedBytes, recordedChange)]
  let _ := Crypto.ofBytes
  let _ := Ed25519.sample
  have hne : Crypto.hashBytes recordedBytes
      ≠ Crypto.hashBytes (Bincode.idPayload recordedChange.payload) := by decide +kernel
  have hholds : server.Holds recordedChange recordedBytes :=
    ⟨by decide +kernel, Bincode.encodes_serialize _, by decide +kernel⟩
  have := Crypto.ofBytes_lawful
  have hserver : ∀ c ∈ [recordedChange], ∃ bytes, server.Holds c bytes
      ∧ Set.InjOn Crypto.hashBytes {bytes, Bincode.idPayload c.payload} := by
    intro c hc
    obtain rfl := List.mem_singleton.mp hc
    refine ⟨recordedBytes, hholds, ?_⟩
    rw [Set.injOn_pair]
    exact fun h => absurd h hne
  exact fun hok => absurd ((nativeTransfer_passes_iff hserver).1.mp hok) (List.cons_ne_nil _ _)

/-- The client refuses the block of the only change of the server. -/
theorem nativeTransfer_refuses_change :
    letI := Serde.sample [(recordedBytes, recordedChange)]
    letI := Crypto.ofBytes
    letI := Ed25519.sample
    let server : ObjectStore := Finmap.singleton recordedChange.id recordedBytes
    recordedChange.verifySignature = true
      ∧ nativeTransfer (streamRequestedBlocks server) [recordedChange.id]
        = .error (.transfer (.hashVerification recordedChange.id)) := by
  decide +kernel

end ArcVcs
