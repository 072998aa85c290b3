import ArcVcs.Lib.Kahn
import ArcVcs.Lib.Program
import ArcVcs.ObjectStore

/-!
# HTTP ingress

`POST /sync/:view_name` verifies a payload of changes, collapses transient authors into the
server's identity along the dependencies, stores every change and joins the heads into the view.
The other entry, `process_incoming_signed_delta`, verifies and stores.
-/

namespace ArcVcs

/-- The changes that the receiver is missing, and the sender's heads. -/
structure DeltaPayload where
  changes : List Change
  viewHeads : Finset Blake3Hash

/-- The replies of `post_sync` other than `200`. -/
inductive SyncRefusal where
  | badRequest (message : String)
  | conflict (missingBlobs : List String)
  | internalServerError
deriving DecidableEq

structure SyncResponse where
  viewHeads : Finset Blake3Hash
  rewrittenMap : FMap Blake3Hash Blake3Hash
deriving DecidableEq

/-- The identity of the server. -/
structure AppState where
  serverAuthor : Author
  serverSigningSeed : SigningKey

/-- The files of the server, with any kind of object store. -/
structure ServerDisk (σ : Type*) where
  store : σ
  blobs : FMap Blake3Hash Bytes
  views : FMap String (Finset Blake3Hash)

def isTransientAuthor : Author → Bool
  | .transient .. => true
  | _ => false

def Author.isServer : Author → Bool
  | server .. => true
  | _ => false

namespace DeltaPayload

def ids (payload : DeltaPayload) : Finset Blake3Hash := (payload.changes.map Change.id).toFinset

def changeMap (payload : DeltaPayload) : FMap Blake3Hash Change :=
  FMap.insertAll ∅ (payload.changes.map fun c => (c.id, c))

end DeltaPayload

/-- `verify_payload`: every change must be verified. -/
def verifyChanges [Crypto] [Ed25519] : List Change → Except String Unit
  | [] => .ok ()
  | change :: changes =>
      if change.verifySignature = false then
        .error ("zero-trust ingress: signature verification failed for change "
          ++ String.ofList (change.id.toHex.toList.take 16))
      else verifyChanges changes

def verifyPayload [Crypto] [Ed25519] (payload : DeltaPayload) : Except String Unit :=
  verifyChanges payload.changes

/-- The blobs that the inserts and deletes of a payload refer to. -/
def referencedBlobs (changes : List Change) : List Blake3Hash :=
  (changes.flatMap Change.atoms).filterMap fun
    | .insert _ contentHash => some contentHash
    | .delete _ priorHash => some priorHash
    | _ => none

/-- The digits of the referenced blobs that are not stored, each once. -/
def missingBlobs (blobs : FMap Blake3Hash Bytes) (changes : List Change) : List String :=
  (referencedBlobs changes).foldl (fun missing hash =>
    if hash ∈ blobs.keys then missing
    else if hash.toHex ∈ missing then missing else missing ++ [hash.toHex]) []

/-! ## The edges inside a payload -/

/-- In-degrees and reverse edges that count only the changes of the payload. -/
structure Wiring where
  inDegree : FMap Blake3Hash ℕ
  dependants : FMap Blake3Hash (List Blake3Hash)

namespace Wiring

def link (id : Blake3Hash) (w : Wiring) (dep : Blake3Hash) : Wiring where
  inDegree := w.inDegree.insert id ((w.inDegree.lookup id).getD 0 + 1)
  dependants := w.dependants.insert dep ((w.dependants.lookup dep).getD [] ++ [id])

def linkChange (ids : Finset Blake3Hash) (w : Wiring) (change : Change) : Wiring :=
  (change.deps.filter fun dep => dep ∈ ids).sorted.foldl (link change.id) w

def ofPayload (payload : DeltaPayload) : Wiring :=
  payload.changes.foldl (linkChange payload.ids)
    ⟨FMap.insertAll ∅ (payload.changes.map fun c => (c.id, 0)), ∅⟩

def ready (w : Wiring) : Finset Blake3Hash :=
  w.inDegree.keys.filter fun id => w.inDegree.lookup id = some 0

def children (w : Wiring) (id : Blake3Hash) : List Blake3Hash := (w.dependants.lookup id).getD []

end Wiring

/-! ## Identity collapsing -/

/-- The canonical id of a change, its own when it was not rewritten. -/
def remap (rewritten : FMap Blake3Hash Blake3Hash) (id : Blake3Hash) : Blake3Hash :=
  (rewritten.lookup id).getD id

section Collapse

variable {σ : Type} [Crypto] (write : σ → Change → Except Unit σ) (app : AppState)

/-- The change that replaces `change` when the rewrites so far apply to its dependencies. -/
def canonicalOf (rewritten : FMap Blake3Hash Blake3Hash) (change : Change) : Change :=
  Change.newCanonical (change.deps.image (remap rewritten)) change.atoms change.intent
    app.serverAuthor app.serverSigningSeed change.id

/-- A transient author, or a dependency that was rewritten. -/
def triggersCollapse (rewritten : FMap Blake3Hash Blake3Hash) (change : Change) : Prop :=
  isTransientAuthor change.author = true ∨ change.deps.image (remap rewritten) ≠ change.deps

instance (rewritten : FMap Blake3Hash Blake3Hash) (change : Change) :
    Decidable (triggersCollapse rewritten change) :=
  inferInstanceAs (Decidable (_ ∨ _))

/-- `write_change` of the server. A failure ends the request. -/
def storeChange (change : Change) : Program (ServerDisk σ) SyncRefusal Unit := fun disk =>
  match write disk.store change with
  | .error () => some (.error .internalServerError, disk)
  | .ok store => some (.ok (), { disk with store := store })

/-- Store a change, and its canonical form when it must be rewritten. -/
def processChange (rewritten : FMap Blake3Hash Blake3Hash) (change : Change) :
    Program (ServerDisk σ) SyncRefusal (FMap Blake3Hash Blake3Hash) :=
  if triggersCollapse rewritten change then (do
    let canonical := canonicalOf app rewritten change
    storeChange write change
    storeChange write canonical
    pure (rewritten.insert change.id canonical.id))
  else (do
    storeChange write change
    pure rewritten)

/-- The queue loop. `none` is a panic, or that the fuel ran out. -/
def collapseLoop (changeMap : FMap Blake3Hash Change) (w : Wiring) : ℕ → FMap Blake3Hash ℕ →
    List Blake3Hash → FMap Blake3Hash Blake3Hash → ℕ →
    Program (ServerDisk σ) SyncRefusal (FMap Blake3Hash Blake3Hash × ℕ)
  | 0, _, _, _, _ => fun _ => none
  | _ + 1, _, [], rewritten, processed => pure (rewritten, processed)
  | fuel + 1, inDegree, id :: queue, rewritten, processed =>
      match changeMap.lookup id with
      | none => fun _ => none
      | some change => (do
          let rewritten' ← processChange write app rewritten change
          match Kahn.relax (w.children id) inDegree queue with
          | none => fun _ => none
          | some (inDegree', queue') =>
              collapseLoop changeMap w fuel inDegree' queue' rewritten' (processed + 1))

variable [Serde]

/-- Stage 3 of `post_sync`. -/
def collapse (payload : DeltaPayload) :
    Program (ServerDisk σ) SyncRefusal (FMap Blake3Hash Blake3Hash) :=
  let w := Wiring.ofPayload payload
  if app.serverAuthor.isServer = false then .throw .internalServerError
  else (do
    let (rewritten, processed) ← collapseLoop write app payload.changeMap w
      (payload.changes.length + 1) w.inDegree (Serde.iter w.ready) ∅ 0
    if processed < payload.changes.length then
      .throw (.badRequest "cyclic dependency in payload")
    else pure rewritten)

/-- Stages 1 to 3: verify, look for the blobs, collapse and store. -/
def ingest [Ed25519] (payload : DeltaPayload) :
    Program (ServerDisk σ) SyncRefusal (FMap Blake3Hash Blake3Hash) := fun disk =>
  match verifyPayload payload with
  | .error message => some (.error (.badRequest message), disk)
  | .ok () =>
      let missing := missingBlobs disk.blobs payload.changes
      if missing ≠ [] then some (.error (.conflict missing), disk)
      else collapse write app payload disk

def loadHeads (disk : ServerDisk σ) (view : String) : Finset Blake3Hash :=
  (disk.views.lookup view).getD ∅

def saveHeads (view : String) (heads : Finset Blake3Hash) (disk : ServerDisk σ) : ServerDisk σ :=
  { disk with views := disk.views.insert view heads }

/-- Stage 4: join the canonical heads into the view. -/
def updateView (view : String) (payload : DeltaPayload)
    (rewritten : FMap Blake3Hash Blake3Hash) :
    Program (ServerDisk σ) SyncRefusal SyncResponse := fun disk =>
  let newHeads := loadHeads disk view ∪ payload.viewHeads.image (remap rewritten)
  some (.ok ⟨newHeads, rewritten⟩, saveHeads view newHeads disk)

def postSync [Ed25519] (view : String) (payload : DeltaPayload) :
    Program (ServerDisk σ) SyncRefusal SyncResponse := do
  let rewritten ← ingest write app payload
  updateView view payload rewritten

end Collapse

/-! ## Signed deltas -/

inductive NetworkError where
  | unauthorized
  | serialization
  | invalidPayload (message : String)
  | storage (error : CasError)
deriving DecidableEq

section Delta

variable [Crypto] [Serde]

def writeChange (store : ObjectStore) (change : Change) : Except Unit ObjectStore :=
  match store.writeObject change.id (Bincode.serialize change) with
  | .error _ => .error ()
  | .ok store => .ok store

def persistChanges (store : ObjectStore) : List Change → Except CasError ObjectStore
  | [] => .ok store
  | change :: changes =>
      match store.writeObject change.id (Bincode.serialize change) with
      | .error e => .error e
      | .ok store => persistChanges store changes

/-- `process_incoming_signed_delta`, given whether the envelope is verified and what its bytes
decode to. -/
def processIncomingSignedDelta [Ed25519] (store : ObjectStore) (verified : Bool)
    (decoded : Option DeltaPayload) : Except NetworkError (DeltaPayload × ObjectStore) :=
  if verified = false then .error .unauthorized
  else
    match decoded with
    | none => .error .serialization
    | some payload =>
        match verifyPayload payload with
        | .error message => .error (.invalidPayload message)
        | .ok () =>
            match persistChanges store payload.changes with
            | .error e => .error (.storage e)
            | .ok store => .ok (payload, store)

end Delta

end ArcVcs
