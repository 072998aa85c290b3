import ArcVcs.Closure
import ArcVcs.Lib.Program
import Mathlib.Data.List.Infix

/-!
# The native sync server

One connection: the handshake, the payload stream, the requested blocks, the check of the
dependency closure, and the heads that replace those of the named views.
-/

namespace ArcVcs

inductive SyncCapability where
  | payloadStreamV1
  | keepAlive
  | progressSideband
  | typedChangeId
deriving DecidableEq

def serverCapabilities : List SyncCapability := [.payloadStreamV1, .keepAlive, .typedChangeId]

/-- The heads of a request by view, in the order in which the map iterates. -/
structure ViewHeads where
  entries : List (String × Blake3Hash)
  nodup : (entries.map Prod.fst).Nodup

structure HandshakeRequest where
  version : UInt32
  minVersion : UInt32
  authToken : Option String
  viewHeads : ViewHeads
  requiredCapabilities : List SyncCapability
  optionalCapabilities : List SyncCapability

structure HandshakeResponse where
  status : UInt8
  negotiatedCapabilities : Finset SyncCapability
  rejectedRequiredCapabilities : Finset SyncCapability
  requiredChanges : Finset Blake3Hash

/-- A frame of the payload stream. Without content it ends the stream. -/
inductive PayloadFrame where
  | payload (raw : Bytes)
  | keepAlive
  | other

/-- What a client sends on one connection. -/
structure Connection where
  /-- The first frame, if it is a handshake. -/
  request : Option HandshakeRequest
  peerIsLoopback : Bool
  /-- The frames that come in time after the response. -/
  stream : List PayloadFrame
  /-- The have/want frame, if there is one. -/
  requested : Option (List Blake3Hash)

/-- The files of the server, with its token. -/
structure NativeServer where
  store : ObjectStore
  views : FMap String (Finset Blake3Hash)
  token : Option String

inductive ConnectionError where
  | expectedHandshake
  | expectedPayloadStream
  | frameLimit
  | sizeLimit
  | decode
  | verification
  | withoutEof
  | requiredMissing
  | unreadableBlock (id : Blake3Hash)
  | closure (error : ClosureError)
  | invalidViewName
deriving DecidableEq

def isAuthorizedPeer (peerIsLoopback : Bool) (expected presented : Option String) : Bool :=
  if peerIsLoopback then true
  else
    match expected with
    | some token => decide (presented = some token)
    | none => false

/-- The capabilities that both sides have, and the required ones that the server lacks. -/
def negotiateCapabilities (request : HandshakeRequest) (server : List SyncCapability) :
    Finset SyncCapability × Finset SyncCapability :=
  (((request.requiredCapabilities ++ request.optionalCapabilities).filter fun cap =>
      decide (cap ∈ server)).toFinset,
    (request.requiredCapabilities.filter fun cap => decide (cap ∉ server)).toFinset)

def isValidViewName (name : String) : Bool :=
  let chars := name.toList
  if chars = [] ∨ ['/'] <+: chars ∨ ['\\'] <+: chars ∨ ['.', '.'] <:+: chars then false
  else if (chars.splitOn '/').any fun segment =>
      decide (segment = [] ∨ segment = ['.'] ∨ segment = ['.', '.']) then false
  else chars.all fun ch => ch.isAlphanum || decide (ch ∈ ['.', '_', '-', '/'])

/-- The heads that the store cannot read. -/
def computeRequiredHashes (store : ObjectStore) (requestedHeads : ViewHeads) :
    Finset Blake3Hash :=
  ((requestedHeads.entries.map Prod.snd).filter fun id => decide (id ∉ store.keys)).toFinset

def handshake (server : NativeServer) (request : HandshakeRequest) (peerIsLoopback : Bool) :
    HandshakeResponse :=
  let authorized := isAuthorizedPeer peerIsLoopback server.token request.authToken
  let (negotiated, rejected) := negotiateCapabilities request serverCapabilities
  let versionSupported : Bool := request.minVersion ≤ 1 ∧ 1 ≤ request.version
  let requiredChanges :=
    if versionSupported = true ∧ authorized = true ∧ rejected = ∅ then
      computeRequiredHashes server.store request.viewHeads
    else ∅
  let status : UInt8 :=
    if versionSupported = false then 1
    else if authorized = false then 2
    else if rejected ≠ ∅ then 3
    else 0
  ⟨status, negotiated, rejected, requiredChanges⟩

def maxPayloadFrames : ℕ := 4096

def maxTotalPayloadBytes : ℕ := 256 * 1024 * 1024

section Connection

variable [Crypto] [Ed25519] [Serde]

/-- The loop of `ingest_payload_stream`. -/
def ingestFrames (allowKeepalive : Bool) : List PayloadFrame → ℕ → ℕ →
    Program NativeServer ConnectionError Unit
  | [], _, _ => .throw .withoutEof
  | .keepAlive :: frames, frameCount, totalBytes =>
      if allowKeepalive then ingestFrames allowKeepalive frames frameCount totalBytes
      else .throw .expectedPayloadStream
  | .other :: _, _, _ => .throw .expectedPayloadStream
  | .payload [] :: _, _, _ => pure ()
  | .payload raw :: frames, frameCount, totalBytes =>
      if maxPayloadFrames < frameCount + 1 then .throw .frameLimit
      else if maxTotalPayloadBytes < totalBytes + raw.length then .throw .sizeLimit
      else
        match Serde.deserialize raw with
        | none => .throw .decode
        | some change =>
            if change.verifySignature = false then .throw .verification
            else (do
              .modify fun server =>
                { server with store := server.store.writeChangeBytes change.id raw }
              ingestFrames allowKeepalive frames (frameCount + 1) (totalBytes + raw.length))

/-- `ingest_payload_stream`: then every required change must be there. -/
def ingestPayloadStream (stream : List PayloadFrame) (requiredChanges : Finset Blake3Hash)
    (allowKeepalive : Bool) : Program NativeServer ConnectionError Unit := do
  ingestFrames allowKeepalive stream 0 0
  let server ← .get
  if requiredChanges ⊆ server.store.keys then pure () else .throw .requiredMissing

/-- `maybe_stream_requested_blocks`: every requested block must be readable. -/
def maybeStreamRequestedBlocks : Option (List Blake3Hash) →
    Program NativeServer ConnectionError Unit
  | none => pure ()
  | some requested => do
      let server ← .get
      match requested.find? fun id => decide (id ∉ server.store.keys) with
      | none => pure ()
      | some id => .throw (.unreadableBlock id)

def ensureClosure (heads : List Blake3Hash) : Program NativeServer ConnectionError Unit :=
  fun server =>
    match server.store.ensureDependencyClosurePresent heads with
    | none => none
    | some (.error e) => some (.error (.closure e), server)
    | some (.ok _) => some (.ok (), server)

/-- `persist_view_heads`: whatever heads a view has, the head of the request replaces them. -/
def persistViewHeads : List (String × Blake3Hash) → Program NativeServer ConnectionError Unit
  | [] => pure ()
  | (viewName, head) :: entries =>
      if isValidViewName viewName = false then .throw .invalidViewName
      else (do
        .modify fun server => { server with views := server.views.insert viewName {head} }
        persistViewHeads entries)

/-- A connection up to the point where its heads are persisted. -/
def exchange (connection : Connection) :
    Program NativeServer ConnectionError (HandshakeResponse × ViewHeads) := do
  match connection.request with
  | none => .throw .expectedHandshake
  | some request => (do
      let server ← .get
      let response := handshake server request connection.peerIsLoopback
      if response.status = 0 ∧ response.requiredChanges ≠ ∅ then
        ingestPayloadStream connection.stream response.requiredChanges
          (decide (SyncCapability.keepAlive ∈ response.negotiatedCapabilities))
      if response.status = 0 then (do
        maybeStreamRequestedBlocks connection.requested
        ensureClosure (request.viewHeads.entries.map Prod.snd))
      pure (response, request.viewHeads))

def handleConnection (connection : Connection) :
    Program NativeServer ConnectionError (HandshakeResponse × ViewHeads) := do
  let (response, viewHeads) ← exchange connection
  if response.status = 0 then persistViewHeads viewHeads.entries
  pure (response, viewHeads)

end Connection

end ArcVcs
