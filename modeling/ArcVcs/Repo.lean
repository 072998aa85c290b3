import ArcVcs.Lib.Program
import ArcVcs.Lib.Redirect
import ArcVcs.Merge
import ArcVcs.Mutator

/-!
# The repository

What `.arc` holds on disk next to the in-memory graph of the open process, and the
primitives that the commands are built from: loading and saving views, the write-once
stores, hydration through the epoch map, replay and the operation log.
-/

namespace ArcVcs

inductive RepoError where
  | viewLoad (name : String)
  | viewExists (name : String)
  | casRead (id : Blake3Hash)
  | noIdentity
  | dirty
  | workingDir
  | replay (error : ReplayError)
  | merge (error : MergeError)
  | mutator (error : MutatorError)
  | notOneHead (view : String) (count : ℕ)
  | nothingToAmend
  | tooFewRevisions
  | headNotSelected
  | noStableHistory
  | diffeditInProgress
  | noDiffedit
  | notInGraph (id : Blake3Hash)
  | nothingToApply
  | restackPending
  | noRestackPending
  | incompatibleCheckpoint
  | viewChanged
  | missingDependency (dep : Blake3Hash)
  | semanticConflict (id : Blake3Hash)
  | nothingToRevert
  | redoRewrite
  | operationNotFound
  | wrongView (name : String)
  | notTracked (filepath : String)
  | noPendingAi
  | notHuman
  | keyMismatch
  | hashMismatch (expected : String) (id : Blake3Hash)
  | hashOfGenerate
  | nothingToCommit
deriving DecidableEq

/-- Ordinary mutations, and the rewrite transactions that carry a rewrite map. -/
inductive OperationKind where
  | generic
  | rewrite
deriving DecidableEq

structure Operation where
  command : String
  kind : OperationKind
  view : String
  beforeHeads : Finset Blake3Hash
  afterHeads : Finset Blake3Hash
  rewriteMap : FMap Blake3Hash Blake3Hash
deriving DecidableEq

inductive RewriteStatus where
  | inProgress
  | conflict (reason : RepoError)
deriving DecidableEq

/-- The resumable checkpoint of `restack`. -/
structure PendingRewrite where
  version : ℕ
  command : String
  view : String
  beforeHeads : Finset Blake3Hash
  desiredOrder : List Blake3Hash
  rewriteMap : FMap Blake3Hash Blake3Hash
  attempts : ℕ
  status : RewriteStatus
deriving DecidableEq

structure Repo where
  store : FMap Blake3Hash Change
  blobs : FMap Blake3Hash Bytes
  views : FMap String (Finset Blake3Hash)
  head : String
  epochs : FMap Blake3Hash Blake3Hash
  /-- The published operations, the last one first. -/
  oplog : List Operation
  /-- The undone operations, the last one first. -/
  redoStack : List Operation
  pendingRestack : Option PendingRewrite
  diffeditTarget : Option Blake3Hash
  graph : ChangeGraph
  identity : Option (Author × SigningKey)

/-- What a command finds in the working directory. -/
structure WorkDir where
  agentIgnore : Gitignore
  /-- The atoms between a state and the files, and the content that diffing them writes. -/
  delta : MaterializedState → Except RepoError (List Atom × List Bytes)
  isClean : MaterializedState → Bool
  readFile : String → Option Bytes
  canWrite : MaterializedState → Bool

abbrev RepoM (α : Type) := Program Repo RepoError α

namespace Repo

/-- `Repository::init`: an empty `main` view, which is the current one. -/
def init : Repo where
  store := ∅
  blobs := ∅
  views := Finmap.singleton "main" ∅
  head := "main"
  epochs := ∅
  oplog := []
  redoStack := []
  pendingRestack := none
  diffeditTarget := none
  graph := .new
  identity := none

/-! ## Stores -/

def readChange (store : FMap Blake3Hash Change) (id : Blake3Hash) : Except RepoError Change :=
  match store.lookup id with
  | none => .error (.casRead id)
  | some change => if change.id = id then .ok change else .error (.casRead id)

def writeChange (change : Change) : RepoM Unit :=
  .modify fun s => { s with store := s.store.putOnce change.id change }

def graphAddChange (change : Change) : RepoM Unit :=
  .modify fun s => { s with graph := s.graph.addChange change }

/-- `read_blob`, which checks the content against its hash. -/
def readBlob [Crypto] (blobs : FMap Blake3Hash Bytes) : BlobStore := fun hash =>
  match blobs.lookup hash with
  | none => .error "not found"
  | some bytes =>
      if Crypto.hashBytes bytes = hash then .ok bytes
      else .error "checksum mismatch while reading content-addressed object"

def putBlob (hash : Blake3Hash) (bytes : Bytes) : RepoM Unit :=
  .modify fun s => { s with blobs := s.blobs.putOnce hash bytes }

def writeBlobs [Crypto] : List Bytes → RepoM Unit
  | [] => pure ()
  | bytes :: contents => do
      putBlob (Crypto.hashBytes bytes) bytes
      writeBlobs contents

/-- Copy the file behind every `blob` atom into the store, under the hash of the atom. -/
def writeBlobAtoms (wd : WorkDir) : List Atom → RepoM Unit
  | [] => pure ()
  | .blob path hash _ :: atoms => do
      match wd.readFile path with
      | none => .throw .workingDir
      | some bytes =>
          putBlob hash bytes
          writeBlobAtoms wd atoms
  | _ :: atoms => writeBlobAtoms wd atoms

/-! ## Views -/

def loadView (name : String) : RepoM (Finset Blake3Hash) := do
  let s ← .get
  match s.views.lookup name with
  | none => .throw (.viewLoad name)
  | some heads => pure heads

def saveView (name : String) (heads : Finset Blake3Hash) : RepoM Unit :=
  .modify fun s => { s with views := s.views.insert name heads }

def currentViewName : RepoM String := do
  let s ← .get
  pure s.head

def signingIdentity : RepoM (Author × SigningKey) := do
  let s ← .get
  match s.identity with
  | none => .throw .noIdentity
  | some signer => pure signer

/-! ## Hydration -/

/-- One element of the hydration queue: redirected, already loaded, or read from the store. -/
def hydrateStep (store : FMap Blake3Hash Change) (epochs : FMap Blake3Hash Blake3Hash)
    (g : ChangeGraph) (id : Blake3Hash) :
    Except RepoError (List Blake3Hash × ChangeGraph) :=
  match epochs.lookup id with
  | some genesisId => .ok (if (g.get genesisId).isNone then [genesisId] else [], g)
  | none =>
      if (g.get id).isSome then .ok ([], g)
      else
        match readChange store id with
        | .error e => .error e
        | .ok change =>
            .ok ((change.deps.filter fun dep => (g.get dep).isNone).sorted, g.addChange change)

/-- The hydration loop. `none` means that the fuel ran out. -/
def hydrateGraph (fuel : ℕ) (store : FMap Blake3Hash Change)
    (epochs : FMap Blake3Hash Blake3Hash) (g : ChangeGraph) (heads : Finset Blake3Hash) :
    Option (Except RepoError ChangeGraph) :=
  Worklist.process (hydrateStep store epochs) fuel heads.sorted g

/-- The graph changes in one swap at the end. -/
def hydrateHeads (fuel : ℕ) (heads : Finset Blake3Hash) : RepoM Unit := fun s =>
  match hydrateGraph fuel s.store s.epochs s.graph heads with
  | none => none
  | some (.error e) => some (.error e, s)
  | some (.ok g) => some (.ok (), { s with graph := g })

def hydrate (fuel : ℕ) (view : String) : RepoM Unit := do
  let heads ← loadView view
  hydrateHeads fuel heads

/-! ## Replay and the working directory -/

section Replay

variable [Crypto]

/-- Replay in full: `materialize_heads` passes no sparse boundary. -/
def applyEnv (s : Repo) (agentIgnore : Gitignore) : ApplyEnv :=
  ⟨readBlob s.blobs, agentIgnore, none⟩

def materializeHeads (wd : WorkDir) (heads : Finset Blake3Hash) : RepoM MaterializedState := do
  let s ← .get
  match s.graph.materializeHeads (s.applyEnv wd.agentIgnore) heads with
  | .error e => .throw (.replay e)
  | .ok state => pure state

/-- The guard of several commands: without heads the state is empty. -/
def materializeNonempty (wd : WorkDir) (heads : Finset Blake3Hash) : RepoM MaterializedState :=
  if heads = ∅ then pure ∅ else materializeHeads wd heads

def materialize (wd : WorkDir) (view : String) : RepoM MaterializedState := do
  let heads ← loadView view
  materializeHeads wd heads

def computeWorkingDirectoryDelta (wd : WorkDir) (state : MaterializedState) :
    RepoM (List Atom) := do
  let (atoms, contents) ← .ofExcept (wd.delta state)
  writeBlobs contents
  pure atoms

end Replay

def checkWorkingDirClean (wd : WorkDir) (state : MaterializedState) : RepoM Unit :=
  if wd.isClean state then pure () else .throw .dirty

def writeStateToWorkingDir (wd : WorkDir) (state : MaterializedState) : RepoM Unit :=
  if wd.canWrite state then pure () else .throw .workingDir

/-- A clean directory that takes every file. -/
def anyWorkDir : WorkDir :=
  ⟨fun _ _ => false, fun _ => .ok ([], []), fun _ => true, fun _ => none, fun _ => true⟩

/-! ## The operation log and the epoch map -/

def appendOperation (op : Operation) : RepoM Unit :=
  .modify fun s => { s with oplog := op :: s.oplog }

def popOperation : RepoM (Option Operation) := do
  let s ← .get
  match s.oplog with
  | [] => pure none
  | op :: ops => do
      .modify fun s => { s with oplog := ops }
      pure (some op)

/-- Log an ordinary mutation, after which nothing can be redone. -/
def logOperation (command view : String) (beforeHeads afterHeads : Finset Blake3Hash) :
    RepoM Unit := do
  .modify fun s => { s with redoStack := [] }
  appendOperation ⟨command, .generic, view, beforeHeads, afterHeads, ∅⟩

def persistRewriteMap (rewriteMap : FMap Blake3Hash Blake3Hash) : RepoM Unit :=
  .modify fun s => { s with epochs := rewriteMap ∪ s.epochs }

/-- Extend the epoch map and log the transaction. It returns the epoch map before. -/
def stageRewriteMetadata (command view : String) (beforeHeads afterHeads : Finset Blake3Hash)
    (rewriteMap : FMap Blake3Hash Blake3Hash) : RepoM (FMap Blake3Hash Blake3Hash) := do
  let s ← .get
  persistRewriteMap rewriteMap
  appendOperation ⟨command, .rewrite, view, beforeHeads, afterHeads, rewriteMap⟩
  pure s.epochs

def rollbackRewriteMetadata (previousEpoch : FMap Blake3Hash Blake3Hash) (s : Repo) : Repo :=
  { s with oplog := s.oplog.tail, epochs := previousEpoch }

def rollbackRewriteMapEntries (rewriteMap : FMap Blake3Hash Blake3Hash) : RepoM Unit :=
  .modify fun s => { s with epochs := s.epochs.eraseShared rewriteMap }

end Repo

end ArcVcs
