import ArcVcs.Repo
import ArcVcs.Lib.DepthFirst
import ArcVcs.Lib.Interleaving
import ArcVcs.Lib.StackHistory

/-!
# The operation log

`append`, `pop` and `read_all` of `OpLog` as threads over the files of `.arc/oplog`. Every access
to a file is one action, so calls of other writers may come in between.
-/

namespace ArcVcs.OpLog

open StackHistory (Effect)
open Thread (perform attempt)

abbrev ChangeId := Blake3Hash

abbrev SnapshotId := Blake3Hash

abbrev MutationId := Blake3Hash

inductive OperationAgent where
  | human
  | ai
deriving DecidableEq

/-- The fields of an operation that are hashed whatever its place in the log. -/
structure OperationContent where
  timestamp : ℕ
  command : String
  kind : OperationKind
  view : String
  agent : OperationAgent
  beforeHeads : Finset ChangeId
  afterHeads : Finset ChangeId
  txId : Option MutationId
  rewriteMap : FMap ChangeId ChangeId
deriving DecidableEq

/-- An operation. The display id is not hashed. -/
structure Operation extends OperationContent where
  id : String
  parents : Finset SnapshotId
  snapshot : Option SnapshotId
deriving DecidableEq

/-- The payload of `build_node`. -/
structure OperationPayload extends OperationContent where
  parents : Finset SnapshotId
deriving DecidableEq

structure OperationNode where
  id : SnapshotId
  operation : Operation

structure HeadsState where
  epoch : ℕ
  heads : Finset SnapshotId
deriving DecidableEq

/-- `blake3::hash` of the two things that the log serializes and hashes. -/
class OpLogHash where
  snapshotId : OperationPayload → SnapshotId
  fingerprint : HeadsState → Blake3Hash

@[reducible] def OpLogHash.sample : OpLogHash where
  snapshotId p := .ofNat (1 + p.timestamp + 100 * (p.parents.sorted.map Blake3Hash.toNat).sum)
  fingerprint h := .ofNat (h.epoch + 1000 * (h.heads.sorted.map Blake3Hash.toNat).sum)

inductive OpLogError where
  | missingLegacyFile
  | missingNode (id : SnapshotId)
  | headSetEmpty
  | retriesExhausted
  | recursionLimit
  | io (message : String)
deriving DecidableEq

def Operation.payload (op : Operation) : OperationPayload := ⟨op.toOperationContent, op.parents⟩

/-- `HeadsState::default`. -/
def HeadsState.default : HeadsState := ⟨0, ∅⟩

/-- `epoch + 1` on a `u64`. -/
def nextEpoch (epoch : ℕ) : ℕ := (epoch + 1) % 2 ^ 64

/-- The files of the log, with what the proofs record beside them. -/
structure Disk (ι : Type) where
  /-- `heads.bin`. -/
  heads : Option HeadsState
  /-- The files under `ops`. -/
  nodes : FMap SnapshotId OperationNode
  /-- `oplog.json` beside the log. -/
  legacy : Option (List Operation)
  /-- The call that holds `publish.lock`. -/
  lock : Option ι
  /-- What the calls have done to the log. No code reads it. -/
  history : List (Effect ι OperationContent)
  /-- What has been hashed. No code reads it. -/
  hashedPayloads : List OperationPayload
  hashedStates : List HeadsState

namespace Disk

variable {ι : Type}

/-- A directory without a log, and perhaps with the log file of an earlier version. -/
def fresh (legacy : Option (List Operation)) : Disk ι := ⟨none, ∅, legacy, none, [], [], []⟩

/-- The state that `load_heads_state` reads. -/
def current (s : Disk ι) : HeadsState := s.heads.getD .default

end Disk

/-! ## File accesses -/

section Actions

variable {ι : Type}

abbrev Action (ι α : Type) := Program (Disk ι) OpLogError α

/-- Record what an action has done to the log. -/
def Action.noting {α : Type} (action : Action ι α)
    (effects : α → List (Effect ι OperationContent)) : Action ι α := fun s =>
  match action s with
  | none => none
  | some (.error e, t) => some (.error e, t)
  | some (.ok a, t) => some (.ok a, { t with history := t.history ++ effects a })

def headsExist : Action ι Bool := fun s => some (.ok s.heads.isSome, s)

def legacyExists : Action ι Bool := fun s => some (.ok s.legacy.isSome, s)

def readLegacy : Action ι (List Operation) := fun s =>
  match s.legacy with
  | none => some (.error .missingLegacyFile, s)
  | some ops => some (.ok ops, s)

def writeLegacy (ops : List Operation) : Action ι Unit := fun s =>
  some (.ok (), { s with legacy := some ops })

/-- The renaming of `oplog.json` after a migration. -/
def moveLegacyAside : Action ι Unit := fun s =>
  match s.legacy with
  | none => some (.error .missingLegacyFile, s)
  | some _ => some (.ok (), { s with legacy := none })

def nodeExists (node : OperationNode) : Action ι Bool := fun s =>
  some (.ok (decide (node.id ∈ s.nodes.keys)),
    { s with hashedPayloads := node.operation.payload :: s.hashedPayloads })

def writeNode (node : OperationNode) : Action ι Unit := fun s =>
  some (.ok (), { s with nodes := s.nodes.insert node.id node })

def loadNode (id : SnapshotId) : Action ι OperationNode := fun s =>
  match s.nodes.lookup id with
  | none => some (.error (.missingNode id), s)
  | some node => some (.ok node, s)

def writeHeadsState (state : HeadsState) : Action ι Unit := fun s =>
  some (.ok (), { s with heads := some state })

/-- Creating `publish.lock` waits until nobody holds it. -/
def acquire (i : ι) : Action ι Unit := fun s =>
  match s.lock with
  | none => some (.ok (), { s with lock := some i })
  | some _ => none

def release : Action ι Unit := fun s => some (.ok (), { s with lock := none })

variable [OpLogHash]

open OpLogHash in
def loadHeadsState : Action ι (HeadsState × Blake3Hash) := fun s =>
  some (.ok (s.current, fingerprint s.current),
    { s with hashedStates := s.current :: s.hashedStates })

end Actions

/-! ## Reading the reachable nodes -/

/-- The order in which operations are listed. -/
def listedBefore (a b : OperationNode) : Prop :=
  a.operation.timestamp < b.operation.timestamp
    ∨ a.operation.timestamp = b.operation.timestamp ∧ a.operation.id ≤ b.operation.id

instance : DecidableRel listedBefore := fun _ _ => inferInstanceAs (Decidable (_ ∨ _))

section Reachable

variable (nodes : FMap SnapshotId OperationNode)

/-- The parents that the loop of `read_all` pushes. The last one is visited first. -/
def visitNode (id : SnapshotId) : Except OpLogError (List SnapshotId) :=
  match nodes.lookup id with
  | none => .error (.missingNode id)
  | some node => .ok node.operation.parents.sorted.reverse

def parentCount (id : SnapshotId) : ℕ :=
  ((nodes.lookup id).map fun node => node.operation.parents.card).getD 0

/-- The nodes that can be reached from the heads, in the order of the listing. `none` means that
the fuel ran out. -/
def reachableNodes (heads : Finset SnapshotId) :
    Option (Except OpLogError (List OperationNode)) :=
  (DepthFirst.search (visitNode nodes) (heads.card + ∑ id ∈ nodes.keys, parentCount nodes id + 1)
    heads.sorted.reverse []).map fun out => out.map fun ids =>
      (ids.filterMap nodes.lookup).insertionSort listedBefore

end Reachable

/-- The traversal of `read_all`. Nodes never change once they are written, so it is one action. -/
def readNodes {ι : Type} (heads : Finset SnapshotId) : Action ι (List Operation) := fun s =>
  (reachableNodes s.nodes heads).map fun out =>
    (out.map fun nodes => nodes.map OperationNode.operation, s)

/-! ## Calls -/

section Calls

variable {ι : Type} [OpLogHash]

abbrev OpLogThread (ι α : Type) := Thread (Disk ι) OpLogError α

open OpLogHash in
def buildNode (op : Operation) (currentHeads : Finset SnapshotId) : OperationNode :=
  let snapshot := snapshotId ⟨op.toOperationContent, currentHeads⟩
  ⟨snapshot, { op with parents := currentHeads, snapshot := some snapshot }⟩

def persistNode (node : OperationNode) : OpLogThread ι Unit := do
  let present ← perform (nodeExists node)
  if present then pure () else perform (writeNode node)

/-- The guard of `LockMarker` releases the lock on every way out. -/
def withLock {α : Type} (i : ι) (body : OpLogThread ι α) : OpLogThread ι α := do
  perform (acquire i)
  let result ← attempt body
  match result with
  | .ok a => do
      perform release
      pure a
  | .error e => do
      let _ ← attempt (perform release)
      .throw e

/-- `read_all` after `migrate_legacy_json_if_present`. -/
def readHeads (i : ι) : OpLogThread ι (List Operation) := do
  let present ← perform (headsExist.noting fun present => if present then [] else [.listed i])
  if present then do
    let loaded ← perform (loadHeadsState.noting fun _ => [.listed i])
    if loaded.1.heads = ∅ then pure [] else perform (readNodes loaded.1.heads)
  else pure []

def writeLegacyProjection (migrate : OpLogThread ι Unit) (i : ι) : OpLogThread ι Unit := do
  migrate
  let all ← readHeads i
  perform (writeLegacy all)

/-- The loop of `migrate_legacy_json_if_present`. -/
def migrateNodes : List Operation → HeadsState → OpLogThread ι HeadsState
  | [], state => pure state
  | op :: ops, state => do
      let node := buildNode op state.heads
      persistNode node
      migrateNodes ops ⟨nextEpoch state.epoch, {node.id}⟩

/-- `migrate_legacy_json_if_present`, with a bound on how often it calls itself through the
projection. The heads file is there when it does, so the second call returns at its first test. -/
def migrateLegacyJsonIfPresent (i : ι) : ℕ → OpLogThread ι Unit
  | 0 => .throw .recursionLimit
  | depth + 1 => do
      let present ← perform headsExist
      if present then pure ()
      else do
        let legacy ← perform legacyExists
        if legacy then do
          let legacyOps ← perform readLegacy
          let state ← migrateNodes legacyOps .default
          perform (writeHeadsState state)
          perform moveLegacyAside
          let _ ← attempt (writeLegacyProjection (migrateLegacyJsonIfPresent i depth) i)
          pure ()
        else pure ()

def readAll (i : ι) (depth : ℕ) : OpLogThread ι (List Operation) := do
  migrateLegacyJsonIfPresent i depth
  readHeads i

def publishHeadsCas (i : ι) (expected : Blake3Hash) (candidate : HeadsState)
    (content : OperationContent) : OpLogThread ι Bool :=
  withLock i (do
    let loaded ← perform loadHeadsState
    if loaded.2 = expected then do
      perform ((writeHeadsState candidate).noting fun _ => [.pushed i content candidate.epoch])
      pure true
    else pure false)

def appendLoop (i : ι) (op : Operation) (depth : ℕ) : ℕ → OpLogThread ι Unit
  | 0 => .throw .retriesExhausted
  | attempts + 1 => do
      let loaded ← perform loadHeadsState
      let node := buildNode op loaded.1.heads
      persistNode node
      let candidate : HeadsState :=
        ⟨nextEpoch loaded.1.epoch, insert node.id (loaded.1.heads \ node.operation.parents)⟩
      let published ← publishHeadsCas i loaded.2 candidate op.toOperationContent
      if published then do
        let _ ← attempt (writeLegacyProjection (migrateLegacyJsonIfPresent i depth) i)
        pure ()
      else appendLoop i op depth attempts

def maxRetryAttempts : ℕ := 16

def append (i : ι) (op : Operation) (depth : ℕ) : OpLogThread ι Unit := do
  migrateLegacyJsonIfPresent i depth
  appendLoop i op depth maxRetryAttempts

def loadNodes : List SnapshotId → OpLogThread ι (List OperationNode)
  | [] => pure []
  | id :: ids => do
      let node ← perform (loadNode id)
      let nodes ← loadNodes ids
      pure (node :: nodes)

def popLocked (i : ι) (depth : ℕ) : OpLogThread ι (Option Operation) := do
  let loaded ← perform (loadHeadsState.noting fun loaded =>
    if loaded.1.heads = ∅ then [.foundEmpty i] else [])
  if loaded.1.heads = ∅ then pure none
  else do
    let headNodes ← loadNodes loaded.1.heads.sorted
    match (headNodes.insertionSort listedBefore).getLast? with
    | none => .throw .headSetEmpty
    | some selected => do
        let candidate : HeadsState := ⟨nextEpoch loaded.1.epoch,
          loaded.1.heads.erase selected.id ∪ selected.operation.parents⟩
        perform ((writeHeadsState candidate).noting fun _ =>
          [.popped i selected.operation.toOperationContent candidate.epoch])
        let _ ← attempt (writeLegacyProjection (migrateLegacyJsonIfPresent i depth) i)
        pure (some selected.operation)

def pop (i : ι) (depth : ℕ) : OpLogThread ι (Option Operation) := do
  migrateLegacyJsonIfPresent i depth
  withLock i (popLocked i depth)

inductive Call where
  | append (op : Operation)
  | pop
  | readAll

inductive Reply where
  | appended
  | popped (op : Option Operation)
  | listed (ops : List Operation)
deriving DecidableEq

def Call.run (i : ι) : Call → OpLogThread ι Reply
  | .append op => do
      OpLog.append i op 2
      pure .appended
  | .pop => do
      let op ← OpLog.pop i 2
      pure (.popped op)
  | .readAll => do
      let ops ← OpLog.readAll i 2
      pure (.listed ops)

abbrev LogSystem (ι : Type) := ThreadSystem (Disk ι) OpLogError ι Reply

/-- All calls are about to begin in a directory without a log. -/
def beforeCalls (calls : ι → Call) (legacy : Option (List Operation)) : LogSystem ι :=
  ⟨.fresh legacy, fun i => (calls i).run i⟩

end Calls

end ArcVcs.OpLog
