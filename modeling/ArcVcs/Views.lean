import ArcVcs.Repo

/-!
# Commands on views

`snap`, `create_view`, `switch_view`, `merge_heads` and `undo`.
-/

namespace ArcVcs.Repo

def createView (name : String) : RepoM Unit := do
  let currentName ← currentViewName
  let heads ← loadView currentName
  let s ← .get
  if name ∈ s.views.keys then .throw (.viewExists name)
  else saveView name heads

variable [Crypto]

/-- A new change that is about to become the only head of a view. -/
structure Advance where
  command : String
  view : String
  beforeHeads : Finset Blake3Hash
  change : Change

/-- Write the change, repoint the view and log the command. -/
def advanceView (plan : Advance) : RepoM Unit := do
  writeChange plan.change
  graphAddChange plan.change
  saveView plan.view {plan.change.id}
  logOperation plan.command plan.view plan.beforeHeads {plan.change.id}

/-- The change that `snap` records, if any atom is left. -/
def snapPlan (fuel : ℕ) (wd : WorkDir) (message : String) (stage : List Atom → List Atom) :
    RepoM (Option Advance) := do
  let s ← .get
  if s.diffeditTarget.isSome then .throw .diffeditInProgress
  else
    let viewName ← currentViewName
    hydrate fuel viewName
    let state ← materialize wd viewName
    let rawAtoms ← computeWorkingDirectoryDelta wd state
    if rawAtoms = [] ∨ stage rawAtoms = [] then pure none
    else
      let heads ← loadView viewName
      let signer ← signingIdentity
      writeBlobAtoms wd (stage rawAtoms)
      pure (some ⟨"snap", viewName, heads,
        Change.new heads (stage rawAtoms) message signer.1 signer.2⟩)

/-- `snap`, where `stage` keeps the atoms that the user stages interactively. -/
def snap (fuel : ℕ) (wd : WorkDir) (message : String) (stage : List Atom → List Atom) :
    RepoM (Option Blake3Hash) := do
  match ← snapPlan fuel wd message stage with
  | none => pure none
  | some plan => do
      advanceView plan
      pure (some plan.change.id)

/-- Switch the working directory to `target`. It fails on un-snapped changes. -/
def switchView (fuel : ℕ) (wd : WorkDir) (target : String) : RepoM Unit := do
  let targetHeads ← loadView target
  let currentName ← currentViewName
  hydrate fuel currentName
  let currentState ← materialize wd currentName
  checkWorkingDirClean wd currentState
  hydrate fuel target
  let targetState ← materializeNonempty wd targetHeads
  writeStateToWorkingDir wd targetState
  .modify fun s => { s with head := target }

/-- What a merge is about to save: the heads of both sides, or a conflict change on them. -/
inductive MergeCommit where
  | union (view : String) (current target : Finset Blake3Hash)
  | conflict (plan : Advance)

/-- The conflict change of a merge, after the blobs its atoms refer to. -/
def conflictAdvance (view : String) (current target : Finset Blake3Hash) (pairs : ℕ)
    (states : ChangeGraph.ConflictStates) (paths : List NodePath) : RepoM Advance := do
  writeBlobs (paths.flatMap states.blobs)
  let signer ← signingIdentity
  pure ⟨"merge", view, current, Change.new (current ∪ target) (states.atoms paths)
    (ChangeGraph.mergeIntent pairs) signer.1 signer.2⟩

def mergePlan (fuel : ℕ) (wd : WorkDir) (target : Finset Blake3Hash) : RepoM MergeCommit := do
  let currentName ← currentViewName
  hydrate fuel currentName
  hydrateHeads fuel target
  let current ← loadView currentName
  let currentState ← materializeHeads wd current
  checkWorkingDirClean wd currentState
  let s ← .get
  match s.graph.mergePlan (s.applyEnv wd.agentIgnore) current target currentState with
  | .error e => .throw (.merge e)
  | .ok .union => pure (.union currentName current target)
  | .ok (.conflict pairs states paths) => do
      let plan ← conflictAdvance currentName current target pairs states paths
      pure (.conflict plan)

def commitMerge : MergeCommit → RepoM (Finset Blake3Hash)
  | .union view current target => do
      saveView view (current ∪ target)
      logOperation "merge" view current (current ∪ target)
      pure (current ∪ target)
  | .conflict plan => do
      advanceView plan
      pure {plan.change.id}

def mergeHeads (fuel : ℕ) (wd : WorkDir) (target : Finset Blake3Hash) : RepoM Unit := do
  let commit ← mergePlan fuel wd target
  let merged ← commitMerge commit
  let mergedState ← materializeHeads wd merged
  writeStateToWorkingDir wd mergedState

def undo (fuel : ℕ) (wd : WorkDir) : RepoM (Option Operation) := do
  match ← popOperation with
  | none => pure none
  | some op => do
      if op.kind = .rewrite then rollbackRewriteMapEntries op.rewriteMap else pure ()
      let currentHeads ← loadView op.view
      hydrateHeads fuel currentHeads
      let _ ← materializeNonempty wd currentHeads
      saveView op.view op.beforeHeads
      hydrateHeads fuel op.beforeHeads
      let restoredState ← materializeNonempty wd op.beforeHeads
      writeStateToWorkingDir wd restoredState
      .modify fun s => { s with redoStack := op :: s.redoStack }
      pure (some op)

end ArcVcs.Repo
