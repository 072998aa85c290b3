import ArcVcs.Delta
import ArcVcs.Views

/-!
# Commands that move heads

`cherry_pick`, `revert`, `abandon_heads`, `redo`, `op_restore` and `op_revert`. Each of them, like
`merge_heads` and `undo`, saves new heads for a view and then replays them and projects the state
to the working directory.
-/

namespace ArcVcs

/-- The heads that a command has saved for a view, and those before. -/
structure HeadMove where
  view : String
  before : Finset Blake3Hash
  heads : Finset Blake3Hash
deriving DecidableEq

namespace Repo

/-! ## Saving new heads -/

/-- The commutation check of `cherry_pick` against every exclusive change. -/
def checkExclusive (g : ChangeGraph) (change : Change) : List Blake3Hash → RepoM Unit
  | [] => pure ()
  | excId :: exclusive =>
      match g.get excId with
      | none => .throw (.notInGraph excId)
      | some excChange =>
          if commutes change excChange then checkExclusive g change exclusive
          else .throw (.semanticConflict excId)

def cherryPickCommit (fuel : ℕ) (hash : Blake3Hash) : RepoM HeadMove := do
  let viewName ← currentViewName
  hydrate fuel viewName
  let stored ← .get
  let change ← .ofExcept (readChange stored.store hash)
  let heads ← loadView viewName
  let s ← .get
  match change.deps.sorted.find? (· ∉ s.graph.ancestors heads) with
  | some dep => .throw (.missingDependency dep)
  | none => do
      checkExclusive s.graph change (s.graph.ancestors heads \ s.graph.ancestors {hash}).sorted
      graphAddChange change
      saveView viewName (insert hash heads)
      logOperation "cherry-pick" viewName heads (insert hash heads)
      pure ⟨viewName, heads, insert hash heads⟩

/-- Replace every listed head by its dependencies. Ids that are no head are passed over. -/
def abandonEach (store : FMap Blake3Hash Change) :
    List Blake3Hash → Finset Blake3Hash → List Blake3Hash →
      Except RepoError (Finset Blake3Hash × List Blake3Hash)
  | [], newHeads, abandoned => .ok (newHeads, abandoned)
  | id :: resolved, newHeads, abandoned =>
      if id ∈ newHeads then
        match readChange store id with
        | .error e => .error e
        | .ok change =>
            abandonEach store resolved (newHeads.erase id ∪ change.deps) (abandoned ++ [id])
      else abandonEach store resolved newHeads abandoned

/-- The new heads, and the abandoned changes if there is any. -/
def abandonCommit (fuel : ℕ) (resolved : List Blake3Hash) :
    RepoM (Option (HeadMove × List Blake3Hash)) := do
  let viewName ← currentViewName
  hydrate fuel viewName
  let heads ← loadView viewName
  let s ← .get
  let (newHeads, abandoned) ← .ofExcept (abandonEach s.store resolved heads [])
  if abandoned = [] then pure none
  else do
    saveView viewName newHeads
    pure (some (⟨viewName, heads, newHeads⟩, abandoned))

variable [Crypto]

def revertIntent (hash : Blake3Hash) : String :=
  "revert " ++ String.ofList (hash.toHex.toList.take 8)

/-- The change that takes a stored change back, on top of the current heads. -/
def revertPlan (fuel : ℕ) (wd : WorkDir) (plugin : LanguagePlugin) (hash : Blake3Hash) :
    RepoM Advance := do
  let viewName ← currentViewName
  hydrate fuel viewName
  let s ← .get
  let target ← .ofExcept (readChange s.store hash)
  graphAddChange target
  hydrateHeads fuel target.deps
  let stateA ← materializeNonempty wd target.deps
  let stateB ← materializeHeads wd {hash}
  let revertAtoms ← computeStateDelta plugin stateB stateA
  if revertAtoms = [] then .throw .nothingToRevert
  else do
    let heads ← loadView viewName
    let signer ← signingIdentity
    pure ⟨"revert", viewName, heads,
      Change.new heads revertAtoms (revertIntent hash) signer.1 signer.2⟩

def revertCommit (fuel : ℕ) (wd : WorkDir) (plugin : LanguagePlugin) (hash : Blake3Hash) :
    RepoM HeadMove := do
  let plan ← revertPlan fuel wd plugin hash
  writeChange plan.change
  graphAddChange plan.change
  logOperation plan.command plan.view plan.beforeHeads {plan.change.id}
  saveView plan.view {plan.change.id}
  pure ⟨plan.view, plan.beforeHeads, {plan.change.id}⟩

/-- Up to the restored view. -/
def undoCommit (fuel : ℕ) (wd : WorkDir) : RepoM (Option (HeadMove × Operation)) := do
  match ← popOperation with
  | none => pure none
  | some op => do
      if op.kind = .rewrite then rollbackRewriteMapEntries op.rewriteMap else pure ()
      let currentHeads ← loadView op.view
      hydrateHeads fuel currentHeads
      let _ ← materializeNonempty wd currentHeads
      saveView op.view op.beforeHeads
      pure (some (⟨op.view, currentHeads, op.beforeHeads⟩, op))

/-- Up to the view that is saved with the heads after the operation. -/
def redoCommit (fuel : ℕ) (wd : WorkDir) : RepoM (Option (HeadMove × Operation)) := do
  let s ← .get
  match s.redoStack with
  | [] => pure none
  | op :: _ =>
      if op.kind = .rewrite then .throw .redoRewrite
      else do
        let currentHeads ← loadView op.view
        if currentHeads ≠ op.beforeHeads then .throw .viewChanged
        else do
          hydrateHeads fuel op.beforeHeads
          let _ ← materializeNonempty wd op.beforeHeads
          saveView op.view op.afterHeads
          pure (some (⟨op.view, op.beforeHeads, op.afterHeads⟩, op))

def resolveOperationById (opId : ℕ) : RepoM Operation := do
  let s ← .get
  match s.oplog[opId]? with
  | none => .throw .operationNotFound
  | some op => pure op

/-- `apply_operation_heads` up to the saved view. -/
def operationCommit (fuel : ℕ) (wd : WorkDir) (target : Operation)
    (nextHeads : Finset Blake3Hash) : RepoM HeadMove := do
  let viewName ← currentViewName
  if target.view ≠ viewName then .throw (.wrongView target.view)
  else do
    hydrate fuel viewName
    let beforeHeads ← loadView viewName
    hydrateHeads fuel nextHeads
    let _ ← materializeNonempty wd beforeHeads
    saveView viewName nextHeads
    pure ⟨viewName, beforeHeads, nextHeads⟩

/-! ## Replay and projection -/

/-- Load the new heads and replay them. -/
def replayMove (fuel : ℕ) (wd : WorkDir) (move : HeadMove) : RepoM MaterializedState := do
  hydrateHeads fuel move.heads
  materializeNonempty wd move.heads

/-- Project a state, and save the old heads again when that fails. -/
def projectOrRestore (wd : WorkDir) (move : HeadMove) (state : MaterializedState) : RepoM Unit :=
  (writeStateToWorkingDir wd state).onError fun _ s =>
    { s with views := s.views.insert move.view move.before }

/-- Add a change of the store to the current view. -/
def cherryPick (fuel : ℕ) (wd : WorkDir) (hash : Blake3Hash) : RepoM Unit := do
  let move ← cherryPickCommit fuel hash
  let newState ← materializeHeads wd move.heads
  writeStateToWorkingDir wd newState

def revert (fuel : ℕ) (wd : WorkDir) (plugin : LanguagePlugin) (hash : Blake3Hash) :
    RepoM (Finset Blake3Hash) := do
  let move ← revertCommit fuel wd plugin hash
  let newState ← materializeHeads wd move.heads
  writeStateToWorkingDir wd newState
  pure move.heads

def abandonHeads (fuel : ℕ) (wd : WorkDir) (resolved : List Blake3Hash) :
    RepoM (List Blake3Hash) := do
  match ← abandonCommit fuel resolved with
  | none => pure []
  | some (move, abandoned) => do
      let state ← replayMove fuel wd move
      writeStateToWorkingDir wd state
      logOperation "abandon" move.view move.before move.heads
      pure abandoned

/-- Apply the operation that was undone last once more. -/
def redo (fuel : ℕ) (wd : WorkDir) : RepoM (Option Operation) := do
  match ← redoCommit fuel wd with
  | none => pure none
  | some (move, op) => do
      let restoredState ← replayMove fuel wd move
      projectOrRestore wd move restoredState
      appendOperation op
      .modify fun s => { s with redoStack := s.redoStack.tail }
      pure (some op)

def applyOperationHeads (fuel : ℕ) (wd : WorkDir) (target : Operation)
    (nextHeads : Finset Blake3Hash) (commandLabel : String) : RepoM Unit := do
  let move ← operationCommit fuel wd target nextHeads
  let afterState ← materializeNonempty wd move.heads
  projectOrRestore wd move afterState
  logOperation commandLabel move.view move.before move.heads

def opRestore (fuel : ℕ) (wd : WorkDir) (opId : ℕ) : RepoM Operation := do
  let target ← resolveOperationById opId
  applyOperationHeads fuel wd target target.afterHeads ("op restore " ++ toString opId)
  pure target

/-- Restore the heads before a logged operation. -/
def opRevert (fuel : ℕ) (wd : WorkDir) (opId : ℕ) : RepoM Operation := do
  let target ← resolveOperationById opId
  applyOperationHeads fuel wd target target.beforeHeads ("op revert " ++ toString opId)
  pure target

end Repo

end ArcVcs
