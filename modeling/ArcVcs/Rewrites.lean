import ArcVcs.Repo

/-!
# Commands that rewrite history

`amend`, `squash_into`, `reorder`, `restack` and `diffedit`. Each one first plans the new
changes and the map from the replaced ids to the new ones, and then commits the plan.
-/

namespace ArcVcs

/-- `remap_change`: follow the bindings, at most once more than there are. -/
def remapChange (map : FMap Blake3Hash Blake3Hash) :
    ℕ → Finset Blake3Hash → Blake3Hash → Blake3Hash
  | 0, _, id => id
  | hops + 1, visited, id =>
      match map.lookup id with
      | none => id
      | some next =>
          if next = id ∨ id ∈ visited then id else remapChange map hops (insert id visited) next

namespace PendingRewrite

def checkpointVersion : ℕ := 1

def newRestack (view : String) (beforeHeads : Finset Blake3Hash)
    (desiredOrder : List Blake3Hash) : PendingRewrite where
  version := checkpointVersion
  command := "restack"
  view
  beforeHeads
  desiredOrder
  rewriteMap := ∅
  attempts := 0
  status := .inProgress

/-- The desired order with any known rewrite bindings projected. -/
def resolvedOrder (pending : PendingRewrite) : List Blake3Hash :=
  pending.desiredOrder.map (remapChange pending.rewriteMap (pending.rewriteMap.keys.card + 1) ∅)

/-- `saturating_add` on a `u32`. -/
def withAttemptIncremented (pending : PendingRewrite) : PendingRewrite :=
  { pending with attempts := min (pending.attempts + 1) (2 ^ 32 - 1) }

def withConflict (pending : PendingRewrite) (reason : RepoError) : PendingRewrite :=
  { pending with status := .conflict reason }

def clearConflict (pending : PendingRewrite) : PendingRewrite :=
  { pending with status := .inProgress }

def withRewriteMap (pending : PendingRewrite) (rewrites : FMap Blake3Hash Blake3Hash) :
    PendingRewrite :=
  { pending with rewriteMap := rewrites ∪ pending.rewriteMap }

end PendingRewrite

/-- What a rewriting command is about to commit. -/
structure RewritePlan where
  command : String
  view : String
  beforeHeads : Finset Blake3Hash
  rewritten : List Change
  rewriteMap : FMap Blake3Hash Blake3Hash
  newHead : Blake3Hash

namespace Repo

def soleHead (view : String) (heads : Finset Blake3Hash) : RepoM Blake3Hash :=
  match heads.sorted with
  | [head] => pure head
  | _ => .throw (.notOneHead view heads.card)

def writeRewritten : List Change → RepoM Unit
  | [] => pure ()
  | change :: changes => do
      writeChange change
      graphAddChange change
      writeRewritten changes

def savePendingRestack (pending : PendingRewrite) (s : Repo) : Repo :=
  { s with pendingRestack := some pending }

def clearPendingRestack : RepoM Unit := .modify fun s => { s with pendingRestack := none }

def loadPendingRestack : RepoM PendingRewrite := do
  let s ← .get
  match s.pendingRestack with
  | none => .throw .noRestackPending
  | some pending => pure pending

def validatePendingRestack (pending : PendingRewrite) : RepoM Unit :=
  if pending.version = PendingRewrite.checkpointVersion ∧ pending.command = "restack" then pure ()
  else .throw .incompatibleCheckpoint

variable [Crypto]

/-- The working directory follows the rewritten view. -/
def checkoutView (wd : WorkDir) (view : String) : RepoM Unit := do
  let state ← materialize wd view
  writeStateToWorkingDir wd state

/-- Write the new changes, stage the metadata, repoint the view and check it out. A failure
restores the view, the log and the epoch map. `staged` and `failed` keep the checkpoint of
`restack`. -/
def commitRewrite (wd : WorkDir) (plan : RewritePlan) (staged : Repo → Repo)
    (failed : RepoError → Repo → Repo) : RepoM Blake3Hash := do
  writeRewritten plan.rewritten
  let previousEpoch ← stageRewriteMetadata plan.command plan.view plan.beforeHeads {plan.newHead}
    plan.rewriteMap
  .modify staged
  saveView plan.view {plan.newHead}
  (checkoutView wd plan.view).onError fun e s =>
    failed e (rollbackRewriteMetadata previousEpoch
      { s with views := s.views.insert plan.view plan.beforeHeads })
  pure plan.newHead

/-! ## Amend -/

/-- The head diffed again against the state before it. -/
def amendPlan (fuel : ℕ) (wd : WorkDir) (message : Option String) : RepoM RewritePlan := do
  let viewName ← currentViewName
  hydrate fuel viewName
  let heads ← loadView viewName
  let oldHead ← soleHead viewName heads
  let s ← .get
  let parent ← .ofExcept (readChange s.store oldHead)
  hydrateHeads fuel parent.deps
  let grandparentState ← materializeHeads wd parent.deps
  let delta ← computeWorkingDirectoryDelta wd grandparentState
  if delta = [] ∧ message = none then .throw .nothingToAmend
  else
    let signer ← signingIdentity
    writeBlobAtoms wd delta
    let newChange := Change.new parent.deps delta (message.getD parent.intent) signer.1 signer.2
    pure ⟨"amend", viewName, heads, [newChange], Finmap.singleton oldHead newChange.id,
      newChange.id⟩

/-- `amend` logs an ordinary operation and rolls nothing back. -/
def amend (fuel : ℕ) (wd : WorkDir) (message : Option String) : RepoM Blake3Hash := do
  let plan ← amendPlan fuel wd message
  writeRewritten plan.rewritten
  persistRewriteMap plan.rewriteMap
  logOperation plan.command plan.view plan.beforeHeads {plan.newHead}
  saveView plan.view {plan.newHead}
  checkoutView wd plan.view
  pure plan.newHead

/-! ## Squash and reorder -/

def squashPlan (targetId : Blake3Hash) : RepoM RewritePlan := do
  let viewName ← currentViewName
  let heads ← loadView viewName
  let _ ← soleHead viewName heads
  let signer ← signingIdentity
  let s ← .get
  match Mutator.squashInto s.graph heads targetId signer with
  | .error e => .throw (.mutator e)
  | .ok outcome =>
      pure ⟨"squash", viewName, heads, [outcome.squashed], outcome.rewriteMap, outcome.squashed.id⟩

def squashInto (wd : WorkDir) (targetId : Blake3Hash) : RepoM Blake3Hash := do
  let plan ← squashPlan targetId
  commitRewrite wd plan id fun _ => id

def reorderPlan (desired : List Blake3Hash) : RepoM RewritePlan := do
  if desired.length < 2 then .throw .tooFewRevisions
  else
    let viewName ← currentViewName
    let heads ← loadView viewName
    let oldHead ← soleHead viewName heads
    if oldHead ∉ desired then .throw .headNotSelected
    else
      let signer ← signingIdentity
      let s ← .get
      match Mutator.reorder s.graph desired signer with
      | .error e => .throw (.mutator e)
      | .ok outcome =>
          pure ⟨"reorder", viewName, heads, outcome.rewritten, outcome.rewriteMap, outcome.newHead⟩

def reorder (wd : WorkDir) (desired : List Blake3Hash) : RepoM Blake3Hash := do
  let plan ← reorderPlan desired
  commitRewrite wd plan id fun _ => id

/-! ## Restack -/

/-- The plan of one attempt, with the checkpoint it goes on from. A failed reorder pauses. -/
def restackPlan (pending : PendingRewrite) : RepoM (RewritePlan × PendingRewrite) := do
  validatePendingRestack pending
  let pending := pending.clearConflict.withAttemptIncremented
  .modify (savePendingRestack pending)
  let heads ← loadView pending.view
  if heads ≠ pending.beforeHeads then .throw .viewChanged
  else
    let signer ← signingIdentity
    let s ← .get
    match Mutator.reorder s.graph pending.resolvedOrder signer with
    | .error e => do
        .modify (savePendingRestack (pending.withConflict (.mutator e)))
        .throw (.mutator e)
    | .ok outcome =>
        pure (⟨"restack", pending.view, heads, outcome.rewritten, outcome.rewriteMap,
          outcome.newHead⟩, pending)

def executePendingRestack (wd : WorkDir) (pending : PendingRewrite) : RepoM Blake3Hash := do
  let (plan, pending) ← restackPlan pending
  let newHead ← commitRewrite wd plan
    (savePendingRestack (pending.withRewriteMap plan.rewriteMap))
    fun e => savePendingRestack ((pending.withRewriteMap plan.rewriteMap).withConflict e)
  clearPendingRestack
  pure newHead

def newPendingRestack (desired : List Blake3Hash) : RepoM PendingRewrite := do
  let s ← .get
  if desired.length < 2 then .throw .tooFewRevisions
  else if s.pendingRestack.isSome then .throw .restackPending
  else
    let viewName ← currentViewName
    let heads ← loadView viewName
    let oldHead ← soleHead viewName heads
    if oldHead ∉ desired then .throw .headNotSelected
    else
      let pending := PendingRewrite.newRestack viewName heads desired
      .modify (savePendingRestack pending)
      pure pending

def restack (wd : WorkDir) (desired : List Blake3Hash) : RepoM Blake3Hash := do
  let pending ← newPendingRestack desired
  executePendingRestack wd pending

def restackContinue (wd : WorkDir) : RepoM Blake3Hash := do
  let pending ← loadPendingRestack
  validatePendingRestack pending
  executePendingRestack wd pending

def restackAbort (fuel : ℕ) (wd : WorkDir) : RepoM Unit := do
  let pending ← loadPendingRestack
  let currentHeads ← loadView pending.view
  hydrateHeads fuel currentHeads
  let _ ← materializeNonempty wd currentHeads
  saveView pending.view pending.beforeHeads
  hydrateHeads fuel pending.beforeHeads
  let restoredState ← materializeNonempty wd pending.beforeHeads
  (writeStateToWorkingDir wd restoredState).onError fun _ s =>
    { s with views := s.views.insert pending.view currentHeads }
  clearPendingRestack

/-! ## Diffedit -/

/-- Check the state of the target out for editing. -/
def diffeditPrepare (wd : WorkDir) (targetId : Blake3Hash) : RepoM Unit := do
  let s ← .get
  if (s.graph.get targetId).isNone then .throw (.notInGraph targetId)
  else
    .modify fun s => { s with diffeditTarget := some targetId }
    let state ← materializeHeads wd {targetId}
    writeStateToWorkingDir wd state

/-- The edited target and the change that replaces it. -/
def diffeditChange (wd : WorkDir) (message : Option String) :
    RepoM (Blake3Hash × Change) := do
  let s ← .get
  match s.diffeditTarget with
  | none => .throw .noDiffedit
  | some targetId =>
      match s.graph.get targetId with
      | none => .throw (.notInGraph targetId)
      | some target => do
          let storedState ← materializeHeads wd {targetId}
          let newAtoms ← computeWorkingDirectoryDelta wd storedState
          if newAtoms = [] then .throw .nothingToApply
          else
            let signer ← signingIdentity
            pure (targetId, Change.new target.deps newAtoms
              (message.getD ("diffedit: " ++ target.intent)) signer.1 signer.2)

/-- The new change becomes the only head of the current view. -/
def diffeditApply (wd : WorkDir) (message : Option String) : RepoM Blake3Hash := do
  let (targetId, newChange) ← diffeditChange wd message
  writeRewritten [newChange]
  let viewName ← currentViewName
  let heads ← loadView viewName
  let newId ← commitRewrite wd ⟨"diffedit", viewName, heads, [],
    Finmap.singleton targetId newChange.id, newChange.id⟩ id fun _ => id
  .modify fun s => { s with diffeditTarget := none }
  pure newId

end Repo

end ArcVcs
