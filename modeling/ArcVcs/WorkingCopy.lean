import ArcVcs.Atomicity
import ArcVcs.WorkTree

/-!
# Commands on the working copy

The implicit working-copy change and its finalization, mounts, the restoring of a file, and the
approval of what an AI has prepared. Each one logs one ordinary operation.
-/

namespace ArcVcs

inductive PendingKind where
  | generate
  | resolve
deriving DecidableEq

/-- What an AI has prepared, until a human approves it. -/
structure PendingAiChange where
  kind : PendingKind
  model : String
  intent : String
  stagedAtoms : List Atom
  stagedDeps : Finset Blake3Hash
deriving DecidableEq

namespace Repo

variable [Crypto]

/-- Record the working directory in an implicit change. -/
def snapshot (fuel : ℕ) (wd : WorkDir) : RepoM Bool := do
  let viewName ← currentViewName
  hydrate fuel viewName
  let state ← materialize wd viewName
  let atoms ← computeWorkingDirectoryDelta wd state
  if atoms = [] then pure false
  else
    let heads ← loadView viewName
    let signer ← signingIdentity
    writeBlobAtoms wd atoms
    advanceView ⟨"snapshot working copy", viewName, heads,
      Change.new heads atoms "snapshot working copy" signer.1 signer.2⟩
    pure true

/-- Replace the implicit change by one with a message. -/
def finalizeSnapshot (fuel : ℕ) (message : String) : RepoM Blake3Hash := do
  let viewName ← currentViewName
  hydrate fuel viewName
  let heads ← loadView viewName
  let oldHead ← soleHead viewName heads
  let s ← .get
  match s.graph.get oldHead with
  | none => .throw (.notInGraph oldHead)
  | some oldChange => do
      let signer ← signingIdentity
      let newChange := Change.new oldChange.deps oldChange.atoms message signer.1 signer.2
      advanceView ⟨"snap", viewName, {oldHead}, newChange⟩
      pure newChange.id

/-- The next empty implicit change. -/
def forkEmptySnapshot (fuel : ℕ) : RepoM Blake3Hash := do
  let viewName ← currentViewName
  hydrate fuel viewName
  let heads ← loadView viewName
  let signer ← signingIdentity
  let wcChange := Change.new heads [] "snapshot working copy" signer.1 signer.2
  advanceView ⟨"snapshot working copy", viewName, heads, wcChange⟩
  pure wcChange.id

/-- Record a mount. It logs before it saves the view. -/
def mountAdd (fuel : ℕ) (path : String) (coordinate : SpacetimeCoordinate) :
    RepoM Blake3Hash := do
  let viewName ← currentViewName
  hydrate fuel viewName
  let heads ← loadView viewName
  let signer ← signingIdentity
  let change := Change.new heads [.mount ["file", path] coordinate]
    ("mount " ++ path ++ " → " ++ coordinate.toUri) signer.1 signer.2
  writeChange change
  graphAddChange change
  logOperation "mount add" viewName heads {change.id}
  saveView viewName {change.id}
  pure change.id

/-- Restore one file, which `write` puts back from the state. It logs before it writes. -/
def restore (fuel : ℕ) (wd : WorkDir) (filepath : String)
    (write : MaterializedState → Except RepoError Unit) : RepoM Unit := do
  let viewName ← currentViewName
  hydrate fuel viewName
  let state ← materialize wd viewName
  if filepath ∉ extractFilepathsFromState state then .throw (.notTracked filepath)
  else
    let s ← .get
    let viewHeads := (s.views.lookup viewName).getD ∅
    logOperation "restore" viewName viewHeads viewHeads
    .ofExcept (write state)

/-- `snap` in the name of an AI. A confidence is kept as its bits, here those of 0.8. -/
def snapAi (fuel : ℕ) (wd : WorkDir) (message : String) (author : Author)
    (signingKey : SigningKey) : RepoM (Option Blake3Hash) := do
  let viewName ← currentViewName
  hydrate fuel viewName
  let state ← materialize wd viewName
  let rawAtoms ← computeWorkingDirectoryDelta wd state
  if rawAtoms = [] then pure none
  else
    let heads ← loadView viewName
    writeBlobAtoms wd rawAtoms
    let authorType :=
      match author with
      | .ai _ humanSponsor => AuthorType.ai 0x3F4CCCCD (some humanSponsor)
      | _ => .human
    let change := Change.newWithMetadata heads rawAtoms message author authorType false signingKey
    advanceView ⟨"snap", viewName, heads, change⟩
    pure (some change.id)

/-- The staged resolution, with confidence 0.85, becomes the head of the current view. -/
def approveResolve (pending : PendingAiChange) (humanKey : PublicKeyBytes)
    (signingKey : SigningKey) (expectedHash : Option String) : RepoM Blake3Hash := do
  let change := Change.newWithMetadata pending.stagedDeps pending.stagedAtoms pending.intent
    (.ai pending.model humanKey) (.ai 0x3F59999A (some humanKey)) false signingKey
  let digits := expectedHash.getD ""
  if digits.toList.isPrefixOf change.id.toHex.toList = false then
    .throw (.hashMismatch digits change.id)
  else
    writeChange change
    graphAddChange change
    let viewName ← currentViewName
    let beforeHeads ← loadView viewName
    saveView viewName {change.id}
    logOperation "ai resolve" viewName beforeHeads {change.id}
    pure change.id

/-- `approve_pending_ai_with_hash` of what is pending, with the public key of a signing key. -/
def approvePendingAi (fuel : ℕ) (wd : WorkDir) (verifyingKey : SigningKey → PublicKeyBytes)
    (pending : Option PendingAiChange) (humanAuthor : Author) (signingKey : SigningKey)
    (expectedHash : Option String) : RepoM Blake3Hash :=
  match pending, humanAuthor with
  | none, _ => .throw .noPendingAi
  | some pending, .human _ _ humanKey =>
      if verifyingKey signingKey ≠ humanKey then .throw .keyMismatch
      else
        match pending.kind with
        | .resolve => approveResolve pending humanKey signingKey expectedHash
        | .generate =>
            if expectedHash.isSome then .throw .hashOfGenerate
            else (do
              match ← snapAi fuel wd pending.intent (.ai pending.model humanKey) signingKey with
              | none => .throw .nothingToCommit
              | some id => pure id)
  | some _, _ => .throw .notHuman

end Repo

end ArcVcs
