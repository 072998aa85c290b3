import ArcVcs.Repo

/-!
# Garbage collection and compaction

`gc` deletes what the loaded graph does not reach, and `compact` replaces the history that
all views share by one Genesis Change.
-/

namespace ArcVcs

/-- A file directly in `.arc/views`. Names with a slash live in a directory below it. -/
def isTopLevel (name : String) : Bool := !name.toList.contains '/'

/-- The view files that are read for causal stability. -/
def isListed (name : String) : Bool :=
  isTopLevel name && !".bak".toList.isSuffixOf name.toList
    && !".tmp".toList.isSuffixOf name.toList

def intersectAll : List (Finset Blake3Hash) → Finset Blake3Hash
  | [] => ∅
  | first :: rest => rest.foldl (fun acc set => acc ∩ set) first

namespace Repo

def headsOf (s : Repo) (view : String) : Finset Blake3Hash := (s.views.lookup view).getD ∅

def listedViews (s : Repo) : List String := (s.views.keys.filter fun name => isListed name).sorted

/-! ## Garbage collection -/

structure GcResult where
  changesDeleted : ℕ
  blobsDeleted : ℕ
deriving DecidableEq

def referencedBlob : Atom → Option Blake3Hash
  | .blob _ hash _ => some hash
  | .insert _ contentHash => some contentHash
  | .delete _ priorHash => some priorHash
  | _ => none

/-- The heads of the view files and of every logged operation. -/
def rootSet (s : Repo) : Finset Blake3Hash :=
  ((s.views.keys.filter fun name => isTopLevel name).biUnion s.headsOf)
    ∪ (s.oplog.map fun op => op.beforeHeads ∪ op.afterHeads).foldr (fun heads acc => heads ∪ acc) ∅

def reachable (s : Repo) : Finset Blake3Hash := s.graph.ancestors s.rootSet

def causallyStable (s : Repo) : Finset Blake3Hash :=
  intersectAll (s.listedViews.map fun name => s.graph.ancestors (s.headsOf name))

/-- The blobs named by the atoms of the reachable changes that are loaded. -/
def referencedBlobs (s : Repo) : Finset Blake3Hash :=
  s.reachable.biUnion fun id =>
    match s.graph.get id with
    | none => ∅
    | some change => (change.atoms.filterMap referencedBlob).toFinset

def gc : RepoM GcResult := do
  let s ← .get
  let changes := s.store.keys.filter fun id => id ∉ s.reachable ∧ id ∈ s.causallyStable
  let orphans := s.blobs.keys \ s.referencedBlobs
  .modify fun s => { s with store := s.store.eraseAll changes, blobs := s.blobs.eraseAll orphans }
  pure ⟨changes.card, orphans.card⟩

/-! ## The Genesis Change -/

/-- The entry of a file that also has entries below it is left out of the Genesis Change. -/
def isShadowedRoot (state : MaterializedState) (path : NodePath) : Bool :=
  path.length = 2 && path.head? = some "file"
    && decide (∃ key ∈ state.keys, 2 < key.length ∧ key.take 2 = path)

def isBlobToken (content : Bytes) : Bool :=
  (utf8 "ARC_BLOB_REF:").isPrefixOf content && 45 ≤ content.length

def genesisAtom [Crypto] (path : NodePath) (content : Bytes) : Atom :=
  if path.head? = some "dir" then .directory path
  else if isBlobToken content then
    .blob (path[1]?.getD ("/".intercalate path)) (.ofBytes ((content.drop 13).take 32))
      (UInt64.ofNat content.length)
  else .insert path (Crypto.hashBytes content)

/-- The entries of a state that get an atom, in the order of their paths. -/
def genesisEntries (state : MaterializedState) : List (NodePath × Bytes) :=
  (state.keys.sorted.filter fun path => !isShadowedRoot state path).filterMap fun path =>
    (state.lookup path).map fun content => (path, content)

def genesisAtoms [Crypto] (state : MaterializedState) : List Atom :=
  (genesisEntries state).map fun entry => genesisAtom entry.1 entry.2

def genesisContents (state : MaterializedState) : List Bytes :=
  ((genesisEntries state).filter fun entry =>
    entry.1.head? ≠ some "dir" && !isBlobToken entry.2).map Prod.snd

/-! ## Compaction -/

/-- What `compact` is about to commit. -/
structure CompactPlan where
  names : List String
  stable : Finset Blake3Hash
  state : MaterializedState
  genesis : Change

def viewAncestors (fuel : ℕ) : List String → RepoM (List (Finset Blake3Hash))
  | [] => pure []
  | name :: names => do
      let heads ← loadView name
      hydrateHeads fuel heads
      let s ← .get
      let rest ← viewAncestors fuel names
      pure ((s.graph.ancestors heads ∪ heads) :: rest)

def stableTips (g : ChangeGraph) (stable : Finset Blake3Hash) : Finset Blake3Hash :=
  stable \ stable.biUnion fun id => ((g.get id).map Change.deps).getD ∅

/-- The heads of a view after the compaction of `stable`. -/
def repointHeads (stable : Finset Blake3Hash) (genesisId : Blake3Hash)
    (heads : Finset Blake3Hash) : Finset Blake3Hash :=
  if heads ∩ stable = ∅ then heads else insert genesisId (heads \ stable)

def repointViews (stable : Finset Blake3Hash) (genesisId : Blake3Hash) : List String → RepoM Unit
  | [] => pure ()
  | name :: names => do
      let heads ← loadView name
      saveView name (repointHeads stable genesisId heads)
      repointViews stable genesisId names

def deleteObjects (ids : Finset Blake3Hash) : RepoM Unit :=
  .modify fun s => { s with store := s.store.eraseAll ids }

variable [Crypto]

def compactPlan (fuel : ℕ) (wd : WorkDir) : RepoM CompactPlan := do
  let s ← .get
  let ancestors ← viewAncestors fuel s.listedViews
  let stable := intersectAll ancestors
  if stable = ∅ then .throw .noStableHistory
  else
    let hydrated ← .get
    let tips := stableTips hydrated.graph stable
    hydrateHeads fuel tips
    let state ← materializeHeads wd tips
    writeBlobs (genesisContents state)
    let signer ← signingIdentity
    pure ⟨s.listedViews, stable, state,
      Change.new ∅ (genesisAtoms state) "Compacted Base State" signer.1 signer.2⟩

def compact (fuel : ℕ) (wd : WorkDir) : RepoM Blake3Hash := do
  let plan ← compactPlan fuel wd
  writeChange plan.genesis
  graphAddChange plan.genesis
  persistRewriteMap (FMap.constOn plan.stable plan.genesis.id)
  repointViews plan.stable plan.genesis.id plan.names
  deleteObjects plan.stable
  pure plan.genesis.id

end Repo

end ArcVcs
