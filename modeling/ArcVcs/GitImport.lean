import ArcVcs.AstPlugin
import ArcVcs.GitObject
import ArcVcs.Lib.BreadthFirst
import ArcVcs.Lib.Worklist

/-!
# The import of a git history

`analyze_git_repo` walks the commits from the head, and `import_repo` makes a change of each of
them, which depends on the changes of the parents that it has imported before.
-/

namespace ArcVcs.GitImport

open Git (GitOid)

/-! ## The repository -/

structure TreeEntry where
  mode : String
  name : String
  oid : GitOid
deriving DecidableEq

/-- What a commit object says. -/
structure CommitData where
  tree : GitOid
  parents : List GitOid
  authorName : String
  authorEmail : String
  authorTimestamp : Int64
  committerName : String
  committerEmail : String
  message : String
deriving DecidableEq

inductive RawObject where
  | commit (data : CommitData)
  | tree (entries : List TreeEntry)
  | blob (data : Bytes)
  | tag
deriving DecidableEq

structure GitCommit extends CommitData where
  oid : GitOid
deriving DecidableEq

/-- The objects, loose and packed, the head, the file of the commit graph where there is one that
can be opened, with the parents that it has for an id, and the branches. -/
structure GitDir where
  objects : FMap GitOid RawObject
  head : Except String GitOid
  commitGraph : Option (GitOid → Except String (List GitOid))
  branches : List (String × GitOid)

/-! ## The walk -/

/-- The reads of the walk: `none` is an object that is no commit. The errors are those of the
reader, some of which the fallback catches. -/
structure CommitReader (ε : Type) where
  readCommit : GitOid → Except ε (Option GitCommit)
  openGraph : Except ε (GitOid → Except ε (List GitOid))
  caught : ε → Bool

namespace CommitReader

variable {ε : Type} (reader : CommitReader ε)

/-- One element of the queue, with the visited ids and the commits so far. -/
def legacyStep (st : Finset GitOid × List GitCommit) (oid : GitOid) :
    Except ε (List GitOid × Finset GitOid × List GitCommit) :=
  if oid ∈ st.1 then .ok ([], st)
  else
    match reader.readCommit oid with
    | .error e => .error e
    | .ok (some commit) => .ok (commit.parents, insert oid st.1, st.2 ++ [commit])
    | .ok none => .ok ([], insert oid st.1, st.2)

/-- `none` means that the fuel ran out. -/
def collectCommitsLegacy (fuel : ℕ) (head : GitOid) : Option (Except ε (List GitCommit)) :=
  match Worklist.process reader.legacyStep fuel [head] (∅, []) with
  | none => none
  | some (.error e) => some (.error e)
  | some (.ok st) => some (.ok st.2.reverse)

def graphStep (parentOidsFor : GitOid → Except ε (List GitOid))
    (st : Finset GitOid × List GitOid) (oid : GitOid) :
    Except ε (List GitOid × Finset GitOid × List GitOid) :=
  if oid ∈ st.1 then .ok ([], st)
  else
    match parentOidsFor oid with
    | .error e => .error e
    | .ok parents => .ok (parents, insert oid st.1, st.2 ++ [oid])

def readCommits : List GitOid → Except ε (List GitCommit)
  | [] => .ok []
  | oid :: order =>
      match reader.readCommit oid with
      | .error e => .error e
      | .ok (some commit) => do
          let commits ← readCommits order
          .ok (commit :: commits)
      | .ok none => readCommits order

def collectCommitsCommitGraph (fuel : ℕ) (head : GitOid) : Option (Except ε (List GitCommit)) :=
  match reader.openGraph with
  | .error e => some (.error e)
  | .ok parentOidsFor =>
      match Worklist.process (graphStep parentOidsFor) fuel [head] (∅, []) with
      | none => none
      | some (.error e) => some (.error e)
      | some (.ok st) => some (reader.readCommits st.2.reverse)

def collectCommitsWithFallback (fuel : ℕ) (head : GitOid) :
    Option (Except ε (List GitCommit)) :=
  match reader.collectCommitsCommitGraph fuel head with
  | some (.error e) =>
      if reader.caught e then reader.collectCommitsLegacy fuel head else some (.error e)
  | out => out

end CommitReader

/-! ## The analysis -/

structure GitAnalysis where
  headHex : String
  commitCount : ℕ
  commits : List GitCommit

namespace GitDir

variable (dir : GitDir)

def readObject (oid : GitOid) : Except String RawObject :=
  match dir.objects.lookup oid with
  | none => .error ("object " ++ oid.display ++ " not found")
  | some obj => .ok obj

def reader : CommitReader String where
  readCommit oid :=
    match dir.readObject oid with
    | .error e => .error e
    | .ok (.commit data) => .ok (some ⟨data, oid⟩)
    | .ok _ => .ok none
  openGraph := dir.commitGraph.elim (.error "commit-graph file not found") .ok
  caught _ := true

end GitDir

section Analysis

variable (dir : GitDir)

def collectCommitsWithFallback (fuel : ℕ) (head : GitOid) :
    Option (Except String (List GitCommit)) :=
  dir.reader.collectCommitsWithFallback fuel head

def analyzeGitRepo (fuel : ℕ) : Option (Except String GitAnalysis) :=
  match dir.head with
  | .error e => some (.error e)
  | .ok headOid =>
      match collectCommitsWithFallback dir fuel headOid with
      | none => none
      | some (.error e) => some (.error e)
      | some (.ok commits) => some (.ok ⟨headOid.display, commits.length, commits⟩)

end Analysis

/-! ## The files of a tree -/

/-- `none` means that the fuel ran out. -/
def extractTreeToMemory (dir : GitDir) : ℕ → GitOid → String → FMap String Bytes →
    Option (Except String (FMap String Bytes))
  | 0, _, _, _ => none
  | fuel + 1, treeOid, parent, out =>
      match dir.readObject treeOid with
      | .error e => some (.error e)
      | .ok (.tree entries) =>
          entries.foldl (fun acc entry =>
            match acc with
            | none => none
            | some (.error e) => some (.error e)
            | some (.ok out) =>
                let path := if parent = "" then entry.name else parent ++ "/" ++ entry.name
                if entry.mode = "40000" ∨ entry.mode = "040000" then
                  extractTreeToMemory dir fuel entry.oid path out
                else if "100".toList <+: entry.mode.toList ∨ "120".toList <+: entry.mode.toList then
                  match dir.readObject entry.oid with
                  | .error e => some (.error e)
                  | .ok (.blob data) => some (.ok (out.insert path data))
                  | .ok _ => some (.ok out)
                else some (.ok out)) (some (.ok out))
      | .ok _ => some (.error ("object " ++ treeOid.display ++ " is not a tree"))

/-! ## The import -/

inductive ImportError where
  | git (text : String)
  | repo (error : RepoError)

abbrev ImportM (α : Type) := Program Repo ImportError α

def ofRepo {α : Type} (p : RepoM α) : ImportM α := fun s =>
  (p s).map fun out => (out.1.mapError .repo, out.2)

def ofGit {α : Type} (out : Option (Except String α)) : ImportM α := fun s =>
  out.map fun r => (r.mapError .git, s)

def isRust (path : String) : Bool := ".rs".toList.isSuffixOf path.toList

/-- The atoms of a file and the contents that diffing it stores. A file that cannot be parsed is
passed over with a warning. -/
def diffFile (plugin : LanguagePlugin) (path oldSrc newSrc : String) : List Atom × List Bytes :=
  match plugin.diff oldSrc newSrc with
  | .ok (atoms, contents) => (atoms.map (prefixAtomPath path), contents)
  | .error _ => ([], [])

def sourceOf (files : FMap String Bytes) (path : String) : String :=
  ((files.lookup path).map fromUtf8Lossy).getD ""

/-- The changed and added files, and then the deleted ones, in the orders of the hash maps. -/
def diffTreesIn (plugin : LanguagePlugin) (oldFiles newFiles : FMap String Bytes)
    (oldOrder newOrder : List String) : List Atom × List Bytes :=
  let changed := (newOrder.filter fun path => isRust path).map fun path =>
    if sourceOf oldFiles path = sourceOf newFiles path then ([], [])
    else diffFile plugin path (sourceOf oldFiles path) (sourceOf newFiles path)
  let deleted := (oldOrder.filter fun path =>
      isRust path && decide (path ∉ newFiles.keys)).map fun path =>
    diffFile plugin path (sourceOf oldFiles path) ""
  ((changed ++ deleted).flatMap Prod.fst, (changed ++ deleted).flatMap Prod.snd)

def diffTrees (plugin : LanguagePlugin) (oldFiles newFiles : FMap String Bytes) :
    List Atom × List Bytes :=
  diffTreesIn plugin oldFiles newFiles oldFiles.keys.sorted newFiles.keys.sorted

/-- The changes and the trees of the imported commits. -/
structure ImportState where
  oidToArc : FMap GitOid Blake3Hash
  oidToTree : FMap GitOid GitOid

def importIntent (commit : GitCommit) : String :=
  "git-author: " ++ commit.authorName ++ " <" ++ commit.authorEmail ++ ">\n\n" ++ commit.message

section Import

variable [Crypto] (dir : GitDir) (fuel : ℕ) (plugin : LanguagePlugin) (author : Author)
  (signingKey : SigningKey)

/-- The files of the first parent, as far as it was imported. -/
def parentFiles (st : ImportState) (commit : GitCommit) : ImportM (FMap String Bytes) :=
  match commit.parents.head?.bind fun p => st.oidToTree.lookup p with
  | some treeOid => ofGit (extractTreeToMemory dir fuel treeOid "" ∅)
  | none => pure ∅

/-- The body of the loop. It returns the change besides the state. -/
def importCommit (st : ImportState) (commit : GitCommit) : ImportM (ImportState × Change) := do
  let deps := (commit.parents.filterMap fun p => st.oidToArc.lookup p).toFinset
  let oldFiles ← parentFiles dir fuel st commit
  let newFiles ← ofGit (extractTreeToMemory dir fuel commit.tree "" ∅)
  let (allAtoms, contents) := diffTrees plugin oldFiles newFiles
  ofRepo (Repo.writeBlobs contents)
  let change := Change.new deps allAtoms (importIntent commit) author signingKey
  ofRepo (Repo.writeChange change)
  ofRepo (Repo.graphAddChange change)
  pure (⟨st.oidToArc.insert commit.oid change.id, st.oidToTree.insert commit.oid commit.tree⟩,
    change)

/-- The loop, with the commits and their changes. -/
def importCommits : ImportState → List GitCommit →
    ImportM (ImportState × List (GitCommit × Change))
  | st, [] => pure (st, [])
  | st, commit :: commits => do
      let (st, change) ← importCommit dir fuel plugin author signingKey st commit
      let (st, imported) ← importCommits st commits
      pure (st, (commit, change) :: imported)

/-- The branches whose commits were imported. -/
def saveBranches (st : ImportState) : List (String × GitOid) → RepoM Unit
  | [] => pure ()
  | (branchName, branchOid) :: branches => do
      match st.oidToArc.lookup branchOid with
      | some arcId => Repo.saveView branchName {arcId}
      | none => pure ()
      saveBranches st branches

/-- The number of the commits. The commits and their changes are returned besides. -/
def importRepo : ImportM (ℕ × List (GitCommit × Change)) := do
  let analysis ← ofGit (analyzeGitRepo dir fuel)
  let (st, imported) ← importCommits dir fuel plugin author signingKey ⟨∅, ∅⟩ analysis.commits
  ofRepo (saveBranches st dir.branches)
  pure (analysis.commitCount, imported)

end Import

end ArcVcs.GitImport
