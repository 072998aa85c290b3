import ArcVcs.GitImport

/-!
# The ancestry of an imported history

The walk lists the commits in the reverse order of their first paths from the head. Where a commit
comes after a parent in that order, the parent has not been imported yet when its child is, and is
left out of the dependencies.
-/

namespace ArcVcs.GitImport

open BreadthFirst
open Git (GitOid)

namespace GitDir

def parents (dir : GitDir) (oid : GitOid) : List GitOid :=
  match dir.objects.lookup oid with
  | some (.commit data) => data.parents
  | _ => []

/-- The parents on a path from the head, as their positions. -/
def Path (dir : GitDir) (head : GitOid) (path : List ℕ) (oid : GitOid) : Prop :=
  Leads dir.parents head path oid

def HasCommit (dir : GitDir) (commit : GitCommit) : Prop :=
  dir.objects.lookup commit.oid = some (.commit commit.toCommitData)

/-- Every push of the walk is the head or a parent. -/
def walkFuel (dir : GitDir) : ℕ := 2 + ∑ oid ∈ dir.objects.keys, (dir.parents oid).length

/-- The commit graph, where it has the parents of what the head reaches, has those of the
commits. -/
def GraphAgrees (dir : GitDir) (head : GitOid) : Prop :=
  ∀ parentOidsFor, dir.commitGraph = some parentOidsFor → ∀ path oid, dir.Path head path oid →
    ∀ parents, parentOidsFor oid = .ok parents → parents = dir.parents oid

/-- What the head reaches are commits with trees that can be read, and the file of the commit graph
has no other parents than the commits. -/
structure IsHistory (dir : GitDir) (fuel : ℕ) (head : GitOid) : Prop where
  head_eq : dir.head = .ok head
  commits : ∀ path oid, dir.Path head path oid →
    ∃ data, dir.objects.lookup oid = some (.commit data)
      ∧ ∃ files, extractTreeToMemory dir fuel data.tree "" ∅ = some (.ok files)
  graph : dir.GraphAgrees head

end GitDir

variable {dir : GitDir} {fuel : ℕ} {head oid : GitOid} {commits : List GitCommit}

theorem GitDir.HasCommit.parents_eq {commit : GitCommit} (h : dir.HasCommit commit) :
    dir.parents commit.oid = commit.parents := by
  rw [GitDir.HasCommit] at h
  rw [GitDir.parents, h]

theorem GitDir.readCommit_of_commit {data : CommitData}
    (h : dir.objects.lookup oid = some (.commit data)) :
    dir.reader.readCommit oid = .ok (some ⟨data, oid⟩) := by
  simp [GitDir.reader, GitDir.readObject, h]

/-! ## The walk -/

/-- The commits of a walk, the last one first. -/
structure Walked (dir : GitDir) (head : GitOid) (commits : List GitCommit) : Prop where
  explored : Explored dir.parents head (commits.reverse.map GitCommit.oid) []
  has : ∀ commit ∈ commits, dir.HasCommit commit

/-- The walk that reads the commits, with the queue. -/
structure LegacyWalk (dir : GitDir) (head : GitOid) (queue : List GitOid)
    (st : Finset GitOid × List GitCommit) : Prop where
  explored : Explored dir.parents head (st.2.map GitCommit.oid) queue
  visited : st.1 = (st.2.map GitCommit.oid).toFinset
  has : ∀ commit ∈ st.2, dir.HasCommit commit

/-- The walk that looks the parents up, with the queue. -/
structure GraphWalk (dir : GitDir) (head : GitOid) (queue : List GitOid)
    (st : Finset GitOid × List GitOid) : Prop where
  explored : Explored dir.parents head st.2 queue
  visited : st.1 = st.2.toFinset

theorem GitDir.parents_eq_nil (h : oid ∉ dir.objects.keys) : dir.parents oid = [] := by
  rw [GitDir.parents, FMap.notMem_keys_iff.mp h]

theorem potential_lt {visited : Finset GitOid} {queue : List GitOid} (hnew : oid ∉ visited) :
    potential dir.parents dir.objects.keys (insert oid visited) (queue ++ dir.parents oid)
      < potential dir.parents dir.objects.keys visited (oid :: queue) :=
  potential_visit (fun _ => GitDir.parents_eq_nil) hnew

theorem potential_start (hfuel : dir.walkFuel ≤ fuel) :
    potential dir.parents dir.objects.keys ∅ [head] < fuel := by
  rw [potential, Finset.sdiff_empty, List.length_singleton]
  rw [GitDir.walkFuel] at hfuel
  omega

theorem LegacyWalk.step (h : dir.IsHistory fuel head) {queue : List GitOid}
    {st : Finset GitOid × List GitCommit} (hwalk : LegacyWalk dir head (oid :: queue) st) :
    ∃ pushed st', dir.reader.legacyStep st oid = .ok (pushed, st')
      ∧ LegacyWalk dir head (queue ++ pushed) st'
      ∧ potential dir.parents dir.objects.keys st'.1 (queue ++ pushed)
        < potential dir.parents dir.objects.keys st.1 (oid :: queue) := by
  by_cases hvisited : oid ∈ st.1
  · refine ⟨[], st, by rw [CommitReader.legacyStep, if_pos hvisited], ?_, ?_⟩
    · rw [List.append_nil]
      refine ⟨hwalk.explored.skip ?_, hwalk.visited, hwalk.has⟩
      rwa [hwalk.visited, List.mem_toFinset] at hvisited
    · rw [List.append_nil]
      exact potential_skip
  · obtain ⟨path, hpath⟩ := hwalk.explored.leads_of_mem_queue List.mem_cons_self
    obtain ⟨data, hdata, -⟩ := h.commits path oid hpath
    have hhas : dir.HasCommit ⟨data, oid⟩ := hdata
    have hparents : dir.parents oid = data.parents := hhas.parents_eq
    refine ⟨data.parents, (insert oid st.1, st.2 ++ [⟨data, oid⟩]), ?_, ⟨?_, ?_, ?_⟩, ?_⟩
    · rw [CommitReader.legacyStep, if_neg hvisited, GitDir.readCommit_of_commit hdata]
    · rw [List.map_append, List.map_singleton, ← hparents]
      refine hwalk.explored.visit ?_
      rwa [hwalk.visited, List.mem_toFinset] at hvisited
    · ext x
      simp [hwalk.visited]
    · intro commit hcommit
      rcases List.mem_append.mp hcommit with hcommit | hcommit
      · exact hwalk.has commit hcommit
      · rw [List.mem_singleton.mp hcommit]
        exact hhas
    · rw [← hparents]
      exact potential_lt hvisited

theorem legacy_walked (h : dir.IsHistory fuel head) (hfuel : dir.walkFuel ≤ fuel) :
    ∃ commits, dir.reader.collectCommitsLegacy fuel head = some (.ok commits)
      ∧ Walked dir head commits := by
  have hstart : LegacyWalk dir head [head] (∅, []) := ⟨.init, rfl, by simp⟩
  obtain ⟨st, hrun⟩ := Worklist.exists_process_ok (LegacyWalk dir head)
    (fun queue st => potential dir.parents dir.objects.keys st.1 queue)
    (fun _ _ _ hwalk => hwalk.step h) hstart (potential_start hfuel)
  have hend := Worklist.process_ok (LegacyWalk dir head)
    (fun b queue st pushed st' hwalk hstep => by
    obtain ⟨pushed', st'', hstep', hnext, -⟩ := hwalk.step h
    rw [hstep] at hstep'
    cases hstep'
    exact hnext) hstart hrun
  refine ⟨st.2.reverse, by rw [CommitReader.collectCommitsLegacy, hrun], ?_, ?_⟩
  · rw [List.reverse_reverse]
    exact hend.explored
  · exact fun commit hcommit => hend.has commit (List.mem_reverse.mp hcommit)

theorem GraphWalk.step (hagrees : dir.GraphAgrees head)
    {parentOidsFor : GitOid → Except String (List GitOid)}
    (hgraph : dir.commitGraph = some parentOidsFor) {queue pushed : List GitOid}
    {st st' : Finset GitOid × List GitOid} (hwalk : GraphWalk dir head (oid :: queue) st)
    (hstep : CommitReader.graphStep parentOidsFor st oid = .ok (pushed, st')) :
    GraphWalk dir head (queue ++ pushed) st'
      ∧ potential dir.parents dir.objects.keys st'.1 (queue ++ pushed)
        < potential dir.parents dir.objects.keys st.1 (oid :: queue) := by
  rw [CommitReader.graphStep] at hstep
  split_ifs at hstep with hvisited
  · cases hstep
    rw [List.append_nil]
    refine ⟨⟨hwalk.explored.skip ?_, hwalk.visited⟩, potential_skip⟩
    rwa [hwalk.visited, List.mem_toFinset] at hvisited
  · obtain ⟨path, hpath⟩ := hwalk.explored.leads_of_mem_queue List.mem_cons_self
    cases hparents : parentOidsFor oid with
    | error e => simp [hparents] at hstep
    | ok parents =>
        rw [hparents] at hstep
        cases hstep
        obtain rfl := hagrees parentOidsFor hgraph path oid hpath _ hparents
        refine ⟨⟨hwalk.explored.visit ?_, ?_⟩, potential_lt hvisited⟩
        · rwa [hwalk.visited, List.mem_toFinset] at hvisited
        · ext x
          simp [hwalk.visited]

variable (dir) in
theorem readCommits_eq (order : List GitOid)
    (hcommits : ∀ oid ∈ order, ∃ data, dir.objects.lookup oid = some (.commit data)) :
    ∃ commits, dir.reader.readCommits order = .ok commits ∧ commits.map GitCommit.oid = order
      ∧ ∀ commit ∈ commits, dir.HasCommit commit := by
  induction order with
  | nil => exact ⟨[], rfl, rfl, by simp⟩
  | cons oid order ih =>
      obtain ⟨data, hdata⟩ := hcommits oid List.mem_cons_self
      obtain ⟨commits, hrun, hoids, hhas⟩ := ih fun x hx => hcommits x (List.mem_cons_of_mem _ hx)
      refine ⟨⟨data, oid⟩ :: commits, ?_, ?_, List.forall_mem_cons.mpr ⟨hdata, hhas⟩⟩
      · rw [CommitReader.readCommits, GitDir.readCommit_of_commit hdata]
        dsimp only
        rw [hrun]
        rfl
      · rw [List.map_cons, hoids]

theorem GitDir.collectCommitsCommitGraph_of_graph
    {parentOidsFor : GitOid → Except String (List GitOid)}
    (h : dir.commitGraph = some parentOidsFor) :
    dir.reader.collectCommitsCommitGraph fuel head
      = (Worklist.process (CommitReader.graphStep parentOidsFor) fuel [head] (∅, [])).map fun out =>
        out.bind fun st => dir.reader.readCommits st.2.reverse := by
  have hopen : dir.reader.openGraph = .ok parentOidsFor := by
    rw [GitDir.reader, h]
    rfl
  rw [CommitReader.collectCommitsCommitGraph, hopen]
  dsimp only
  rcases Worklist.process (CommitReader.graphStep parentOidsFor) fuel [head] (∅, [])
    with _ | ⟨_ | _⟩ <;> rfl

theorem GitDir.withFallback_of_error {e : String}
    (h : dir.reader.collectCommitsCommitGraph fuel head = some (.error e)) :
    collectCommitsWithFallback dir fuel head = dir.reader.collectCommitsLegacy fuel head := by
  rw [collectCommitsWithFallback, CommitReader.collectCommitsWithFallback, h]
  exact if_pos rfl

theorem GitDir.collectCommitsCommitGraph_of_none (h : dir.commitGraph = none) :
    dir.reader.collectCommitsCommitGraph fuel head
      = some (.error "commit-graph file not found") := by
  rw [CommitReader.collectCommitsCommitGraph, GitDir.reader, h]
  rfl

theorem collectCommits_walked (h : dir.IsHistory fuel head) (hfuel : dir.walkFuel ≤ fuel) :
    ∃ commits, collectCommitsWithFallback dir fuel head = some (.ok commits)
      ∧ Walked dir head commits := by
  obtain ⟨legacy, hlegacy, hwalked⟩ := legacy_walked h hfuel
  have hcaught {e : String}
      (he : dir.reader.collectCommitsCommitGraph fuel head = some (.error e)) :
      ∃ commits, collectCommitsWithFallback dir fuel head = some (.ok commits)
        ∧ Walked dir head commits :=
    ⟨legacy, (GitDir.withFallback_of_error he).trans hlegacy, hwalked⟩
  cases hgraph : dir.commitGraph with
  | none => exact hcaught (GitDir.collectCommitsCommitGraph_of_none hgraph)
  | some parentOidsFor =>
      have hstart : GraphWalk dir head [head] (∅, []) := ⟨.init, rfl⟩
      obtain ⟨out, hrun⟩ := Worklist.exists_process (GraphWalk dir head)
        (fun queue st => potential dir.parents dir.objects.keys st.1 queue)
        (fun _ _ _ _ _ hwalk hstep => hwalk.step h.graph hgraph hstep) hstart
        (potential_start hfuel)
      have hcollect : dir.reader.collectCommitsCommitGraph fuel head
          = some (out.bind fun st => dir.reader.readCommits st.2.reverse) := by
        rw [GitDir.collectCommitsCommitGraph_of_graph hgraph, hrun]
        rfl
      cases out with
      | error e => exact hcaught hcollect
      | ok st =>
          have hend := Worklist.process_ok (GraphWalk dir head)
            (fun _ _ _ _ _ hwalk hstep => (hwalk.step h.graph hgraph hstep).1) hstart hrun
          obtain ⟨commits, hcommits, hoids, hhas⟩ := readCommits_eq dir st.2.reverse
            fun oid hoid => by
              obtain ⟨path, hpath⟩ := hend.explored.mem_iff.mp (List.mem_reverse.mp hoid)
              obtain ⟨data, hdata, -⟩ := h.commits path oid hpath
              exact ⟨data, hdata⟩
          refine ⟨commits, ?_, ?_, hhas⟩
          · rw [collectCommitsWithFallback, CommitReader.collectCommitsWithFallback, hcollect,
              Except.bind, hcommits]
          · rw [List.map_reverse, hoids, List.reverse_reverse]
            exact hend.explored

/-! ## The order of the commits -/

/-- Every commit is after all of its parents. -/
def OldestFirst (commits : List GitCommit) : Prop :=
  ∀ (i : ℕ) (_ : i < commits.length),
    ∀ p ∈ commits[i].parents, p ∈ (commits.take i).map GitCommit.oid

instance (commits : List GitCommit) : Decidable (OldestFirst commits) :=
  inferInstanceAs (Decidable (∀ (i : ℕ) (_ : i < commits.length), _))

theorem oldestFirst_iff_split :
    OldestFirst commits ↔ ∀ earlier commit later, commits = earlier ++ commit :: later →
      ∀ p ∈ commit.parents, p ∈ earlier.map GitCommit.oid := by
  constructor
  · rintro h earlier commit later rfl p hp
    have hmem := h earlier.length (by simp) p (by simpa using hp)
    simpa using hmem
  · intro h i hi p hp
    refine h (commits.take i) commits[i] (commits.drop (i + 1)) ?_ p hp
    rw [← List.drop_eq_getElem_cons hi, List.take_append_drop]

/-- Some path from the head to a commit comes before every path to a parent: it is shorter, or it
has the same length and goes first to an earlier one of the parents where the two part. -/
def GitDir.ParentsLater (dir : GitDir) (head : GitOid) : Prop :=
  ∀ oid, (∃ path, dir.Path head path oid) → ∀ p ∈ dir.parents oid,
    ∃ path, dir.Path head path oid ∧ ∀ path', dir.Path head path' p → rank path < rank path'

theorem Walked.oldestFirst_iff (h : Walked dir head commits) :
    OldestFirst commits ↔ dir.ParentsLater head := by
  refine oldestFirst_iff_split.trans (Iff.trans ?_ h.explored.precedes_iff)
  constructor
  · intro hfirst before oid after hsplit p hp
    have hrev : commits.map GitCommit.oid = after.reverse ++ oid :: before.reverse := by
      have heq := congrArg List.reverse hsplit
      simpa using heq
    obtain ⟨earlier, tail, rfl, hearlier, htail⟩ := List.map_eq_append_iff.mp hrev
    obtain ⟨commit, later, rfl, rfl, -⟩ := List.map_eq_cons_iff.mp htail
    rw [(h.has commit (by simp)).parents_eq] at hp
    have hmem := hfirst earlier commit later rfl p hp
    rw [hearlier] at hmem
    exact List.mem_reverse.mp hmem
  · rintro hafter earlier commit later rfl p hp
    rw [← (h.has commit (by simp)).parents_eq] at hp
    have hmem := hafter (later.reverse.map GitCommit.oid) commit.oid
      (earlier.reverse.map GitCommit.oid) (by simp) p hp
    simpa using hmem

/-! ## The import -/

/-- The files of a tree, as the import reads them. -/
def GitDir.HasFiles (dir : GitDir) (fuel : ℕ) (treeOid : GitOid) (files : FMap String Bytes) :
    Prop :=
  extractTreeToMemory dir fuel treeOid "" ∅ = some (.ok files)

/-- The files of the first parent, and none for a commit without parents. -/
def GitDir.HasOldFiles (dir : GitDir) (fuel : ℕ) (commit : GitCommit)
    (files : FMap String Bytes) : Prop :=
  match commit.parents with
  | [] => files = ∅
  | p :: _ => ∃ parent, parent.oid = p ∧ dir.HasCommit parent ∧ dir.HasFiles fuel parent.tree files

/-- The dependencies of the change of a commit are the changes of all of its parents, and its atoms
are the differences from the files of the first parent. -/
structure RightChange (dir : GitDir) (fuel : ℕ) (plugin : LanguagePlugin)
    (imported : List (GitCommit × Change)) (commit : GitCommit) (change : Change) : Prop where
  parents : ∀ p ∈ commit.parents, ∃ parent ∈ imported, parent.1.oid = p
  deps : ∀ id, id ∈ change.deps
    ↔ ∃ parent ∈ imported, parent.1.oid ∈ commit.parents ∧ parent.2.id = id
  atoms : ∃ oldFiles newFiles, dir.HasOldFiles fuel commit oldFiles
    ∧ dir.HasFiles fuel commit.tree newFiles
    ∧ change.atoms = (diffTrees plugin oldFiles newFiles).1

theorem RightChange.mono {plugin : LanguagePlugin} {imported imported' : List (GitCommit × Change)}
    {commit : GitCommit} {change : Change}
    (h : RightChange dir fuel plugin imported commit change)
    (hsub : ∀ entry ∈ imported, entry ∈ imported')
    (hoids : (imported'.map fun entry => entry.1.oid).Nodup) :
    RightChange dir fuel plugin imported' commit change := by
  refine ⟨fun p hp => ?_, fun id => ?_, h.atoms⟩
  · obtain ⟨parent, hparent, heq⟩ := h.parents p hp
    exact ⟨parent, hsub parent hparent, heq⟩
  · rw [h.deps]
    constructor
    · rintro ⟨parent, hparent, hrest⟩
      exact ⟨parent, hsub parent hparent, hrest⟩
    · rintro ⟨parent, hparent, hp, hid⟩
      obtain ⟨known, hknown, hsame⟩ := h.parents _ hp
      obtain rfl := List.inj_on_of_nodup_map hoids (hsub known hknown) hparent hsame
      exact ⟨known, hknown, hp, hid⟩

/-- The change is in the store and in the graph. -/
def Kept (s : Repo) (change : Change) : Prop :=
  change.id ∈ s.store.keys ∧ (s.graph.get change.id).isSome

theorem Kept.step {s s' : Repo} {change new : Change}
    (h : Kept s change ∨ change = new) (hstore : s'.store = s.store.putOnce new.id new)
    (hgraph : s'.graph = s.graph.addChange new) : Kept s' change := by
  rw [Kept, hstore, hgraph, ChangeGraph.get_addChange, FMap.mem_keys_iff, FMap.lookup_putOnce]
  rcases h with ⟨hkey, hget⟩ | rfl
  · constructor
    · split_ifs with hnew
      · exact ⟨_, rfl⟩
      · exact FMap.mem_keys_iff.mp hkey
    · split_ifs
      · rfl
      · exact hget
  · rw [if_pos rfl]
    refine ⟨?_, rfl⟩
    by_cases hkey : change.id ∈ s.store.keys
    · rw [if_neg fun hnew => hnew.2 hkey]
      exact FMap.mem_keys_iff.mp hkey
    · exact ⟨change, if_pos ⟨rfl, hkey⟩⟩

/-- What the loop knows of the imported commits. -/
structure Records (st : ImportState) (imported : List (GitCommit × Change)) : Prop where
  arc : ∀ entry ∈ imported, st.oidToArc.lookup entry.1.oid = some entry.2.id
  tree : ∀ entry ∈ imported, st.oidToTree.lookup entry.1.oid = some entry.1.tree

theorem Records.insert {st : ImportState} {imported : List (GitCommit × Change)}
    (h : Records st imported) {commit : GitCommit} {change : Change}
    (hnew : commit.oid ∉ imported.map fun entry => entry.1.oid) :
    Records ⟨st.oidToArc.insert commit.oid change.id, st.oidToTree.insert commit.oid commit.tree⟩
      (imported ++ [(commit, change)]) := by
  have hne {entry : GitCommit × Change} (hentry : entry ∈ imported) :
      entry.1.oid ≠ commit.oid := fun heq => hnew (List.mem_map.mpr ⟨entry, hentry, heq⟩)
  constructor
  · intro entry hentry
    rw [FMap.lookup_insert_eq]
    rcases List.mem_append.mp hentry with hentry | hentry
    · rw [if_neg (hne hentry), h.arc entry hentry]
    · rw [List.mem_singleton.mp hentry, if_pos rfl]
  · intro entry hentry
    rw [FMap.lookup_insert_eq]
    rcases List.mem_append.mp hentry with hentry | hentry
    · rw [if_neg (hne hentry), h.tree entry hentry]
    · rw [List.mem_singleton.mp hentry, if_pos rfl]

theorem ofGit_run {files : FMap String Bytes} {treeOid : GitOid}
    (h : dir.HasFiles fuel treeOid files) (s : Repo) :
    ofGit (extractTreeToMemory dir fuel treeOid "" ∅) s = some (.ok files, s) := by
  rw [ofGit, h]
  rfl

theorem parentFiles_run {st : ImportState} {commit : GitCommit}
    {imported : List (GitCommit × Change)} (hst : Records st imported)
    (hhas : ∀ entry ∈ imported, dir.HasCommit entry.1
      ∧ ∃ files, dir.HasFiles fuel entry.1.tree files)
    (hparents : ∀ p ∈ commit.parents, ∃ parent ∈ imported, parent.1.oid = p) (s : Repo) :
    ∃ files, dir.HasOldFiles fuel commit files
      ∧ parentFiles dir fuel st commit s = some (.ok files, s) := by
  rw [parentFiles]
  cases hcommit : commit.parents with
  | nil => exact ⟨∅, by rw [GitDir.HasOldFiles, hcommit], rfl⟩
  | cons p rest =>
      obtain ⟨parent, hparent, rfl⟩ := hparents p (hcommit ▸ List.mem_cons_self)
      obtain ⟨hin, files, hfiles⟩ := hhas parent hparent
      refine ⟨files, by rw [GitDir.HasOldFiles, hcommit]; exact ⟨_, rfl, hin, hfiles⟩, ?_⟩
      rw [List.head?_cons, Option.bind_some, hst.tree parent hparent]
      exact ofGit_run hfiles s

theorem mem_deps_iff {st : ImportState} {commit : GitCommit}
    {imported : List (GitCommit × Change)} (hst : Records st imported)
    (hparents : ∀ p ∈ commit.parents, ∃ parent ∈ imported, parent.1.oid = p) (id : Blake3Hash) :
    id ∈ (commit.parents.filterMap fun p => st.oidToArc.lookup p).toFinset
      ↔ ∃ parent ∈ imported, parent.1.oid ∈ commit.parents ∧ parent.2.id = id := by
  rw [List.mem_toFinset, List.mem_filterMap]
  constructor
  · rintro ⟨p, hp, hlook⟩
    obtain ⟨parent, hparent, rfl⟩ := hparents p hp
    rw [hst.arc parent hparent] at hlook
    exact ⟨parent, hparent, hp, Option.some_inj.mp hlook⟩
  · rintro ⟨parent, hparent, hp, rfl⟩
    exact ⟨parent.1.oid, hp, hst.arc parent hparent⟩

theorem saveBranches_run (st : ImportState) (branches : List (String × GitOid)) (s : Repo) :
    ∃ s', saveBranches st branches s = some (.ok (), s') ∧ s'.store = s.store
      ∧ s'.graph = s.graph ∧ s'.blobs = s.blobs := by
  induction branches generalizing s with
  | nil => exact ⟨s, rfl, rfl, rfl, rfl⟩
  | cons branch branches ih =>
      cases hlook : st.oidToArc.lookup branch.2 with
      | none =>
          obtain ⟨s', hrun, hrest⟩ := ih s
          refine ⟨s', ?_, hrest⟩
          rw [saveBranches, hlook]
          exact hrun
      | some arcId =>
          obtain ⟨s', hrun, hrest⟩ := ih { s with views := s.views.insert branch.1 {arcId} }
          refine ⟨s', ?_, hrest⟩
          rw [saveBranches, hlook]
          exact hrun

section Import

variable [Crypto] {plugin : LanguagePlugin} {author : Author} {signingKey : SigningKey}

variable (author signingKey) in
def importedChange (st : ImportState) (commit : GitCommit) (atoms : List Atom) : Change :=
  Change.new (commit.parents.filterMap fun p => st.oidToArc.lookup p).toFinset atoms
    (importIntent commit) author signingKey

theorem importCommit_eq {st : ImportState} {commit : GitCommit} {s : Repo}
    {oldFiles newFiles : FMap String Bytes}
    (hold : parentFiles dir fuel st commit s = some (.ok oldFiles, s))
    (hnew : dir.HasFiles fuel commit.tree newFiles) :
    let diff := diffTrees plugin oldFiles newFiles
    let change := importedChange author signingKey st commit diff.1
    importCommit dir fuel plugin author signingKey st commit s
      = some (.ok (⟨st.oidToArc.insert commit.oid change.id,
          st.oidToTree.insert commit.oid commit.tree⟩, change),
        { s with
          blobs := Repo.putContents s.blobs diff.2
          store := s.store.putOnce change.id change
          graph := s.graph.addChange change }) := by
  intro diff change
  rw [importCommit, Program.bind_run, hold]
  dsimp only
  rw [Program.bind_run, ofGit_run hnew]
  dsimp only
  rw [Program.bind_run, ofRepo, Repo.writeBlobs_run]
  rfl

variable (plugin author signingKey) in
theorem importCommit_run {st : ImportState} {commit : GitCommit} (s : Repo)
    {imported : List (GitCommit × Change)} (hst : Records st imported)
    (hhas : ∀ entry ∈ imported, dir.HasCommit entry.1
      ∧ ∃ files, dir.HasFiles fuel entry.1.tree files)
    (hparents : ∀ p ∈ commit.parents, ∃ parent ∈ imported, parent.1.oid = p)
    (hfiles : ∃ files, dir.HasFiles fuel commit.tree files) :
    ∃ change s', importCommit dir fuel plugin author signingKey st commit s
        = some (.ok (⟨st.oidToArc.insert commit.oid change.id,
            st.oidToTree.insert commit.oid commit.tree⟩, change), s')
      ∧ RightChange dir fuel plugin imported commit change
      ∧ s'.store = s.store.putOnce change.id change ∧ s'.graph = s.graph.addChange change := by
  obtain ⟨oldFiles, hold, hread⟩ := parentFiles_run hst hhas hparents s
  obtain ⟨newFiles, hnew⟩ := hfiles
  exact ⟨_, _, importCommit_eq hread hnew,
    ⟨hparents, mem_deps_iff hst hparents, oldFiles, newFiles, hold, hnew, rfl⟩, rfl, rfl⟩

variable (plugin author signingKey) in
/-- By induction on the commits that are left. -/
theorem importCommits_run {rest : List GitCommit} {done : List (GitCommit × Change)}
    {st : ImportState} (s : Repo) (hst : Records st done)
    (hkept : ∀ entry ∈ done, Kept s entry.2)
    (hhas : ∀ commit ∈ done.map Prod.fst ++ rest, dir.HasCommit commit
      ∧ ∃ files, dir.HasFiles fuel commit.tree files)
    (hnodup : ((done.map Prod.fst ++ rest).map GitCommit.oid).Nodup)
    (hfirst : OldestFirst (done.map Prod.fst ++ rest)) :
    ∃ st' imported s', importCommits dir fuel plugin author signingKey st rest s
        = some (.ok (st', imported), s')
      ∧ imported.map Prod.fst = rest
      ∧ (∀ entry ∈ done ++ imported, Kept s' entry.2)
      ∧ ∀ entry ∈ imported,
        RightChange dir fuel plugin (done ++ imported) entry.1 entry.2 := by
  induction rest generalizing done st s with
  | nil =>
      refine ⟨st, [], s, rfl, rfl, by simpa using hkept, by simp⟩
  | cons commit rest ih =>
      have hdone : ∀ entry ∈ done, dir.HasCommit entry.1
          ∧ ∃ files, dir.HasFiles fuel entry.1.tree files := fun entry hentry =>
        hhas entry.1 (List.mem_append_left _ (List.mem_map_of_mem hentry))
      have hparents : ∀ p ∈ commit.parents, ∃ parent ∈ done, parent.1.oid = p := by
        intro p hp
        obtain ⟨parent, hparent, rfl⟩ := List.mem_map.mp
          (oldestFirst_iff_split.mp hfirst _ commit rest rfl p hp)
        obtain ⟨entry, hentry, rfl⟩ := List.mem_map.mp hparent
        exact ⟨entry, hentry, rfl⟩
      obtain ⟨change, s₁, hrun, hright, hstore, hgraph⟩ :=
        importCommit_run plugin author signingKey s hst hdone hparents (hhas commit (by simp)).2
      have hnew : commit.oid ∉ done.map fun entry => entry.1.oid := by
        rw [List.map_append, List.map_cons, List.map_map] at hnodup
        intro hin
        exact (List.nodup_append.mp hnodup).2.2 _ hin _ List.mem_cons_self rfl
      have hlist : (done ++ [(commit, change)]).map Prod.fst ++ rest
          = done.map Prod.fst ++ commit :: rest := by simp
      obtain ⟨st', imported, s', hrest, rfl, hkept', hright'⟩ :=
        ih s₁ (hst.insert hnew) (fun entry hentry => by
          refine Kept.step ?_ hstore hgraph
          rcases List.mem_append.mp hentry with hentry | hentry
          · exact Or.inl (hkept entry hentry)
          · rw [List.mem_singleton.mp hentry]
            exact Or.inr rfl) (hlist ▸ hhas) (hlist ▸ hnodup) (hlist ▸ hfirst)
      have hall : done ++ [(commit, change)] ++ imported
          = done ++ (commit, change) :: imported := by simp
      rw [hall] at hkept' hright'
      refine ⟨st', (commit, change) :: imported, s', ?_, rfl, hkept', ?_⟩
      · rw [importCommits, Program.bind_run, hrun]
        dsimp only
        rw [Program.bind_run, hrest]
        rfl
      · refine List.forall_mem_cons.mpr
          ⟨hright.mono (fun _ h => List.mem_append_left _ h) ?_, hright'⟩
        simpa [Function.comp_def] using hnodup

end Import

/-! ## Which histories are imported -/

theorem importRepo_eq [Crypto] {plugin : LanguagePlugin} {author : Author}
    {signingKey : SigningKey} {analysis : GitAnalysis} {st : ImportState}
    {imported : List (GitCommit × Change)} {s s₁ s' : Repo}
    (hanalysis : analyzeGitRepo dir fuel = some (.ok analysis))
    (hrun : importCommits dir fuel plugin author signingKey ⟨∅, ∅⟩ analysis.commits s
      = some (.ok (st, imported), s₁))
    (hbranches : saveBranches st dir.branches s₁ = some (.ok (), s')) :
    importRepo dir fuel plugin author signingKey s
      = some (.ok (analysis.commitCount, imported), s') := by
  rw [importRepo, Program.bind_run, ofGit, hanalysis]
  change ((importCommits dir fuel plugin author signingKey ⟨∅, ∅⟩ analysis.commits
    >>= fun st => ofRepo (saveBranches st.1 dir.branches)
      >>= fun _ => pure (analysis.commitCount, st.2) : ImportM _) s) = _
  rw [Program.bind_run, hrun]
  dsimp only
  rw [Program.bind_run, ofRepo, hbranches]
  rfl

/-- The analysis lists what the head reaches once, every commit after its parents, and an import
makes the right change of every commit. -/
structure PreservesAncestry [Crypto] (dir : GitDir) (fuel : ℕ) (head : GitOid)
    (commits : List GitCommit) : Prop where
  analysis : analyzeGitRepo dir fuel
    = some (.ok ⟨head.display, commits.length, commits⟩)
  once : (commits.map GitCommit.oid).Nodup
  reachable : ∀ commit, commit ∈ commits
    ↔ dir.HasCommit commit ∧ ∃ path, dir.Path head path commit.oid
  oldestFirst : OldestFirst commits
  imports : ∀ plugin author signingKey s, ∃ imported s',
    importRepo dir fuel plugin author signingKey s = some (.ok (commits.length, imported), s')
      ∧ imported.map Prod.fst = commits
      ∧ ∀ entry ∈ imported, RightChange dir fuel plugin imported entry.1 entry.2
        ∧ Kept s' entry.2

theorem Walked.mem_iff (h : Walked dir head commits) (commit : GitCommit) :
    commit ∈ commits ↔ dir.HasCommit commit ∧ ∃ path, dir.Path head path commit.oid := by
  have hmem {oid : GitOid} : oid ∈ commits.map GitCommit.oid
      ↔ ∃ path, dir.Path head path oid := by
    refine Iff.trans ?_ h.explored.mem_iff
    simp
  constructor
  · intro hcommit
    exact ⟨h.has commit hcommit, hmem.mp (List.mem_map_of_mem hcommit)⟩
  · rintro ⟨hhas, hpath⟩
    obtain ⟨other, hother, hoid⟩ := List.mem_map.mp (hmem.mpr hpath)
    have hsame := h.has other hother
    rw [GitDir.HasCommit, hoid, hhas] at hsame
    have hdata : commit.toCommitData = other.toCommitData :=
      RawObject.commit.inj (Option.some_inj.mp hsame)
    have heq : commit = other := by
      cases commit
      cases other
      exact (GitCommit.mk.injEq _ _ _ _).mpr ⟨hdata, hoid.symm⟩
    rwa [heq]

theorem Walked.hasFiles (h : Walked dir head commits) (hhistory : dir.IsHistory fuel head) :
    ∀ commit ∈ commits, dir.HasCommit commit ∧ ∃ files, dir.HasFiles fuel commit.tree files := by
  intro commit hcommit
  obtain ⟨hin, path, hpath⟩ := (h.mem_iff commit).mp hcommit
  obtain ⟨data, hdata, hfiles⟩ := hhistory.commits path commit.oid hpath
  obtain rfl : data = commit.toCommitData :=
    RawObject.commit.inj (Option.some_inj.mp (hdata.symm.trans hin))
  exact ⟨hin, hfiles⟩

theorem Walked.preservesAncestry [Crypto] (h : Walked dir head commits)
    (hhistory : dir.IsHistory fuel head)
    (hanalysis : analyzeGitRepo dir fuel = some (.ok ⟨head.display, commits.length, commits⟩))
    (hfirst : OldestFirst commits) : PreservesAncestry dir fuel head commits := by
  have honce : (commits.map GitCommit.oid).Nodup := by
    have hnodup := h.explored.nodup
    rwa [List.map_reverse, List.nodup_reverse] at hnodup
  refine ⟨hanalysis, honce, h.mem_iff, hfirst, fun plugin author signingKey s => ?_⟩
  have hhas := h.hasFiles hhistory
  have hst : Records ⟨∅, ∅⟩ [] := ⟨by simp, by simp⟩
  obtain ⟨st, imported, s₁, hrun, hcommits, hkept, hright⟩ :=
    importCommits_run plugin author signingKey s hst (by simp) (by simpa using hhas)
      (by simpa using honce) (by simpa using hfirst)
  obtain ⟨s', hbranches, hstore, hgraph, -⟩ := saveBranches_run st dir.branches s₁
  refine ⟨imported, s', importRepo_eq hanalysis hrun hbranches, hcommits, fun entry hentry =>
    ⟨hright entry hentry, ?_⟩⟩
  have hkeeps := hkept entry hentry
  rwa [Kept, ← hstore, ← hgraph] at hkeeps

theorem analyze_walked (h : dir.IsHistory fuel head) (hfuel : dir.walkFuel ≤ fuel) :
    ∃ commits, analyzeGitRepo dir fuel = some (.ok ⟨head.display, commits.length, commits⟩)
      ∧ Walked dir head commits := by
  obtain ⟨commits, hcollect, hwalked⟩ := collectCommits_walked h hfuel
  refine ⟨commits, ?_, hwalked⟩
  rw [analyzeGitRepo, h.head_eq]
  dsimp only
  rw [hcollect]

/-- **Which histories keep their ancestry.** A merge whose branches have different lengths is not
among them: a parent at the end of the shorter branch is listed after its child on the longer one,
and the import leaves it out. -/
theorem gitImport_preservesAncestry_iff [Crypto] (h : dir.IsHistory fuel head)
    (hfuel : dir.walkFuel ≤ fuel) :
    (∃ commits, PreservesAncestry dir fuel head commits) ↔ dir.ParentsLater head := by
  obtain ⟨commits, hanalysis, hwalked⟩ := analyze_walked h hfuel
  rw [← hwalked.oldestFirst_iff]
  constructor
  · rintro ⟨commits', hpreserves⟩
    have hsame := hpreserves.analysis.symm.trans hanalysis
    obtain rfl : commits' = commits :=
      congrArg GitAnalysis.commits (Except.ok.inj (Option.some_inj.mp hsame))
    exact hpreserves.oldestFirst
  · exact fun hfirst => ⟨commits, hwalked.preservesAncestry h hanalysis hfirst⟩

/-! ## Two branches -/

def sampleOid (n : UInt8) : GitOid := ⟨List.replicate 20 n, rfl⟩

def sampleCommit (parents : List UInt8) : RawObject :=
  .commit ⟨sampleOid 0, parents.map sampleOid, "a", "a@b", 0, "a", "a@b", ""⟩

/-- A repository with an empty tree, some commits and the commit graph of these. -/
def sampleDir (history : List (UInt8 × List UInt8)) : GitDir :=
  let objects := FMap.insertAll ∅ ((sampleOid 0, .tree []) ::
    history.map fun commit => (sampleOid commit.1, sampleCommit commit.2))
  { objects, head := .ok (sampleOid 1), branches := [("main", sampleOid 1)],
    commitGraph := some fun oid =>
      match objects.lookup oid with
      | some (.commit data) => .ok data.parents
      | _ => .error "HEAD or parent OID is not present in commit-graph" }

/-- A commit whose tree can be read. -/
def GitDir.readable (dir : GitDir) (fuel : ℕ) (oid : GitOid) : Bool :=
  match dir.objects.lookup oid with
  | some (.commit data) =>
      match extractTreeToMemory dir fuel data.tree "" ∅ with
      | some (.ok _) => true
      | _ => false
  | _ => false

theorem GitDir.exists_of_readable (h : dir.readable fuel oid = true) :
    ∃ data, dir.objects.lookup oid = some (.commit data)
      ∧ ∃ files, extractTreeToMemory dir fuel data.tree "" ∅ = some (.ok files) := by
  rw [GitDir.readable] at h
  split at h
  · rename_i data hdata
    split at h
    · rename_i files hfiles
      exact ⟨data, hdata, files, hfiles⟩
    · cases h
  · cases h

theorem GitDir.readable_of_path (hhead : dir.readable fuel head = true)
    (hclosed : ∀ oid ∈ dir.objects.keys, ∀ p ∈ dir.parents oid, dir.readable fuel p = true)
    {path : List ℕ} (hpath : dir.Path head path oid) : dir.readable fuel oid = true := by
  cases hpath with
  | nil => exact hhead
  | @snoc path v oid i hpath hstep =>
      refine hclosed v ?_ oid (List.mem_of_getElem? hstep)
      by_contra hkey
      rw [GitDir.parents_eq_nil hkey] at hstep
      cases hstep

theorem isHistory_sampleDir {history : List (UInt8 × List UInt8)}
    (hhead : (sampleDir history).readable fuel (sampleOid 1) = true)
    (hclosed : ∀ oid ∈ (sampleDir history).objects.keys,
      ∀ p ∈ (sampleDir history).parents oid, (sampleDir history).readable fuel p = true) :
    (sampleDir history).IsHistory fuel (sampleOid 1) := by
  refine ⟨rfl, fun path oid hpath =>
    GitDir.exists_of_readable (GitDir.readable_of_path hhead hclosed hpath), ?_⟩
  rintro parentOidsFor ⟨⟩ path oid - parents hparents
  rw [GitDir.parents]
  dsimp only [sampleDir] at hparents ⊢
  split at hparents
  · cases hparents
    simp [*]
  · cases hparents

theorem GitDir.IsHistory.parentsLater (h : dir.IsHistory fuel head) (hfuel : dir.walkFuel ≤ fuel)
    (hfirst : (collectCommitsWithFallback dir fuel head).all (fun out =>
      out.toOption.all fun commits => decide (OldestFirst commits)) = true) :
    dir.ParentsLater head := by
  obtain ⟨commits, hcollect, hwalked⟩ := collectCommits_walked h hfuel
  rw [hcollect] at hfirst
  exact hwalked.oldestFirst_iff.mp (of_decide_eq_true hfirst)

/-- Two branches of one commit each. -/
theorem gitImport_preservesAncestry_even :
    let _ := Crypto.sample
    let dir := sampleDir [(1, [2, 3]), (2, [4]), (3, [4]), (4, [])]
    ∃ commits, PreservesAncestry dir 9 (sampleOid 1) commits := by
  intro crypto dir
  have h : dir.IsHistory 9 (sampleOid 1) :=
    isHistory_sampleDir (by decide) (by decide)
  exact (gitImport_preservesAncestry_iff h (by decide)).mpr (h.parentsLater (by decide) (by decide))

/-- A branch of two commits, merged into its base: the older of the two loses its parent. -/
theorem long_branch_loses_parent :
    let _ := Crypto.sample
    let dir := sampleDir [(1, [2, 3]), (2, []), (3, [4]), (4, [2])]
    dir.IsHistory 9 (sampleOid 1) ∧ dir.walkFuel ≤ 9
      ∧ (¬ ∃ commits, PreservesAncestry dir 9 (sampleOid 1) commits)
      ∧ (importRepo dir 9 ⟨fun _ _ => "", fun _ _ => .ok ([], [])⟩ (.human "" "" 0) 0
          Repo.init).any (fun out => out.1.toOption.any fun r =>
            r.2.any fun entry => entry.1.oid = sampleOid 4 ∧ entry.2.deps = ∅) = true := by
  intro crypto dir
  refine ⟨isHistory_sampleDir (by decide) (by decide), by decide, ?_,
    by decide⟩
  rintro ⟨commits, h⟩
  have hlate : (analyzeGitRepo dir 9).all (fun out =>
      out.toOption.all fun analysis => !decide (OldestFirst analysis.commits)) = true := by
    decide
  rw [h.analysis] at hlate
  have hnot : (!decide (OldestFirst commits)) = true := hlate
  exact absurd h.oldestFirst (by simpa using hnot)

end ArcVcs.GitImport
