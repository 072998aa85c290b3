import ArcVcs.GitAncestry
import ArcVcs.Revert

/-!
# The content of an imported history

On a history without merges the changes of an import are a chain, and every change takes the items
of the files of its parent to those of its own files. The files are in hash maps, so the atoms of
different files can come in any order.
-/

namespace ArcVcs.GitImport

open Git (GitOid)

/-! ## Differences of trees -/

/-- The files of two trees, in the order of their atoms: the new files and then the deleted ones. -/
def changedFiles (newFiles : FMap String Bytes) (oldOrder newOrder : List String) : List String :=
  (newOrder.filter fun path => isRust path)
    ++ oldOrder.filter fun path => isRust path && decide (path ∉ newFiles.keys)

/-- The parser is a function from the texts to the maps of the items, and no text has no items. -/
structure Total (parser : ItemParser) : Prop where
  items : ∀ src, ∃ map, parser.items src = .ok map
  empty : parser.items "" = .ok ∅

/-- The items of the Rust files, under the paths of the files. -/
def fileEntry (parser : ItemParser) (files : FMap String Bytes) : NodePath → Option Bytes
  | kind :: path :: item =>
      if kind = "file" ∧ isRust path = true then
        (files.lookup path).bind fun bytes => parser.itemsOf (fromUtf8Lossy bytes) item
      else none
  | _ => none

theorem fileEntry_empty (parser : ItemParser) (key : NodePath) : fileEntry parser ∅ key = none := by
  rcases key with _ | ⟨kind, _ | ⟨path, item⟩⟩
  · rfl
  · rfl
  · rw [fileEntry]
    split_ifs <;> rfl

section Patch

variable [Crypto] {parser : ItemParser} {unparse : MaterializedState → String → String}
  {store : BlobStore} {oldFiles newFiles : FMap String Bytes} {oldOrder newOrder : List String}

theorem diffFile_eq {oldMap newMap : FMap NodePath Bytes} {oldSrc newSrc : String}
    (hold : parser.items oldSrc = .ok oldMap) (hnew : parser.items newSrc = .ok newMap)
    (path : String) :
    diffFile (parser.plugin unparse) path oldSrc newSrc
      = ((diffAtoms oldMap newMap).map (prefixAtomPath path), diffContents oldMap newMap) := by
  have hdiff : (parser.plugin unparse).diff oldSrc newSrc
      = .ok (diffAtoms oldMap newMap, diffContents oldMap newMap) := by
    change (parser.items oldSrc >>= fun oldMap => parser.items newSrc >>= fun newMap =>
      Except.ok (diffAtoms oldMap newMap, diffContents oldMap newMap)) = _
    rw [hold, hnew]
    rfl
  rw [diffFile, hdiff]

/-- A file with the same text on both sides is passed over. -/
def patchOf (plugin : LanguagePlugin) (oldFiles newFiles : FMap String Bytes) (path : String) :
    List Atom × List Bytes :=
  if sourceOf oldFiles path = sourceOf newFiles path then ([], [])
  else diffFile plugin path (sourceOf oldFiles path) (sourceOf newFiles path)

theorem patchFiles_eq (hp : Total parser) (files : List String) :
    patchFiles (parser.plugin unparse) (sourceOf oldFiles) (sourceOf newFiles) files
      = .ok (files.flatMap fun path => (patchOf (parser.plugin unparse) oldFiles newFiles path).1,
        files.flatMap fun path => (patchOf (parser.plugin unparse) oldFiles newFiles path).2) := by
  induction files with
  | nil => rfl
  | cons path files ih =>
      rw [patchFiles, List.flatMap_cons, List.flatMap_cons, patchOf]
      split_ifs with hsame
      · exact ih
      · obtain ⟨oldMap, hold⟩ := hp.items (sourceOf oldFiles path)
        obtain ⟨newMap, hnew⟩ := hp.items (sourceOf newFiles path)
        rw [ih, diffFile_eq hold hnew]
        change (parser.items _ >>= fun oldMap => parser.items _ >>= fun newMap =>
          Except.ok (diffAtoms oldMap newMap, diffContents oldMap newMap)) >>= _ = _
        rw [hold, hnew]
        rfl

theorem diffTreesIn_eq (hp : Total parser) :
    patchFiles (parser.plugin unparse) (sourceOf oldFiles) (sourceOf newFiles)
        (changedFiles newFiles oldOrder newOrder)
      = .ok (diffTreesIn (parser.plugin unparse) oldFiles newFiles oldOrder newOrder) := by
  -- a deleted file without text has no items, so its atoms are none either way
  have hdeleted : ∀ path ∈ oldOrder.filter fun path =>
      isRust path && decide (path ∉ newFiles.keys),
      patchOf (parser.plugin unparse) oldFiles newFiles path
        = diffFile (parser.plugin unparse) path (sourceOf oldFiles path) "" := by
    intro path hpath
    have hgone : path ∉ newFiles.keys := by
      have hfilter := (List.mem_filter.mp hpath).2
      rw [Bool.and_eq_true, decide_eq_true_eq] at hfilter
      exact hfilter.2
    have hempty : sourceOf newFiles path = "" := by
      rw [sourceOf, FMap.notMem_keys_iff.mp hgone]
      rfl
    rw [patchOf, hempty]
    split_ifs with hsame
    · rw [hsame, diffFile_eq hp.empty hp.empty]
      rfl
    · rfl
  rw [patchFiles_eq hp, changedFiles, diffTreesIn]
  simp only [List.flatMap_append, List.flatMap_map]
  congr 3 <;> exact List.flatMap_congr fun path hpath => by rw [← hdeleted path hpath]

omit [Crypto] in
theorem fileEntry_eq (hp : Total parser) {files : FMap String Bytes} {path : String}
    (hrust : isRust path = true) (item : NodePath) :
    fileEntry parser files ("file" :: path :: item)
      = parser.itemsOf (sourceOf files path) item := by
  have hnone : parser.itemsOf "" item = none := by
    rw [ItemParser.itemsOf, hp.empty]
    rfl
  rw [fileEntry, if_pos ⟨rfl, hrust⟩, sourceOf]
  cases files.lookup path with
  | none => exact hnone.symm
  | some bytes => rfl

omit [Crypto] in
theorem isRust_of_mem_changedFiles {path : String}
    (h : path ∈ changedFiles newFiles oldOrder newOrder) : isRust path = true := by
  rcases List.mem_append.mp h with h | h
  · exact (List.mem_filter.mp h).2
  · have hfilter := (List.mem_filter.mp h).2
    rw [Bool.and_eq_true] at hfilter
    exact hfilter.1

omit [Crypto] in
theorem nodup_changedFiles (hold : oldOrder.Nodup) (hnew : newOrder.Perm newFiles.keys.sorted) :
    (changedFiles newFiles oldOrder newOrder).Nodup := by
  have hnodup : newOrder.Nodup := hnew.nodup_iff.mpr (Finset.nodup_sorted _)
  refine List.nodup_append.mpr ⟨hnodup.filter _, hold.filter _, fun path hpath path' hpath' => ?_⟩
  rintro rfl
  have hin : path ∈ newFiles.keys :=
    Finset.mem_sorted.mp (hnew.mem_iff.mp (List.mem_filter.mp hpath).1)
  have hgone := (List.mem_filter.mp hpath').2
  rw [Bool.and_eq_true, decide_eq_true_eq] at hgone
  exact hgone.2 hin

/-- **The atoms take every entry to the new one**, whatever the order of the files. -/
theorem opsAtKey_diffTreesIn (hp : Total parser) (hold : oldOrder.Perm oldFiles.keys.sorted)
    (hnew : newOrder.Perm newFiles.keys.sorted)
    (hread : Readable store
      (diffTreesIn (parser.plugin unparse) oldFiles newFiles oldOrder newOrder).2)
    (key : NodePath) :
    opsAtKey store key (diffTreesIn (parser.plugin unparse) oldFiles newFiles oldOrder newOrder).1
      = EntryOp.diff (fileEntry parser oldFiles key) (fileEntry parser newFiles key) := by
  have hnodup := nodup_changedFiles (hold.nodup_iff.mpr (Finset.nodup_sorted _)) hnew
  refine (opsAtKey_patchFiles hnodup (diffTreesIn_eq hp) hread key).trans ?_
  rcases key with _ | ⟨kind, _ | ⟨path, item⟩⟩
  · rfl
  · rfl
  by_cases hkey : kind = "file" ∧ isRust path = true
  · obtain ⟨rfl, hrust⟩ := hkey
    rw [fileEntry_eq hp hrust, fileEntry_eq hp hrust]
    by_cases hmem : path ∈ changedFiles newFiles oldOrder newOrder
    · rw [patchOps_of_mem hmem]
    · have hnone : ∀ {files : FMap String Bytes}, path ∉ files.keys → sourceOf files path = "" := by
        intro files hfiles
        rw [sourceOf, FMap.notMem_keys_iff.mp hfiles]
        rfl
      have hnewKeys : path ∉ newFiles.keys := fun hin => hmem (List.mem_append_left _
        (List.mem_filter.mpr ⟨hnew.mem_iff.mpr (Finset.mem_sorted.mpr hin), hrust⟩))
      have holdKeys : path ∉ oldFiles.keys := fun hin => hmem (List.mem_append_right _
        (List.mem_filter.mpr ⟨hold.mem_iff.mpr (Finset.mem_sorted.mpr hin), by
          rw [hrust, Bool.true_and, decide_eq_true_eq]
          exact hnewKeys⟩))
      rw [patchOps_of_notMem hmem, hnone hnewKeys, hnone holdKeys, EntryOp.diff_self]
  · rw [fileEntry, fileEntry, if_neg hkey, if_neg hkey, EntryOp.diff_self, patchOps,
      if_neg fun h => hkey ⟨h.1, isRust_of_mem_changedFiles h.2⟩]

theorem writesOrRemoves_diffTreesIn (hp : Total parser)
    (hread : Readable store
      (diffTreesIn (parser.plugin unparse) oldFiles newFiles oldOrder newOrder).2) :
    ∀ atom ∈ (diffTreesIn (parser.plugin unparse) oldFiles newFiles oldOrder newOrder).1,
      atom.WritesOrRemoves store :=
  writesOrRemoves_of_patchFiles (diffTreesIn_eq hp) hread

theorem mem_diffContents {oldMap newMap : FMap NodePath Bytes} {content : Bytes}
    (h : content ∈ diffContents oldMap newMap) :
    ∃ item, oldMap.lookup item = some content ∨ newMap.lookup item = some content := by
  obtain ⟨pair, hpair, rfl⟩ := List.mem_map.mp h
  rw [diffPairs, List.mem_append, List.mem_append, List.mem_flatMap, List.mem_flatMap,
    List.mem_flatMap] at hpair
  rcases hpair with (⟨item, -, hpair⟩ | ⟨item, -, hpair⟩) | ⟨item, -, hpair⟩
  · unfold deletedAt at hpair
    split at hpair
    · rename_i content hold _
      rw [List.mem_singleton.mp hpair]
      exact ⟨item, Or.inl hold⟩
    · simp at hpair
  · unfold insertedAt at hpair
    split at hpair
    · rename_i content _ hnew
      rw [List.mem_singleton.mp hpair]
      exact ⟨item, Or.inr hnew⟩
    · simp at hpair
  · unfold modifiedAt at hpair
    split at hpair
    · rename_i oldContent newContent hold hnew
      split_ifs at hpair
      · simp at hpair
      · rw [List.mem_cons, List.mem_singleton] at hpair
        rcases hpair with rfl | rfl
        · exact ⟨item, Or.inl hold⟩
        · exact ⟨item, Or.inr hnew⟩
    · simp at hpair

theorem mem_contents (hp : Total parser) {content : Bytes}
    (h : content ∈ (diffTreesIn (parser.plugin unparse) oldFiles newFiles oldOrder newOrder).2) :
    ∃ key, fileEntry parser oldFiles key = some content
      ∨ fileEntry parser newFiles key = some content := by
  have hfiles : (.ok (diffTreesIn (parser.plugin unparse) oldFiles newFiles oldOrder newOrder) :
      Except RepoError (List Atom × List Bytes)) = .ok _ :=
    (diffTreesIn_eq hp).symm.trans (patchFiles_eq hp _)
  rw [Except.ok.inj hfiles] at h
  obtain ⟨path, hpath, hcontent⟩ := List.mem_flatMap.mp h
  obtain ⟨oldMap, hold⟩ := hp.items (sourceOf oldFiles path)
  obtain ⟨newMap, hnew⟩ := hp.items (sourceOf newFiles path)
  rw [patchOf] at hcontent
  split_ifs at hcontent
  · simp at hcontent
  · rw [diffFile_eq hold hnew] at hcontent
    obtain ⟨item, hitem⟩ := mem_diffContents hcontent
    have hrust := isRust_of_mem_changedFiles hpath
    refine ⟨"file" :: path :: item, ?_⟩
    rw [fileEntry_eq hp hrust, fileEntry_eq hp hrust, ItemParser.itemsOf, ItemParser.itemsOf, hold,
      hnew]
    exact hitem

end Patch

/-! ## Imports -/

section Import

variable [Crypto] (dir : GitDir) (fuel : ℕ) (plugin : LanguagePlugin) (author : Author)
  (signingKey : SigningKey)

/-- The import of a commit, where the files are met in any order. -/
structure ImportsCommit (st : ImportState) (s : Repo) (commit : GitCommit) (change : Change)
    (s' : Repo) : Prop where
  trees : ∃ oldFiles newFiles oldOrder newOrder,
    parentFiles dir fuel st commit s = some (.ok oldFiles, s)
      ∧ dir.HasFiles fuel commit.tree newFiles
      ∧ oldOrder.Perm oldFiles.keys.sorted ∧ newOrder.Perm newFiles.keys.sorted
      ∧ change = importedChange author signingKey st commit
        (diffTreesIn plugin oldFiles newFiles oldOrder newOrder).1
      ∧ s' = { s with
          blobs := Repo.putContents s.blobs
            (diffTreesIn plugin oldFiles newFiles oldOrder newOrder).2
          store := s.store.putOnce change.id change
          graph := s.graph.addChange change }

/-- The imports of some commits, with their changes. -/
inductive Imports : ImportState → Repo → List GitCommit → List (GitCommit × Change) →
    ImportState → Repo → Prop
  | nil (st : ImportState) (s : Repo) : Imports st s [] [] st s
  | cons {st st' : ImportState} {s s₁ s' : Repo} {commit : GitCommit} {change : Change}
      {commits : List GitCommit} {imported : List (GitCommit × Change)}
      (first : ImportsCommit dir fuel plugin author signingKey st s commit change s₁)
      (rest : Imports ⟨st.oidToArc.insert commit.oid change.id,
        st.oidToTree.insert commit.oid commit.tree⟩ s₁ commits imported st' s') :
      Imports st s (commit :: commits) ((commit, change) :: imported) st' s'

/-- An import of the repository, where the files are met in any order. -/
def ImportsRepo (s : Repo) (imported : List (GitCommit × Change)) (s' : Repo) : Prop :=
  ∃ analysis st s₁, analyzeGitRepo dir fuel = some (.ok analysis)
    ∧ Imports dir fuel plugin author signingKey ⟨∅, ∅⟩ s analysis.commits imported st s₁
    ∧ saveBranches st dir.branches s₁ = some (.ok (), s')

variable {dir fuel plugin author signingKey}

omit [Crypto] in
theorem ofGit_eq_ok {α : Type} {out : Option (Except String α)} {a : α} {s s' : Repo}
    (h : ofGit out s = some (.ok a, s')) : out = some (.ok a) ∧ s' = s := by
  rw [ofGit] at h
  obtain ⟨r, hr, hout⟩ := Option.map_eq_some_iff.mp h
  cases r with
  | error e => cases hout
  | ok b =>
      cases hout
      exact ⟨hr, rfl⟩

omit [Crypto] in
theorem parentFiles_eq_ok {st : ImportState} {commit : GitCommit} {files : FMap String Bytes}
    {s s' : Repo} (h : parentFiles dir fuel st commit s = some (.ok files, s')) : s' = s := by
  rw [parentFiles] at h
  cases hparent : commit.parents.head?.bind fun p => st.oidToTree.lookup p with
  | none =>
      rw [hparent] at h
      cases h
      rfl
  | some treeOid =>
      rw [hparent] at h
      exact (ofGit_eq_ok h).2

theorem importsCommit_of_importCommit {st st' : ImportState} {commit : GitCommit} {change : Change}
    {s s' : Repo} (h : importCommit dir fuel plugin author signingKey st commit s
      = some (.ok (st', change), s')) :
    ImportsCommit dir fuel plugin author signingKey st s commit change s'
      ∧ st' = ⟨st.oidToArc.insert commit.oid change.id,
        st.oidToTree.insert commit.oid commit.tree⟩ := by
  obtain ⟨oldFiles, s₁, hold, h₁⟩ := Program.bind_eq_ok_iff.mp h
  obtain rfl := parentFiles_eq_ok hold
  obtain ⟨newFiles, s₂, hnew, h₂⟩ := Program.bind_eq_ok_iff.mp h₁
  obtain ⟨hfiles, rfl⟩ := ofGit_eq_ok hnew
  obtain ⟨_, s₃, hwrite, h₃⟩ := Program.bind_eq_ok_iff.mp h₂
  rw [ofRepo, Repo.writeBlobs_run] at hwrite
  cases hwrite
  cases h₃
  exact ⟨⟨oldFiles, newFiles, _, _, hold, hfiles, .refl _, .refl _, rfl, rfl⟩, rfl⟩

theorem imports_of_importCommits {commits : List GitCommit} {st st' : ImportState} {s s' : Repo}
    {imported : List (GitCommit × Change)}
    (h : importCommits dir fuel plugin author signingKey st commits s
      = some (.ok (st', imported), s')) :
    Imports dir fuel plugin author signingKey st s commits imported st' s' := by
  induction commits generalizing st s imported with
  | nil =>
      cases h
      exact .nil _ _
  | cons commit commits ih =>
      obtain ⟨⟨st₁, change⟩, s₁, hfirst, h₁⟩ := Program.bind_eq_ok_iff.mp h
      obtain ⟨⟨st₂, rest⟩, s₂, hrest, h₂⟩ := Program.bind_eq_ok_iff.mp h₁
      obtain ⟨himport, rfl⟩ := importsCommit_of_importCommit hfirst
      cases h₂
      exact .cons himport (ih hrest)

theorem importsRepo_of_importRepo {n : ℕ} {s s' : Repo} {imported : List (GitCommit × Change)}
    (h : importRepo dir fuel plugin author signingKey s = some (.ok (n, imported), s')) :
    ImportsRepo dir fuel plugin author signingKey s imported s' := by
  obtain ⟨analysis, s₁, hread, h₁⟩ := Program.bind_eq_ok_iff.mp h
  obtain ⟨hanalysis, rfl⟩ := ofGit_eq_ok hread
  obtain ⟨⟨st, imported'⟩, s₂, hcommits, h₂⟩ := Program.bind_eq_ok_iff.mp h₁
  obtain ⟨_, s₃, hbranches, h₃⟩ := Program.bind_eq_ok_iff.mp h₂
  cases h₃
  refine ⟨analysis, st, s₂, hanalysis, imports_of_importCommits hcommits, ?_⟩
  obtain ⟨s₄, hrun, -⟩ := saveBranches_run st dir.branches s₂
  rw [ofRepo, hrun] at hbranches
  cases hbranches
  exact hrun

theorem Imports.fst {commits : List GitCommit} {st st' : ImportState} {s s' : Repo}
    {imported : List (GitCommit × Change)}
    (h : Imports dir fuel plugin author signingKey st s commits imported st' s') :
    imported.map Prod.fst = commits := by
  induction h with
  | nil => rfl
  | cons _ _ ih => rw [List.map_cons, ih]

variable (plugin author signingKey) in
theorem exists_importCommits {commits : List GitCommit}
    (hcommits : ∀ commit ∈ commits, ∃ files, dir.HasFiles fuel commit.tree files)
    (st : ImportState) (htrees : ∀ oid tree, st.oidToTree.lookup oid = some tree →
      ∃ files, dir.HasFiles fuel tree files) (s : Repo) :
    ∃ out s', importCommits dir fuel plugin author signingKey st commits s
      = some (.ok out, s') := by
  induction commits generalizing st s with
  | nil => exact ⟨_, _, rfl⟩
  | cons commit commits ih =>
      obtain ⟨⟨newFiles, hnew⟩, hcommits⟩ := List.forall_mem_cons.mp hcommits
      obtain ⟨oldFiles, hold⟩ : ∃ oldFiles,
          parentFiles dir fuel st commit s = some (.ok oldFiles, s) := by
        rw [parentFiles]
        cases hparent : commit.parents.head?.bind fun p => st.oidToTree.lookup p with
        | none => exact ⟨∅, rfl⟩
        | some treeOid =>
            obtain ⟨p, -, hp⟩ := Option.bind_eq_some_iff.mp hparent
            obtain ⟨files, hfiles⟩ := htrees p treeOid hp
            exact ⟨files, ofGit_run hfiles s⟩
      let diff := diffTrees plugin oldFiles newFiles
      let change := importedChange author signingKey st commit diff.1
      have hreadable : ∀ oid tree, (st.oidToTree.insert commit.oid commit.tree).lookup oid
          = some tree → ∃ files, dir.HasFiles fuel tree files := by
        intro oid tree htree
        rw [FMap.lookup_insert_eq] at htree
        split_ifs at htree with heq
        · exact ⟨newFiles, Option.some_inj.mp htree ▸ hnew⟩
        · exact htrees oid tree htree
      obtain ⟨⟨st', imported⟩, s', hrest⟩ := ih hcommits
        ⟨st.oidToArc.insert commit.oid change.id, st.oidToTree.insert commit.oid commit.tree⟩
        hreadable { s with
          blobs := Repo.putContents s.blobs diff.2
          store := s.store.putOnce change.id change
          graph := s.graph.addChange change }
      refine ⟨(st', (commit, change) :: imported), s', ?_⟩
      rw [importCommits, Program.bind_run, importCommit_eq hold hnew]
      dsimp only
      rw [Program.bind_run, hrest]
      rfl

end Import

/-! ## The state of an imported commit -/

/-- The replay succeeds, and its state has the items of the Rust files and nothing else. -/
def Holds [Crypto] (parser : ItemParser) (s : Repo) (agentIgnore : Gitignore)
    (heads : Finset Blake3Hash) (files : FMap String Bytes) : Prop :=
  ∃ state, s.graph.materializeHeads (s.applyEnv agentIgnore) heads = .ok state
    ∧ ∀ key, state.lookup key = fileEntry parser files key

section Content

variable [Crypto] {parser : ItemParser} {unparse : MaterializedState → String → String}
  {agentIgnore : Gitignore} {s s' : Repo} {heads heads' : Finset Blake3Hash} {c : Change}
  {files oldFiles newFiles : FMap String Bytes} {oldOrder newOrder : List String}

theorem holds_empty (hg : s.graph.Indexed) : Holds parser s agentIgnore ∅ ∅ :=
  ⟨∅, ChangeGraph.materializeHeads_empty hg _, fun key => (fileEntry_empty parser key).symm⟩

theorem Holds.putContents (h : Holds parser s agentIgnore heads files) (hg : s.graph.Indexed)
    (contents : List Bytes) :
    Holds parser { s with blobs := Repo.putContents s.blobs contents } agentIgnore heads files := by
  obtain ⟨state, hrun, hstate⟩ := h
  exact ⟨state, (s.readsMore_putContents contents agentIgnore).materializeHeads hg hrun, hstate⟩

theorem Holds.addChange (h : Holds parser s agentIgnore heads files) (hg : s.graph.Indexed)
    (hsame : ∀ c', s.graph.get c.id = some c' → c'.deps = c.deps)
    (hc : c.id ∉ s.graph.ancestorsInclusive heads) :
    Holds parser { s with graph := s.graph.addChange c } agentIgnore heads files := by
  obtain ⟨state, hrun, hstate⟩ := h
  refine ⟨state, ?_, hstate⟩
  exact (ChangeGraph.materializeHeads_addChange_of_notMem hg hsame hc _).trans hrun

/-- **The next commit.** A change of the differences takes the files of its parent to its own. -/
theorem Holds.onTop (hp : Total parser) (h : Holds parser s agentIgnore c.deps oldFiles)
    (hg : s.graph.Indexed) (hac : s.graph.Acyclic)
    (hpayload : ∀ c', s.graph.get c.id = some c' → c'.payload = c.payload)
    (hai : c.author.isAi = false) (hold : oldOrder.Perm oldFiles.keys.sorted)
    (hnew : newOrder.Perm newFiles.keys.sorted)
    (hatoms : c.atoms
      = (diffTreesIn (parser.plugin unparse) oldFiles newFiles oldOrder newOrder).1)
    (hread : Readable (Repo.readBlob s.blobs)
      (diffTreesIn (parser.plugin unparse) oldFiles newFiles oldOrder newOrder).2) :
    Holds parser { s with graph := s.graph.addChange c } agentIgnore {c.id} newFiles := by
  obtain ⟨state, hrun, hstate⟩ := h
  have hguard : c.violates (s.applyEnv agentIgnore) = false := by
    rw [Change.violates, hai, Bool.false_and]
  have hops : ∀ key, opsAtKey (Repo.readBlob s.blobs) key c.atoms
      = EntryOp.diff (state.lookup key) (fileEntry parser newFiles key) := fun key => by
    rw [hatoms, opsAtKey_diffTreesIn hp hold hnew hread, hstate]
  have hwrites : ∀ atom ∈ c.atoms, atom.WritesOrRemoves (Repo.readBlob s.blobs) := by
    rw [hatoms]
    exact writesOrRemoves_diffTreesIn hp hread
  rcases ChangeGraph.materializeHeads_onTop_cases hg hac hpayload rfl hguard hwrites hrun with
    ⟨-, out, hout, hlook⟩ | ⟨hsafe, -⟩
  · refine ⟨out, hout, fun key => ?_⟩
    have hkey : out.lookup key = EntryOp.final (state.lookup key)
      (opsAtKey (Repo.readBlob s.blobs) key c.atoms) := hlook key
    rw [hkey, hops, EntryOp.final_diff]
    split_ifs with heq
    · exact heq
    · rfl
  · refine absurd (fun key => ?_) hsafe
    change EntryOp.Safe _ (opsAtKey (Repo.readBlob s.blobs) key c.atoms) = true
    rw [hops, EntryOp.safe_diff_iff]
    exact fun _ hsome => hsome

variable (parser agentIgnore) in
/-- The tip of the imported commits: `files` are those of the last one, and `known` are the contents
of all items that an import may store. -/
structure AtTip (known : Bytes → Prop) (s : Repo) (heads : Finset Blake3Hash)
    (files : FMap String Bytes) : Prop where
  indexed : s.graph.Indexed
  acyclic : s.graph.Acyclic
  holds : Holds parser s agentIgnore heads files
  items : ∀ key content, fileEntry parser files key = some content → known content
  blobs : ∀ content, known content →
    ∀ other, s.blobs.lookup (Crypto.hashBytes content) = some other → other = content

variable {dir : GitDir} {fuel : ℕ} {author : Author} {signingKey : SigningKey} {st : ImportState}
  {commit : GitCommit} {change : Change} {known : Bytes → Prop}

theorem AtTip.step (hp : Total parser) (hai : author.isAi = false)
    (hknown : ∀ content, known content → ∀ other, known other →
      Crypto.hashBytes other = Crypto.hashBytes content → other = content)
    (h : AtTip parser agentIgnore known s heads files)
    (himport : ImportsCommit dir fuel (parser.plugin unparse) author signingKey st s commit change
      s')
    (hdeps : (commit.parents.filterMap fun p => st.oidToArc.lookup p).toFinset = heads)
    (hfiles : ∀ oldFiles, parentFiles dir fuel st commit s = some (.ok oldFiles, s) →
      oldFiles = files)
    (hitems : ∀ newFiles, dir.HasFiles fuel commit.tree newFiles →
      ∀ key content, fileEntry parser newFiles key = some content → known content)
    (hpayload : ∀ c', s.graph.get change.id = some c' → c'.payload = change.payload) :
    ∃ newFiles, dir.HasFiles fuel commit.tree newFiles
      ∧ AtTip parser agentIgnore known s' {change.id} newFiles
      ∧ s'.graph = s.graph.addChange change
      ∧ ∀ heads' ⊆ s.graph.ancestorsInclusive heads,
        heads' ⊆ s'.graph.ancestorsInclusive {change.id}
          ∧ ∀ files', Holds parser s agentIgnore heads' files' →
            Holds parser s' agentIgnore heads' files' := by
  obtain ⟨oldFiles, newFiles, oldOrder, newOrder, hold, hnew, hpermOld, hpermNew, hchange, rfl⟩ :=
    himport.trees
  obtain rfl := hfiles oldFiles hold
  have hchangeDeps : change.deps = heads := by
    rw [hchange, importedChange, Change.new_deps, hdeps]
  obtain ⟨base, hbase, -⟩ := id h.holds
  have hsame : ∀ c', s.graph.get change.id = some c' → c'.deps = change.deps := fun c' hc' =>
    Change.deps_eq_of_payload_eq (hpayload c' hc')
  have hnot : change.id ∉ s.graph.ancestorsInclusive change.deps :=
    ChangeGraph.notMem_ancestors_of_payload h.indexed h.acyclic hpayload (hchangeDeps ▸ hbase)
  have hcontents : ∀ content ∈ (diffTreesIn (parser.plugin unparse) oldFiles newFiles oldOrder
      newOrder).2, known content := by
    intro content hmem
    obtain ⟨key, hkey | hkey⟩ := mem_contents hp hmem
    · exact h.items key content hkey
    · exact hitems newFiles hnew key content hkey
  have hstorable : Repo.Storable s.blobs
      (diffTreesIn (parser.plugin unparse) oldFiles newFiles oldOrder newOrder).2 :=
    ⟨fun content hc => h.blobs content (hcontents content hc),
      fun content hc other hother => hknown content (hcontents content hc) other
        (hcontents other hother)⟩
  refine ⟨newFiles, hnew, ⟨h.indexed.addChange hsame, h.acyclic.addChange hnot, ?_,
    hitems newFiles hnew, ?_⟩, rfl, fun heads' hbelow => ⟨?_, fun files' hholds => ?_⟩⟩
  · have hstored := h.holds.putContents h.indexed
      (diffTreesIn (parser.plugin unparse) oldFiles newFiles oldOrder newOrder).2
    rw [← hchangeDeps] at hstored
    exact hstored.onTop hp h.indexed h.acyclic hpayload (by rw [hchange]; exact hai) hpermOld
      hpermNew (by rw [hchange]; rfl) fun content hc => hstorable.readBlob hc
  · intro content hc other hother
    rcases Repo.eq_or_mem_of_lookup_putContents hother with hin | ⟨hmem, hhash⟩
    · exact h.blobs content hc other hin
    · exact hknown content hc other (hcontents other hmem) hhash
  · rw [ChangeGraph.ancestorsInclusive_addChange_self hnot, hchangeDeps]
    exact hbelow.trans (Finset.subset_insert _ _)
  · refine (hholds.putContents h.indexed _).addChange h.indexed hsame fun hin => hnot ?_
    rw [hchangeDeps]
    obtain ⟨head, hhead, hreach⟩ := ChangeGraph.mem_ancestorsInclusive.mp hin
    exact ChangeGraph.ancestorsInclusive_of_reaches (hbelow hhead) hreach

def OnTip (dir : GitDir) (fuel : ℕ) (st : ImportState) (heads : Finset Blake3Hash)
    (files : FMap String Bytes) (commit : GitCommit) : Prop :=
  (commit.parents.filterMap fun p => st.oidToArc.lookup p).toFinset = heads
    ∧ ∀ s oldFiles, parentFiles dir fuel st commit s = some (.ok oldFiles, s) → oldFiles = files

omit [Crypto] in
theorem onTip_empty (commit : GitCommit) : OnTip dir fuel ⟨∅, ∅⟩ ∅ ∅ commit := by
  constructor
  · simp
  · intro s oldFiles hold
    have hnone : (commit.parents.head?.bind fun p => (∅ : FMap GitOid GitOid).lookup p) = none := by
      simp
    rw [parentFiles, hnone] at hold
    cases hold
    rfl

omit [Crypto] in
theorem onTip_of_parents {id : Blake3Hash} {child : GitCommit}
    (hfiles : dir.HasFiles fuel commit.tree files) (hparents : child.parents = [commit.oid]) :
    OnTip dir fuel ⟨st.oidToArc.insert commit.oid id, st.oidToTree.insert commit.oid commit.tree⟩
      {id} files child := by
  constructor
  · rw [hparents]
    simp [FMap.lookup_insert_eq]
  · intro s oldFiles hold
    rw [parentFiles, hparents] at hold
    simp only [List.head?_cons, Option.bind_some, FMap.lookup_insert_eq, if_true] at hold
    obtain ⟨hread, -⟩ := ofGit_eq_ok hold
    exact Except.ok.inj (Option.some_inj.mp (hread.symm.trans hfiles))

/-- By induction on the commits that are left: whatever was below the tip is kept, and every commit
is the tip once. -/
theorem Imports.holds (hp : Total parser) (hai : author.isAi = false)
    (hknown : ∀ content, known content → ∀ other, known other →
      Crypto.hashBytes other = Crypto.hashBytes content → other = content)
    {commits : List GitCommit} {imported : List (GitCommit × Change)}
    {st' : ImportState}
    (himports : Imports dir fuel (parser.plugin unparse) author signingKey st s commits imported st'
      s')
    (h : AtTip parser agentIgnore known s heads files)
    (hnext : ∀ commit ∈ commits.head?, OnTip dir fuel st heads files commit)
    (hchain : commits.IsChain fun parent child => child.parents = [parent.oid])
    (hitems : ∀ commit ∈ commits, ∀ newFiles, dir.HasFiles fuel commit.tree newFiles →
      ∀ key content, fileEntry parser newFiles key = some content → known content)
    (hgraph : ∀ entry ∈ imported, ∀ c', s.graph.get entry.2.id = some c' →
      c'.payload = entry.2.payload)
    (hids : ∀ entry ∈ imported, ∀ other ∈ imported, other.2.id = entry.2.id →
      other.2.payload = entry.2.payload) :
    (∀ heads' ⊆ s.graph.ancestorsInclusive heads, ∀ files',
        Holds parser s agentIgnore heads' files' → Holds parser s' agentIgnore heads' files')
      ∧ ∀ entry ∈ imported, ∃ newFiles, dir.HasFiles fuel entry.1.tree newFiles
        ∧ Holds parser s' agentIgnore {entry.2.id} newFiles := by
  induction himports generalizing heads files with
  | nil => exact ⟨fun _ _ _ hholds => hholds, by simp⟩
  | @cons st st' s s₁ s' commit change commits imported first rest ih =>
      obtain ⟨hdeps, hfiles⟩ := hnext commit rfl
      obtain ⟨newFiles, hnew, htip, hadd, hkeep⟩ := h.step hp hai hknown first hdeps (hfiles s)
        (hitems commit List.mem_cons_self) (hgraph _ List.mem_cons_self)
      obtain ⟨hkeep', hrest⟩ := ih htip
        (fun child hchild => onTip_of_parents hnew ((List.isChain_cons.mp hchain).1 child hchild))
        (List.isChain_cons.mp hchain).2
        (fun child hchild => hitems child (List.mem_cons_of_mem _ hchild))
        (fun entry hentry c' hc' => by
          rw [hadd, ChangeGraph.get_addChange] at hc'
          split_ifs at hc' with hid
          · obtain rfl := Option.some_inj.mp hc'
            exact hids entry (List.mem_cons_of_mem _ hentry) (commit, change) List.mem_cons_self
              hid.symm
          · exact hgraph entry (List.mem_cons_of_mem _ hentry) c' hc')
        (fun entry hentry other hother => hids entry (List.mem_cons_of_mem _ hentry) other
          (List.mem_cons_of_mem _ hother))
      constructor
      · intro heads' hbelow files' hholds
        obtain ⟨hbelow', hholds'⟩ := hkeep heads' hbelow
        exact hkeep' heads' hbelow' files' (hholds' files' hholds)
      · refine List.forall_mem_cons.mpr ⟨⟨newFiles, hnew, ?_⟩, hrest⟩
        exact hkeep' _ (ChangeGraph.subset_ancestorsInclusive _ _) newFiles htip.holds

end Content

/-! ## Linear histories -/

variable {dir : GitDir} {fuel : ℕ} {head : GitOid} {parser : ItemParser}
  {unparse : MaterializedState → String → String} {author : Author}

/-- Every commit has at most one parent. -/
def GitDir.Linear (dir : GitDir) (head : GitOid) : Prop :=
  ∀ path oid, dir.Path head path oid → (dir.parents oid).length ≤ 1

theorem Walked.isChain {commits : List GitCommit} (h : Walked dir head commits)
    (hlinear : dir.Linear head) :
    commits.IsChain fun parent child => child.parents = [parent.oid] := by
  have hchain := h.explored.isChain hlinear
  rw [List.isChain_map, List.isChain_reverse] at hchain
  refine hchain.imp_of_mem_imp fun parent child hparent hchild hstep => ?_
  rw [← (h.has child hchild).parents_eq]
  exact hstep

def IsContent (dir : GitDir) (fuel : ℕ) (parser : ItemParser) (commits : List GitCommit)
    (content : Bytes) : Prop :=
  ∃ commit ∈ commits, ∃ files, dir.HasFiles fuel commit.tree files
    ∧ ∃ key, fileEntry parser files key = some content

/-- No two contents have one hash, and no two changes one id. -/
structure NoCollisions [Crypto] (dir : GitDir) (fuel : ℕ) (parser : ItemParser) (s : Repo)
    (imported : List (GitCommit × Change)) : Prop where
  contents : ∀ content, IsContent dir fuel parser (imported.map Prod.fst) content →
    ∀ other, IsContent dir fuel parser (imported.map Prod.fst) other →
      Crypto.hashBytes other = Crypto.hashBytes content → other = content
  blobs : ∀ content, IsContent dir fuel parser (imported.map Prod.fst) content →
    ∀ other, s.blobs.lookup (Crypto.hashBytes content) = some other → other = content
  changes : ∀ entry ∈ imported, ∀ other ∈ imported, other.2.id = entry.2.id →
    other.2.payload = entry.2.payload
  graph : ∀ entry ∈ imported, ∀ c', s.graph.get entry.2.id = some c' →
    c'.payload = entry.2.payload

theorem holds_saveBranches [Crypto] {agentIgnore : Gitignore} {st : ImportState}
    {branches : List (String × GitOid)} {s s' : Repo} {heads : Finset Blake3Hash}
    {files : FMap String Bytes} (hrun : saveBranches st branches s = some (.ok (), s'))
    (h : Holds parser s agentIgnore heads files) : Holds parser s' agentIgnore heads files := by
  obtain ⟨s'', hrun', -, hgraph, hblobs⟩ := saveBranches_run st branches s
  obtain rfl : s' = s'' := congrArg Prod.snd (Option.some_inj.mp (hrun.symm.trans hrun'))
  rwa [Holds, Repo.applyEnv, hgraph, hblobs]

/-- **Imports of linear histories keep the content**, in whatever order the files are met. The
commands import with the identity of the user, which is never that of a model. -/
theorem gitImport_preservesContent [Crypto] (h : dir.IsHistory fuel head)
    (hfuel : dir.walkFuel ≤ fuel) (hlinear : dir.Linear head) (hp : Total parser)
    (hai : author.isAi = false) (unparse : MaterializedState → String → String)
    (signingKey : SigningKey) {s : Repo} (hg : s.graph.Indexed) (hac : s.graph.Acyclic) :
    (∃ imported s', importRepo dir fuel (parser.plugin unparse) author signingKey s
        = some (.ok (imported.length, imported), s')
      ∧ ImportsRepo dir fuel (parser.plugin unparse) author signingKey s imported s')
      ∧ ∀ imported s',
        ImportsRepo dir fuel (parser.plugin unparse) author signingKey s imported s' →
        NoCollisions dir fuel parser s imported →
          (∀ commit, commit ∈ imported.map Prod.fst
            ↔ dir.HasCommit commit ∧ ∃ path, dir.Path head path commit.oid)
          ∧ ∀ entry ∈ imported, ∃ files, dir.HasFiles fuel entry.1.tree files
            ∧ ∀ agentIgnore, Holds parser s' agentIgnore {entry.2.id} files := by
  obtain ⟨commits, hanalysis, hwalked⟩ := analyze_walked h hfuel
  constructor
  · obtain ⟨⟨st, imported⟩, s₁, hrun⟩ := exists_importCommits (parser.plugin unparse) author
      signingKey (fun commit hcommit => (hwalked.hasFiles h commit hcommit).2) ⟨∅, ∅⟩ (by simp) s
    obtain ⟨s', hbranches, -⟩ := saveBranches_run st dir.branches s₁
    have hrepo := importRepo_eq hanalysis hrun hbranches
    have hlen : commits.length = imported.length := by
      rw [← (imports_of_importCommits hrun).fst, List.length_map]
    dsimp only at hrepo
    rw [hlen] at hrepo
    exact ⟨imported, s', hrepo, importsRepo_of_importRepo hrepo⟩
  · rintro imported s' ⟨analysis, st, s₁, hanalysis', himports, hbranches⟩ hcollisions
    obtain rfl := Except.ok.inj (Option.some_inj.mp (hanalysis.symm.trans hanalysis'))
    dsimp only at himports
    obtain rfl := himports.fst
    refine ⟨hwalked.mem_iff, fun entry hentry => ?_⟩
    have hcontent : ∀ agentIgnore, ∃ files, dir.HasFiles fuel entry.1.tree files
        ∧ Holds parser s₁ agentIgnore {entry.2.id} files := by
      intro agentIgnore
      have htip : AtTip parser agentIgnore
          (IsContent dir fuel parser (imported.map Prod.fst)) s ∅ ∅ := by
        refine ⟨hg, hac, holds_empty hg, fun key content hkey => ?_, hcollisions.blobs⟩
        rw [fileEntry_empty] at hkey
        cases hkey
      exact (himports.holds hp hai hcollisions.contents htip (fun commit _ => onTip_empty commit)
        (hwalked.isChain hlinear)
        (fun commit hcommit files hfiles key content hkey =>
          ⟨commit, hcommit, files, hfiles, key, hkey⟩)
        hcollisions.graph hcollisions.changes).2 entry hentry
    obtain ⟨files, hfiles, -⟩ := hcontent fun _ _ => false
    refine ⟨files, hfiles, fun agentIgnore => holds_saveBranches hbranches ?_⟩
    obtain ⟨files', hfiles', hholds⟩ := hcontent agentIgnore
    obtain rfl : files = files' :=
      Except.ok.inj (Option.some_inj.mp (hfiles.symm.trans hfiles'))
    exact hholds

/-! ## A file that is added -/

/-- A parser to which every text but the empty one is one function. -/
def textParser : ItemParser where
  items src := .ok (if src = "" then ∅
    else Finmap.singleton ["source_file", "function_item[f]"] [1])
  path_ne_nil src map h := by
    obtain rfl := Except.ok.inj h
    split_ifs <;> rfl

theorem eq_of_fileEntry_textParser {files : FMap String Bytes} {key : NodePath} {content : Bytes}
    (h : fileEntry textParser files key = some content) : content = [1] := by
  rcases key with _ | ⟨kind, _ | ⟨path, item⟩⟩
  · cases h
  · cases h
  rw [fileEntry] at h
  split_ifs at h
  obtain ⟨bytes, -, hitem⟩ := Option.bind_eq_some_iff.mp h
  obtain ⟨map, hmap, hlook⟩ := Option.bind_eq_some_iff.mp hitem
  obtain rfl := Option.some_inj.mp hmap
  split_ifs at hlook
  · cases hlook
  · rw [FMap.lookup_singleton] at hlook
    split_ifs at hlook
    exact (Option.some_inj.mp hlook).symm

/-- Two commits, the second one with one more file. -/
def addedFileDir : GitDir :=
  let entry (name : String) : TreeEntry := ⟨"100644", name, sampleOid 9⟩
  let commit (tree : UInt8) (parents : List GitOid) : RawObject :=
    .commit ⟨sampleOid tree, parents, "a", "a@b", 0, "a", "a@b", ""⟩
  { objects := FMap.insertAll ∅ [(sampleOid 9, .blob [102]), (sampleOid 8, .tree [entry "a.rs"]),
      (sampleOid 7, .tree [entry "a.rs", entry "b.rs"]), (sampleOid 2, commit 8 []),
      (sampleOid 1, commit 7 [sampleOid 2])]
    head := .ok (sampleOid 1), branches := [("main", sampleOid 1)], commitGraph := none }

theorem gitImport_preservesContent_addedFile :
    let _ := Crypto.sample
    let author : Author := .human "" "" 0
    ∃ imported s', importRepo addedFileDir 9 (textParser.plugin fun _ _ => "") author 0 Repo.init
        = some (.ok (2, imported), s')
      ∧ (∀ commit, commit ∈ imported.map Prod.fst ↔ addedFileDir.HasCommit commit
        ∧ ∃ path, addedFileDir.Path (sampleOid 1) path commit.oid)
      ∧ ∀ entry ∈ imported, ∃ files, addedFileDir.HasFiles 9 entry.1.tree files
        ∧ ∀ agentIgnore, Holds textParser s' agentIgnore {entry.2.id} files := by
  intro crypto author
  have hhistory : addedFileDir.IsHistory 9 (sampleOid 1) := by
    refine ⟨rfl, fun path oid hpath => GitDir.exists_of_readable
      (GitDir.readable_of_path (by decide) (by decide) hpath), ?_⟩
    rintro parentOidsFor ⟨⟩
  have hlinear : addedFileDir.Linear (sampleOid 1) := by
    intro path oid _
    by_cases hkey : oid ∈ addedFileDir.objects.keys
    · have hall : ∀ oid ∈ addedFileDir.objects.keys, (addedFileDir.parents oid).length ≤ 1 := by
        decide
      exact hall oid hkey
    · rw [GitDir.parents_eq_nil hkey]
      exact Nat.zero_le 1
  have htotal : Total textParser := ⟨fun src => ⟨_, rfl⟩, rfl⟩
  have hac : Repo.init.graph.Acyclic := ChangeGraph.acyclic_of_lt (by decide)
  obtain ⟨⟨imported, s', hrun, himports⟩, hcontent⟩ := gitImport_preservesContent hhistory
    (by decide) hlinear htotal (show author.isAi = false from rfl) (fun _ _ => "") 0
    ChangeGraph.Indexed.new hac
  have hids : (importRepo addedFileDir 9 (textParser.plugin fun _ _ => "") author 0 Repo.init).all
      (fun out => out.1.toOption.all fun r => r.2.length = 2 ∧ ∀ entry ∈ r.2, ∀ other ∈ r.2,
        other.2.id = entry.2.id → other.2.payload = entry.2.payload) = true := by
    decide
  rw [hrun] at hids
  obtain ⟨hlen, hdistinct⟩ := of_decide_eq_true hids
  have hone : ∀ content, IsContent addedFileDir 9 textParser (imported.map Prod.fst) content →
      content = [1] := by
    rintro content ⟨commit, -, files, -, key, hkey⟩
    exact eq_of_fileEntry_textParser hkey
  have hcollisions : NoCollisions addedFileDir 9 textParser Repo.init imported := by
    refine ⟨fun content hc other hother _ => (hone other hother).trans (hone content hc).symm,
      fun content _ other hlook => ?_, hdistinct, fun entry _ c' hget => ?_⟩
    · cases hlook
    · cases hget
  dsimp only at hlen
  rw [hlen] at hrun
  exact ⟨imported, s', hrun, hcontent imported s' himports hcollisions⟩

end ArcVcs.GitImport
