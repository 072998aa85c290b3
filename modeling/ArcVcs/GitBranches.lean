import ArcVcs.GitAncestry
import ArcVcs.GitText
import ArcVcs.Lib.SortedMap

/-!
# The branches of an imported repository

The walk starts at the head only, and a branch whose tip it did not come to is passed over when the
branches become views.
-/

namespace ArcVcs.GitImport

open BreadthFirst
open Git (GitOid)

/-! ## The branches -/

/-- An entry of `refs/heads`, with the text that is read from a file. -/
inductive RefNode where
  | file (name : String) (content : Except String String)
  | dir (name : String) (entries : List RefNode)
  | unreadable (error : String)
  | other

/-- `refs/heads` and `packed-refs`, where there are any. -/
structure GitRefs where
  loose : Option (List RefNode)
  packed : Option (Except String String)

/-- `none` is a panic. -/
abbrev RefScan := Option (Except String (FMap String GitOid))

/-- `replace('\\', "/")`. -/
def slashed (path : String) : String :=
  String.ofList (path.toList.map fun c => if c = '\\' then '/' else c)

mutual

def collectLooseRef (base : String) : RefNode → FMap String GitOid → RefScan
  | .file name content, out =>
      match content with
      | .error e => some (.error e)
      | .ok hex =>
          match Git.parseHexOid (Git.trim hex.toList) with
          | none => none
          | some none => some (.ok out)
          | some (some oid) => some (.ok (out.insert (slashed (base ++ name)) oid))
  | .dir name entries, out => collectLooseRefs (base ++ name ++ "/") entries out
  | .unreadable e, _ => some (.error e)
  | .other, out => some (.ok out)

def collectLooseRefs (base : String) : List RefNode → FMap String GitOid → RefScan
  | [], out => some (.ok out)
  | node :: nodes, out =>
      match collectLooseRef base node out with
      | some (.ok out) => collectLooseRefs base nodes out
      | failed => failed

end

/-- A line of `packed-refs`. A branch that is there already stays. -/
def packedRef (line : List Char) (branches : FMap String GitOid) : Option (FMap String GitOid) :=
  if line.head? = some '#' ∨ line.head? = some '^' then some branches
  else
    match Git.splitSpace line with
    | none => some branches
    | some (hex, refname) =>
        match Git.stripPrefix "refs/heads/".toList refname with
        | none => some branches
        | some branch =>
            match Git.parseHexOid hex with
            | none => none
            | some none => some branches
            | some (some oid) => some (branches.putOnce (String.ofList branch) oid)

def packedRefs : List (List Char) → FMap String GitOid → Option (FMap String GitOid)
  | [], branches => some branches
  | line :: lines, branches =>
      match packedRef line branches with
      | none => none
      | some branches => packedRefs lines branches

def listBranchHeads (refs : GitRefs) : RefScan :=
  match (match refs.loose with
    | none => some (.ok ∅)
    | some nodes => collectLooseRefs "" nodes ∅ : RefScan) with
  | some (.ok branches) =>
      match refs.packed with
      | none => some (.ok branches)
      | some (.error e) => some (.error e)
      | some (.ok text) =>
          (packedRefs (Git.lines text.toList) branches).map fun branches => .ok branches
  | failed => failed

/-! ## The import with its branches -/

/-- `import_repo` with the branches that it lists. A map has no order, and here its entries come in
the order of their names. -/
def importBranches [Crypto] (dir : GitDir) (refs : GitRefs) (fuel : ℕ) (plugin : LanguagePlugin)
    (author : Author) (signingKey : SigningKey) : ImportM (ℕ × List (GitCommit × Change)) := do
  let analysis ← ofGit (analyzeGitRepo dir fuel)
  let (st, imported) ← importCommits dir fuel plugin author signingKey ⟨∅, ∅⟩ analysis.commits
  let branches ← ofGit (listBranchHeads refs)
  ofRepo (saveBranches st (SortedMap.ofMap branches))
  pure (analysis.commitCount, imported)

/-! ## The commits of a walk that succeeds -/

namespace GitDir

def commitAt (dir : GitDir) (oid : GitOid) : Option GitCommit :=
  match dir.objects.lookup oid with
  | some (.commit data) => some ⟨data, oid⟩
  | _ => none

end GitDir

variable {dir : GitDir} {fuel : ℕ} {head oid : GitOid} {commits : List GitCommit}

theorem GitDir.commitAt_eq_some_iff {commit : GitCommit} :
    dir.commitAt oid = some commit ↔ commit.oid = oid ∧ dir.HasCommit commit := by
  rw [GitDir.commitAt, GitDir.HasCommit]
  constructor
  · intro h
    split at h
    · rename_i data hdata
      obtain rfl := Option.some_inj.mp h
      exact ⟨rfl, hdata⟩
    · cases h
  · rintro ⟨rfl, h⟩
    rw [h]

theorem GitDir.commitAt_of_readCommit {found : Option GitCommit}
    (h : dir.reader.readCommit oid = .ok found) :
    found = dir.commitAt oid
      ∧ dir.parents oid = (found.map fun commit => commit.parents).getD [] := by
  unfold GitDir.reader GitDir.readObject at h
  unfold GitDir.commitAt GitDir.parents
  dsimp only at h
  cases hlook : dir.objects.lookup oid with
  | none => simp [hlook] at h
  | some obj =>
      rw [hlook] at h
      cases obj <;> cases h <;> exact ⟨rfl, rfl⟩

/-- What the walk has read, with the queue. -/
def LegacyRead (dir : GitDir) (head : GitOid) (queue : List GitOid)
    (st : Finset GitOid × List GitCommit) : Prop :=
  ∃ order, Explored dir.parents head order queue ∧ st.1 = order.toFinset
    ∧ st.2 = order.filterMap dir.commitAt

theorem LegacyRead.step {queue pushed : List GitOid} {st st' : Finset GitOid × List GitCommit}
    (h : LegacyRead dir head (oid :: queue) st)
    (hstep : dir.reader.legacyStep st oid = .ok (pushed, st')) :
    LegacyRead dir head (queue ++ pushed) st' := by
  obtain ⟨order, hexplored, hvisited, hread⟩ := h
  rw [CommitReader.legacyStep] at hstep
  split_ifs at hstep with hmem
  · cases hstep
    rw [List.append_nil]
    rw [hvisited, List.mem_toFinset] at hmem
    exact ⟨order, hexplored.skip hmem, hvisited, hread⟩
  · rw [hvisited, List.mem_toFinset] at hmem
    have hnext := hexplored.visit hmem
    have hinsert : insert oid st.1 = (order ++ [oid]).toFinset := by
      ext x
      simp [hvisited]
    cases hcommit : dir.reader.readCommit oid with
    | error e => simp [hcommit] at hstep
    | ok found =>
        obtain ⟨hfound, hparents⟩ := GitDir.commitAt_of_readCommit hcommit
        rw [hparents] at hnext
        rw [hcommit] at hstep
        cases found with
        | some commit =>
            cases hstep
            refine ⟨order ++ [oid], hnext, hinsert, ?_⟩
            rw [List.filterMap_append, hread, List.filterMap_cons, ← hfound]
            rfl
        | none =>
            cases hstep
            refine ⟨order ++ [oid], hnext, hinsert, ?_⟩
            rw [List.filterMap_append, hread, List.filterMap_cons, ← hfound]
            simp

theorem readCommits_eq_ok {order : List GitOid} (h : dir.reader.readCommits order = .ok commits) :
    commits = order.filterMap dir.commitAt := by
  induction order generalizing commits with
  | nil => exact (Except.ok.inj h).symm
  | cons oid order ih =>
      rw [CommitReader.readCommits] at h
      rw [List.filterMap_cons]
      cases hcommit : dir.reader.readCommit oid with
      | error e => simp [hcommit] at h
      | ok found =>
          rw [hcommit] at h
          rw [← (GitDir.commitAt_of_readCommit hcommit).1]
          cases found with
          | some commit =>
              obtain ⟨rest, hrest, heq⟩ := Except.bind_eq_ok_iff.mp h
              obtain rfl := Except.ok.inj heq
              rw [ih hrest]
          | none => exact ih h

theorem collectCommits_ok (hagrees : dir.GraphAgrees head)
    (hrun : collectCommitsWithFallback dir fuel head = some (.ok commits)) :
    ∃ order, Explored dir.parents head order []
      ∧ commits = order.reverse.filterMap dir.commitAt := by
  have hlegacy {e : String}
      (he : dir.reader.collectCommitsCommitGraph fuel head = some (.error e)) :
      ∃ order, Explored dir.parents head order []
        ∧ commits = order.reverse.filterMap dir.commitAt := by
    rw [GitDir.withFallback_of_error he, CommitReader.collectCommitsLegacy] at hrun
    rcases hproc : Worklist.process dir.reader.legacyStep fuel [head] (∅, []) with _ | ⟨e | st⟩
    · simp [hproc] at hrun
    · simp [hproc] at hrun
    · rw [hproc] at hrun
      obtain rfl : st.2.reverse = commits := Except.ok.inj (Option.some_inj.mp hrun)
      obtain ⟨order, hexplored, -, hread⟩ := Worklist.process_ok (LegacyRead dir head)
        (fun _ _ _ _ _ h hstep => h.step hstep) ⟨[], .init, rfl, rfl⟩ hproc
      exact ⟨order, hexplored, by rw [hread, List.filterMap_reverse]⟩
  cases hgraph : dir.commitGraph with
  | none => exact hlegacy (GitDir.collectCommitsCommitGraph_of_none hgraph)
  | some parentOidsFor =>
      have hfast : dir.reader.collectCommitsCommitGraph fuel head = _ :=
        GitDir.collectCommitsCommitGraph_of_graph hgraph
      rcases hproc : Worklist.process (CommitReader.graphStep parentOidsFor) fuel [head] (∅, [])
        with _ | ⟨e | st⟩
      · rw [hproc] at hfast
        simp [collectCommitsWithFallback, CommitReader.collectCommitsWithFallback, hfast] at hrun
      · rw [hproc] at hfast
        exact hlegacy hfast
      · rw [hproc] at hfast
        have hstart : GraphWalk dir head [head] (∅, []) := ⟨.init, rfl⟩
        have hend := Worklist.process_ok (GraphWalk dir head)
          (fun _ _ _ _ _ h hstep => (h.step hagrees hgraph hstep).1) hstart hproc
        cases hread : dir.reader.readCommits st.2.reverse with
        | error e => exact hlegacy (hfast.trans (congrArg some hread))
        | ok found =>
            have hall : collectCommitsWithFallback dir fuel head = some (.ok found) := by
              rw [collectCommitsWithFallback, CommitReader.collectCommitsWithFallback, hfast,
                Option.map_some, Except.bind, hread]
            rw [hall] at hrun
            obtain rfl : found = commits := Except.ok.inj (Option.some_inj.mp hrun)
            exact ⟨st.2, hend.explored, readCommits_eq_ok hread⟩

theorem mem_filterMap_commitAt_iff {order : List GitOid} {commit : GitCommit} :
    commit ∈ order.filterMap dir.commitAt ↔ commit.oid ∈ order ∧ dir.HasCommit commit := by
  rw [List.mem_filterMap]
  constructor
  · rintro ⟨oid, hoid, hcommit⟩
    obtain ⟨rfl, hhas⟩ := GitDir.commitAt_eq_some_iff.mp hcommit
    exact ⟨hoid, hhas⟩
  · rintro ⟨hoid, hhas⟩
    exact ⟨commit.oid, hoid, GitDir.commitAt_eq_some_iff.mpr ⟨rfl, hhas⟩⟩

theorem nodup_filterMap_commitAt {order : List GitOid} (h : order.Nodup) :
    ((order.filterMap dir.commitAt).map GitCommit.oid).Nodup := by
  have hsub : ((order.filterMap dir.commitAt).map GitCommit.oid).Sublist order := by
    clear h
    induction order with
    | nil => exact .slnil
    | cons oid order ih =>
        rw [List.filterMap_cons]
        cases hcommit : dir.commitAt oid with
        | none => exact ih.cons _
        | some commit =>
            rw [List.map_cons, (GitDir.commitAt_eq_some_iff.mp hcommit).1]
            exact ih.cons_cons _
  exact h.sublist hsub

theorem mem_commits_iff (hagrees : dir.GraphAgrees head)
    (hrun : collectCommitsWithFallback dir fuel head = some (.ok commits)) (commit : GitCommit) :
    commit ∈ commits ↔ dir.HasCommit commit ∧ ∃ path, dir.Path head path commit.oid := by
  obtain ⟨order, hexplored, rfl⟩ := collectCommits_ok hagrees hrun
  rw [mem_filterMap_commitAt_iff, List.mem_reverse, hexplored.mem_iff, and_comm]
  rfl

theorem nodup_commits (hagrees : dir.GraphAgrees head)
    (hrun : collectCommitsWithFallback dir fuel head = some (.ok commits)) :
    (commits.map GitCommit.oid).Nodup := by
  obtain ⟨order, hexplored, rfl⟩ := collectCommits_ok hagrees hrun
  exact nodup_filterMap_commitAt (List.nodup_reverse.mpr hexplored.nodup)

/-! ## The import of the branches -/

section Import

variable [Crypto] {plugin : LanguagePlugin} {author : Author} {signingKey : SigningKey}
  {imported : List (GitCommit × Change)} {s s' : Repo}

theorem importCommit_ok {st st' : ImportState} {commit : GitCommit} {change : Change}
    (h : importCommit dir fuel plugin author signingKey st commit s
      = some (.ok (st', change), s')) :
    st'.oidToArc = st.oidToArc.insert commit.oid change.id := by
  obtain ⟨_, _, -, h⟩ := Program.bind_eq_ok_iff.mp h
  obtain ⟨_, _, -, h⟩ := Program.bind_eq_ok_iff.mp h
  obtain ⟨_, _, -, h⟩ := Program.bind_eq_ok_iff.mp h
  obtain ⟨_, _, -, h⟩ := Program.bind_eq_ok_iff.mp h
  obtain ⟨_, _, -, h⟩ := Program.bind_eq_ok_iff.mp h
  cases h
  rfl

theorem importCommits_ok {st st' : ImportState}
    (h : importCommits dir fuel plugin author signingKey st commits s
      = some (.ok (st', imported), s')) :
    imported.map Prod.fst = commits
      ∧ st'.oidToArc = st.oidToArc.insertAll (imported.map fun e => (e.1.oid, e.2.id)) := by
  induction commits generalizing st s imported with
  | nil =>
      cases h
      exact ⟨rfl, rfl⟩
  | cons commit commits ih =>
      obtain ⟨⟨st₁, change⟩, s₁, hfirst, h⟩ := Program.bind_eq_ok_iff.mp h
      obtain ⟨⟨st₂, rest⟩, s₂, hrest, h⟩ := Program.bind_eq_ok_iff.mp h
      cases h
      obtain ⟨hcommits, harc⟩ := ih hrest
      refine ⟨by rw [List.map_cons, hcommits], ?_⟩
      rw [harc, importCommit_ok hfirst]
      rfl

omit [Crypto] in
theorem saveBranches_lookup {st : ImportState} {branches : List (String × GitOid)}
    (hnodup : (branches.map Prod.fst).Nodup)
    (h : saveBranches st branches s = some (.ok (), s')) :
    (∀ name ∉ branches.map Prod.fst, s'.views.lookup name = s.views.lookup name)
      ∧ ∀ branch ∈ branches, ∀ id, st.oidToArc.lookup branch.2 = some id →
        s'.views.lookup branch.1 = some {id} := by
  induction branches generalizing s with
  | nil =>
      cases h
      simp
  | cons branch branches ih =>
      obtain ⟨hnew, hnodup⟩ := List.nodup_cons.mp hnodup
      have hstep : ∃ s₁, saveBranches st branches s₁ = some (.ok (), s')
          ∧ (s₁.views = s.views ∧ st.oidToArc.lookup branch.2 = none
            ∨ ∃ id, st.oidToArc.lookup branch.2 = some id
              ∧ s₁.views = s.views.insert branch.1 {id}) := by
        rw [saveBranches] at h
        cases hlook : st.oidToArc.lookup branch.2 with
        | none =>
            rw [hlook] at h
            exact ⟨s, h, .inl ⟨rfl, rfl⟩⟩
        | some id =>
            rw [hlook] at h
            exact ⟨_, h, .inr ⟨id, rfl, rfl⟩⟩
      obtain ⟨s₁, hrest, hviews⟩ := hstep
      obtain ⟨hother, hsaved⟩ := ih hnodup hrest
      constructor
      · intro name hname
        rw [List.map_cons, List.mem_cons, not_or] at hname
        rw [hother name hname.2]
        rcases hviews with ⟨heq, -⟩ | ⟨id, -, heq⟩
        · rw [heq]
        · rw [heq, FMap.lookup_insert_eq, if_neg hname.1]
      · intro b hb id hid
        rcases List.mem_cons.mp hb with rfl | hb
        · rw [hother b.1 hnew]
          rcases hviews with ⟨-, hnone⟩ | ⟨id', hsome, heq⟩
          · simp [hid] at hnone
          · obtain rfl := Option.some_inj.mp (hid.symm.trans hsome)
            rw [heq, FMap.lookup_insert_eq, if_pos rfl]
        · exact hsaved b hb id hid

/-- Every branch has a view with the change of its tip as the single head, and every commit that a
branch reaches is imported. -/
structure ImportComplete (dir : GitDir) (branches : FMap String GitOid)
    (imported : List (GitCommit × Change)) (s : Repo) : Prop where
  views : ∀ name oid, branches.lookup name = some oid →
    ∃ entry ∈ imported, entry.1.oid = oid ∧ s.views.lookup name = some {entry.2.id}
  commits : ∀ name oid, branches.lookup name = some oid → ∀ path commit,
    dir.Path oid path commit.oid → dir.HasCommit commit → ∃ entry ∈ imported, entry.1 = commit

omit [Crypto] in
theorem ofGit_eq_ok_iff {α : Type} {out : Option (Except String α)} {a : α} :
    ofGit out s = some (.ok a, s') ↔ out = some (.ok a) ∧ s' = s := by
  rcases out with _ | ⟨e | b⟩
  · simp [ofGit]
  · simp [ofGit, Except.mapError]
  · simp [ofGit, Except.mapError, eq_comm]

omit [Crypto] in
theorem ofRepo_eq_ok_iff {α : Type} {p : RepoM α} {a : α} :
    ofRepo p s = some (.ok a, s') ↔ p s = some (.ok a, s') := by
  rw [ofRepo]
  rcases p s with _ | ⟨e | b, s₁⟩
  · simp
  · simp [Except.mapError]
  · simp [Except.mapError]

omit [Crypto] in
theorem analyzeGitRepo_eq_ok {analysis : GitAnalysis} (hhead : dir.head = .ok head)
    (h : analyzeGitRepo dir fuel = some (.ok analysis)) :
    collectCommitsWithFallback dir fuel head = some (.ok analysis.commits) := by
  rw [analyzeGitRepo, hhead] at h
  dsimp only at h
  rcases hcollect : collectCommitsWithFallback dir fuel head with _ | ⟨e | commits⟩
  · simp [hcollect] at h
  · simp [hcollect] at h
  · rw [hcollect] at h
    obtain rfl := Except.ok.inj (Option.some_inj.mp h)
    rfl

/-- What an import that returns has done: its changes are those of the commits that the head
reaches, and every branch with such a tip has its view. -/
theorem importBranches_eq_ok {refs : GitRefs} {branches : FMap String GitOid} {n : ℕ}
    (hhead : dir.head = .ok head) (hagrees : dir.GraphAgrees head)
    (hbranches : listBranchHeads refs = some (.ok branches))
    (hrun : importBranches dir refs fuel plugin author signingKey s
      = some (.ok (n, imported), s')) :
    (∀ commit, commit ∈ imported.map Prod.fst
        ↔ dir.HasCommit commit ∧ ∃ path, dir.Path head path commit.oid)
      ∧ ∀ name oid, branches.lookup name = some oid → ∀ entry ∈ imported, entry.1.oid = oid →
        s'.views.lookup name = some {entry.2.id} := by
  obtain ⟨analysis, s₁, hanalysis, hrun⟩ := Program.bind_eq_ok_iff.mp hrun
  obtain ⟨⟨st, entries⟩, s₂, himport, hrun⟩ := Program.bind_eq_ok_iff.mp hrun
  obtain ⟨listed, s₃, hlist, hrun⟩ := Program.bind_eq_ok_iff.mp hrun
  obtain ⟨_, s₄, hsave, hrun⟩ := Program.bind_eq_ok_iff.mp hrun
  cases hrun
  obtain ⟨hread, rfl⟩ := ofGit_eq_ok_iff.mp hanalysis
  obtain ⟨hlisted, rfl⟩ := ofGit_eq_ok_iff.mp hlist
  obtain rfl := Except.ok.inj (Option.some_inj.mp (hbranches.symm.trans hlisted))
  have hcollect := analyzeGitRepo_eq_ok hhead hread
  obtain ⟨hcommits, harc⟩ := importCommits_ok himport
  refine ⟨fun commit => hcommits ▸ mem_commits_iff hagrees hcollect commit, ?_⟩
  rintro name oid hname entry hentry rfl
  have hnodup : (imported.map fun e => e.1.oid).Nodup := by
    have honce := nodup_commits hagrees hcollect
    rwa [← hcommits, List.map_map] at honce
  have hlook : st.oidToArc.lookup entry.1.oid = some entry.2.id := by
    have hkey : entry.1.oid ∈ (imported.map fun e => (e.1.oid, e.2.id)).map Prod.fst := by
      rw [List.map_map]
      exact List.mem_map_of_mem hentry
    obtain ⟨e, he, hfst, hlook⟩ := FMap.lookup_insertAll_of_mem ∅ _ hkey
    obtain ⟨other, hother, rfl⟩ := List.mem_map.mp he
    rw [harc, hlook, List.inj_on_of_nodup_map hnodup hother hentry hfst]
  have hbranch : ((SortedMap.ofMap branches).map Prod.fst).Nodup := by
    rw [SortedMap.map_fst_ofMap]
    exact Finset.nodup_sorted _
  obtain ⟨-, hsaved⟩ := saveBranches_lookup hbranch (ofRepo_eq_ok_iff.mp hsave)
  exact hsaved (name, entry.1.oid) (SortedMap.mem_ofMap_iff.mpr hname) entry.2.id hlook

/-- **The import is complete** exactly if the tips of all branches are commits that the head
reaches. -/
theorem importBranches_complete_iff {refs : GitRefs} {branches : FMap String GitOid} {n : ℕ}
    (hhead : dir.head = .ok head) (hagrees : dir.GraphAgrees head)
    (hbranches : listBranchHeads refs = some (.ok branches))
    (hrun : importBranches dir refs fuel plugin author signingKey s
      = some (.ok (n, imported), s')) :
    ImportComplete dir branches imported s'
      ↔ ∀ name oid, branches.lookup name = some oid →
        (∃ data, dir.objects.lookup oid = some (.commit data))
          ∧ ∃ path, dir.Path head path oid := by
  obtain ⟨hmem, hsaved⟩ := importBranches_eq_ok hhead hagrees hbranches hrun
  constructor
  · intro h name oid hname
    obtain ⟨entry, hentry, rfl, -⟩ := h.views name oid hname
    obtain ⟨hhas, hpath⟩ := (hmem entry.1).mp (List.mem_map_of_mem hentry)
    exact ⟨⟨_, hhas⟩, hpath⟩
  · intro h
    constructor
    · intro name oid hname
      obtain ⟨⟨data, hdata⟩, hpath⟩ := h name oid hname
      obtain ⟨entry, hentry, heq⟩ :=
        List.mem_map.mp ((hmem ⟨data, oid⟩).mpr ⟨hdata, hpath⟩)
      have hoid : entry.1.oid = oid := congrArg GitCommit.oid heq
      exact ⟨entry, hentry, hoid, hsaved name oid hname entry hentry hoid⟩
    · intro name oid hname path commit hreach hhas
      obtain ⟨-, path', hpath'⟩ := h name oid hname
      obtain ⟨entry, hentry, heq⟩ :=
        List.mem_map.mp ((hmem commit).mpr ⟨hhas, _, hpath'.trans hreach⟩)
      exact ⟨entry, hentry, heq⟩

variable (plugin author signingKey s) in
/-- An import of a history that can be read, with the parents of every commit before it, returns. -/
theorem exists_importBranches {refs : GitRefs} {branches : FMap String GitOid}
    (h : dir.IsHistory fuel head) (hfuel : dir.walkFuel ≤ fuel) (hparents : dir.ParentsLater head)
    (hbranches : listBranchHeads refs = some (.ok branches)) :
    ∃ n imported s', importBranches dir refs fuel plugin author signingKey s
      = some (.ok (n, imported), s') := by
  obtain ⟨commits, hpreserves⟩ := (gitImport_preservesAncestry_iff h hfuel).mpr hparents
  obtain ⟨imported, s', hrun, -⟩ := hpreserves.imports plugin author signingKey s
  obtain ⟨analysis, s₁, hanalysis, hrun⟩ := Program.bind_eq_ok_iff.mp hrun
  obtain ⟨⟨st, entries⟩, s₂, himport, -⟩ := Program.bind_eq_ok_iff.mp hrun
  obtain ⟨s₃, hsave, -⟩ := saveBranches_run st (SortedMap.ofMap branches) s₂
  refine ⟨analysis.commitCount, entries, s₃, ?_⟩
  rw [importBranches, Program.bind_run, hanalysis]
  dsimp only
  rw [Program.bind_run, himport]
  dsimp only
  rw [Program.bind_run, ofGit_eq_ok_iff.mpr ⟨hbranches, rfl⟩]
  dsimp only
  rw [Program.bind_run, ofRepo_eq_ok_iff.mpr hsave]
  rfl

end Import

/-! ## A branch ahead of the head -/

def sampleRefs (branches : List (String × UInt8)) : GitRefs :=
  ⟨some (branches.map fun b => .file b.1 (.ok (sampleOid b.2).display)), none⟩

theorem collectLooseRef_display (base name : String) (out : FMap String GitOid) :
    collectLooseRef base (.file name (.ok oid.display)) out
      = some (.ok (out.insert (slashed (base ++ name)) oid)) := by
  simp only [collectLooseRef, Git.trim_display, Git.parseHexOid_display]

theorem listBranchHeads_sampleRefs {branches : List (String × UInt8)}
    (hnames : ∀ b ∈ branches, slashed ("" ++ b.1) = b.1) :
    listBranchHeads (sampleRefs branches)
      = some (.ok (FMap.insertAll ∅ (branches.map fun b => (b.1, sampleOid b.2)))) := by
  have hloose (out : FMap String GitOid) :
      collectLooseRefs "" (branches.map fun b => .file b.1 (.ok (sampleOid b.2).display)) out
        = some (.ok (out.insertAll (branches.map fun b => (b.1, sampleOid b.2)))) := by
    induction branches generalizing out with
    | nil => simp [collectLooseRefs]
    | cons b branches ih =>
        rw [List.map_cons, List.map_cons, FMap.insertAll_cons, collectLooseRefs,
          collectLooseRef_display, hnames b List.mem_cons_self]
        exact ih (fun b hb => hnames b (.tail _ hb)) _
  rw [listBranchHeads, sampleRefs]
  dsimp only
  rw [hloose]

theorem graphAgrees_of_isHistory (h : dir.IsHistory fuel head) : dir.GraphAgrees head := h.graph

def emptyPlugin : LanguagePlugin := ⟨fun _ _ => "", fun _ _ => .ok ([], [])⟩

/-- One commit and the branch of the head. -/
theorem importBranches_complete_main :
    let _ := Crypto.sample
    ∃ n imported s', importBranches (sampleDir [(1, [])]) (sampleRefs [("main", 1)]) 9 emptyPlugin
        (.human "" "" 0) 0 Repo.init = some (.ok (n, imported), s')
      ∧ ImportComplete (sampleDir [(1, [])]) (FMap.insertAll ∅ [("main", sampleOid 1)]) imported
        s' := by
  intro crypto
  have hhistory : (sampleDir [(1, [])]).IsHistory 9 (sampleOid 1) :=
    isHistory_sampleDir (by decide) (by decide)
  have hbranches := @listBranchHeads_sampleRefs [("main", 1)] (by simp [slashed])
  obtain ⟨n, imported, s', hrun⟩ := exists_importBranches emptyPlugin (.human "" "" 0) 0 Repo.init
    hhistory (by decide) (hhistory.parentsLater (by decide) (by decide)) hbranches
  refine ⟨n, imported, s', hrun, ?_⟩
  refine (importBranches_complete_iff rfl (graphAgrees_of_isHistory hhistory) hbranches hrun).mpr ?_
  intro name oid hname
  obtain ⟨-, rfl⟩ : name = "main" ∧ sampleOid 1 = oid := by
    simpa [FMap.insertAll, FMap.lookup_insert_eq] using hname
  exact ⟨⟨_, rfl⟩, [], .nil⟩

/-- A branch with one commit more than the head gets no view. -/
theorem branch_ahead_of_head_is_skipped :
    let _ := Crypto.sample
    ¬ ∀ (dir : GitDir) (head : GitOid) (refs : GitRefs) (branches : FMap String GitOid) (fuel n : ℕ)
      (imported : List (GitCommit × Change)) (s s' : Repo), dir.head = .ok head →
      dir.GraphAgrees head → listBranchHeads refs = some (.ok branches) →
      importBranches dir refs fuel emptyPlugin (.human "" "" 0) 0 s = some (.ok (n, imported), s') →
      ImportComplete dir branches imported s' := by
  intro crypto h
  have hhistory : (sampleDir [(1, []), (2, [1])]).IsHistory 9 (sampleOid 1) :=
    isHistory_sampleDir (by decide) (by decide)
  have hbranches := @listBranchHeads_sampleRefs [("main", 1), ("topic", 2)] (by simp [slashed])
  obtain ⟨n, imported, s', hrun⟩ := exists_importBranches emptyPlugin (.human "" "" 0) 0 Repo.init
    hhistory (by decide) (hhistory.parentsLater (by decide) (by decide)) hbranches
  have hagrees := graphAgrees_of_isHistory hhistory
  obtain ⟨entry, hentry, hoid, -⟩ := (h _ _ _ _ _ _ _ _ _ rfl hagrees hbranches hrun).views "topic"
    (sampleOid 2) (by decide)
  obtain ⟨-, path, hpath⟩ := ((importBranches_eq_ok rfl hagrees hbranches hrun).1 entry.1).mp
    (List.mem_map_of_mem hentry)
  rw [hoid] at hpath
  exact absurd (hpath.eq_start (by decide)) (by decide)

end ArcVcs.GitImport
