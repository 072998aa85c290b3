import ArcVcs.CommitGraph

/-!
# The walk through the commit graph

`collect_commits_commit_graph` takes the parents from the file of the commit graph, and reads the
commits afterwards. `collect_commits_legacy` reads them on its way.
-/

namespace ArcVcs.GitIngress

open Git (GitOid)
open GitImport (GitCommit CommitReader)

/-- The reads of a git directory: its objects, loose and packed, and the file that
`resolve_commit_graph_path` comes to. -/
structure ObjectDir where
  readObject : GitOid → Except GitFault RawObj
  commitGraphFile : Except GitFault Bytes

variable (dir : ObjectDir)

/-- `CommitGraphIndex::open`. -/
def openIndex : Except GitFault CommitGraphIndex := do
  let data ← dir.commitGraphFile
  CommitGraphIndex.fromMmap data

/-- A panic is not caught. -/
def ObjectDir.reader : CommitReader GitFault where
  readCommit oid := do
    let obj ← dir.readObject oid
    if obj.kind ≠ .commit then .ok none
    else
      let commit ← parseCommit oid obj.data
      .ok (some commit)
  openGraph := (openIndex dir).map CommitGraphIndex.parentOidsFor
  caught
    | .error _ => true
    | .panic => false

def collectCommitsLegacy (fuel : ℕ) (headOid : GitOid) :
    Option (Except GitFault (List GitCommit)) :=
  dir.reader.collectCommitsLegacy fuel headOid

def collectCommitsCommitGraph (fuel : ℕ) (headOid : GitOid) :
    Option (Except GitFault (List GitCommit)) :=
  dir.reader.collectCommitsCommitGraph fuel headOid

def collectCommitsWithFallback (fuel : ℕ) (headOid : GitOid) :
    Option (Except GitFault (List GitCommit)) :=
  dir.reader.collectCommitsWithFallback fuel headOid

/-! ## The two walks side by side -/

def ObjectDir.IsCommit (oid : GitOid) (commit : GitCommit) : Prop :=
  ∃ data, dir.readObject oid = .ok ⟨.commit, data⟩ ∧ parseCommit oid data = .ok commit

/-- The file lists commits of the directory, with the parents that their texts name. -/
structure Describes (graph : CommitGraphIndex) (oids : List GitOid)
    (parents : GitOid → List GitOid) : Prop where
  wellFormed : graph.WellFormed oids parents
  commits : ∀ oid ∈ oids, ∃ data, dir.readObject oid = .ok ⟨.commit, data⟩
  parents : ∀ oid ∈ oids, ∀ commit, dir.IsCommit oid commit → commit.parents = parents oid

variable {dir} {graph : CommitGraphIndex} {oids : List GitOid} {parents : GitOid → List GitOid}
  {oid headOid : GitOid} {fuel : ℕ}

theorem ObjectDir.readCommit_of_commit {data : Bytes}
    (h : dir.readObject oid = .ok ⟨.commit, data⟩) :
    dir.reader.readCommit oid = (parseCommit oid data).map some := by
  rw [ObjectDir.reader]
  dsimp only
  rw [h]
  dsimp only [bind, Except.bind]
  rw [if_neg (not_not.mpr rfl)]
  cases parseCommit oid data <;> rfl

theorem ObjectDir.IsCommit.readCommit_eq {commit : GitCommit} (h : dir.IsCommit oid commit) :
    dir.reader.readCommit oid = .ok (some commit) := by
  obtain ⟨data, hdata, hparse⟩ := h
  rw [ObjectDir.readCommit_of_commit hdata, hparse]
  rfl

theorem graphStep_eq_ok (h : graph.WellFormed oids parents) (hchecked : graph.Checked)
    {st next : Finset GitOid × List GitOid} {pushed : List GitOid}
    (hstep : CommitReader.graphStep graph.parentOidsFor st oid = .ok (pushed, next)) :
    oid ∈ st.1 ∧ pushed = [] ∧ next = st ∨ oid ∉ st.1 ∧ oid ∈ oids ∧ pushed = parents oid
      ∧ next = (insert oid st.1, st.2 ++ [oid]) := by
  unfold CommitReader.graphStep at hstep
  split_ifs at hstep with hvisited
  · cases hstep
    exact .inl ⟨hvisited, rfl, rfl⟩
  · by_cases hmem : oid ∈ oids
    · rw [h.parentOidsFor_of_mem hchecked hmem] at hstep
      cases hstep
      exact .inr ⟨hvisited, hmem, rfl, rfl⟩
    · rw [h.parentOidsFor_of_notMem hchecked hmem] at hstep
      cases hstep

/-- The commits of the legacy walk are those of the visited ids. -/
def SideBySide (dir : ObjectDir) (st : Finset GitOid × List GitOid)
    (st' : Finset GitOid × List GitCommit) : Prop :=
  st'.1 = st.1 ∧ List.Forall₂ dir.IsCommit st.2 st'.2

/-- Some visited commit cannot be read. -/
def Unread (dir : ObjectDir) (st : Finset GitOid × List GitOid) : Prop :=
  ∃ oid ∈ st.2, ∀ commit, ¬ dir.IsCommit oid commit

theorem legacyStep_of_graphStep (h : Describes dir graph oids parents) (hchecked : graph.Checked)
    {st next : Finset GitOid × List GitOid} {st' : Finset GitOid × List GitCommit}
    {pushed : List GitOid} (hside : SideBySide dir st st')
    (hstep : CommitReader.graphStep graph.parentOidsFor st oid = .ok (pushed, next)) :
    (∃ next', dir.reader.legacyStep st' oid = .ok (pushed, next') ∧ SideBySide dir next next')
      ∨ (∃ e, dir.reader.legacyStep st' oid = .error e) ∧ Unread dir next := by
  obtain ⟨hvisited, hcommits⟩ := hside
  rw [CommitReader.legacyStep, hvisited]
  rcases graphStep_eq_ok h.wellFormed hchecked hstep with
    ⟨hmem, rfl, rfl⟩ | ⟨hmem, hoid, rfl, rfl⟩
  · rw [if_pos hmem]
    exact .inl ⟨st', rfl, hvisited, hcommits⟩
  · obtain ⟨data, hdata⟩ := h.commits oid hoid
    rw [if_neg hmem, ObjectDir.readCommit_of_commit hdata]
    cases hparse : parseCommit oid data with
    | error e =>
        refine .inr ⟨⟨e, rfl⟩, oid, by simp, ?_⟩
        rintro commit ⟨data', hdata', hparse'⟩
        rw [hdata] at hdata'
        cases hdata'
        rw [hparse] at hparse'
        cases hparse'
    | ok commit =>
        have hcommit : dir.IsCommit oid commit := ⟨data, hdata, hparse⟩
        refine .inl ⟨(insert oid st.1, st'.2 ++ [commit]), ?_, rfl, ?_⟩
        · rw [← h.parents oid hoid commit hcommit]
          rfl
        · exact List.rel_append hcommits (.cons hcommit .nil)

theorem readCommits_of_forall₂ {order : List GitOid} {commits : List GitCommit}
    (h : List.Forall₂ dir.IsCommit order commits) : dir.reader.readCommits order = .ok commits := by
  induction h with
  | nil => rfl
  | @cons oid commit order commits hcommit _ ih =>
      rw [CommitReader.readCommits, hcommit.readCommit_eq]
      dsimp only
      rw [ih]
      rfl

theorem exists_readCommits_error {order : List GitOid}
    (hcommits : ∀ oid ∈ order, ∃ data, dir.readObject oid = .ok ⟨.commit, data⟩)
    (h : ∃ oid ∈ order, ∀ commit, ¬ dir.IsCommit oid commit) :
    ∃ e, dir.reader.readCommits order = .error e := by
  induction order with
  | nil => simp at h
  | cons oid order ih =>
      obtain ⟨data, hdata⟩ := hcommits oid List.mem_cons_self
      rw [CommitReader.readCommits, ObjectDir.readCommit_of_commit hdata]
      cases hparse : parseCommit oid data with
      | error e => exact ⟨e, rfl⟩
      | ok commit =>
          obtain ⟨bad, hbad, hnone⟩ := h
          rcases List.mem_cons.mp hbad with rfl | hbad
          · exact absurd ⟨data, hdata, hparse⟩ (hnone commit)
          · obtain ⟨e, he⟩ := ih (fun x hx => hcommits x (.tail _ hx)) ⟨bad, hbad, hnone⟩
            rw [he]
            exact ⟨e, rfl⟩

/-- The parents in the file. -/
def next (oids : List GitOid) (parents : GitOid → List GitOid) (oid : GitOid) : List GitOid :=
  if oid ∈ oids then parents oid else []

/-- Every push of a walk is the head or a parent. -/
def walkFuel (oids : List GitOid) (parents : GitOid → List GitOid) : ℕ :=
  2 + ∑ oid ∈ oids.toFinset, (next oids parents oid).length

theorem exists_graphWalk (h : graph.WellFormed oids parents) (hchecked : graph.Checked)
    (hhead : headOid ∈ oids) (hfuel : walkFuel oids parents ≤ fuel) :
    ∃ st, Worklist.process (CommitReader.graphStep graph.parentOidsFor) fuel [headOid] (∅, [])
        = some (.ok st)
      ∧ ∀ oid ∈ st.2, oid ∈ oids := by
  let I (queue : List GitOid) (st : Finset GitOid × List GitOid) : Prop :=
    (∀ oid ∈ queue, oid ∈ oids) ∧ ∀ oid ∈ st.2, oid ∈ oids
  have hnext : ∀ oid queue st, I (oid :: queue) st → ∃ pushed st',
      CommitReader.graphStep graph.parentOidsFor st oid = .ok (pushed, st')
        ∧ I (queue ++ pushed) st'
        ∧ BreadthFirst.potential (next oids parents) oids.toFinset st'.1 (queue ++ pushed)
          < BreadthFirst.potential (next oids parents) oids.toFinset st.1 (oid :: queue) := by
    rintro oid queue st ⟨hqueue, horder⟩
    obtain ⟨hoid, hrest⟩ := List.forall_mem_cons.mp hqueue
    by_cases hvisited : oid ∈ st.1
    · refine ⟨[], st, if_pos hvisited, ⟨by simpa using hrest, horder⟩, ?_⟩
      rw [List.append_nil]
      exact BreadthFirst.potential_skip
    · have hparents : next oids parents oid = parents oid := if_pos hoid
      refine ⟨parents oid, (insert oid st.1, st.2 ++ [oid]), ?_, ⟨?_, ?_⟩, ?_⟩
      · rw [CommitReader.graphStep, if_neg hvisited, h.parentOidsFor_of_mem hchecked hoid]
      · intro x hx
        rcases List.mem_append.mp hx with hx | hx
        · exact hrest x hx
        · exact h.mem_of_mem_parents hoid hx
      · intro x hx
        rcases List.mem_append.mp hx with hx | hx
        · exact horder x hx
        · rwa [List.mem_singleton.mp hx]
      · rw [← hparents]
        refine BreadthFirst.potential_visit (fun x hx => if_neg ?_) hvisited
        rwa [List.mem_toFinset] at hx
  have hstart : I [headOid] (∅, []) := ⟨by simpa using hhead, by simp⟩
  have hlt : BreadthFirst.potential (next oids parents) oids.toFinset ∅ [headOid] < fuel := by
    rw [BreadthFirst.potential, Finset.sdiff_empty, List.length_singleton]
    rw [walkFuel] at hfuel
    omega
  obtain ⟨st, hrun⟩ := Worklist.exists_process_ok I
    (fun queue st => BreadthFirst.potential (next oids parents) oids.toFinset st.1 queue)
    hnext hstart hlt
  have hend := Worklist.process_ok I (fun oid queue st pushed st' hI hstep => by
    obtain ⟨pushed', st'', hstep', hI', -⟩ := hnext oid queue st hI
    rw [hstep] at hstep'
    cases hstep'
    exact hI') hstart hrun
  exact ⟨st, hrun, hend.2⟩

theorem legacy_of_graphWalk (h : Describes dir graph oids parents) (hchecked : graph.Checked)
    {st : Finset GitOid × List GitOid}
    (hwalk : Worklist.process (CommitReader.graphStep graph.parentOidsFor) fuel [headOid] (∅, [])
      = some (.ok st)) :
    (∃ st', Worklist.process dir.reader.legacyStep fuel [headOid] (∅, []) = some (.ok st')
        ∧ SideBySide dir st st')
      ∨ (∃ e, Worklist.process dir.reader.legacyStep fuel [headOid] (∅, []) = some (.error e))
        ∧ Unread dir st := by
  have hbad : ∀ oid st pushed next, Unread dir st →
      CommitReader.graphStep graph.parentOidsFor st oid = .ok (pushed, next) →
      Unread dir next := by
    rintro oid st pushed next ⟨x, hx, hnone⟩ hstep
    rcases graphStep_eq_ok h.wellFormed hchecked hstep with ⟨-, -, rfl⟩ | ⟨-, -, -, rfl⟩
    · exact ⟨x, hx, hnone⟩
    · exact ⟨x, List.mem_append_left _ hx, hnone⟩
  have hstart : SideBySide dir (∅, []) (∅, []) := ⟨rfl, .nil⟩
  refine Worklist.process_pair ?_ hbad hstart hwalk
  exact fun oid st st' pushed next hside hstep => legacyStep_of_graphStep h hchecked hside hstep

/-- **The fast path agrees with the object walk.** From a head in the file both come to the same
commits in the same order, or both to none; and they come to commits where all texts of the file's
commits can be read. From any other head the fast path fails, and the fallback is the object
walk. -/
theorem commitGraph_agrees_with_legacy {data : Bytes} (hfile : dir.commitGraphFile = .ok data)
    (hindex : CommitGraphIndex.fromMmap data = .ok graph)
    (h : Describes dir graph oids parents) (headOid : GitOid) :
    (headOid ∈ oids → ∀ fuel, walkFuel oids parents ≤ fuel → ∃ fast slow,
      collectCommitsCommitGraph dir fuel headOid = some fast
        ∧ collectCommitsLegacy dir fuel headOid = some slow
        ∧ fast.toOption = slow.toOption
        ∧ ((∀ oid ∈ oids, ∃ commit, dir.IsCommit oid commit) → ∃ commits, slow = .ok commits))
      ∧ (headOid ∉ oids → ∀ fuel,
        (0 < fuel → ∃ text, collectCommitsCommitGraph dir fuel headOid
          = some (.error (.error text)))
        ∧ collectCommitsWithFallback dir fuel headOid = collectCommitsLegacy dir fuel headOid) := by
  have hopen : dir.reader.openGraph = .ok graph.parentOidsFor := by
    rw [ObjectDir.reader, openIndex, hfile]
    exact congrArg (Except.map CommitGraphIndex.parentOidsFor) hindex
  have hchecked := CommitGraphIndex.checked_fromMmap hindex
  constructor
  · intro hhead fuel hfuel
    obtain ⟨st, hwalk, hvisited⟩ := exists_graphWalk h.wellFormed hchecked hhead hfuel
    have hfast : collectCommitsCommitGraph dir fuel headOid
        = some (dir.reader.readCommits st.2.reverse) := by
      rw [collectCommitsCommitGraph, CommitReader.collectCommitsCommitGraph, hopen]
      dsimp only
      rw [hwalk]
    rcases legacy_of_graphWalk h hchecked hwalk with
      ⟨out, hlegacy, -, hcommits⟩ | ⟨⟨e, hlegacy⟩, bad, hbad, hnone⟩
    · refine ⟨_, .ok out.2.reverse, hfast, ?_, ?_, fun _ => ⟨_, rfl⟩⟩
      · rw [collectCommitsLegacy, CommitReader.collectCommitsLegacy, hlegacy]
      · rw [readCommits_of_forall₂ (List.rel_reverse hcommits)]
    · have hcommits : ∀ oid ∈ st.2.reverse, ∃ data, dir.readObject oid = .ok ⟨.commit, data⟩ :=
        fun oid hoid => h.commits oid (hvisited oid (List.mem_reverse.mp hoid))
      obtain ⟨e', he'⟩ :=
        exists_readCommits_error hcommits ⟨bad, List.mem_reverse.mpr hbad, hnone⟩
      refine ⟨_, .error e, hfast, ?_, by rw [he']; rfl, fun hread => ?_⟩
      · rw [collectCommitsLegacy, CommitReader.collectCommitsLegacy, hlegacy]
      · obtain ⟨commit, hcommit⟩ := hread bad (hvisited bad hbad)
        exact absurd hcommit (hnone commit)
  · intro hhead fuel
    have hfirst : CommitReader.graphStep graph.parentOidsFor (∅, []) headOid
        = .error (.error "HEAD or parent OID is not present in commit-graph") := by
      rw [CommitReader.graphStep, if_neg (Finset.notMem_empty _),
        h.wellFormed.parentOidsFor_of_notMem hchecked hhead]
    cases fuel with
    | zero =>
        refine ⟨fun hpos => absurd hpos (lt_irrefl 0), ?_⟩
        rw [collectCommitsWithFallback, CommitReader.collectCommitsWithFallback,
          CommitReader.collectCommitsCommitGraph, hopen]
        rfl
    | succ fuel =>
        have hfast : collectCommitsCommitGraph dir (fuel + 1) headOid
            = some (.error (.error "HEAD or parent OID is not present in commit-graph")) := by
          rw [collectCommitsCommitGraph, CommitReader.collectCommitsCommitGraph, hopen]
          dsimp only
          rw [Worklist.process, hfirst]
        refine ⟨fun _ => ⟨_, hfast⟩, ?_⟩
        rw [collectCommitsCommitGraph] at hfast
        rw [collectCommitsWithFallback, CommitReader.collectCommitsWithFallback, hfast]
        exact if_pos rfl

/-! ## Three roots and their merge -/

section Octopus

open CommitGraphIndex

def oidWith (n : UInt8) : GitOid := ⟨List.replicate 19 0 ++ [n], rfl⟩

/-- The ids, of which the last one is the merge. -/
def octopus : List GitOid := [oidWith 1, oidWith 2, oidWith 3, oidWith 4]

def octopusParents (oid : GitOid) : List GitOid :=
  if oid = oidWith 4 then [oidWith 1, oidWith 2, oidWith 3] else []

/-- The header and the table of contents. -/
def octopusToc : Bytes :=
  signature ++ [1, 1, 4, 0]
    ++ ascii "OIDF" ++ [0, 0, 0, 0, 0, 0, 0, 68]
    ++ ascii "OIDL" ++ [0, 0, 0, 0, 0, 0, 4, 68]
    ++ ascii "CDAT" ++ [0, 0, 0, 0, 0, 0, 4, 148]
    ++ ascii "EDGE" ++ [0, 0, 0, 0, 0, 0, 5, 36]
    ++ [0, 0, 0, 0, 0, 0, 0, 0, 0, 0, 5, 44]

/-- The ids, the entries and the further parents of the merge. -/
def octopusTables : Bytes :=
  octopus.flatMap GitOid.bytes
    ++ (List.replicate 3 (List.replicate 20 0 ++ [0x70, 0, 0, 0, 0x70, 0, 0, 0]
      ++ List.replicate 8 0)).flatten
    ++ List.replicate 20 0 ++ [0, 0, 0, 0, 0x80, 0, 0, 0] ++ List.replicate 8 0
    ++ [0, 0, 0, 1, 0x80, 0, 0, 2]

def octopusFile : Bytes :=
  octopusToc ++ (List.replicate 256 4).flatMap (fun n => [0, 0, 0, UInt8.ofNat n]) ++ octopusTables

def octopusDir : ObjectDir where
  readObject oid :=
    if oid ∈ octopus then .ok ⟨.commit, utf8 (parentsText (octopusParents oid))⟩
    else .error (.error "object not found")
  commitGraphFile := .ok octopusFile

theorem length_octopusFan : ((List.replicate 256 4).flatMap fun n =>
    [0, 0, 0, UInt8.ofNat n]).length = 1024 := by
  rw [List.length_flatMap, List.map_replicate, List.sum_replicate]
  rfl

theorem length_octopusTables : octopusTables.length = 232 := by
  rw [octopusTables, octopus]
  rfl

/-- What the file is read as. -/
def octopusIndex : CommitGraphIndex :=
  ⟨octopusFile, 20, List.replicate 256 4, 1092, 1172, some (1316, 1324), 4⟩

def octopusChunks : FMap Bytes (ℕ × ℕ) :=
  FMap.insertAll ∅ [(ascii "OIDF", (68, 1092)), (ascii "OIDL", (1092, 1172)),
    (ascii "CDAT", (1172, 1316)), (ascii "EDGE", (1316, 1324))]

theorem fromMmap_octopusToc {words : List ℕ} {enc : ℕ → Bytes} {tables : Bytes}
    (hlength : words.length = 256) (hcount : words.getD 255 0 = 4)
    (henc : ∀ n ∈ words, (enc n).length = 4 ∧ fromBeBytes (enc n) = n)
    (htables : 232 ≤ tables.length) :
    fromMmap (octopusToc ++ words.flatMap enc ++ tables)
      = .ok ⟨octopusToc ++ words.flatMap enc ++ tables, 20, words, 1092, 1172,
        some (1316, 1324), 4⟩ := by
  have hfanLength : (words.flatMap enc).length = 1024 := by
    have hsum : words.map (fun n => (enc n).length) = List.replicate 256 4 := by
      rw [← hlength, ← List.map_const']
      exact List.map_congr_left fun n hn => (henc n hn).1
    rw [List.length_flatMap, hsum, List.sum_replicate]
    rfl
  set data := octopusToc ++ words.flatMap enc ++ tables with hdata
  have htoc : octopusToc.length = 68 := rfl
  have hlen : 1324 ≤ data.length := by
    rw [hdata, List.length_append, List.length_append, hfanLength, htoc]
    omega
  have hheader : readHeader data = .ok 4 := by
    have hhead : data = octopusToc ++ (words.flatMap enc ++ tables) := List.append_assoc _ _ _
    rw [readHeader, if_neg (by rw [headerLen]; omega), hhead]
    rfl
  have hentries : readEntries data 5 headerLen = .ok [(ascii "OIDF", 68),
      (ascii "OIDL", 1092), (ascii "CDAT", 1172), (ascii "EDGE", 1316), ([0, 0, 0, 0], 1324)] := by
    rw [hdata, List.append_assoc, readEntries_append (by decide)]
    rfl
  have hfan : readFan data fanLen 68 = .ok words := by
    have h := @readFan_append octopusToc tables words enc henc
    rw [hlength] at h
    exact h
  rw [fromMmap, hheader]
  dsimp only [bind, Except.bind]
  rw [if_neg (by rw [headerLen]; omega), hentries]
  dsimp only
  rw [if_neg (by decide)]
  have hchunks : readChunks data.length (headerLen + (4 + 1) * 12) [(ascii "OIDF", 68),
      (ascii "OIDL", 1092), (ascii "CDAT", 1172), (ascii "EDGE", 1316), ([0, 0, 0, 0], 1324)] ∅
      = .ok octopusChunks := by
    rw [readChunks, if_neg (by decide), if_neg (by decide), if_neg (by omega),
      if_neg (by decide), readChunks, if_neg (by decide), if_neg (by decide), if_neg (by omega),
      if_neg (by decide), readChunks, if_neg (by decide), if_neg (by decide), if_neg (by omega),
      if_neg (by decide), readChunks, if_neg (by decide), if_neg (by decide), if_neg (by omega),
      if_neg (by decide)]
    rfl
  rw [hchunks]
  dsimp only
  have hoidf : chunk octopusChunks "OIDF" = .ok (68, 1092) := rfl
  have hoidl : chunk octopusChunks "OIDL" = .ok (1092, 1172) := rfl
  have hcdat : chunk octopusChunks "CDAT" = .ok (1172, 1316) := rfl
  rw [ofChunks, hoidf, hoidl, hcdat]
  dsimp only [bind, Except.bind]
  rw [if_neg (by decide), hfan]
  dsimp only
  rw [hcount]
  rfl

theorem fromMmap_octopusFile : fromMmap octopusFile = .ok octopusIndex := by
  have henc : ∀ n ∈ List.replicate 256 4, [0, 0, 0, UInt8.ofNat n].length = 4
      ∧ fromBeBytes [0, 0, 0, UInt8.ofNat n] = n := by
    intro n hn
    rw [List.eq_of_mem_replicate hn]
    decide
  have hcount : (List.replicate 256 4).getD 255 0 = 4 := by
    rw [List.getD_eq_getElem?_getD, List.getElem?_replicate, if_pos (by omega)]
    rfl
  exact fromMmap_octopusToc List.length_replicate hcount henc length_octopusTables.ge

theorem slice_octopusTables {start stop : ℕ} {bytes : Bytes}
    (h : slice octopusTables start stop = some bytes) :
    slice octopusFile (1092 + start) (1092 + stop) = some bytes := by
  have hfront : (octopusToc ++ (List.replicate 256 4).flatMap fun n =>
      [0, 0, 0, UInt8.ofNat n]).length = 1092 := by
    rw [List.length_append, length_octopusFan]
    rfl
  rw [octopusFile, ← hfront, slice_append_right]
  exact h

theorem readU32BeAt_octopusTables {offset n : ℕ} {what : String}
    (h : readU32BeAt octopusTables offset what = .ok n) :
    readU32BeAt octopusFile (1092 + offset) what = .ok n := by
  unfold readU32BeAt readUintBeAt at h ⊢
  cases hslice : slice octopusTables offset (offset + 4) with
  | none => simp [hslice] at h
  | some bytes =>
      rw [hslice] at h
      rw [Nat.add_assoc, slice_octopusTables hslice]
      exact h

theorem octopus_getElem? {i : ℕ} {oid : GitOid} (h : octopus[i]? = some oid) :
    i = 0 ∧ oid = oidWith 1 ∨ i = 1 ∧ oid = oidWith 2 ∨ i = 2 ∧ oid = oidWith 3
      ∨ i = 3 ∧ oid = oidWith 4 := by
  match i, h with
  | 0, h => exact .inl ⟨rfl, (Option.some_inj.mp h).symm⟩
  | 1, h => exact .inr (.inl ⟨rfl, (Option.some_inj.mp h).symm⟩)
  | 2, h => exact .inr (.inr (.inl ⟨rfl, (Option.some_inj.mp h).symm⟩))
  | 3, h => exact .inr (.inr (.inr ⟨rfl, (Option.some_inj.mp h).symm⟩))

set_option maxRecDepth 4000 in
theorem wellFormed_octopus : octopusIndex.WellFormed octopus octopusParents where
  small := by decide
  sorted := by decide
  fan byte hbyte := by
    rw [octopusIndex, List.getD_eq_getElem?_getD, List.getElem?_replicate, if_pos hbyte]
    have hall : ∀ oid ∈ octopus, firstByte oid = 0 := by decide
    rw [Option.getD_some, eq_comm, show 4 = octopus.length from rfl, List.countP_eq_length]
    intro oid hoid
    simp [hall oid hoid]
  table i oid hget := by
    rcases octopus_getElem? hget with ⟨rfl, rfl⟩ | ⟨rfl, rfl⟩ | ⟨rfl, rfl⟩ | ⟨rfl, rfl⟩
    · exact @slice_octopusTables 0 20 _ rfl
    · exact @slice_octopusTables 20 40 _ rfl
    · exact @slice_octopusTables 40 60 _ rfl
    · exact @slice_octopusTables 60 80 _ rfl
  entries i oid hget := by
    rcases octopus_getElem? hget with ⟨rfl, rfl⟩ | ⟨rfl, rfl⟩ | ⟨rfl, rfl⟩ | ⟨rfl, rfl⟩
    · exact ⟨noParent, noParent, [], @readU32BeAt_octopusTables 100 _ _ rfl,
        @readU32BeAt_octopusTables 104 _ _ rfl, .none, rfl⟩
    · exact ⟨noParent, noParent, [], @readU32BeAt_octopusTables 136 _ _ rfl,
        @readU32BeAt_octopusTables 140 _ _ rfl, .none, rfl⟩
    · exact ⟨noParent, noParent, [], @readU32BeAt_octopusTables 172 _ _ rfl,
        @readU32BeAt_octopusTables 176 _ _ rfl, .none, rfl⟩
    · have hplain : Plain 0 := ⟨by decide, by decide⟩
      exact ⟨0, 0x80000000, [0, 1, 2], @readU32BeAt_octopusTables 208 _ _ rfl,
        @readU32BeAt_octopusTables 212 _ _ rfl, .more hplain (by decide) rfl
        ⟨by decide, @readU32BeAt_octopusTables 224 _ _ rfl, by decide, by decide,
          0x80000002, @readU32BeAt_octopusTables 228 _ _ rfl, by decide, by decide⟩, rfl⟩

theorem describes_octopus : Describes octopusDir octopusIndex octopus octopusParents where
  wellFormed := wellFormed_octopus
  commits oid hoid := ⟨_, if_pos hoid⟩
  parents oid hoid commit hcommit := by
    obtain ⟨data, hdata, hparse⟩ := hcommit
    obtain rfl : data = utf8 (parentsText (octopusParents oid)) := by
      have hread : octopusDir.readObject oid
          = .ok ⟨.commit, utf8 (parentsText (octopusParents oid))⟩ := if_pos hoid
      rw [hread] at hdata
      cases hdata
      rfl
    rw [parseCommit_parentsText] at hparse
    cases hparse
    rfl

/-- From the merge both walks come to the same commits, and a head that the file lacks takes the
fallback. -/
theorem octopus_walks_agree :
    (∃ fast slow, collectCommitsCommitGraph octopusDir 9 (oidWith 4) = some fast
      ∧ collectCommitsLegacy octopusDir 9 (oidWith 4) = some slow
      ∧ fast.toOption = slow.toOption
      ∧ ((∀ oid ∈ octopus, ∃ commit, octopusDir.IsCommit oid commit) →
        ∃ commits, slow = .ok commits))
    ∧ collectCommitsWithFallback octopusDir 9 (oidWith 5)
      = collectCommitsLegacy octopusDir 9 (oidWith 5) :=
  ⟨(commitGraph_agrees_with_legacy rfl fromMmap_octopusFile describes_octopus (oidWith 4)).1
      (by decide) 9 (by decide),
    ((commitGraph_agrees_with_legacy rfl fromMmap_octopusFile describes_octopus (oidWith 5)).2
      (by decide) 9).2⟩

end Octopus

end ArcVcs.GitIngress
