import ArcVcs.ConflictSides
import ArcVcs.Revisions
import ArcVcs.TreeWrite

/-!
# Stashing edits

`stash` records the edits of the Rust files and the removed items as a change on the heads of the
view, and writes the base state over the working tree. `stash_pop` merges that change into the view
and writes the merged state.
-/

namespace ArcVcs

/-- A repository with its working tree. -/
structure Workspace where
  repo : Repo
  tree : WorkTree

abbrev WorkspaceM (α : Type) := Program Workspace TreeError α

def inRepo {α : Type} (p : RepoM α) : WorkspaceM α :=
  p.focus Workspace.repo (fun repo s => { s with repo }) TreeError.repo

def inTree {α : Type} (p : TreeM α) : WorkspaceM α :=
  p.focus Workspace.tree (fun tree s => { s with tree }) id

/-! ## The stashes -/

/-- `str::parse::<u32>`. -/
def parseU32 (s : List Char) : Option ℕ := (parseUsize s).filter fun n => n < 2 ^ 32

def stashNumber (name : String) : Option ℕ :=
  (name.toList.dropPrefix? ".stash_".toList).bind parseU32

def stashName (n : ℕ) : String := ".stash_" ++ toString n

/-- The index of the next stash, which has to be a `u32`. -/
def nextStash (views : FMap String (Finset Blake3Hash)) : Option ℕ :=
  let last := (views.keys.sorted.filterMap stashNumber).foldl max 0
  if last + 1 < 2 ^ 32 then some (last + 1) else none

def stashList (order : SetOrder String) (views : FMap String (Finset Blake3Hash)) : List String :=
  ((order.elems views.keys).filter
    fun name => ".stash_".toList.isPrefixOf name.toList).insertionSort
    fun a b => (stashNumber a).getD 0 ≤ (stashNumber b).getD 0

/-! ## The edits that are stashed -/

section Delta

variable [Crypto] (plugin : LanguagePlugin) (order : SetOrder String) (keyOrder : SetOrder NodePath)
  (s : MaterializedState) (w : WorkTree)

/-- The entries below the files that are not there. -/
def stashedKeys : List NodePath :=
  ((order.elems (extractFilepathsFromState s)).filter fun filepath => !w.exists_ filepath).flatMap
    fun filepath => (keyOrder.elems s.keys).filter fun key =>
      decide (2 < key.length ∧ key.take 2 = ["file", filepath])

/-- The atoms of a stash, with the contents that they store. -/
def stashDelta : Except RepoError (List Atom × List Bytes) := do
  let (rustAtoms, contents) ← rustDelta plugin s w w.collectRsFiles
  .ok (rustAtoms ++ (stashedKeys order keyOrder s w).map (fun key => (removalPair s key).1),
    contents ++ (stashedKeys order keyOrder s w).map fun key => (removalPair s key).2)

def stashChange (heads : Finset Blake3Hash) (atoms : List Atom) (signer : Author × SigningKey) :
    Change := .new heads atoms "stash" signer.1 signer.2

/-- `check_working_dir_clean`. -/
def isCleanTree : Bool :=
  (w.collectRsFiles.all fun filepath =>
    match w.text filepath with
    | none => false
    | some newSrc =>
        if plugin.unparse s filepath = newSrc then true
        else if plugin.unparse s filepath = "" then false
        else
          match plugin.diff (plugin.unparse s filepath) newSrc with
          | .ok ([], _) => true
          | _ => false)
    && decide (∀ filepath ∈ extractFilepathsFromState s, w.exists_ filepath = true)

end Delta

/-! ## The commands -/

section Commands

variable [Crypto] (parser : ItemParser) (priorities : List (String × ℕ)) (agentIgnore : Gitignore)
  (fuel : ℕ) (order : SetOrder String) (keyOrder : SetOrder NodePath)

def WorkTree.workDir (w : WorkTree) : WorkDir where
  agentIgnore := agentIgnore
  delta s := computeWorkingDirectoryDelta (parser.plugin (unparse priorities)) s w
  isClean s := isCleanTree (parser.plugin (unparse priorities)) s w
  readFile path := w.files.lookup path
  canWrite _ := true

def viewState (wd : WorkDir) : RepoM MaterializedState := do
  let viewName ← Repo.currentViewName
  Repo.hydrate fuel viewName
  Repo.materialize wd viewName

def writeTree (state : MaterializedState) : WorkspaceM Unit := do
  let s ← .get
  inTree (writeStateToWorkingDir priorities s.repo.blobs state order)

/-- The part of `stash` that records the change. -/
def recordStash (base : MaterializedState) (w : WorkTree) : RepoM (Except TreeError String) := do
  let (atoms, contents) ← .ofExcept
    (stashDelta (parser.plugin (unparse priorities)) order keyOrder base w)
  Repo.writeBlobs contents
  if atoms = [] then pure (.error .nothingToStash)
  else
    let s ← .get
    match nextStash s.views with
    | none => pure (.error .stashOverflow)
    | some n => do
        let heads ← Repo.loadView s.head
        let signer ← Repo.signingIdentity
        Repo.writeChange (stashChange heads atoms signer)
        Repo.graphAddChange (stashChange heads atoms signer)
        Repo.saveView (stashName n) {(stashChange heads atoms signer).id}
        pure (.ok (stashName n))

def stash : WorkspaceM String := do
  let s ← .get
  let base ← inRepo (viewState fuel (s.tree.workDir parser priorities agentIgnore))
  let name ← inRepo (recordStash parser priorities order keyOrder base s.tree)
  let name ← .ofExcept name
  writeTree priorities order base
  pure name

def mergeIntoTree (target : Finset Blake3Hash) : WorkspaceM Unit := do
  let s ← .get
  let wd := s.tree.workDir parser priorities agentIgnore
  let commit ← inRepo (Repo.mergePlan fuel wd target)
  let merged ← inRepo (Repo.commitMerge commit)
  let state ← inRepo (Repo.materializeHeads wd merged)
  writeTree priorities order state

def stashPop : WorkspaceM Unit := do
  let s ← .get
  match (stashList order s.repo.views).getLast? with
  | none => .throw .noStash
  | some name => do
      let target ← inRepo (Repo.loadView name)
      inRepo (Repo.hydrateHeads fuel target)
      mergeIntoTree parser priorities agentIgnore fuel order target
      inRepo (.modify fun r => { r with views := r.views.erase name })

end Commands

/-! ## Which stash is the newest -/

section Names

variable {views : FMap String (Finset Blake3Hash)} {n : ℕ}

theorem stashNumber_stashName (h : n < 2 ^ 32) : stashNumber (stashName n) = some n := by
  have hlist : (stashName n).toList = ".stash_".toList ++ Nat.toDigits 10 n := by
    simp [stashName]
  have hdrop : (stashName n).toList.dropPrefix? ".stash_".toList = some (Nat.toDigits 10 n) :=
    List.dropPrefix?_eq_some_iff.mpr ⟨_, hlist, beq_self_eq_true _⟩
  have hparse : parseUsize (Nat.toDigits 10 n) = some n := parseUsize_toDigits (by omega)
  rw [stashNumber, hdrop, Option.bind_some, parseU32, hparse]
  exact if_pos (decide_eq_true h)

theorem le_foldl_max {l : List ℕ} {a b : ℕ} (h : b ∈ l ∨ b ≤ a) : b ≤ l.foldl max a := by
  induction l generalizing a with
  | nil => exact h.resolve_left List.not_mem_nil
  | cons c l ih =>
      refine ih ?_
      rcases h with hmem | hle
      · rcases List.mem_cons.mp hmem with rfl | hmem
        · exact Or.inr (le_max_right _ _)
        · exact Or.inl hmem
      · exact Or.inr (hle.trans (le_max_left _ _))

theorem stashNumber_lt_of_nextStash (h : nextStash views = some n) :
    n < 2 ^ 32 ∧ 0 < n ∧ ∀ name ∈ views.keys, ∀ m, stashNumber name = some m → m < n := by
  unfold nextStash at h
  dsimp only at h
  split_ifs at h with hlt
  obtain rfl := Option.some_inj.mp h
  refine ⟨hlt, Nat.succ_pos _, fun name hname m hm => Nat.lt_succ_of_le (le_foldl_max (Or.inl ?_))⟩
  exact List.mem_filterMap.mpr ⟨name, Finset.mem_sorted.mpr hname, hm⟩

theorem stashName_notMem (h : nextStash views = some n) : stashName n ∉ views.keys := by
  obtain ⟨hlt, -, hall⟩ := stashNumber_lt_of_nextStash h
  exact fun hmem => lt_irrefl n (hall _ hmem n (stashNumber_stashName hlt))

theorem mem_stashList {order : SetOrder String} {name : String} :
    name ∈ stashList order views
      ↔ name ∈ views.keys ∧ ".stash_".toList.isPrefixOf name.toList = true := by
  rw [stashList, List.mem_insertionSort, List.mem_filter, order.mem_elems]

theorem pairwise_stashList (order : SetOrder String) : (stashList order views).Pairwise fun a b =>
    (stashNumber a).getD 0 ≤ (stashNumber b).getD 0 := by
  have htotal : Std.Total fun a b : String => (stashNumber a).getD 0 ≤ (stashNumber b).getD 0 :=
    ⟨fun a b => le_total _ _⟩
  have htrans : IsTrans _ fun a b : String => (stashNumber a).getD 0 ≤ (stashNumber b).getD 0 :=
    ⟨fun _ _ _ => le_trans⟩
  exact List.pairwise_insertionSort _ _

theorem getLast?_stashList (order : SetOrder String) (h : nextStash views = some n)
    (heads : Finset Blake3Hash) :
    (stashList order (views.insert (stashName n) heads)).getLast? = some (stashName n) := by
  obtain ⟨hlt, hpos, hall⟩ := stashNumber_lt_of_nextStash h
  have hself : stashName n ∈ stashList order (views.insert (stashName n) heads) := by
    refine mem_stashList.mpr ⟨Finmap.mem_keys.mpr (Finmap.mem_insert.mpr (Or.inl rfl)), ?_⟩
    rw [List.isPrefixOf_iff_prefix]
    simp [stashName]
  have hsorted := @pairwise_stashList (views.insert (stashName n) heads) order
  obtain ⟨before, last, hlast⟩ : ∃ before last,
      stashList order (views.insert (stashName n) heads) = before ++ [last] := by
    rcases List.eq_nil_or_concat (stashList order (views.insert (stashName n) heads)) with
      hnil | ⟨before, last, hconcat⟩
    · rw [hnil] at hself
      cases hself
    · exact ⟨before, last, by simpa using hconcat⟩
  have hmem := (mem_stashList.mp (hlast ▸ List.mem_append_right before List.mem_cons_self)).1
  rw [hlast] at hself hsorted
  rw [hlast, List.getLast?_concat]
  refine congrArg some ?_
  by_contra hne
  have hbefore : stashName n ∈ before :=
    (List.mem_append.mp hself).resolve_right fun heq => hne (List.mem_singleton.mp heq).symm
  have hle := (List.pairwise_append.mp hsorted).2.2 _ hbefore last List.mem_cons_self
  have hkeys : last ∈ views.keys := Finmap.mem_keys.mpr
    ((Finmap.mem_insert.mp (Finmap.mem_keys.mp hmem)).resolve_left hne)
  rw [stashNumber_stashName hlt] at hle
  cases hnumber : stashNumber last with
  | none =>
      rw [hnumber] at hle
      exact absurd hle (Nat.not_le_of_lt hpos)
  | some m =>
      rw [hnumber] at hle
      exact absurd hle (Nat.not_le_of_lt (hall last hkeys m hnumber))

end Names

/-! ## The removals of a stash -/

section Keys

variable {order : SetOrder String} {keyOrder : SetOrder NodePath} {s : MaterializedState}
  {w : WorkTree} {key : NodePath}

theorem mem_stashedKeys_iff :
    key ∈ stashedKeys order keyOrder s w ↔ s.lookup key ≠ none
      ∧ ∃ filepath, ∃ path ≠ [], key = "file" :: filepath :: path
        ∧ w.exists_ filepath = false := by
  simp only [stashedKeys, List.mem_flatMap, List.mem_filter, SetOrder.mem_elems, Bool.not_eq_true',
    decide_eq_true_eq]
  constructor
  · rintro ⟨filepath, ⟨-, hgone⟩, hkey, hlen, htake⟩
    obtain ⟨path, rfl⟩ := exists_of_take_two htake
    refine ⟨fun hnone => FMap.notMem_keys_iff.mpr hnone hkey, filepath, path, ?_, rfl, hgone⟩
    rintro rfl
    simp at hlen
  · rintro ⟨hlook, filepath, path, hpath, rfl, hgone⟩
    have hlen := List.length_pos_iff.mpr hpath
    refine ⟨filepath, ⟨mem_extractFilepathsFromState_iff.mpr ⟨path, hlook⟩, hgone⟩, ?_, ?_, rfl⟩
    · by_contra hkey
      exact hlook (FMap.notMem_keys_iff.mp hkey)
    · simp only [List.length_cons]
      omega

theorem nodup_stashedKeys : (stashedKeys order keyOrder s w).Nodup := by
  refine List.nodup_flatMap.mpr ⟨fun filepath _ => (keyOrder.nodup _).filter _, ?_⟩
  refine ((order.nodup _).filter _).imp fun {a b} hne key ha hb => hne ?_
  obtain ⟨-, htake⟩ := of_decide_eq_true (List.mem_filter.mp ha).2
  obtain ⟨-, htake'⟩ := of_decide_eq_true (List.mem_filter.mp hb).2
  simpa using htake.symm.trans htake'

theorem opsAtKey_stashedKeys [Crypto] (store : BlobStore) (key : NodePath) :
    opsAtKey store key ((stashedKeys order keyOrder s w).map fun key => (removalPair s key).1)
      = if key ∈ stashedKeys order keyOrder s w then [.remove] else [] := by
  have hentries : ((stashedKeys order keyOrder s w).map
        fun key => (removalPair s key).1).filterMap (Atom.entryOp store)
      = (stashedKeys order keyOrder s w).map fun key => (key, .remove) := by
    rw [List.filterMap_map]
    exact congrFun List.filterMap_eq_map _
  rw [opsAtKey, hentries]
  split_ifs with hmem
  · refine EntryOp.opsAt_eq_singleton ?_ (List.mem_map.mpr ⟨key, hmem, rfl⟩)
    rw [List.map_map]
    exact (List.map_id _).symm ▸ nodup_stashedKeys
  · refine EntryOp.opsAt_eq_nil fun op hop => hmem ?_
    obtain ⟨key', hkey', heq⟩ := List.mem_map.mp hop
    rwa [← (Prod.mk.inj heq).1]

end Keys

/-! ## What the commands do -/

section Runs

open Repo

variable [Crypto] {parser : ItemParser} {priorities : List (String × ℕ)} {agentIgnore : Gitignore}
  {fuel : ℕ} {order : SetOrder String} {keyOrder : SetOrder NodePath} {s s₁ t t' : Workspace}
  {base : MaterializedState} {name : String}

theorem viewState_eq_ok {wd : WorkDir} {r r' : Repo}
    (h : viewState fuel wd r = some (.ok base, r')) :
    ∃ heads g, r.views.lookup r.head = some heads
      ∧ hydrateGraph fuel r.store r.epochs r.graph heads = some (.ok g)
      ∧ g.materializeHeads (r.applyEnv wd.agentIgnore) heads = .ok base
      ∧ r' = { r with graph := g } := by
  obtain ⟨_, _, hname, hrest⟩ := Program.bind_eq_ok_iff.mp h
  cases hname
  obtain ⟨_, r₁, hhydrate, hrest⟩ := Program.bind_eq_ok_iff.mp hrest
  obtain ⟨heads, g, hview, hg, rfl⟩ := hydrate_eq_ok hhydrate
  obtain ⟨heads', _, hload, hrest⟩ := Program.bind_eq_ok_iff.mp hrest
  obtain ⟨hview', rfl⟩ := loadView_eq_ok_iff.mp hload
  obtain rfl := Option.some_inj.mp (hview.symm.trans hview')
  obtain ⟨hstate, rfl⟩ := materializeHeads_eq_ok_iff.mp hrest
  exact ⟨heads, g, hview, hg, hstate, rfl⟩

omit [Crypto] in
theorem writeTree_eq_ok_iff {state : MaterializedState} :
    writeTree priorities order state t = some (.ok (), t')
      ↔ writeStateToWorkingDir priorities t.repo.blobs state order t.tree = some (.ok (), t'.tree)
        ∧ t'.repo = t.repo := by
  have hrun : writeTree priorities order state t = some (.ok (), t')
      ↔ inTree (writeStateToWorkingDir priorities t.repo.blobs state order) t
        = some (.ok (), t') := Iff.rfl
  rw [hrun, inTree, Program.focus_eq_ok_iff]
  constructor
  · rintro ⟨tree, htree, rfl⟩
    exact ⟨htree, rfl⟩
  · rintro ⟨htree, hrepo⟩
    exact ⟨_, htree, by rw [← hrepo]⟩

def stashedRepo (r : Repo) (g : ChangeGraph) (c : Change) (contents : List Bytes) (n : ℕ) : Repo :=
  { r with
    store := r.store.putOnce c.id c
    blobs := putContents r.blobs contents
    graph := g.addChange c
    views := r.views.insert (stashName n) {c.id} }

theorem stash_eq_ok (h : stash parser priorities agentIgnore fuel order keyOrder s
      = some (.ok name, s₁)) :
    ∃ heads g base atoms contents n signer,
      s.repo.views.lookup s.repo.head = some heads
      ∧ hydrateGraph fuel s.repo.store s.repo.epochs s.repo.graph heads = some (.ok g)
      ∧ g.materializeHeads (s.repo.applyEnv agentIgnore) heads = .ok base
      ∧ stashDelta (parser.plugin (unparse priorities)) order keyOrder base s.tree
        = .ok (atoms, contents)
      ∧ nextStash s.repo.views = some n ∧ s.repo.identity = some signer
      ∧ s₁.repo = stashedRepo s.repo g (stashChange heads atoms signer) contents n
      ∧ writeStateToWorkingDir priorities s₁.repo.blobs base order s.tree
        = some (.ok (), s₁.tree) := by
  obtain ⟨_, _, hget, hrest⟩ := Program.bind_eq_ok_iff.mp h
  cases hget
  obtain ⟨base, s₂, hfocus, hrest⟩ := Program.bind_eq_ok_iff.mp hrest
  obtain ⟨r, hbase, rfl⟩ := Program.focus_eq_ok_iff.mp hfocus
  obtain ⟨heads, g, hview, hg, hstate, rfl⟩ := viewState_eq_ok hbase
  obtain ⟨out, s₃, hfocus, hrest⟩ := Program.bind_eq_ok_iff.mp hrest
  obtain ⟨r₁, hrecord, rfl⟩ := Program.focus_eq_ok_iff.mp hfocus
  obtain ⟨name', s₄, hname, hrest⟩ := Program.bind_eq_ok_iff.mp hrest
  obtain ⟨rfl, rfl⟩ : out = .ok name' ∧ _ = s₄ := by simpa [Program.ofExcept] using hname
  obtain ⟨_, s₅, hwrite, hrest⟩ := Program.bind_eq_ok_iff.mp hrest
  obtain ⟨-, rfl⟩ := Prod.mk.inj (Option.some_inj.mp hrest)
  obtain ⟨hwrite, hrepo⟩ := writeTree_eq_ok_iff.mp hwrite
  obtain ⟨⟨atoms, contents⟩, r₂, hout, hrecord⟩ := Program.bind_eq_ok_iff.mp hrecord
  obtain ⟨hdelta, rfl⟩ : _ = Except.ok (atoms, contents) ∧ _ = r₂ := by
    simpa [Program.ofExcept] using hout
  obtain ⟨_, r₃, hblobs, hrecord⟩ := Program.bind_eq_ok_iff.mp hrecord
  rw [writeBlobs_run] at hblobs
  obtain ⟨-, rfl⟩ := Prod.mk.inj (Option.some_inj.mp hblobs)
  split_ifs at hrecord with hnil
  · cases hrecord
  · obtain ⟨_, _, hget, hrecord⟩ := Program.bind_eq_ok_iff.mp hrecord
    cases hget
    cases hnext : nextStash s.repo.views with
    | none =>
        simp only [hnext] at hrecord
        cases hrecord
    | some n =>
        simp only [hnext] at hrecord
        obtain ⟨heads', _, hload, hrecord⟩ := Program.bind_eq_ok_iff.mp hrecord
        obtain ⟨hview', rfl⟩ := loadView_eq_ok_iff.mp hload
        obtain rfl := Option.some_inj.mp (hview.symm.trans hview')
        obtain ⟨signer, _, hsigner, hrecord⟩ := Program.bind_eq_ok_iff.mp hrecord
        obtain ⟨hidentity, rfl⟩ := signingIdentity_eq_ok hsigner
        obtain ⟨-, rfl⟩ := Prod.mk.inj (Option.some_inj.mp hrecord)
        refine ⟨heads, g, base, atoms, contents, n, signer, hview, hg, hstate, hdelta, rfl,
          hidentity, hrepo, ?_⟩
        rw [hrepo]
        exact hwrite

omit [Crypto] in
theorem commitMerge_union_run (view : String) (current target : Finset Blake3Hash) (r : Repo) :
    commitMerge (.union view current target) r = some (.ok (current ∪ target),
      { r with
        views := r.views.insert view (current ∪ target)
        redoStack := []
        oplog := ⟨"merge", .generic, view, current, current ∪ target, ∅⟩ :: r.oplog }) := rfl

/-- A pop of the newest stash merges it, and without conflicts the state of the union is
written. -/
theorem stashPop_eq_ok (h : stashPop parser priorities agentIgnore fuel order t
      = some (.ok (), t')) {target : Finset Blake3Hash}
    (hlast : (stashList order t.repo.views).getLast? = some name)
    (htarget : t.repo.views.lookup name = some target)
    (hloaded : Loaded t.repo.store t.repo.graph) :
    ∃ current currentState g plan, Loaded t.repo.store g
      ∧ t.repo.views.lookup t.repo.head = some current
      ∧ g.materializeHeads (t.repo.applyEnv agentIgnore) current = .ok currentState
      ∧ g.mergePlan (t.repo.applyEnv agentIgnore) current target currentState = .ok plan
      ∧ (plan = .union →
        ∃ state, g.materializeHeads (t.repo.applyEnv agentIgnore) (current ∪ target) = .ok state
          ∧ writeStateToWorkingDir priorities t.repo.blobs state order t.tree
            = some (.ok (), t'.tree)) := by
  obtain ⟨_, _, hget, hrest⟩ := Program.bind_eq_ok_iff.mp h
  cases hget
  simp only [hlast] at hrest
  obtain ⟨_, s₂, hfocus, hrest⟩ := Program.bind_eq_ok_iff.mp hrest
  obtain ⟨r, hload, rfl⟩ := Program.focus_eq_ok_iff.mp hfocus
  obtain ⟨hview, rfl⟩ := loadView_eq_ok_iff.mp hload
  obtain rfl := Option.some_inj.mp (htarget.symm.trans hview)
  obtain ⟨_, s₃, hfocus, hrest⟩ := Program.bind_eq_ok_iff.mp hrest
  obtain ⟨r, hhydrate, rfl⟩ := Program.focus_eq_ok_iff.mp hfocus
  obtain ⟨g₀, hg₀, rfl⟩ := hydrateHeads_eq_ok_iff.mp hhydrate
  obtain ⟨_, s₄, hmerge, hdrop⟩ := Program.bind_eq_ok_iff.mp hrest
  obtain ⟨r, hdropped, rfl⟩ := Program.focus_eq_ok_iff.mp hdrop
  obtain ⟨_, _, hget, hrest⟩ := Program.bind_eq_ok_iff.mp hmerge
  cases hget
  obtain ⟨commit, s₅, hfocus, hrest⟩ := Program.bind_eq_ok_iff.mp hrest
  obtain ⟨r₁, hplan, rfl⟩ := Program.focus_eq_ok_iff.mp hfocus
  obtain ⟨current, currentState, g₁, g, plan, hcurrent, hg₁, hg, hstate, -, hmergePlan, hcases⟩ :=
    mergePlan_eq_ok hplan
  refine ⟨current, currentState, g, plan,
    ((hloaded.hydrateGraph hg₀).hydrateGraph hg₁).hydrateGraph hg, hcurrent, hstate, hmergePlan,
    ?_⟩
  rintro rfl
  obtain ⟨-, rfl, rfl⟩ := hcases.resolve_right (by rintro ⟨_, _, _, _, hne, -⟩; cases hne)
  obtain ⟨merged, s₆, hfocus, hrest⟩ := Program.bind_eq_ok_iff.mp hrest
  obtain ⟨r₂, hcommit, rfl⟩ := Program.focus_eq_ok_iff.mp hfocus
  rw [commitMerge_union_run] at hcommit
  obtain ⟨hmerged, rfl⟩ := Prod.mk.inj (Option.some_inj.mp hcommit)
  obtain rfl := Except.ok.inj hmerged
  obtain ⟨state, s₇, hfocus, hwrite⟩ := Program.bind_eq_ok_iff.mp hrest
  obtain ⟨r₃, hmaterialize, rfl⟩ := Program.focus_eq_ok_iff.mp hfocus
  obtain ⟨hout, rfl⟩ := materializeHeads_eq_ok_iff.mp hmaterialize
  exact ⟨state, hout, (writeTree_eq_ok_iff.mp hwrite).1⟩

end Runs

end ArcVcs
