import ArcVcs.Lib.Trace
import ArcVcs.NewChange
import ArcVcs.WorkTree

/-!
# Snapshots of a working tree

A snapshot applies the atoms of `compute_working_directory_delta` to the materialized state. Whether
a recorded path is still there is asked with `exists`, so a file that has become a directory keeps
its entry, and so does a directory that has become a file.
-/

namespace ArcVcs

open GitImport (isRust)

/-- A snapshot: the tree, the change with the atoms, and the blobs stored before. -/
structure TreeSnap where
  tree : WorkTree
  change : Change
  blobs : FMap Blake3Hash Bytes

/-- Unparsing the items and parsing the text gives them back. -/
def Returns (parser : ItemParser) (priorities : List (String × ℕ)) (map : FMap NodePath Bytes) :
    Prop :=
  ∀ state filepath, (∀ path ≠ [], itemAt state filepath path = map.lookup path) →
    parser.items (unparse priorities state filepath) = .ok map

/-- The Rust sources of the tree have items that are given back. -/
def ReturnsSources (parser : ItemParser) (priorities : List (String × ℕ)) (w : WorkTree) : Prop :=
  ∀ filepath ∈ w.collectRsFiles, ∃ src map, w.text filepath = some src
    ∧ parser.items src = .ok map ∧ Returns parser priorities map

/-- No file has become a directory and no directory a file. -/
structure KeepsKinds (s : MaterializedState) (w : WorkTree) : Prop where
  files : ∀ filepath, isRust filepath = false → s.lookup ["file", filepath] ≠ none →
    filepath ∉ w.dirs
  dirs : ∀ dir, s.lookup ["dir", dir] ≠ none → dir ∉ w.files.keys

section Snapshot

variable [Crypto] (parser : ItemParser) (priorities : List (String × ℕ))

/-- The state records the tree: the tokens of its files, directories that it has, and nothing that
the next snapshot would add. -/
structure RecordsTree (s : MaterializedState) (w : WorkTree) : Prop where
  files : ∀ filepath, isRust filepath = false → s.lookup ["file", filepath]
    = (w.files.lookup filepath).map fun bytes => blobToken (Crypto.hashBytes bytes)
  dirs : ∀ dir, s.lookup ["dir", dir] ≠ none → dir ∈ w.dirs
  again : computeWorkingDirectoryDelta (parser.plugin (unparse priorities)) s w = .ok ([], [])

variable (agentIgnore : Gitignore)

/-- The store after the contents have been written. -/
def TreeSnap.env (e : TreeSnap) (contents : List Bytes) : ApplyEnv :=
  ⟨Repo.readBlob (Repo.putContents e.blobs contents), agentIgnore, none⟩

/-- Nothing is ignored, the author may write what the tree has, and the atoms of different files
come in any order. -/
inductive SnapsTree : Option MaterializedState → TreeSnap → Option MaterializedState → Prop
  | snap {s : MaterializedState} {e : TreeSnap} {rustAtoms others : List Atom}
      {contents : List Bytes} (hplain : e.tree.IgnoresNothing)
      (hrust : rustDelta (parser.plugin (unparse priorities)) s e.tree e.tree.collectRsFiles
        = .ok (rustAtoms, contents))
      (hothers : others.Perm (treeAtoms s e.tree))
      (hatoms : e.change.atoms = rustAtoms ++ others)
      (hguard : e.change.violates
        (e.env agentIgnore (contents ++ treeContents s e.tree)) = false)
      (hblobs : Repo.Storable e.blobs (contents ++ treeContents s e.tree)) :
      SnapsTree (some s) e (applySequence
        (e.env agentIgnore (contents ++ treeContents s e.tree)) [e.change] s).toOption

end Snapshot

/-! ## Applying the atoms -/

section Apply

variable {env : ApplyEnv} {c : Change} {s : MaterializedState}

theorem exists_apply_of_safe (hsparse : env.sparse = none) (hguard : c.violates env = false)
    (hops : ∀ atom ∈ c.atoms, (atom.entryOp env.store).isSome)
    (hsafe : ∀ key, EntryOp.Safe (s.lookup key).isSome (opsAtKey env.store key c.atoms) = true) :
    ∃ out, applySequence env [c] s = .ok out
      ∧ ∀ key, out.lookup key
        = EntryOp.final (s.lookup key) (opsAtKey env.store key c.atoms) := by
  obtain ⟨out, hout⟩ := (exists_applySequence_singleton_iff hsparse hguard hops).mpr hsafe
  have hentries := (applySequence_singleton_eq_ok_iff hsparse hguard hops).mp hout
  exact ⟨out, hout, fun key => (hentries key).2⟩

end Apply

/-! ## What a snapshot leaves -/

section Step

variable [Crypto] {parser : ItemParser} {priorities : List (String × ℕ)} {agentIgnore : Gitignore}
  {s s' : MaterializedState} {w : WorkTree}

variable (parser priorities) in
/-- What every snapshot leaves: the items of every file are given back, and the other files have
tokens. -/
structure Recorded (s : MaterializedState) : Prop where
  items : ∀ filepath, ∃ map, Returns parser priorities map
    ∧ ∀ path ≠ [], itemAt s filepath path = map.lookup path
  tokens : ∀ filepath, isRust filepath = false → ∀ content,
    s.lookup ["file", filepath] = some content → ∃ hash, content = blobToken hash

variable (parser) in
/-- The entries after a snapshot of the tree. -/
structure After (s : MaterializedState) (w : WorkTree) (s' : MaterializedState) : Prop where
  file : ∀ filepath, isRust filepath = false → s'.lookup ["file", filepath]
    = match w.files.lookup filepath with
      | some bytes => some (blobToken (Crypto.hashBytes bytes))
      | none => if w.exists_ filepath then s.lookup ["file", filepath] else none
  gone : ∀ filepath path, w.exists_ filepath = false →
    s'.lookup ("file" :: filepath :: path) = none
  dir : ∀ dir, s'.lookup ["dir", dir]
    = if s.lookup ["dir", dir] = none then if dir ∈ w.collectEmptyDirs then some [] else none
      else if w.exists_ dir then s.lookup ["dir", dir] else none
  rust : ∀ filepath ∈ w.collectRsFiles, ∀ path ≠ [],
    itemAt s' filepath path = parser.itemsOf ((w.text filepath).getD "") path
  other : ∀ filepath ∉ w.collectRsFiles, ∀ path ≠ [],
    itemAt s' filepath path = if w.exists_ filepath then itemAt s filepath path else none

omit [Crypto] in
theorem mem_collectRsFiles_iff {filepath : String} :
    filepath ∈ w.collectRsFiles ↔ filepath ∈ w.files.keys ∧ w.collects filepath = true := by
  rw [WorkTree.collectRsFiles, List.mem_filter, Finset.mem_sorted]

def IsRustItem (w : WorkTree) (key : NodePath) : Prop :=
  ∃ filepath ∈ w.collectRsFiles, ∃ path ≠ [], key = "file" :: filepath :: path

section Rust

variable {store : BlobStore} {rustAtoms : List Atom} {contents : List Bytes}
  (hrust : rustDelta (parser.plugin (unparse priorities)) s w w.collectRsFiles
    = .ok (rustAtoms, contents)) (hread : Readable store contents)

include hrust hread

theorem opsAtKey_rust (key : NodePath) :
    opsAtKey store key rustAtoms = patchOps parser (unparse priorities s)
      (fun filepath => (w.text filepath).getD "") w.collectRsFiles key := by
  rw [rustDelta_eq (text_ne_none_of_rustDelta hrust)] at hrust
  have hnodup : w.collectRsFiles.Nodup := (Finset.nodup_sorted _).filter _
  exact opsAtKey_patchFiles hnodup hrust hread key

theorem opsAtKey_rust_item (hs : Recorded parser priorities s) {filepath : String}
    (hfile : filepath ∈ w.collectRsFiles) {path : NodePath} (hpath : path ≠ []) :
    opsAtKey store ("file" :: filepath :: path) rustAtoms
      = EntryOp.diff (itemAt s filepath path)
        (parser.itemsOf ((w.text filepath).getD "") path) := by
  obtain ⟨map, hreturns, hitems⟩ := hs.items filepath
  have hold : parser.itemsOf (unparse priorities s filepath) path = itemAt s filepath path := by
    rw [ItemParser.itemsOf, hreturns s filepath hitems, hitems path hpath]
    rfl
  rw [opsAtKey_rust hrust hread, patchOps_of_mem hfile, hold]

theorem opsAtKey_rust_eq_nil {key : NodePath} (hkey : ¬ IsRustItem w key) :
    opsAtKey store key rustAtoms = [] := by
  rw [opsAtKey_rust hrust hread]
  rcases key with _ | ⟨kind, _ | ⟨filepath, path⟩⟩
  · rfl
  · rfl
  by_cases hmem : kind = "file" ∧ filepath ∈ w.collectRsFiles
  · obtain ⟨rfl, hfile⟩ := hmem
    obtain rfl : path = [] := by
      by_contra hpath
      exact hkey ⟨filepath, hfile, path, hpath, rfl⟩
    rw [patchOps_of_mem hfile, ItemParser.itemsOf_nil, ItemParser.itemsOf_nil]
    rfl
  · rw [patchOps, if_neg hmem]

end Rust

omit [Crypto] in
theorem exists_of_mem_collectRsFiles {filepath : String} (h : filepath ∈ w.collectRsFiles) :
    w.exists_ filepath = true :=
  decide_eq_true (Or.inl (mem_collectRsFiles_iff.mp h).1)

/-- A snapshot applies. The items of the Rust files become those of their sources, and the other
entries are left to the atoms of the tree. -/
theorem SnapsTree.exists_lookup {e : TreeSnap} {o : Option MaterializedState}
    (h : SnapsTree parser priorities agentIgnore (some s) e o)
    (hs : Recorded parser priorities s) :
    ∃ s' store others, o = some s' ∧ others.Perm (treeAtoms s e.tree)
      ∧ (∀ filepath ∈ e.tree.collectRsFiles, ∀ path ≠ [], itemAt s' filepath path
        = parser.itemsOf ((e.tree.text filepath).getD "") path)
      ∧ ∀ key, ¬ IsRustItem e.tree key → s'.lookup key
        = EntryOp.final (s.lookup key) (opsAtKey store key others) := by
  obtain ⟨-, hrust, hothers, hatoms, hguard, hblobs⟩ := h
  rename_i rustAtoms others contents
  set env := e.env agentIgnore (contents ++ treeContents s e.tree)
  have hread : Readable env.store contents := fun content hc =>
    hblobs.readBlob (List.mem_append_left _ hc)
  have hops : ∀ key, opsAtKey env.store key e.change.atoms
      = opsAtKey env.store key rustAtoms ++ opsAtKey env.store key others := fun key => by
    rw [hatoms, opsAtKey_append]
  have hsome : ∀ atom ∈ e.change.atoms, (atom.entryOp env.store).isSome := by
    rw [hatoms]
    refine List.forall_mem_append.mpr ⟨fun atom hatom => ?_, isSome_entryOp_tree hothers⟩
    rw [rustDelta_eq (text_ne_none_of_rustDelta hrust)] at hrust
    exact (writesOrRemoves_of_patchFiles hrust hread atom hatom).isSome_entryOp
  -- A key is left to the atoms of its Rust file or to the others.
  have hitem : ∀ filepath ∈ e.tree.collectRsFiles, ∀ path ≠ [],
      opsAtKey env.store ("file" :: filepath :: path) e.change.atoms
        = EntryOp.diff (itemAt s filepath path)
          (parser.itemsOf ((e.tree.text filepath).getD "") path) := by
    intro filepath hfile path hpath
    rw [hops, opsAtKey_rust_item hrust hread hs hfile hpath, opsAtKey_tree_rust hothers
      (WorkTree.isRust_of_collects (mem_collectRsFiles_iff.mp hfile).2)
      (exists_of_mem_collectRsFiles hfile) path, List.append_nil]
  have hother : ∀ key, ¬ IsRustItem e.tree key →
      opsAtKey env.store key e.change.atoms = opsAtKey env.store key others := fun key hkey => by
    rw [hops, opsAtKey_rust_eq_nil hrust hread hkey, List.nil_append]
  obtain ⟨s', hout, hlook⟩ := exists_apply_of_safe rfl hguard hsome fun key => by
    by_cases hkey : IsRustItem e.tree key
    · obtain ⟨filepath, hfile, path, hpath, rfl⟩ := hkey
      rw [hitem filepath hfile path hpath, EntryOp.safe_diff_iff]
      exact fun _ h => h
    · rw [hother key hkey]
      exact safe_tree hothers key
  refine ⟨s', env.store, others, by rw [hout]; rfl, hothers, fun filepath hfile path hpath => ?_,
    fun key hkey => by rw [hlook, hother key hkey]⟩
  rw [itemAt, hlook, hitem filepath hfile path hpath, EntryOp.final_diff]
  split_ifs with hsame
  · exact hsame
  · rfl

theorem SnapsTree.exists_after {e : TreeSnap} {o : Option MaterializedState}
    (h : SnapsTree parser priorities agentIgnore (some s) e o)
    (hs : Recorded parser priorities s) : ∃ s', o = some s' ∧ After parser s e.tree s' := by
  have hplain : e.tree.IgnoresNothing := by
    cases h
    assumption
  obtain ⟨s', store, others, rfl, hothers, hrust, hother⟩ := h.exists_lookup hs
  have hitem : ∀ filepath path, (filepath ∈ e.tree.collectRsFiles → path = []) →
      path ≠ [] ∨ isRust filepath = true → s'.lookup ("file" :: filepath :: path)
        = if e.tree.exists_ filepath then s.lookup ("file" :: filepath :: path) else none := by
    intro filepath path hfile hpath
    rw [hother, final_tree_item hothers hpath]
    rintro ⟨file, hmem, rest, hrest, heq⟩
    obtain ⟨rfl, rfl⟩ : filepath = file ∧ path = rest := by simpa using heq
    exact hrest (hfile hmem)
  have hfile : ∀ filepath, isRust filepath = false → s'.lookup ["file", filepath]
      = match e.tree.files.lookup filepath with
        | some bytes => some (blobToken (Crypto.hashBytes bytes))
        | none => if e.tree.exists_ filepath then s.lookup ["file", filepath] else none := by
    intro filepath hnot
    have hkey : ¬ IsRustItem e.tree ["file", filepath] := by
      rintro ⟨file, -, path, hpath, heq⟩
      exact hpath (List.cons.inj (List.cons.inj heq).2).2.symm
    rw [hother _ hkey, final_tree_file hothers (hplain.mem_nonRsFiles hnot)]
    cases e.tree.files.lookup filepath with
    | none => rfl
    | some bytes =>
        dsimp only
        split_ifs with hsame
        · obtain ⟨content, hcontent, htoken⟩ := Option.bind_eq_some_iff.mp hsame
          obtain ⟨hash, rfl⟩ := hs.tokens filepath hnot content hcontent
          rw [tokenHash_blobToken, Option.some_inj] at htoken
          rw [hcontent, htoken]
        · rfl
  refine ⟨s', rfl, hfile, fun filepath path hgone => ?_, fun dir => ?_, hrust,
    fun filepath hmem path hpath => hitem filepath path (fun h => absurd h hmem) (Or.inl hpath)⟩
  · by_cases hpath : path ≠ [] ∨ isRust filepath = true
    · rw [hitem filepath path (fun hmem => ?_) hpath, hgone]
      · rfl
      · rw [exists_of_mem_collectRsFiles hmem] at hgone
        cases hgone
    · obtain ⟨rfl, hnot⟩ : path = [] ∧ isRust filepath = false := by simpa using hpath
      have hnone : filepath ∉ e.tree.files.keys := fun hmem =>
        of_decide_eq_false hgone (Or.inl hmem)
      rw [hfile filepath hnot, FMap.notMem_keys_iff.mp hnone, hgone]
      rfl
  · have hkey : ¬ IsRustItem e.tree ["dir", dir] := by
      rintro ⟨file, -, path, -, heq⟩
      simp at heq
    rw [hother _ hkey, final_tree_dir hothers]

omit [Crypto] in
theorem unparse_eq_empty {state : MaterializedState} {filepath : String}
    (h : ∀ path ≠ [], itemAt state filepath path = none) :
    unparse priorities state filepath = "" := by
  have hitems : fileItems state filepath = [] := by
    refine List.eq_nil_iff_forall_not_mem.mpr fun item hitem => ?_
    obtain ⟨path, hpath, -, hlook⟩ := mem_fileItems_iff.mp hitem
    rw [h path hpath] at hlook
    cases hlook
  rw [unparse, hitems]
  rfl

omit [Crypto] in
theorem returns_empty (hempty : parser.items "" = .ok ∅) : Returns parser priorities ∅ := by
  intro state filepath h
  rw [unparse_eq_empty h, hempty]

omit [Crypto] in
theorem Recorded.empty (hempty : parser.items "" = .ok ∅) : Recorded parser priorities ∅ :=
  ⟨fun _ => ⟨∅, returns_empty hempty, fun _ _ => rfl⟩, fun _ _ _ h => by cases h⟩

theorem After.recorded (h : After parser s w s') (hs : Recorded parser priorities s)
    (hempty : parser.items "" = .ok ∅) (hsources : ReturnsSources parser priorities w) :
    Recorded parser priorities s' := by
  constructor
  · intro filepath
    by_cases hmem : filepath ∈ w.collectRsFiles
    · obtain ⟨src, map, hsrc, hmap, hreturns⟩ := hsources filepath hmem
      refine ⟨map, hreturns, fun path hpath => ?_⟩
      rw [h.rust filepath hmem path hpath, hsrc, ItemParser.itemsOf]
      change ((parser.items src).toOption.bind _) = _
      rw [hmap]
      rfl
    by_cases hexists : w.exists_ filepath = true
    · obtain ⟨map, hreturns, hitems⟩ := hs.items filepath
      refine ⟨map, hreturns, fun path hpath => ?_⟩
      rw [h.other filepath hmem path hpath, if_pos hexists, hitems path hpath]
    · refine ⟨∅, returns_empty hempty, fun path hpath => ?_⟩
      rw [h.other filepath hmem path hpath, if_neg hexists]
      rfl
  · intro filepath hnot content hcontent
    rw [h.file filepath hnot] at hcontent
    cases hbytes : w.files.lookup filepath with
    | some bytes =>
        rw [hbytes] at hcontent
        exact ⟨_, (Option.some_inj.mp hcontent).symm⟩
    | none =>
        rw [hbytes] at hcontent
        dsimp only at hcontent
        split_ifs at hcontent
        exact hs.tokens filepath hnot content hcontent

theorem rustDelta_eq_nil (hsources : ReturnsSources parser priorities w)
    (hitems : ∀ filepath ∈ w.collectRsFiles, ∀ path ≠ [],
      itemAt s' filepath path = parser.itemsOf ((w.text filepath).getD "") path) :
    rustDelta (parser.plugin (unparse priorities)) s' w w.collectRsFiles = .ok ([], []) := by
  have hfiles : ∀ files ⊆ w.collectRsFiles,
      rustDelta (parser.plugin (unparse priorities)) s' w files = .ok ([], []) := by
    intro files
    induction files with
    | nil => exact fun _ => rfl
    | cons filepath files ih =>
        intro hsub
        obtain ⟨hmem, hrest⟩ := List.cons_subset.mp hsub
        obtain ⟨src, map, hsrc, hmap, hreturns⟩ := hsources filepath hmem
        have hold : parser.items (unparse priorities s' filepath) = .ok map := by
          refine hreturns s' filepath fun path hpath => ?_
          rw [hitems filepath hmem path hpath, hsrc, Option.getD_some, ItemParser.itemsOf, hmap]
          rfl
        have hdiff : (parser.plugin (unparse priorities)).diff
            (unparse priorities s' filepath) src = .ok ([], []) := by
          change (do
            let oldMap ← parser.items (unparse priorities s' filepath)
            let newMap ← parser.items src
            Except.ok (diffAtoms oldMap newMap, diffContents oldMap newMap)) = _
          rw [hold, hmap]
          change Except.ok (diffAtoms map map, diffContents map map) = _
          rw [diffAtoms_self, diffContents, diffPairs_self]
          rfl
        rw [rustDelta, hsrc, ih hrest]
        dsimp only
        split_ifs
        · rfl
        · change ((parser.plugin (unparse priorities)).diff
            (unparse priorities s' filepath) src >>= _) = _
          rw [hdiff]
          rfl
  exact hfiles _ (List.Subset.refl _)

omit [Crypto] in
theorem exists_of_mem_collectEmptyDirs {dir : String} (h : dir ∈ w.collectEmptyDirs) :
    w.exists_ dir = true :=
  decide_eq_true (Or.inr (Finset.mem_sorted.mp (List.mem_filter.mp h).1))

theorem After.deleted_eq_nil (h : After parser s w s') {w' : WorkTree}
    (hkept : ∀ path, w.exists_ path = true → w'.exists_ path = true) :
    deletedFileKeys s' w' = [] ∧ deletedDirKeys s' w' = [] := by
  have hgone {path : String} (hpath : w'.exists_ path = false) : w.exists_ path = false := by
    rw [← Bool.not_eq_true] at hpath ⊢
    exact mt (hkept path) hpath
  constructor
  · refine List.eq_nil_iff_forall_not_mem.mpr fun key hkey => ?_
    obtain ⟨hlook, filepath, path, rfl, hpath⟩ := mem_deletedFileKeys_iff.mp hkey
    exact hlook (h.gone filepath path (hgone hpath))
  · refine List.eq_nil_iff_forall_not_mem.mpr fun key hkey => ?_
    obtain ⟨dir, rfl, hlook, hpath⟩ := mem_deletedDirKeys_iff.mp hkey
    have hnot := hgone hpath
    rw [h.dir dir, hnot, if_neg Bool.false_ne_true] at hlook
    split_ifs at hlook with hnone hempty
    · rw [exists_of_mem_collectEmptyDirs hempty] at hnot
      cases hnot
    · exact hlook rfl
    · exact hlook rfl

theorem After.treeContents_eq_nil (h : After parser s w s') {w' : WorkTree}
    (hkept : ∀ path, w.exists_ path = true → w'.exists_ path = true) : treeContents s' w' = [] := by
  rw [treeContents, (h.deleted_eq_nil hkept).1, (h.deleted_eq_nil hkept).2]
  rfl

theorem After.newDirs_eq_nil (h : After parser s w s') : newDirs s' w = [] := by
  refine List.eq_nil_iff_forall_not_mem.mpr fun dir hdir => ?_
  obtain ⟨hempty, hnone⟩ := mem_newDirs_iff.mp hdir
  rw [h.dir dir] at hnone
  split_ifs at hnone with hlook hexists
  · exact hlook hnone
  · exact hexists (exists_of_mem_collectEmptyDirs hempty)

theorem After.blobAtoms_eq_nil (h : After parser s w s') : blobAtoms s' w = [] := by
  refine List.filterMap_eq_nil_iff.mpr fun filepath hfile => ?_
  have hnot := isRust_of_mem_nonRsFiles hfile
  cases hbytes : w.files.lookup filepath with
  | none => rfl
  | some bytes =>
      have hlook := h.file filepath hnot
      rw [hbytes] at hlook
      rw [Option.bind_some, blobAtom, hlook, Option.bind_some, tokenHash_blobToken]
      exact if_pos rfl

theorem After.again (h : After parser s w s') (hsources : ReturnsSources parser priorities w) :
    computeWorkingDirectoryDelta (parser.plugin (unparse priorities)) s' w = .ok ([], []) := by
  obtain ⟨hfiles, hdirs⟩ := h.deleted_eq_nil fun _ hpath => hpath
  have htree : treeAtoms s' w = [] := by
    rw [treeAtoms, h.blobAtoms_eq_nil, hfiles, h.newDirs_eq_nil, hdirs]
    rfl
  rw [computeWorkingDirectoryDelta, rustDelta_eq_nil hsources h.rust, htree,
    h.treeContents_eq_nil fun _ hpath => hpath]
  rfl

/-- **One snapshot.** The tree is recorded iff it keeps the kinds. -/
theorem After.recordsTree_iff (h : After parser s w s')
    (hsources : ReturnsSources parser priorities w) :
    RecordsTree parser priorities s' w ↔ KeepsKinds s w := by
  constructor
  · intro hrec
    constructor
    · intro filepath hnot hlook hdir
      have hfile := h.file filepath hnot
      have hnone : w.files.lookup filepath = none :=
        FMap.notMem_keys_iff.mp fun hmem => w.disjoint filepath hmem hdir
      have hexists : w.exists_ filepath = true := decide_eq_true (Or.inr hdir)
      rw [hrec.files filepath hnot, hnone, hexists] at hfile
      exact hlook hfile.symm
    · intro dir hlook hmem
      have hexists : w.exists_ dir = true := decide_eq_true (Or.inl hmem)
      refine w.disjoint dir hmem (hrec.dirs dir ?_)
      rw [h.dir dir, if_neg hlook, if_pos hexists]
      exact hlook
  · intro hkinds
    refine ⟨fun filepath hnot => ?_, fun dir hlook => ?_, h.again hsources⟩
    · rw [h.file filepath hnot]
      cases hbytes : w.files.lookup filepath with
      | some bytes => rfl
      | none =>
          dsimp only
          split_ifs with hexists
          · have hdir : filepath ∈ w.dirs := (of_decide_eq_true hexists).resolve_left
              (FMap.notMem_keys_iff.mpr hbytes)
            by_contra hlook
            exact hkinds.files filepath hnot hlook hdir
          · rfl
    · rw [h.dir dir] at hlook
      split_ifs at hlook with hnone hempty hexists
      · exact Finset.mem_sorted.mp (List.mem_filter.mp hempty).1
      · exact absurd rfl hlook
      · exact (of_decide_eq_true hexists).resolve_left (hkinds.dirs dir hlook)
      · exact absurd rfl hlook

end Step

/-! ## Runs of snapshots -/

section Runs

variable [Crypto] (parser : ItemParser) (priorities : List (String × ℕ)) (agentIgnore : Gitignore)

/-- The last snapshot, if there is one, has recorded its tree. -/
def RunRecords (events : List TreeSnap) (o : Option MaterializedState) : Prop :=
  ∃ s, o = some s ∧ Recorded parser priorities s
    ∧ ∀ e ∈ events.getLast?, RecordsTree parser priorities s e.tree

/-- **Snapshots record the tree.** In a run where no file becomes a directory, no directory a file,
and the items of every Rust source come back, each snapshot applies and records its tree. -/
theorem snapshots_record_tree (hempty : parser.items "" = .ok ∅) {events : List TreeSnap}
    {o : Option MaterializedState}
    (h : Trace (fun o e o' => SnapsTree parser priorities agentIgnore o e o' ∧ ∀ s, o = some s →
      KeepsKinds s e.tree ∧ ReturnsSources parser priorities e.tree) (some ∅) events o) :
    ∃ s, o = some s ∧ ∀ e ∈ events.getLast?, RecordsTree parser priorities s e.tree := by
  have hinv : RunRecords parser priorities events o := by
    have hstart : RunRecords parser priorities [] (some ∅) :=
      ⟨∅, rfl, Recorded.empty hempty, fun e he => by cases he⟩
    refine h.invariant hstart ?_
    rintro events o e o' ⟨s, rfl, hs, -⟩ ⟨hsnap, hkeeps⟩
    obtain ⟨hkinds, hsources⟩ := hkeeps s rfl
    obtain ⟨s', rfl, hafter⟩ := hsnap.exists_after hs
    refine ⟨s', rfl, hafter.recorded hs hempty hsources, fun last hlast => ?_⟩
    rw [List.getLast?_concat] at hlast
    obtain rfl := Option.some_inj.mp hlast
    exact (hafter.recordsTree_iff hsources).mpr hkinds
  obtain ⟨s, hs, -, hlast⟩ := hinv
  exact ⟨s, hs, hlast⟩

theorem exists_snapsTree {s : MaterializedState} {w : WorkTree} {rustAtoms : List Atom}
    {contents : List Bytes} (hplain : w.IgnoresNothing)
    (hrust : rustDelta (parser.plugin (unparse priorities)) s w w.collectRsFiles
      = .ok (rustAtoms, contents)) (hblobs : Repo.Storable ∅ (contents ++ treeContents s w)) :
    ∃ e o, e.tree = w ∧ SnapsTree parser priorities agentIgnore (some s) e o := by
  let e : TreeSnap :=
    ⟨w, .new ∅ (rustAtoms ++ treeAtoms s w) "snapshot working copy" (.human "" "" 0) 0, ∅⟩
  exact ⟨e, _, rfl, @SnapsTree.snap _ parser priorities agentIgnore s e rustAtoms
    (treeAtoms s w) contents hplain hrust (List.Perm.refl _) rfl rfl hblobs⟩

end Runs

/-! ### A source, notes and a new directory -/

/-- The rules of a tree without an `.arcignore`. -/
def noRules : TrackingRules := ⟨fun _ _ _ => false, false⟩

def notesTree : WorkTree where
  rules := noRules
  files := (Finmap.singleton "a.rs" (utf8 "fn f(){}")).insert "notes.md" [1]
  dirs := ∅
  disjoint := by decide
  closed := by decide

def emptyDirTree : WorkTree where
  rules := noRules
  files := (Finmap.singleton "a.rs" (utf8 "fn f(){}")).insert "notes.md" [2]
  dirs := {"d"}
  disjoint := by decide
  closed := by decide

theorem returns_oneFunction (priorities : List (String × ℕ)) {src : String} (hne : src ≠ "") :
    Returns oneFunction priorities
      (Finmap.singleton ["source_file", "function_item[f]"] (utf8 src)) := by
  intro state filepath hitems
  have hfile : fileItems state filepath
      = [("file" :: filepath :: ["source_file", "function_item[f]"], utf8 src)] := by
    rw [← List.perm_singleton, List.perm_ext_iff_of_nodup (nodup_fileItems state filepath)
      (List.nodup_singleton _)]
    rintro ⟨key, content⟩
    rw [mem_fileItems_iff, List.mem_singleton, Prod.mk.injEq]
    constructor
    · rintro ⟨path, hpath, rfl, hlook⟩
      rw [hitems path hpath, FMap.lookup_singleton] at hlook
      split_ifs at hlook with hkey
      exact ⟨by rw [hkey], (Option.some_inj.mp hlook).symm⟩
    · rintro ⟨rfl, rfl⟩
      exact ⟨_, by decide, rfl, hitems _ (by decide)⟩
  rw [unparse, hfile]
  change oneFunction.items (fromUtf8Lossy (utf8 src)) = _
  rw [fromUtf8Lossy_utf8]
  exact congrArg Except.ok (if_neg hne)

theorem returnsSources_of_source {w : WorkTree} (hfiles : w.collectRsFiles = ["a.rs"])
    (htext : w.text "a.rs" = some "fn f(){}") :
    ReturnsSources oneFunction rustPriorities w := by
  intro filepath hmem
  rw [hfiles, List.mem_singleton] at hmem
  subst hmem
  exact ⟨"fn f(){}", _, htext, rfl, returns_oneFunction _ (by decide)⟩

/-- The two snapshots record the trees, and the second the new directory. -/
theorem snapshots_record_notes : let := Crypto.sample
    ∃ (events : List TreeSnap) (s : MaterializedState),
      events.map TreeSnap.tree = [notesTree, emptyDirTree]
      ∧ RecordsTree oneFunction rustPriorities s emptyDirTree := by
  intro crypto
  have hempty : oneFunction.items "" = .ok ∅ := rfl
  have hfiles : notesTree.collectRsFiles = ["a.rs"] ∧ emptyDirTree.collectRsFiles = ["a.rs"] := by
    decide
  have htext (w : WorkTree) (h : w.files.lookup "a.rs" = some (utf8 "fn f(){}")) :
      w.text "a.rs" = some "fn f(){}" := by
    rw [WorkTree.text, h]
    exact readToString_utf8 _
  have htext₁ := htext notesTree rfl
  have hsources₁ := returnsSources_of_source hfiles.1 htext₁
  have hsources₂ := returnsSources_of_source hfiles.2 (htext emptyDirTree rfl)
  obtain ⟨rustAtoms, hfirst⟩ : ∃ rustAtoms,
      rustDelta (oneFunction.plugin (unparse rustPriorities)) ∅ notesTree
        notesTree.collectRsFiles = .ok (rustAtoms, [utf8 "fn f(){}"]) := by
    rw [hfiles.1, rustDelta, htext₁]
    change ∃ _, (if unparse rustPriorities ∅ "a.rs" = "fn f(){}" then _ else
      (oneFunction.plugin (unparse rustPriorities)).diff (unparse rustPriorities ∅ "a.rs")
        "fn f(){}" >>= _) = _
    rw [unparse_eq_empty fun _ _ => rfl, if_neg (by decide)]
    exact ⟨_, rfl⟩
  have hstorable : Repo.Storable ∅ ([utf8 "fn f(){}"] ++ treeContents ∅ notesTree) := by
    rw [show treeContents ∅ notesTree = [] from rfl, List.append_nil]
    refine ⟨(fun _ _ _ h => by cases h), fun content hc other hother _ => ?_⟩
    rw [List.mem_singleton.mp hc, List.mem_singleton.mp hother]
  obtain ⟨e₁, o₁, htree₁, hsnap₁⟩ := exists_snapsTree oneFunction rustPriorities (fun _ _ => false)
    (by decide) hfirst hstorable
  obtain ⟨s₁, rfl, hafter₁⟩ := hsnap₁.exists_after (Recorded.empty hempty)
  rw [htree₁] at hafter₁
  have hsecond : rustDelta (oneFunction.plugin (unparse rustPriorities)) s₁ emptyDirTree
      emptyDirTree.collectRsFiles = .ok ([], []) := by
    refine rustDelta_eq_nil hsources₂ fun filepath hmem path hpath => ?_
    rw [hfiles.2] at hmem
    rw [hafter₁.rust filepath (by rwa [hfiles.1]) path hpath, List.mem_singleton.mp hmem, htext₁,
      htext emptyDirTree rfl]
  have hkept : ∀ path, notesTree.exists_ path = true → emptyDirTree.exists_ path = true := by
    intro path hpath
    have hkeys : notesTree.files.keys = emptyDirTree.files.keys := by decide
    rcases of_decide_eq_true hpath with h | h
    · exact decide_eq_true (Or.inl (hkeys ▸ h))
    · cases Finset.notMem_empty _ h
  obtain ⟨e₂, o₂, htree₂, hsnap₂⟩ := exists_snapsTree oneFunction rustPriorities (fun _ _ => false)
    (by decide) hsecond
    (by rw [hafter₁.treeContents_eq_nil hkept]; exact .of_all (by decide) (by decide))
  have hkinds₁ : KeepsKinds ∅ notesTree := ⟨fun _ _ h => absurd rfl h, fun _ h => absurd rfl h⟩
  have hkinds₂ : KeepsKinds s₁ emptyDirTree := by
    constructor
    · rintro filepath hnot hlook hdir
      obtain rfl : filepath = "d" := Finset.mem_singleton.mp hdir
      exact hlook (hafter₁.file "d" (by decide))
    · intro dir hlook
      have hnot : dir ∉ notesTree.collectEmptyDirs := by
        rw [show notesTree.collectEmptyDirs = [] from rfl]
        exact List.not_mem_nil
      rw [hafter₁.dir dir, if_pos (Finmap.lookup_empty _), if_neg hnot] at hlook
      exact absurd rfl hlook
  obtain ⟨s, -, hlast⟩ := snapshots_record_tree oneFunction rustPriorities (fun _ _ => false) hempty
    (.snoc (.snoc (.nil _) ⟨hsnap₁, by
      rintro _ ⟨⟩
      rw [htree₁]
      exact ⟨hkinds₁, hsources₁⟩⟩) ⟨hsnap₂, by
      rintro _ ⟨⟩
      rw [htree₂]
      exact ⟨hkinds₂, hsources₂⟩⟩)
  refine ⟨[] ++ [e₁] ++ [e₂], s, by simp [htree₁, htree₂], ?_⟩
  rw [← htree₂]
  exact hlast e₂ rfl

/-! ### A file that becomes a directory -/

def fileTree : WorkTree where
  rules := noRules
  files := Finmap.singleton "a.md" [1]
  dirs := ∅
  disjoint := by decide
  closed := by decide

/-- A directory `a.md` with a file `b.md`. -/
def dirTree : WorkTree where
  rules := noRules
  files := Finmap.singleton "a.md/b.md" [1]
  dirs := {"a.md"}
  disjoint := by decide
  closed := by decide

/-- The entry of the file stays when the directory `a.md` has taken its place. -/
theorem snapshot_keeps_replaced_file : ¬ ∀ (_ : Crypto) (parser : ItemParser)
    (priorities : List (String × ℕ)) (agentIgnore : Gitignore) (events : List TreeSnap)
    (o : Option MaterializedState), parser.items "" = .ok ∅ →
    Trace (SnapsTree parser priorities agentIgnore) (some ∅) events o →
    ∃ s, o = some s ∧ ∀ e ∈ events.getLast?, RecordsTree parser priorities s e.tree := by
  intro h
  let := Crypto.sample
  have hempty : oneFunction.items "" = .ok ∅ := rfl
  have hnoRust : fileTree.collectRsFiles = [] ∧ dirTree.collectRsFiles = [] := by decide
  have hfirst : rustDelta (oneFunction.plugin (unparse rustPriorities)) ∅ fileTree
      fileTree.collectRsFiles = .ok ([], []) := by
    rw [hnoRust.1]
    rfl
  obtain ⟨e₁, o₁, htree₁, hsnap₁⟩ := exists_snapsTree oneFunction rustPriorities (fun _ _ => false)
    (by decide) hfirst (Repo.Storable.of_all (by decide) (by decide))
  obtain ⟨s₁, rfl, hafter₁⟩ := hsnap₁.exists_after (Recorded.empty hempty)
  rw [htree₁] at hafter₁
  have hsources : ReturnsSources oneFunction rustPriorities fileTree := by
    rw [ReturnsSources, hnoRust.1]
    exact fun filepath hfile => absurd hfile List.not_mem_nil
  have hs₁ := hafter₁.recorded (Recorded.empty hempty) hempty hsources
  have hkept : ∀ path, fileTree.exists_ path = true → dirTree.exists_ path = true := by
    intro path hpath
    obtain rfl : path = "a.md" := by simpa [WorkTree.exists_, fileTree] using hpath
    decide
  have hsecond : rustDelta (oneFunction.plugin (unparse rustPriorities)) s₁ dirTree
      dirTree.collectRsFiles = .ok ([], []) := by
    rw [hnoRust.2]
    rfl
  obtain ⟨e₂, o₂, htree₂, hsnap₂⟩ := exists_snapsTree oneFunction rustPriorities (fun _ _ => false)
    (by decide) hsecond
    (by rw [hafter₁.treeContents_eq_nil hkept]; exact .of_all (by decide) (by decide))
  obtain ⟨s₂, rfl, hafter₂⟩ := hsnap₂.exists_after hs₁
  obtain ⟨s, hs, hlast⟩ := h _ oneFunction rustPriorities (fun _ _ => false) _ _ hempty
    (.snoc (.snoc (.nil _) hsnap₁) hsnap₂)
  obtain rfl := Option.some_inj.mp hs
  have hrecords := hlast e₂ rfl
  rw [htree₂] at hrecords hafter₂
  have hkinds := (hafter₂.recordsTree_iff fun filepath hfile => by
    rw [hnoRust.2] at hfile
    cases hfile).mp hrecords
  have htoken : s₁.lookup ["file", "a.md"] ≠ none := by
    rw [hafter₁.file "a.md" (by decide)]
    exact Option.some_ne_none _
  exact hkinds.files "a.md" (by decide) htoken (by decide)

end ArcVcs
