import ArcVcs.NewChange

/-!
# What the difference of two states does

The atoms of `compute_state_delta` take every item that the parser reads in the text of the first
state to that of the second one and touch nothing else.
-/

namespace ArcVcs

variable [Crypto]

def IsItem (key : NodePath) : Prop := ∃ filepath path, path ≠ [] ∧ key = "file" :: filepath :: path

/-- The states agree on everything else: whole files, directories, mounts and conflicts. -/
def SameOthers (a b : MaterializedState) : Prop :=
  ∀ key, ¬ IsItem key → a.lookup key = b.lookup key

def stateDelta (plugin : LanguagePlugin) (stateAfter stateBefore : MaterializedState) :
    Except RepoError (List Atom × List Bytes) := do
  let changed ← patchFiles plugin (plugin.unparse stateAfter) (plugin.unparse stateBefore)
    (extractFilepathsFromState stateAfter).sorted
  let restored ← patchFiles plugin (fun _ => "") (plugin.unparse stateBefore)
    (extractFilepathsFromState stateBefore \ extractFilepathsFromState stateAfter).sorted
  .ok (changed.1 ++ restored.1, changed.2 ++ restored.2)

omit [Crypto] in
theorem stateDelta_eq_ok {plugin : LanguagePlugin} {after before : MaterializedState}
    {atoms : List Atom} {contents : List Bytes}
    (h : stateDelta plugin after before = .ok (atoms, contents)) :
    ∃ changed restored, patchFiles plugin (plugin.unparse after) (plugin.unparse before)
        (extractFilepathsFromState after).sorted = .ok changed
      ∧ patchFiles plugin (fun _ => "") (plugin.unparse before)
        (extractFilepathsFromState before \ extractFilepathsFromState after).sorted = .ok restored
      ∧ atoms = changed.1 ++ restored.1 ∧ contents = changed.2 ++ restored.2 := by
  obtain ⟨changed, hchanged, h⟩ := Except.bind_eq_ok_iff.mp h
  obtain ⟨restored, hrestored, h⟩ := Except.bind_eq_ok_iff.mp h
  cases h
  exact ⟨changed, restored, hchanged, hrestored, rfl, rfl⟩

/-! ## What the atoms do -/

section Ops

variable {parser : ItemParser} {unparse : MaterializedState → String → String}
  {after before : MaterializedState} {store : BlobStore} {atoms : List Atom}
  {contents : List Bytes}

omit [Crypto] in
theorem itemAt_eq_none_of_notMem {state : MaterializedState} {filepath : String}
    (h : filepath ∉ extractFilepathsFromState state) (path : NodePath) :
    itemAt state filepath path = none := by
  apply FMap.notMem_keys_iff.mp
  intro hkey
  apply h
  rw [extractFilepathsFromState, Finset.mem_eraseNone]
  exact Finset.mem_image.mpr ⟨_, hkey, rfl⟩

/-- The texts of a file that are compared: where the file is in neither state there are none. -/
def deltaSources (unparse : MaterializedState → String → String)
    (after before : MaterializedState) (filepath : String) : String × String :=
  if filepath ∈ extractFilepathsFromState after then
    (unparse after filepath, unparse before filepath)
  else if filepath ∈ extractFilepathsFromState before then ("", unparse before filepath)
  else ("", "")

/-- Both texts of every file with different ones can be parsed. -/
def DeltaParses (parser : ItemParser) (sources : String → String × String) : Prop :=
  ∀ filepath, (sources filepath).1 = (sources filepath).2
    ∨ (∃ map, parser.items (sources filepath).1 = .ok map)
      ∧ ∃ map, parser.items (sources filepath).2 = .ok map

theorem exists_stateDelta_iff :
    (∃ out, stateDelta (parser.plugin unparse) after before = .ok out)
      ↔ DeltaParses parser (deltaSources unparse after before) := by
  have hsplit : (∃ out, stateDelta (parser.plugin unparse) after before = .ok out)
      ↔ (∃ out, patchFiles (parser.plugin unparse) (unparse after) (unparse before)
          (extractFilepathsFromState after).sorted = .ok out)
        ∧ ∃ out, patchFiles (parser.plugin unparse) (fun _ => "") (unparse before)
          (extractFilepathsFromState before \ extractFilepathsFromState after).sorted
            = .ok out := by
    constructor
    · rintro ⟨⟨atoms, contents⟩, h⟩
      obtain ⟨changed, restored, hchanged, hrestored, -⟩ := stateDelta_eq_ok h
      exact ⟨⟨_, hchanged⟩, _, hrestored⟩
    · rintro ⟨⟨changed, hchanged⟩, restored, hrestored⟩
      exact ⟨_, Except.bind_eq_ok_iff.mpr
        ⟨changed, hchanged, Except.bind_eq_ok_iff.mpr ⟨restored, hrestored, rfl⟩⟩⟩
  rw [hsplit, exists_patchFiles_iff, exists_patchFiles_iff]
  simp only [Finset.mem_sorted, Finset.mem_sdiff]
  constructor
  · rintro ⟨hchanged, hrestored⟩ filepath
    rw [deltaSources]
    split_ifs with hfile hother
    · exact hchanged filepath hfile
    · exact hrestored filepath ⟨hother, hfile⟩
    · exact .inl rfl
  · intro h
    refine ⟨fun filepath hfile => ?_, fun filepath hfile => ?_⟩
    · have hparses := h filepath
      rwa [deltaSources, if_pos hfile] at hparses
    · have hparses := h filepath
      rwa [deltaSources, if_neg hfile.2, if_pos hfile.1] at hparses

omit [Crypto] in
/-- The readings are the items themselves if the parser reads both states back. -/
theorem itemsOf_deltaSources (hafter : parser.ReadsBack unparse after)
    (hbefore : parser.ReadsBack unparse before) (hempty : parser.items "" = .ok ∅)
    (filepath : String) {path : NodePath} (hpath : path ≠ []) :
    parser.itemsOf (deltaSources unparse after before filepath).1 path
        = itemAt after filepath path
      ∧ parser.itemsOf (deltaSources unparse after before filepath).2 path
        = itemAt before filepath path := by
  have hnone : parser.itemsOf "" path = none := by
    rw [ItemParser.itemsOf, hempty]
    rfl
  rw [deltaSources]
  split_ifs with hfile hother
  · exact ⟨hafter.itemsOf filepath hpath, hbefore.itemsOf filepath hpath⟩
  · rw [itemAt_eq_none_of_notMem hfile]
    exact ⟨hnone, hbefore.itemsOf filepath hpath⟩
  · rw [itemAt_eq_none_of_notMem hfile, itemAt_eq_none_of_notMem hother]
    exact ⟨hnone, hnone⟩

theorem writesOrRemoves_of_stateDelta
    (h : stateDelta (parser.plugin unparse) after before = .ok (atoms, contents))
    (hread : Readable store contents) : ∀ atom ∈ atoms, atom.WritesOrRemoves store := by
  obtain ⟨changed, restored, hchanged, hrestored, rfl, rfl⟩ := stateDelta_eq_ok h
  intro atom hatom
  rcases List.mem_append.mp hatom with hfirst | hlater
  · exact writesOrRemoves_of_patchFiles hchanged
      (fun c hc => hread c (List.mem_append_left _ hc)) atom hfirst
  · exact writesOrRemoves_of_patchFiles hrestored
      (fun c hc => hread c (List.mem_append_right _ hc)) atom hlater

/-- **The atoms take the item that is read in the one text to that of the other.** -/
theorem opsAtKey_stateDelta
    (h : stateDelta (parser.plugin unparse) after before = .ok (atoms, contents))
    (hread : Readable store contents) (filepath : String) (path : NodePath) :
    opsAtKey store ("file" :: filepath :: path) atoms
      = EntryOp.diff (parser.itemsOf (deltaSources unparse after before filepath).1 path)
        (parser.itemsOf (deltaSources unparse after before filepath).2 path) := by
  obtain ⟨changed, restored, hchanged, hrestored, rfl, rfl⟩ := stateDelta_eq_ok h
  have hfirst : opsAtKey store ("file" :: filepath :: path) changed.1 = _ :=
    opsAtKey_patchFiles (Finset.nodup_sorted _) hchanged
      (fun c hc => hread c (List.mem_append_left _ hc)) _
  have hlater : opsAtKey store ("file" :: filepath :: path) restored.1 = _ :=
    opsAtKey_patchFiles (Finset.nodup_sorted _) hrestored
      (fun c hc => hread c (List.mem_append_right _ hc)) _
  rw [opsAtKey_append, hfirst, hlater, deltaSources]
  by_cases hfile : filepath ∈ extractFilepathsFromState after
  · rw [patchOps_of_mem (Finset.mem_sorted.mpr hfile), patchOps_of_notMem (by simp [hfile]),
      List.append_nil, if_pos hfile]
    rfl
  · rw [patchOps_of_notMem (by simpa using hfile), List.nil_append, if_neg hfile]
    by_cases hother : filepath ∈ extractFilepathsFromState before
    · rw [patchOps_of_mem (by simp [hfile, hother]), if_pos hother]
      rfl
    · rw [patchOps_of_notMem (by simp [hother]), if_neg hother, EntryOp.diff_self]

theorem opsAtKey_stateDelta_of_not_isItem
    (h : stateDelta (parser.plugin unparse) after before = .ok (atoms, contents))
    (hread : Readable store contents) {key : NodePath} (hkey : ¬ IsItem key) :
    opsAtKey store key atoms = [] := by
  obtain ⟨changed, restored, hchanged, hrestored, rfl, rfl⟩ := stateDelta_eq_ok h
  have hnone : ∀ (srcOld srcNew : String → String) (files : List String),
      patchOps parser srcOld srcNew files key = [] := by
    intro srcOld srcNew files
    rcases key with _ | ⟨kind, _ | ⟨filepath, path⟩⟩
    · rfl
    · rfl
    · rw [patchOps]
      split_ifs with hcase
      · have hnil : path = [] := by
          by_contra hpath
          exact hkey ⟨filepath, path, hpath, by rw [hcase.1]⟩
        rw [hnil, parser.itemsOf_nil, parser.itemsOf_nil]
        rfl
      · rfl
  rw [opsAtKey_append,
    opsAtKey_patchFiles (Finset.nodup_sorted _) hchanged fun c hc =>
      hread c (List.mem_append_left _ hc),
    opsAtKey_patchFiles (Finset.nodup_sorted _) hrestored fun c hc =>
      hread c (List.mem_append_right _ hc), hnone, hnone]
  rfl

/-- Some item is read differently in the two texts of its file. -/
def ReadingsDiffer (parser : ItemParser) (sources : String → String × String) : Prop :=
  ∃ filepath path,
    parser.itemsOf (sources filepath).1 path ≠ parser.itemsOf (sources filepath).2 path

/-- **There are atoms exactly if some item is read differently.** -/
theorem stateDelta_ne_nil_iff
    (h : stateDelta (parser.plugin unparse) after before = .ok (atoms, contents))
    (hread : Readable store contents) :
    atoms ≠ [] ↔ ReadingsDiffer parser (deltaSources unparse after before) := by
  constructor
  · intro hne
    obtain ⟨atom, hatom⟩ := List.exists_mem_of_ne_nil _ hne
    obtain ⟨x, hx⟩ := Option.isSome_iff_exists.mp
      (writesOrRemoves_of_stateDelta h hread atom hatom).isSome_entryOp
    have hmem : x.2 ∈ opsAtKey store x.1 atoms := by
      refine List.mem_map.mpr ⟨x, List.mem_filter.mpr ⟨?_, by simp⟩, rfl⟩
      exact List.mem_filterMap.mpr ⟨atom, hatom, hx⟩
    by_cases hkey : IsItem x.1
    · obtain ⟨filepath, path, -, hkey⟩ := hkey
      refine ⟨filepath, path, fun hsame => ?_⟩
      rw [hkey, opsAtKey_stateDelta h hread, hsame, EntryOp.diff_self] at hmem
      simp at hmem
    · rw [opsAtKey_stateDelta_of_not_isItem h hread hkey] at hmem
      simp at hmem
  · rintro ⟨filepath, path, hdiff⟩ rfl
    exact hdiff (EntryOp.diff_eq_nil_iff.mp (opsAtKey_stateDelta h hread filepath path).symm)

end Ops

/-! ## Running the comparison -/

namespace Repo

theorem putContents_append (blobs : FMap Blake3Hash Bytes) (contents contents' : List Bytes) :
    putContents blobs (contents ++ contents')
      = putContents (putContents blobs contents) contents' :=
  List.foldl_append

theorem diffFiles_run {plugin : LanguagePlugin} {srcOld srcNew : String → String}
    {files : List String} {atoms : List Atom} {contents : List Bytes}
    (h : patchFiles plugin srcOld srcNew files = .ok (atoms, contents)) (s : Repo) :
    diffFiles plugin srcOld srcNew files s
      = some (.ok atoms, { s with blobs := putContents s.blobs contents }) := by
  induction files generalizing atoms contents s with
  | nil =>
      cases h
      rfl
  | cons filepath files ih =>
      rw [patchFiles] at h
      rw [diffFiles]
      split_ifs at h ⊢ with hsame
      · exact ih h s
      · obtain ⟨out, hdiff, h⟩ := Except.bind_eq_ok_iff.mp h
        obtain ⟨rest, hrest, h⟩ := Except.bind_eq_ok_iff.mp h
        cases h
        rw [hdiff]
        refine Program.bind_eq_ok_iff.mpr ⟨out, s, rfl, ?_⟩
        refine Program.bind_eq_ok_iff.mpr ⟨(), _, writeBlobs_run out.2 s, ?_⟩
        refine Program.bind_eq_ok_iff.mpr ⟨rest.1, _, ih hrest _, ?_⟩
        rw [putContents_append]
        rfl

theorem diffFiles_error {plugin : LanguagePlugin} {srcOld srcNew : String → String}
    {files : List String} {e : RepoError} (h : patchFiles plugin srcOld srcNew files = .error e)
    (s : Repo) : ∃ s', diffFiles plugin srcOld srcNew files s = some (.error e, s') := by
  induction files generalizing s with
  | nil => cases h
  | cons filepath files ih =>
      rw [patchFiles] at h
      rw [diffFiles]
      split_ifs at h ⊢ with hsame
      · exact ih h s
      · cases hdiff : plugin.diff (srcOld filepath) (srcNew filepath) with
        | error e' =>
            rw [hdiff] at h
            cases h
            exact ⟨s, rfl⟩
        | ok out =>
            rw [hdiff] at h
            cases hrest : patchFiles plugin srcOld srcNew files with
            | ok rest =>
                rw [hrest] at h
                cases h
            | error e' =>
                rw [hrest] at h
                cases h
                obtain ⟨s', hs'⟩ := ih hrest { s with blobs := putContents s.blobs out.2 }
                refine ⟨s', ?_⟩
                rw [Program.bind_run, Program.ofExcept]
                dsimp only
                rw [Program.bind_run, writeBlobs_run]
                dsimp only
                rw [Program.bind_run, hs']

theorem computeStateDelta_error {plugin : LanguagePlugin} {after before : MaterializedState}
    {e : RepoError} (h : stateDelta plugin after before = .error e) (s : Repo) :
    ∃ s', computeStateDelta plugin after before s = some (.error e, s') := by
  rw [stateDelta] at h
  rw [computeStateDelta]
  cases hchanged : patchFiles plugin (plugin.unparse after) (plugin.unparse before)
      (extractFilepathsFromState after).sorted with
  | error e' =>
      rw [hchanged] at h
      cases h
      obtain ⟨s', hs'⟩ := diffFiles_error hchanged s
      exact ⟨s', by rw [Program.bind_run, hs']⟩
  | ok changed =>
      rw [hchanged] at h
      cases hrestored : patchFiles plugin (fun _ => "") (plugin.unparse before)
          (extractFilepathsFromState before \ extractFilepathsFromState after).sorted with
      | ok restored =>
          rw [hrestored] at h
          cases h
      | error e' =>
          rw [hrestored] at h
          cases h
          obtain ⟨s', hs'⟩ := diffFiles_error hrestored
            { s with blobs := putContents s.blobs changed.2 }
          refine ⟨s', ?_⟩
          rw [Program.bind_run, diffFiles_run hchanged]
          dsimp only
          rw [Program.bind_run, hs']

theorem computeStateDelta_run {plugin : LanguagePlugin} {after before : MaterializedState}
    {atoms : List Atom} {contents : List Bytes}
    (h : stateDelta plugin after before = .ok (atoms, contents)) (s : Repo) :
    computeStateDelta plugin after before s
      = some (.ok atoms, { s with blobs := putContents s.blobs contents }) := by
  obtain ⟨changed, restored, hchanged, hrestored, rfl, rfl⟩ := stateDelta_eq_ok h
  refine Program.bind_eq_ok_iff.mpr ⟨changed.1, _, diffFiles_run hchanged s, ?_⟩
  refine Program.bind_eq_ok_iff.mpr ⟨restored.1, _, diffFiles_run hrestored _, ?_⟩
  rw [putContents_append]
  rfl

end Repo

end ArcVcs
