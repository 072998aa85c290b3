import ArcVcs.TreeSnapshot

/-!
# Writing a state into the working tree

`write_state_to_working_dir` removes the Rust files that are not ignored and writes the tracked
files over what is there. A Rust file has the text of its items, and another file the blob of its
token. The other files are left alone.
-/

namespace ArcVcs

open GitImport (isRust)

/-- What a command on the working tree fails with. -/
inductive TreeError where
  | repo (error : RepoError)
  | resolve (error : ResolveError)
  | createDir (path : String)
  | writeFile (path : String)
  | conflictSideMissing (side : String)
  | multipleConflicts (path : String)
  | missingBlob (path : String)
  | nothingToStash
  | stashOverflow
  | noStash
deriving DecidableEq

abbrev TreeM (α : Type) := Program WorkTree TreeError α

/-! ## The directories on the way -/

theorem mem_parentDirs_iff {path dir : String} :
    dir ∈ parentDirs path ↔ ∃ i < path.length, path.toList[i]? = some '/'
      ∧ dir = String.ofList (path.toList.take i) := by
  rw [parentDirs, List.mem_filterMap]
  refine exists_congr fun i => ?_
  rw [List.mem_range]
  refine and_congr_right fun _ => ?_
  split_ifs with h
  · simp [h, eq_comm]
  · simp [h]

theorem parentDirs_trans {path dir dir' : String} (h : dir ∈ parentDirs path)
    (h' : dir' ∈ parentDirs dir) : dir' ∈ parentDirs path := by
  obtain ⟨i, hi, hslash, rfl⟩ := mem_parentDirs_iff.mp h
  obtain ⟨j, hj, hslash', rfl⟩ := mem_parentDirs_iff.mp h'
  rw [String.toList_ofList] at hslash' ⊢
  have hji : j < i := by
    by_contra hle
    rw [List.getElem?_take_eq_none (Nat.le_of_not_lt hle)] at hslash'
    cases hslash'
  refine mem_parentDirs_iff.mpr ⟨j, hji.trans hi, ?_, ?_⟩
  · rwa [List.getElem?_take_of_lt hji] at hslash'
  · rw [List.take_take, Nat.min_eq_left hji.le]

namespace WorkTree

variable (w : WorkTree)

def removeFile (path : String) : WorkTree where
  rules := w.rules
  files := w.files.erase path
  dirs := w.dirs
  disjoint p hp := w.disjoint p (by
    rw [Finmap.keys_erase] at hp
    exact Finset.mem_of_mem_erase hp)
  closed p hp := w.closed p (by
    rw [Finmap.keys_erase] at hp
    exact Finset.union_subset_union_left (Finset.erase_subset _ _) hp)

/-- Directories with those on the way to them. -/
def withDirs (dirs : List String) (hfree : ∀ dir ∈ dirs, dir ∉ w.files.keys)
    (hway : ∀ dir ∈ dirs, ∀ dir' ∈ parentDirs dir, dir' ∈ dirs) : WorkTree where
  rules := w.rules
  files := w.files
  dirs := w.dirs ∪ dirs.toFinset
  disjoint p hp hdir := by
    rcases Finset.mem_union.mp hdir with hold | hnew
    · exact w.disjoint p hp hold
    · exact hfree p (List.mem_toFinset.mp hnew) hp
  closed p hp dir hdir := by
    rw [← Finset.union_assoc] at hp
    rcases Finset.mem_union.mp hp with hold | hnew
    · exact Finset.mem_union_left _ (w.closed p hold dir hdir)
    · exact Finset.mem_union_right _
        (List.mem_toFinset.mpr (hway p (List.mem_toFinset.mp hnew) dir hdir))

def withFile (path : String) (bytes : Bytes)
    (h : path ∉ w.dirs ∧ ∀ dir ∈ parentDirs path, dir ∈ w.dirs) : WorkTree where
  rules := w.rules
  files := w.files.insert path bytes
  dirs := w.dirs
  disjoint p hp hdir := by
    rcases Finmap.mem_insert.mp (Finmap.mem_keys.mp hp) with rfl | hold
    · exact h.1 hdir
    · exact w.disjoint p (Finmap.mem_keys.mpr hold) hdir
  closed p hp dir hdir := by
    rcases Finset.mem_union.mp hp with hfile | hold
    · rcases Finmap.mem_insert.mp (Finmap.mem_keys.mp hfile) with rfl | hold
      · exact h.2 dir hdir
      · exact w.closed p (Finset.mem_union_left _ (Finmap.mem_keys.mpr hold)) dir hdir
    · exact w.closed p (Finset.mem_union_right _ hold) dir hdir

end WorkTree

def createParent (path : String) : TreeM Unit := fun w =>
  if h : ∀ dir ∈ parentDirs path, dir ∉ w.files.keys then
    some (.ok (), w.withDirs (parentDirs path) h fun _ hp _ hp' => parentDirs_trans hp hp')
  else some (.error (.createDir path), w)

def createDirAll (dir : String) : TreeM Unit := fun w =>
  if h : ∀ p ∈ dir :: parentDirs dir, p ∉ w.files.keys then
    some (.ok (), w.withDirs (dir :: parentDirs dir) h fun p hp p' hp' => by
      rcases List.mem_cons.mp hp with rfl | hway
      · exact List.mem_cons_of_mem _ hp'
      · exact List.mem_cons_of_mem _ (parentDirs_trans hway hp'))
  else some (.error (.createDir dir), w)

/-- `fs::write`. -/
def writeFile (path : String) (bytes : Bytes) : TreeM Unit := fun w =>
  if h : path ∉ w.dirs ∧ ∀ dir ∈ parentDirs path, dir ∈ w.dirs then
    some (.ok (), w.withFile path bytes h)
  else some (.error (.writeFile path), w)

/-! ## What is written of a file -/

def readBlobText (blobs : FMap Blake3Hash Bytes) (hash : Blake3Hash) : Except TreeError String :=
  match readBlobBytes blobs hash with
  | .error e => .error (.resolve e)
  | .ok data => .ok (fromUtf8Lossy data)

def conflictProjectionForFile (state : MaterializedState) (filepath : String) :
    Except TreeError (Option (List Blake3Hash × List Blake3Hash)) :=
  match (keysOfFile state filepath).filterMap
    fun key => (state.lookup key).bind decodeConflictProjection with
  | [] => .ok none
  | [decoded] => .ok (some decoded)
  | _ => .error (.multipleConflicts filepath)

/-- The first base is read, and the first two sides are shown. -/
def renderConflictMarkers (blobs : FMap Blake3Hash Bytes) (bases sides : List Blake3Hash) :
    Except TreeError String := do
  if let some base := bases.head? then
    let _ ← readBlobText blobs base
  match sides with
  | [] => .error (.conflictSideMissing "A")
  | [_] => .error (.conflictSideMissing "B")
  | sideA :: sideB :: _ => do
      let sideA ← readBlobText blobs sideA
      let sideB ← readBlobText blobs sideB
      .ok ("<<<<<<< side_a\n" ++ sideA ++ "\n=======\n" ++ sideB ++ "\n>>>>>>> side_b\n")

/-- What a tracked path becomes. The note `.arc-mount` in a mounted directory is left out. -/
inductive Projection where
  | file (bytes : Bytes)
  | mount
  | nothing
deriving DecidableEq

def Projection.bytes : Projection → Option Bytes
  | .file bytes => some bytes
  | _ => none

section Write

variable (priorities : List (String × ℕ)) (blobs : FMap Blake3Hash Bytes)
  (state : MaterializedState)

/-- What the entry of a file that is not Rust becomes. -/
def projectContent (filepath : String) : Option Bytes → Except TreeError Projection
  | none => .ok .nothing
  | some content =>
      if (utf8 "ARC_MOUNT:").isPrefixOf content then .ok .mount
      else
        match tokenHash content with
        | none => .ok .nothing
        | some hash =>
            match blobs.lookup hash with
            | none => .error (.missingBlob filepath)
            | some bytes => .ok (.file bytes)

def projectFile (filepath : String) : Except TreeError Projection :=
  match conflictProjectionForFile state filepath with
  | .error e => .error e
  | .ok (some (bases, sides)) =>
      (renderConflictMarkers blobs bases sides).map fun rendered => .file (utf8 rendered)
  | .ok none =>
      if isRust filepath then
        .ok (if unparse priorities state filepath = "" then .nothing
          else .file (utf8 (unparse priorities state filepath)))
      else projectContent blobs filepath (state.lookup ["file", filepath])

/-- The content that a file is written with, if it is written. -/
def writtenBytes (filepath : String) : Option Bytes :=
  (projectFile priorities blobs state filepath).toOption.bind Projection.bytes

def writePath (filepath : String) : TreeM Unit := do
  createParent filepath
  match ← .ofExcept (projectFile priorities blobs state filepath) with
  | .nothing => pure ()
  | .mount => createDirAll filepath
  | .file bytes => writeFile filepath bytes

def writePaths : List String → TreeM Unit
  | [] => pure ()
  | filepath :: filepaths => do
      writePath priorities blobs state filepath
      writePaths filepaths

def createDirs : List String → TreeM Unit
  | [] => pure ()
  | dir :: dirs => do
      createDirAll dir
      createDirs dirs

/-- An order in which sets give their elements. -/
structure SetOrder (α : Type*) [DecidableEq α] where
  elems : Finset α → List α
  nodup : ∀ s, (elems s).Nodup
  toFinset : ∀ s, (elems s).toFinset = s

theorem SetOrder.mem_elems {α : Type*} [DecidableEq α] (order : SetOrder α) {set : Finset α}
    {a : α} : a ∈ order.elems set ↔ a ∈ set := by
  rw [← List.mem_toFinset, order.toFinset]

def SetOrder.sorted {α : Type*} [DecidableEq α] [LinearOrder α] : SetOrder α where
  elems := Finset.sorted
  nodup := Finset.nodup_sorted
  toFinset s := by ext; simp

def writeStateToWorkingDir (order : SetOrder String) : TreeM Unit := do
  .modify fun w => w.collectRsFiles.foldl WorkTree.removeFile w
  writePaths priorities blobs state (order.elems (extractFilepathsFromState state))
  createDirs (order.elems (existingDirs state).toFinset)

end Write

/-! ## The files after writing -/

section Files

variable {priorities : List (String × ℕ)} {blobs : FMap Blake3Hash Bytes}
  {state : MaterializedState} {w w' : WorkTree} {filepath : String}

theorem files_of_createParent (h : createParent filepath w = some (.ok (), w')) :
    w'.files = w.files ∧ w'.rules = w.rules := by
  unfold createParent at h
  split_ifs at h
  · cases h
    exact ⟨rfl, rfl⟩
  · cases h

theorem files_of_createDirAll (h : createDirAll filepath w = some (.ok (), w')) :
    w'.files = w.files ∧ w'.rules = w.rules := by
  unfold createDirAll at h
  split_ifs at h
  · cases h
    exact ⟨rfl, rfl⟩
  · cases h

theorem files_of_createDirs {dirs : List String} (h : createDirs dirs w = some (.ok (), w')) :
    w'.files = w.files ∧ w'.rules = w.rules := by
  induction dirs generalizing w with
  | nil =>
      cases h
      exact ⟨rfl, rfl⟩
  | cons dir dirs ih =>
      obtain ⟨_, w₁, hfirst, hrest⟩ := Program.bind_eq_ok_iff.mp h
      obtain ⟨hfiles, hrules⟩ := files_of_createDirAll hfirst
      rw [(ih hrest).1, (ih hrest).2, hfiles, hrules]
      exact ⟨rfl, rfl⟩

theorem files_of_writeFile {bytes : Bytes} (h : writeFile filepath bytes w = some (.ok (), w')) :
    w'.files = w.files.insert filepath bytes ∧ w'.rules = w.rules := by
  unfold writeFile at h
  split_ifs at h
  · cases h
    exact ⟨rfl, rfl⟩
  · cases h

theorem writePath_eq_ok (h : writePath priorities blobs state filepath w = some (.ok (), w')) :
    (∃ projection, projectFile priorities blobs state filepath = .ok projection)
      ∧ w'.rules = w.rules
      ∧ ∀ path, w'.files.lookup path
        = if path = filepath then
            (writtenBytes priorities blobs state filepath).or (w.files.lookup path)
          else w.files.lookup path := by
  obtain ⟨_, w₁, hparent, hrest⟩ := Program.bind_eq_ok_iff.mp h
  obtain ⟨projection, w₂, hproject, hwrite⟩ := Program.bind_eq_ok_iff.mp hrest
  obtain ⟨hprojection, rfl⟩ : projectFile priorities blobs state filepath = .ok projection
      ∧ w₁ = w₂ := by simpa [Program.ofExcept] using hproject
  obtain ⟨hfiles, hrules⟩ := files_of_createParent hparent
  have hwritten : writtenBytes priorities blobs state filepath = projection.bytes := by
    rw [writtenBytes, hprojection]
    rfl
  rw [hwritten]
  cases projection with
  | nothing =>
      cases hwrite
      refine ⟨⟨_, hprojection⟩, hrules, fun path => ?_⟩
      rw [hfiles]
      exact (ite_self _).symm
  | mount =>
      obtain ⟨hfiles', hrules'⟩ := files_of_createDirAll hwrite
      refine ⟨⟨_, hprojection⟩, hrules'.trans hrules, fun path => ?_⟩
      rw [hfiles', hfiles]
      exact (ite_self _).symm
  | file bytes =>
      obtain ⟨hfiles', hrules'⟩ := files_of_writeFile hwrite
      refine ⟨⟨_, hprojection⟩, hrules'.trans hrules, fun path => ?_⟩
      rw [hfiles', FMap.lookup_insert_eq, hfiles]
      rfl

theorem writePaths_eq_ok {filepaths : List String}
    (h : writePaths priorities blobs state filepaths w = some (.ok (), w')) :
    (∀ path ∈ filepaths, ∃ projection, projectFile priorities blobs state path = .ok projection)
      ∧ w'.rules = w.rules
      ∧ ∀ path, w'.files.lookup path
        = if path ∈ filepaths then
            (writtenBytes priorities blobs state path).or (w.files.lookup path)
          else w.files.lookup path := by
  induction filepaths generalizing w with
  | nil =>
      cases h
      exact ⟨fun _ hmem => absurd hmem List.not_mem_nil, rfl, fun _ => rfl⟩
  | cons filepath filepaths ih =>
      obtain ⟨_, w₁, hfirst, hrest⟩ := Program.bind_eq_ok_iff.mp h
      obtain ⟨hprojects, hrules, hlook⟩ := ih hrest
      obtain ⟨hproject, hrules₁, hlook₁⟩ := writePath_eq_ok hfirst
      refine ⟨List.forall_mem_cons.mpr ⟨hproject, hprojects⟩, hrules.trans hrules₁, fun path => ?_⟩
      rw [hlook, hlook₁]
      by_cases heq : path = filepath
      · subst heq
        rw [if_pos rfl, if_pos List.mem_cons_self]
        split_ifs
        · cases writtenBytes priorities blobs state path <;> rfl
        · rfl
      · rw [if_neg heq]
        exact if_congr (by simp [heq]) rfl rfl

theorem foldl_removeFile (files : List String) :
    (files.foldl WorkTree.removeFile w).files = files.foldl (fun m file => m.erase file) w.files
      ∧ (files.foldl WorkTree.removeFile w).rules = w.rules := by
  induction files generalizing w with
  | nil => exact ⟨rfl, rfl⟩
  | cons file files ih => exact ih

/-! ## The entries of a file -/

def SameEntries (filepath : String) (state state' : MaterializedState) : Prop :=
  ∀ path, state'.lookup ("file" :: filepath :: path) = state.lookup ("file" :: filepath :: path)

theorem exists_of_take_two {key : NodePath} (h : key.take 2 = ["file", filepath]) :
    ∃ path, key = "file" :: filepath :: path := by
  rcases key with _ | ⟨kind, _ | ⟨file, path⟩⟩
  · simp at h
  · simp at h
  · obtain ⟨rfl, rfl⟩ : kind = "file" ∧ file = filepath := by simpa using h
    exact ⟨path, rfl⟩

theorem SameEntries.mem_keys_iff {state' : MaterializedState}
    (h : SameEntries filepath state state') {key : NodePath}
    (hkey : key.take 2 = ["file", filepath]) : key ∈ state'.keys ↔ key ∈ state.keys := by
  obtain ⟨path, rfl⟩ := exists_of_take_two hkey
  rw [FMap.mem_keys_iff, FMap.mem_keys_iff, h path]

theorem SameEntries.keysOfFile_eq {state' : MaterializedState}
    (h : SameEntries filepath state state') :
    keysOfFile state' filepath = keysOfFile state filepath :=
  Finset.sorted_filter_congr fun _ hkey => h.mem_keys_iff (of_decide_eq_true hkey).2

theorem SameEntries.conflictProjectionForFile_eq {state' : MaterializedState}
    (h : SameEntries filepath state state') :
    conflictProjectionForFile state' filepath = conflictProjectionForFile state filepath := by
  have hdecoded : (keysOfFile state' filepath).filterMap
        (fun key => (state'.lookup key).bind decodeConflictProjection)
      = (keysOfFile state filepath).filterMap
        fun key => (state.lookup key).bind decodeConflictProjection := by
    rw [h.keysOfFile_eq]
    refine List.filterMap_congr fun key hkey => ?_
    obtain ⟨-, path, rfl⟩ := mem_keysOfFile_iff.mp hkey
    rw [h path]
  rw [conflictProjectionForFile, conflictProjectionForFile, hdecoded]

theorem SameEntries.unparse_eq {state' : MaterializedState}
    (h : SameEntries filepath state state') (priorities : List (String × ℕ)) :
    unparse priorities state' filepath = unparse priorities state filepath := by
  have hitems : fileItems state' filepath = fileItems state filepath := by
    rw [fileItems, fileItems, Finset.sorted_filter_congr fun _ hkey =>
      h.mem_keys_iff (of_decide_eq_true hkey).2]
    refine List.filterMap_congr fun key hkey => ?_
    obtain ⟨path, rfl⟩ := exists_of_take_two (of_decide_eq_true (List.mem_filter.mp hkey).2).2
    rw [h path]
  rw [unparse, unparse, hitems]

theorem SameEntries.projectFile_eq {state' : MaterializedState}
    (h : SameEntries filepath state state') (priorities : List (String × ℕ))
    (blobs : FMap Blake3Hash Bytes) :
    projectFile priorities blobs state' filepath = projectFile priorities blobs state filepath := by
  rw [projectFile, projectFile, h.conflictProjectionForFile_eq, h.unparse_eq, h []]

theorem SameEntries.writtenBytes_eq {state' : MaterializedState}
    (h : SameEntries filepath state state') (priorities : List (String × ℕ))
    (blobs : FMap Blake3Hash Bytes) : writtenBytes priorities blobs state' filepath
      = writtenBytes priorities blobs state filepath := by
  rw [writtenBytes, writtenBytes, h.projectFile_eq]

theorem conflictProjectionForFile_eq_none_iff :
    conflictProjectionForFile state filepath = .ok none
      ↔ ∀ path content, state.lookup ("file" :: filepath :: path) = some content →
        decodeConflictProjection content = none := by
  have hnil : conflictProjectionForFile state filepath = .ok none
      ↔ (keysOfFile state filepath).filterMap
        (fun key => (state.lookup key).bind decodeConflictProjection) = [] := by
    rw [conflictProjectionForFile]
    split
    · rename_i heq
      exact iff_of_true rfl heq
    · rename_i heq
      rw [heq]
      simp
    · rename_i hne _
      exact iff_of_false (by simp) hne
  rw [hnil, List.filterMap_eq_nil_iff]
  constructor
  · intro hall path content hlook
    have hmem : "file" :: filepath :: path ∈ keysOfFile state filepath :=
      mem_keysOfFile_iff.mpr ⟨by rw [hlook]; exact Option.some_ne_none _, path, rfl⟩
    have hkey := hall _ hmem
    rwa [hlook] at hkey
  · intro hall key hkey
    obtain ⟨hlook, path, rfl⟩ := mem_keysOfFile_iff.mp hkey
    obtain ⟨content, hcontent⟩ := Option.ne_none_iff_exists'.mp hlook
    rw [hcontent]
    exact hall path content hcontent

theorem writtenBytes_eq_none_of_lost {state' : MaterializedState}
    (hown : state'.lookup ["file", filepath] = state.lookup ["file", filepath])
    (hlost : ∀ path ≠ [], state'.lookup ("file" :: filepath :: path) = none)
    (hproject : ∃ projection, projectFile priorities blobs state filepath = .ok projection)
    (hnone : writtenBytes priorities blobs state filepath = none) :
    writtenBytes priorities blobs state' filepath = none := by
  obtain ⟨projection, hprojection⟩ := hproject
  have hbytes : projection.bytes = none := by
    rw [writtenBytes, hprojection] at hnone
    exact hnone
  rw [projectFile] at hprojection
  have hclear : conflictProjectionForFile state filepath = .ok none := by
    rcases hconflict : conflictProjectionForFile state filepath with e | _ | ⟨bases, sides⟩
    · simp [hconflict] at hprojection
    · rfl
    · rw [hconflict] at hprojection
      dsimp only at hprojection
      cases hrender : renderConflictMarkers blobs bases sides with
      | error e =>
          rw [hrender] at hprojection
          cases hprojection
      | ok rendered =>
          rw [hrender] at hprojection
          cases hprojection
          cases hbytes
  have hclear' : conflictProjectionForFile state' filepath = .ok none := by
    rw [conflictProjectionForFile_eq_none_iff] at hclear ⊢
    intro path content hlook
    by_cases hpath : path = []
    · subst hpath
      exact hclear [] content (hown ▸ hlook)
    · rw [hlost path hpath] at hlook
      cases hlook
  have hempty : unparse priorities state' filepath = "" := unparse_eq_empty hlost
  rw [writtenBytes, projectFile, hclear', hempty, hown]
  by_cases hrust : isRust filepath = true
  · rw [hrust]
    rfl
  · rw [Bool.not_eq_true] at hrust
    rw [hclear, hrust] at hprojection
    rw [hrust]
    change (projectContent blobs filepath _).toOption.bind Projection.bytes = none
    change projectContent blobs filepath _ = _ at hprojection
    rw [hprojection]
    exact hbytes

theorem writtenBytes_of_untracked (h : filepath ∉ extractFilepathsFromState state) :
    writtenBytes priorities blobs state filepath = none := by
  have hnone : ∀ path, state.lookup ("file" :: filepath :: path) = none := by
    intro path
    by_contra hlook
    exact h (mem_extractFilepathsFromState_iff.mpr ⟨path, hlook⟩)
  have hclear : conflictProjectionForFile state filepath = .ok none := by
    refine conflictProjectionForFile_eq_none_iff.mpr fun path content hlook => ?_
    rw [hnone path] at hlook
    cases hlook
  have hempty : unparse priorities state filepath = "" :=
    unparse_eq_empty fun path _ => hnone path
  rw [writtenBytes, projectFile, hclear, hempty, hnone []]
  by_cases hrust : isRust filepath = true
  · rw [hrust]
    rfl
  · rw [Bool.not_eq_true] at hrust
    rw [hrust]
    rfl

/-- A tree that a state has been written into: the tracked files have what is written of them, the
other Rust files that are not ignored are gone, and the other files are as they were. -/
theorem lookup_writeStateToWorkingDir {order : SetOrder String}
    (h : writeStateToWorkingDir priorities blobs state order w = some (.ok (), w')) :
    (∀ path ∈ extractFilepathsFromState state,
        ∃ projection, projectFile priorities blobs state path = .ok projection)
      ∧ w'.rules = w.rules
      ∧ ∀ path, w'.files.lookup path = (writtenBytes priorities blobs state path).or
        (if w.collects path then none else w.files.lookup path) := by
  obtain ⟨_, w₁, hremoved, hrest⟩ := Program.bind_eq_ok_iff.mp h
  cases hremoved
  obtain ⟨_, w₂, hwritten, hdirs⟩ := Program.bind_eq_ok_iff.mp hrest
  obtain ⟨hprojects, hrules, hlook⟩ := writePaths_eq_ok hwritten
  obtain ⟨hfiles, hsame⟩ := files_of_createDirs hdirs
  obtain ⟨hleft, hkept⟩ := @foldl_removeFile w w.collectRsFiles
  refine ⟨fun path hpath => hprojects path (order.mem_elems.mpr hpath),
    hsame.trans (hrules.trans hkept), fun path => ?_⟩
  have hleft : (w.collectRsFiles.foldl WorkTree.removeFile w).files.lookup path
      = if w.collects path then none else w.files.lookup path := by
    rw [hleft, FMap.lookup_foldl_erase]
    by_cases hpath : path ∈ w.files.keys
    · exact if_congr (mem_collectRsFiles_iff.trans (and_iff_right hpath)) rfl rfl
    · rw [FMap.notMem_keys_iff.mp hpath, ite_self, ite_self]
  rw [hfiles, hlook, hleft]
  by_cases hpath : path ∈ order.elems (extractFilepathsFromState state)
  · rw [if_pos hpath]
  · rw [if_neg hpath, writtenBytes_of_untracked fun hmem => hpath (order.mem_elems.mpr hmem)]
    rfl

end Files

end ArcVcs
