import ArcVcs.ConflictSides
import ArcVcs.GitImport
import ArcVcs.Maintenance
import ArcVcs.TagPatterns

/-!
# The working tree

The files and directories below the root of a working directory, which of them are ignored, and
`compute_working_directory_delta`, which compares them with a materialized state.
-/

namespace ArcVcs

open GitImport (isRust)

/-- The directories on the way to a path. -/
def parentDirs (path : String) : List String :=
  (List.range path.length).filterMap fun i =>
    if path.toList[i]? = some '/' then some (String.ofList (path.toList.take i)) else none

/-! ## What is ignored -/

def components (path : String) : List String := (path.toList.splitOn '/').map String.ofList

def fileName (path : String) : String := (components path).getLastD ""

def isHidden (path : String) : Bool := (fileName path).toList.head? == some '.'

def containsHardIgnoredDir (path : String) : Bool :=
  (components path).any fun part => part ∈ ["target", "node_modules", ".git", "dist", "build"]

/-- What `.arcignore` ignores, which it and the files that it includes say, none of them a Rust
file, and whether `ARC_TRACK_IMPLICITLY_IGNORED` is set. -/
structure TrackingRules where
  arcignore : (String → Option Bytes) → Gitignore
  trackImplicitlyIgnored : Bool

def isImplicitlyIgnored (rules : TrackingRules) (path : String) : Bool :=
  if rules.trackImplicitlyIgnored then false
  else if containsHardIgnoredDir path then true
  else if fileName path ∈ [".env", "id_rsa"] then true
  else
    let ext := (extension (fileName path)).map fun ext =>
      String.ofList (ext.toList.map Char.toLower)
    if ext ∈ [some "pem", some "key"] then true
    else decide (ext ∉ ["rs", "js", "ts", "py", "go", "c", "cpp", "md", "json", "toml", "yaml",
      "yml"].map some)

/-! ## The tree -/

/-- The files and the directories, by their paths below the root. -/
structure WorkTree where
  rules : TrackingRules
  files : FMap String Bytes
  dirs : Finset String
  disjoint : ∀ path ∈ files.keys, path ∉ dirs
  closed : ∀ path ∈ files.keys ∪ dirs, ∀ dir ∈ parentDirs path, dir ∈ dirs

/-- `read_to_string`, which refuses bytes that are not UTF-8. -/
def readToString (bytes : Bytes) : Option String := String.fromUTF8? bytes.toByteArray

theorem readToString_utf8 (s : String) : readToString (utf8 s) = some s := fromUtf8_utf8 s

namespace WorkTree

variable (w : WorkTree)

/-- `Path::exists`, which does not tell a file from a directory. -/
def exists_ (path : String) : Bool := decide (path ∈ w.files.keys ∨ path ∈ w.dirs)

def text (path : String) : Option String := (w.files.lookup path).bind readToString

def loadArcignore : Gitignore :=
  w.rules.arcignore fun path => if isRust path then none else w.files.lookup path

/-- A directory that no walk goes into. -/
def skipsDir (dir : String) : Bool :=
  isHidden dir || w.loadArcignore dir true || containsHardIgnoredDir dir

/-- The walks come to the file. -/
def reaches (path : String) : Bool :=
  (parentDirs path).all (fun dir => !w.skipsDir dir) && !isHidden path
    && !w.loadArcignore path false

/-- The walk through the Rust files collects the path, if it is a file. -/
def collects (path : String) : Bool :=
  isRust path && w.reaches path && !isImplicitlyIgnored w.rules path

def collectRsFiles : List String := w.files.keys.sorted.filter w.collects

def collectAllFiles : List String := w.files.keys.sorted.filter w.reaches

/-- No file and no directory but hidden ones is right below these. -/
def collectEmptyDirs : List String :=
  w.dirs.sorted.filter fun dir => (dir :: parentDirs dir).all (fun dir => !w.skipsDir dir)
    && decide (∀ path ∈ w.files.keys ∪ w.dirs.filter (fun sub => isHidden sub = false),
      (parentDirs path).getLast? ≠ some dir)

def IgnoresNothing : Prop :=
  ∀ path ∈ w.files.keys, w.reaches path = true ∧ isImplicitlyIgnored w.rules path = false

instance : Decidable w.IgnoresNothing :=
  inferInstanceAs (Decidable (∀ path ∈ w.files.keys, _))

variable {w}

theorem isRust_of_collects {path : String} (h : w.collects path = true) : isRust path = true := by
  rw [collects, Bool.and_eq_true, Bool.and_eq_true] at h
  exact h.1.1

theorem collects_of_plain {path : String} (h : isRust path = false) : w.collects path = false := by
  rw [collects, h]
  rfl

/-- Trees with the same rules and the same files besides the Rust files collect alike. -/
theorem collects_congr {w' : WorkTree} (hrules : w'.rules = w.rules)
    (hfiles : ∀ path, isRust path = false → w'.files.lookup path = w.files.lookup path) :
    w'.collects = w.collects := by
  have hmatcher : w'.loadArcignore = w.loadArcignore := by
    rw [loadArcignore, loadArcignore, hrules]
    congr 1
    funext path
    by_cases hrust : isRust path = true
    · rw [if_pos hrust, if_pos hrust]
    · rw [if_neg hrust, if_neg hrust, hfiles path (Bool.eq_false_of_not_eq_true hrust)]
  funext path
  simp only [WorkTree.collects, reaches, skipsDir, hmatcher, hrules]

end WorkTree

/-! ## The atoms of a snapshot -/

section Delta

variable [Crypto] (plugin : LanguagePlugin) (s : MaterializedState) (w : WorkTree)

/-- The loop over the Rust files. -/
def rustDelta : List String → Except RepoError (List Atom × List Bytes)
  | [] => .ok ([], [])
  | filepath :: files =>
      match w.text filepath with
      | none => .error .workingDir
      | some newSrc =>
          if plugin.unparse s filepath = newSrc then rustDelta files
          else do
            let (astAtoms, contents) ← plugin.diff (plugin.unparse s filepath) newSrc
            let rest ← rustDelta files
            .ok (astAtoms.map (prefixAtomPath filepath) ++ rest.1, contents ++ rest.2)

def tokenHash (existing : Bytes) : Option Blake3Hash :=
  if Repo.isBlobToken existing then some (.ofBytes ((existing.drop 13).take 32)) else none

/-- A file whose token has another hash, or that has no token. -/
def blobAtom (filepath : String) (bytes : Bytes) : Option Atom :=
  let newHash := Crypto.hashBytes bytes
  if (s.lookup ["file", filepath]).bind tokenHash = some newHash then none
  else some (.blob filepath newHash (UInt64.ofNat bytes.length))

/-- The files besides the Rust files: the tracked ones, and those that are not implicitly
ignored. -/
def nonRsFiles : List String :=
  w.collectAllFiles.filter fun filepath => !isRust filepath
    && (decide (["file", filepath] ∈ s.keys) || !isImplicitlyIgnored w.rules filepath)

def blobAtoms : List Atom :=
  (nonRsFiles s w).filterMap fun filepath => (w.files.lookup filepath).bind (blobAtom s filepath)

/-- The entry of a file and those below it. -/
def keysOfFile (filepath : String) : List NodePath :=
  s.keys.sorted.filter fun key => decide (2 ≤ key.length ∧ key.take 2 = ["file", filepath])

/-- The removal of an entry, with the content that it has. -/
def removalPair (key : NodePath) : Atom × Bytes := deletePair key ((s.lookup key).getD [])

/-- The entries of the files that are not there. -/
def deletedFileKeys : List NodePath :=
  ((extractFilepathsFromState s).sorted.filter fun filepath => !w.exists_ filepath).flatMap
    (keysOfFile s)

/-- The recorded directories. -/
def existingDirs : List String :=
  (s.keys.sorted.filter fun key => decide (key.length = 2 ∧ key.head? = some "dir")).filterMap
    fun key => key[1]?

def newDirs : List String := w.collectEmptyDirs.filter fun dir => decide (dir ∉ existingDirs s)

def deletedDirKeys : List NodePath :=
  ((existingDirs s).filter fun dir => !w.exists_ dir).map fun dir => ["dir", dir]

/-- The atoms besides those of the Rust files. -/
def treeAtoms : List Atom :=
  blobAtoms s w ++ (deletedFileKeys s w).map (fun key => (removalPair s key).1)
    ++ (newDirs s w).map (fun dir => .directory ["dir", dir])
    ++ (deletedDirKeys s w).map fun key => (removalPair s key).1

def treeContents : List Bytes :=
  (deletedFileKeys s w ++ deletedDirKeys s w).map fun key => (removalPair s key).2

def computeWorkingDirectoryDelta : Except RepoError (List Atom × List Bytes) := do
  let (rustAtoms, contents) ← rustDelta plugin s w w.collectRsFiles
  .ok (rustAtoms ++ treeAtoms s w, contents ++ treeContents s w)

end Delta

theorem tokenHash_blobToken (hash : Blake3Hash) : tokenHash (blobToken hash) = some hash := by
  have hlen : (utf8 "ARC_BLOB_REF:").length = 13 := by
    rw [utf8_eq]
    rfl
  have htoken : Repo.isBlobToken (blobToken hash) = true := by
    rw [Repo.isBlobToken, Bool.and_eq_true, List.isPrefixOf_iff_prefix, decide_eq_true_eq]
    refine ⟨List.prefix_append _ _, ?_⟩
    rw [blobToken, List.length_append, hlen, hash.length_asBytes]
  have hdrop : (blobToken hash).drop 13 = hash.asBytes := by
    rw [blobToken, ← hlen, List.drop_left]
  rw [tokenHash, if_pos htoken, hdrop, List.take_of_length_le hash.length_asBytes.le,
    Bincode.ofBytes_asBytes]

section RustDelta

variable {plugin : LanguagePlugin} {s : MaterializedState} {w : WorkTree} {files : List String}

theorem rustDelta_eq (htext : ∀ filepath ∈ files, w.text filepath ≠ none) :
    rustDelta plugin s w files
      = patchFiles plugin (plugin.unparse s) (fun filepath => (w.text filepath).getD "") files := by
  induction files with
  | nil => rfl
  | cons filepath files ih =>
      obtain ⟨hfirst, hrest⟩ := List.forall_mem_cons.mp htext
      obtain ⟨src, hsrc⟩ := Option.ne_none_iff_exists'.mp hfirst
      rw [rustDelta, patchFiles, hsrc, ih hrest]
      rfl

theorem text_ne_none_of_rustDelta {out : List Atom × List Bytes}
    (h : rustDelta plugin s w files = .ok out) : ∀ filepath ∈ files, w.text filepath ≠ none := by
  induction files generalizing out with
  | nil => simp
  | cons filepath files ih =>
      rw [rustDelta] at h
      cases hsrc : w.text filepath with
      | none =>
          rw [hsrc] at h
          cases h
      | some src =>
          rw [hsrc] at h
          dsimp only at h
          refine List.forall_mem_cons.mpr ⟨by rw [hsrc]; exact Option.some_ne_none _, ?_⟩
          split_ifs at h
          · exact ih h
          · obtain ⟨ast, -, hdiff⟩ := Except.bind_eq_ok_iff.mp h
            obtain ⟨rest, hrest, -⟩ := Except.bind_eq_ok_iff.mp hdiff
            exact ih hrest

end RustDelta

/-! ## What the atoms do -/

section Ops

variable {s : MaterializedState} {w : WorkTree} {key : NodePath}

theorem mem_keysOfFile_iff {filepath : String} :
    key ∈ keysOfFile s filepath
      ↔ s.lookup key ≠ none ∧ ∃ path, key = "file" :: filepath :: path := by
  rw [keysOfFile, List.mem_filter, mem_sorted_keys_iff, decide_eq_true_eq]
  refine and_congr_right fun _ => ⟨?_, ?_⟩
  · rintro ⟨hlen, htake⟩
    rcases key with _ | ⟨kind, _ | ⟨file, path⟩⟩
    · simp at hlen
    · simp at hlen
    · obtain ⟨rfl, rfl⟩ : kind = "file" ∧ file = filepath := by simpa using htake
      exact ⟨path, rfl⟩
  · rintro ⟨path, rfl⟩
    simp

theorem mem_extractFilepathsFromState_iff {filepath : String} :
    filepath ∈ extractFilepathsFromState s
      ↔ ∃ path, s.lookup ("file" :: filepath :: path) ≠ none := by
  rw [extractFilepathsFromState, Finset.mem_eraseNone, Finset.mem_image]
  constructor
  · rintro ⟨key, hkey, hfile⟩
    rcases key with _ | ⟨kind, _ | ⟨file, path⟩⟩
    · simp [fileOfPath] at hfile
    · simp [fileOfPath] at hfile
    · obtain ⟨rfl, rfl⟩ : kind = "file" ∧ file = filepath := by simpa [fileOfPath] using hfile
      exact ⟨path, fun hnone => FMap.notMem_keys_iff.mpr hnone hkey⟩
  · rintro ⟨path, hlook⟩
    refine ⟨"file" :: filepath :: path, ?_, by simp [fileOfPath]⟩
    by_contra hkey
    exact hlook (FMap.notMem_keys_iff.mp hkey)

theorem mem_deletedFileKeys_iff :
    key ∈ deletedFileKeys s w ↔ s.lookup key ≠ none
      ∧ ∃ filepath path, key = "file" :: filepath :: path ∧ w.exists_ filepath = false := by
  rw [deletedFileKeys, List.mem_flatMap]
  constructor
  · rintro ⟨filepath, hfile, hkey⟩
    obtain ⟨hlook, path, rfl⟩ := mem_keysOfFile_iff.mp hkey
    have hgone := (List.mem_filter.mp hfile).2
    rw [Bool.not_eq_true'] at hgone
    exact ⟨hlook, filepath, path, rfl, hgone⟩
  · rintro ⟨hlook, filepath, path, rfl, hgone⟩
    refine ⟨filepath, List.mem_filter.mpr ⟨?_, by rw [hgone]; rfl⟩,
      mem_keysOfFile_iff.mpr ⟨hlook, path, rfl⟩⟩
    rw [Finset.mem_sorted, mem_extractFilepathsFromState_iff]
    exact ⟨path, hlook⟩

theorem mem_existingDirs_iff {dir : String} :
    dir ∈ existingDirs s ↔ s.lookup ["dir", dir] ≠ none := by
  simp only [existingDirs, List.mem_filterMap, List.mem_filter, mem_sorted_keys_iff,
    decide_eq_true_eq]
  constructor
  · rintro ⟨key, ⟨hlook, hlen, hkind⟩, hdir⟩
    obtain ⟨kind, name, rfl⟩ := List.length_eq_two.mp hlen
    obtain rfl : kind = "dir" := by simpa using hkind
    obtain rfl : name = dir := by simpa using hdir
    exact hlook
  · intro hlook
    exact ⟨["dir", dir], ⟨hlook, rfl, rfl⟩, rfl⟩

theorem nodup_keysOfFiles {files : List String} (h : files.Nodup) :
    (files.flatMap (keysOfFile s)).Nodup := by
  refine List.nodup_flatMap.mpr ⟨fun filepath _ => (Finset.nodup_sorted _).filter _,
    h.imp fun {a b} hne key ha hb => ?_⟩
  obtain ⟨-, path, rfl⟩ := mem_keysOfFile_iff.mp ha
  obtain ⟨-, path', heq⟩ := mem_keysOfFile_iff.mp hb
  simp only [List.cons.injEq, true_and] at heq
  exact hne heq.1

theorem map_existingDirs :
    (existingDirs s).map (fun dir => ["dir", dir])
      = s.keys.sorted.filter fun key => decide (key.length = 2 ∧ key.head? = some "dir") := by
  rw [existingDirs, List.map_filterMap, List.filterMap_eq_map_iff_forall_eq_some.mpr, List.map_id]
  intro key hkey
  obtain ⟨hlen, hkind⟩ := of_decide_eq_true (List.mem_filter.mp hkey).2
  obtain ⟨kind, name, rfl⟩ := List.length_eq_two.mp hlen
  obtain rfl : kind = "dir" := by simpa using hkind
  rfl

theorem nodup_existingDirs : (existingDirs s).Nodup := by
  refine List.Nodup.of_map (fun dir => ["dir", dir]) ?_
  rw [map_existingDirs]
  exact (Finset.nodup_sorted _).filter _

theorem mem_deletedDirKeys_iff :
    key ∈ deletedDirKeys s w
      ↔ ∃ dir, key = ["dir", dir] ∧ s.lookup ["dir", dir] ≠ none ∧ w.exists_ dir = false := by
  simp only [deletedDirKeys, List.mem_map, List.mem_filter, Bool.not_eq_true',
    mem_existingDirs_iff]
  exact exists_congr fun dir => ⟨fun h => ⟨h.2.symm, h.1⟩, fun h => ⟨h.2, h.1.symm⟩⟩

theorem mem_newDirs_iff {dir : String} :
    dir ∈ newDirs s w ↔ dir ∈ w.collectEmptyDirs ∧ s.lookup ["dir", dir] = none := by
  rw [newDirs, List.mem_filter, decide_eq_true_eq, mem_existingDirs_iff, not_not]

theorem isRust_of_mem_nonRsFiles {filepath : String} (h : filepath ∈ nonRsFiles s w) :
    isRust filepath = false := by
  have hkept := (List.mem_filter.mp h).2
  rw [Bool.and_eq_true, Bool.not_eq_true'] at hkept
  exact hkept.1

theorem WorkTree.IgnoresNothing.mem_nonRsFiles (h : w.IgnoresNothing) {filepath : String}
    (hrust : isRust filepath = false) (hfile : filepath ∈ w.files.keys) :
    filepath ∈ nonRsFiles s w := by
  obtain ⟨hreach, hplain⟩ := h filepath hfile
  refine List.mem_filter.mpr ⟨List.mem_filter.mpr ⟨Finset.mem_sorted.mpr hfile, hreach⟩, ?_⟩
  rw [hrust, hplain, Bool.not_false, Bool.or_true, Bool.and_true]

variable [Crypto]

def blobEntry (s : MaterializedState) (w : WorkTree) (filepath : String) :
    Option (NodePath × EntryOp Bytes) :=
  (w.files.lookup filepath).bind fun bytes => (blobAtom s filepath bytes).map fun _ =>
    (["file", filepath], .write (blobToken (Crypto.hashBytes bytes)))

def blobEntries (s : MaterializedState) (w : WorkTree) : List (NodePath × EntryOp Bytes) :=
  (nonRsFiles s w).filterMap (blobEntry s w)

def treeEntries (s : MaterializedState) (w : WorkTree) : List (NodePath × EntryOp Bytes) :=
  blobEntries s w ++ (deletedFileKeys s w).map (fun key => (key, .remove))
    ++ (newDirs s w).map (fun dir => (["dir", dir], .ensure []))
    ++ (deletedDirKeys s w).map fun key => (key, .remove)

theorem filterMap_entryOp_treeAtoms (store : BlobStore) :
    (treeAtoms s w).filterMap (Atom.entryOp store) = treeEntries s w := by
  rw [treeAtoms, treeEntries, List.filterMap_append, List.filterMap_append, List.filterMap_append,
    List.filterMap_map, List.filterMap_map, List.filterMap_map]
  congr 1
  · congr 1
    · congr 1
      · rw [blobAtoms, blobEntries, List.filterMap_filterMap]
        refine List.filterMap_congr fun filepath _ => ?_
        rw [blobEntry]
        cases w.files.lookup filepath with
        | none => rfl
        | some bytes =>
            simp only [Option.bind_some, blobAtom]
            split_ifs <;> rfl
      · exact congrFun List.filterMap_eq_map _
    · exact congrFun List.filterMap_eq_map _
  · exact congrFun List.filterMap_eq_map _

theorem blobEntry_eq_some_iff {filepath : String} {op : EntryOp Bytes} :
    blobEntry s w filepath = some (key, op) ↔ ∃ bytes, w.files.lookup filepath = some bytes
      ∧ (s.lookup ["file", filepath]).bind tokenHash ≠ some (Crypto.hashBytes bytes)
      ∧ key = ["file", filepath] ∧ op = .write (blobToken (Crypto.hashBytes bytes)) := by
  rw [blobEntry, Option.bind_eq_some_iff]
  refine exists_congr fun bytes => and_congr_right fun _ => ?_
  rw [blobAtom]
  split_ifs with hsame
  · simp [hsame]
  · simp [hsame, eq_comm]

theorem mem_blobEntries_iff {op : EntryOp Bytes} :
    (key, op) ∈ blobEntries s w ↔ ∃ filepath bytes, filepath ∈ nonRsFiles s w
      ∧ w.files.lookup filepath = some bytes
      ∧ (s.lookup ["file", filepath]).bind tokenHash ≠ some (Crypto.hashBytes bytes)
      ∧ key = ["file", filepath] ∧ op = .write (blobToken (Crypto.hashBytes bytes)) := by
  rw [blobEntries, List.mem_filterMap]
  refine exists_congr fun filepath => ?_
  rw [blobEntry_eq_some_iff, exists_and_left]

theorem mem_treeEntries_iff {op : EntryOp Bytes} :
    (key, op) ∈ treeEntries s w ↔ (key, op) ∈ blobEntries s w
      ∨ (key ∈ deletedFileKeys s w ∧ op = .remove)
      ∨ (∃ dir ∈ newDirs s w, key = ["dir", dir] ∧ op = .ensure [])
      ∨ key ∈ deletedDirKeys s w ∧ op = .remove := by
  rw [treeEntries, List.mem_append, List.mem_append, List.mem_append, or_assoc, or_assoc]
  refine or_congr_right (or_congr ?_ (or_congr ?_ ?_)) <;> simp [eq_comm]

theorem nodup_blobEntries : ((blobEntries s w).map Prod.fst).Nodup := by
  have hkey {filepath : String} {entry : NodePath × EntryOp Bytes}
      (hentry : blobEntry s w filepath = some entry) : entry.1 = ["file", filepath] := by
    obtain ⟨bytes, -, -, hkey, -⟩ := blobEntry_eq_some_iff.mp hentry
    exact hkey
  rw [blobEntries, List.Nodup, List.pairwise_map, List.pairwise_filterMap]
  have hfiles : (nonRsFiles s w).Nodup := ((Finset.nodup_sorted _).filter _).filter _
  refine hfiles.imp fun {a b} hne entry hentry entry' hentry' hsame => hne ?_
  rw [hkey hentry, hkey hentry'] at hsame
  simpa using hsame

/-- No key has two operations: what is written is there, what is removed is not, and a new directory
has not been recorded. -/
theorem nodup_treeEntries : ((treeEntries s w).map Prod.fst).Nodup := by
  have hid (keys : List NodePath) :
      (keys.map fun key => (key, (EntryOp.remove : EntryOp Bytes))).map Prod.fst = keys := by
    rw [List.map_map]
    exact List.map_id _
  have hblob {key : NodePath} (h : key ∈ (blobEntries s w).map Prod.fst) :
      ∃ filepath, key = ["file", filepath] ∧ w.exists_ filepath = true := by
    obtain ⟨⟨_, op⟩, hentry, rfl⟩ := List.mem_map.mp h
    obtain ⟨filepath, bytes, -, hbytes, -, hkey, -⟩ := mem_blobEntries_iff.mp hentry
    exact ⟨filepath, hkey, decide_eq_true (Or.inl (FMap.mem_keys_of_lookup hbytes))⟩
  have hfile {key : NodePath}
      (h : key ∈ (blobEntries s w).map Prod.fst ++ deletedFileKeys s w) :
      ∃ filepath path, key = "file" :: filepath :: path := by
    rcases List.mem_append.mp h with h | h
    · obtain ⟨filepath, rfl, -⟩ := hblob h
      exact ⟨filepath, [], rfl⟩
    · obtain ⟨-, filepath, path, rfl, -⟩ := mem_deletedFileKeys_iff.mp h
      exact ⟨filepath, path, rfl⟩
  rw [treeEntries, List.map_append, List.map_append, List.map_append, hid, hid, List.map_map]
  refine List.nodup_append.mpr ⟨List.nodup_append.mpr ⟨List.nodup_append.mpr
    ⟨nodup_blobEntries, nodup_keysOfFiles ((Finset.nodup_sorted _).filter _), ?_⟩, ?_, ?_⟩, ?_, ?_⟩
  · rintro key hkey _ hdeleted rfl
    obtain ⟨filepath, rfl, hin⟩ := hblob hkey
    obtain ⟨-, file, path, heq, hgone⟩ := mem_deletedFileKeys_iff.mp hdeleted
    obtain rfl : filepath = file := by simpa using (List.cons.inj (List.cons.inj heq).2).1
    rw [hin] at hgone
    cases hgone
  · exact (((Finset.nodup_sorted _).filter _).filter _).map fun a b hab => by simpa using hab
  · rintro key hkey _ hnew rfl
    obtain ⟨filepath, path, heq⟩ := hfile hkey
    obtain ⟨dir, -, rfl⟩ := List.mem_map.mp hnew
    simp at heq
  · exact (nodup_existingDirs.filter _).map fun a b hab => by simpa using hab
  · rintro key hkey _ hremoved rfl
    obtain ⟨dir, rfl, hlook, -⟩ := mem_deletedDirKeys_iff.mp hremoved
    rcases List.mem_append.mp hkey with hkey | hnew
    · obtain ⟨filepath, path, heq⟩ := hfile hkey
      simp at heq
    · obtain ⟨dir', hdir', heq⟩ := List.mem_map.mp hnew
      obtain rfl : dir' = dir := by simpa using heq
      exact hlook (mem_newDirs_iff.mp hdir').2

/-! ## The entries after the atoms -/

section After

variable {store : BlobStore} {others : List Atom} (hperm : others.Perm (treeAtoms s w))

include hperm

theorem perm_entries : (others.filterMap (Atom.entryOp store)).Perm (treeEntries s w) := by
  rw [← filterMap_entryOp_treeAtoms store]
  exact hperm.filterMap _

theorem opsAtKey_tree_of_mem {op : EntryOp Bytes} (h : (key, op) ∈ treeEntries s w) :
    opsAtKey store key others = [op] :=
  EntryOp.opsAt_eq_singleton (((perm_entries hperm).map _).nodup_iff.mpr nodup_treeEntries)
    ((perm_entries hperm).mem_iff.mpr h)

theorem opsAtKey_tree_eq_nil (h : ∀ op, (key, op) ∉ treeEntries s w) :
    opsAtKey store key others = [] :=
  EntryOp.opsAt_eq_nil fun op hmem => h op ((perm_entries hperm).mem_iff.mp hmem)

theorem isSome_entryOp_tree : ∀ atom ∈ others, (atom.entryOp store).isSome := by
  intro atom hatom
  rcases List.mem_append.mp (hperm.mem_iff.mp hatom) with h | h
  · rcases List.mem_append.mp h with h | h
    · rcases List.mem_append.mp h with h | h
      · obtain ⟨filepath, -, hblob⟩ := List.mem_filterMap.mp h
        obtain ⟨bytes, -, hblob⟩ := Option.bind_eq_some_iff.mp hblob
        rw [blobAtom] at hblob
        split_ifs at hblob
        obtain rfl := Option.some_inj.mp hblob
        rfl
      · obtain ⟨removed, -, rfl⟩ := List.mem_map.mp h
        rfl
    · obtain ⟨dir, -, rfl⟩ := List.mem_map.mp h
      rfl
  · obtain ⟨removed, -, rfl⟩ := List.mem_map.mp h
    rfl

theorem safe_tree (key : NodePath) :
    EntryOp.Safe (s.lookup key).isSome (opsAtKey store key others) = true := by
  by_cases h : ∃ op, (key, op) ∈ treeEntries s w
  · obtain ⟨op, hop⟩ := h
    rw [opsAtKey_tree_of_mem hperm hop]
    have hpresent (hlook : s.lookup key ≠ none) :
        EntryOp.Safe (s.lookup key).isSome [(EntryOp.remove : EntryOp Bytes)] = true := by
      rw [EntryOp.Safe, Option.isSome_iff_ne_none.mpr hlook]
      rfl
    rcases mem_treeEntries_iff.mp hop with hblob | ⟨hkey, rfl⟩ | ⟨dir, -, -, rfl⟩ | ⟨hkey, rfl⟩
    · obtain ⟨_, _, -, -, -, -, rfl⟩ := mem_blobEntries_iff.mp hblob
      rfl
    · exact hpresent (mem_deletedFileKeys_iff.mp hkey).1
    · rfl
    · obtain ⟨dir, rfl, hlook, -⟩ := mem_deletedDirKeys_iff.mp hkey
      exact hpresent hlook
  · rw [opsAtKey_tree_eq_nil hperm fun op hop => h ⟨op, hop⟩]
    rfl

theorem final_tree_removed (hkey : key ∈ deletedFileKeys s w ∨ key ∈ deletedDirKeys s w) :
    EntryOp.final (s.lookup key) (opsAtKey store key others) = none := by
  have hop : (key, .remove) ∈ treeEntries s w := by
    rw [mem_treeEntries_iff]
    exact Or.inr (hkey.elim (fun h => Or.inl ⟨h, rfl⟩) fun h => Or.inr (Or.inr ⟨h, rfl⟩))
  rw [opsAtKey_tree_of_mem hperm hop]
  rfl

theorem opsAtKey_tree_of_kept {filepath : String} {path : NodePath}
    (hblob : ∀ op, ("file" :: filepath :: path, op) ∉ blobEntries s w)
    (hkept : "file" :: filepath :: path ∉ deletedFileKeys s w) :
    opsAtKey store ("file" :: filepath :: path) others = [] := by
  refine opsAtKey_tree_eq_nil hperm fun op hop => ?_
  rcases mem_treeEntries_iff.mp hop with hwrite | ⟨hkey, -⟩ | ⟨dir, -, heq, -⟩ | ⟨hkey, -⟩
  · exact hblob op hwrite
  · exact hkept hkey
  · simp at heq
  · obtain ⟨dir, heq, -⟩ := mem_deletedDirKeys_iff.mp hkey
    simp at heq

theorem final_tree_unwritten {filepath : String} {path : NodePath}
    (hblob : ∀ op, ("file" :: filepath :: path, op) ∉ blobEntries s w) :
    EntryOp.final (s.lookup ("file" :: filepath :: path))
        (opsAtKey store ("file" :: filepath :: path) others)
      = if w.exists_ filepath then s.lookup ("file" :: filepath :: path) else none := by
  by_cases hdeleted : "file" :: filepath :: path ∈ deletedFileKeys s w
  · obtain ⟨-, file, rest, heq, hgone⟩ := mem_deletedFileKeys_iff.mp hdeleted
    obtain ⟨rfl, rfl⟩ : filepath = file ∧ path = rest := by simpa using heq
    rw [final_tree_removed hperm (Or.inl hdeleted), hgone]
    rfl
  · rw [opsAtKey_tree_of_kept hperm hblob hdeleted, EntryOp.final_nil]
    by_cases hexists : w.exists_ filepath = true
    · rw [if_pos hexists]
    · rw [if_neg hexists]
      by_contra hlook
      rw [Bool.not_eq_true] at hexists
      exact hdeleted (mem_deletedFileKeys_iff.mpr ⟨hlook, filepath, path, rfl, hexists⟩)

omit hperm in
theorem notMem_blobEntries {filepath : String} {path : NodePath}
    (hitem : path ≠ [] ∨ isRust filepath = true) (op : EntryOp Bytes) :
    ("file" :: filepath :: path, op) ∉ blobEntries s w := by
  intro hop
  obtain ⟨file, bytes, hfile, -, -, heq, -⟩ := mem_blobEntries_iff.mp hop
  obtain ⟨rfl, rfl⟩ : filepath = file ∧ path = [] := by simpa using heq
  rw [isRust_of_mem_nonRsFiles hfile] at hitem
  simp at hitem

theorem opsAtKey_tree_rust {filepath : String} (hrust : isRust filepath = true)
    (hexists : w.exists_ filepath = true) (path : NodePath) :
    opsAtKey store ("file" :: filepath :: path) others = [] := by
  refine opsAtKey_tree_of_kept hperm (notMem_blobEntries (Or.inr hrust)) fun hdeleted => ?_
  obtain ⟨-, file, rest, heq, hgone⟩ := mem_deletedFileKeys_iff.mp hdeleted
  obtain ⟨rfl, rfl⟩ : filepath = file ∧ path = rest := by simpa using heq
  rw [hexists] at hgone
  cases hgone

theorem final_tree_item {filepath : String} {path : NodePath}
    (hitem : path ≠ [] ∨ isRust filepath = true) :
    EntryOp.final (s.lookup ("file" :: filepath :: path))
        (opsAtKey store ("file" :: filepath :: path) others)
      = if w.exists_ filepath then s.lookup ("file" :: filepath :: path) else none := by
  exact final_tree_unwritten hperm (notMem_blobEntries hitem)

theorem final_tree_file {filepath : String}
    (hseen : filepath ∈ w.files.keys → filepath ∈ nonRsFiles s w) :
    EntryOp.final (s.lookup ["file", filepath]) (opsAtKey store ["file", filepath] others)
      = match w.files.lookup filepath with
        | some bytes =>
            if (s.lookup ["file", filepath]).bind tokenHash = some (Crypto.hashBytes bytes) then
              s.lookup ["file", filepath]
            else some (blobToken (Crypto.hashBytes bytes))
        | none => if w.exists_ filepath then s.lookup ["file", filepath] else none := by
  cases hbytes : w.files.lookup filepath with
  | some bytes =>
      dsimp only
      split_ifs with hsame
      · have hexists : w.exists_ filepath = true :=
          decide_eq_true (Or.inl (FMap.mem_keys_of_lookup hbytes))
        rw [final_tree_unwritten hperm fun op hop => ?_, if_pos hexists]
        obtain ⟨file, other, -, hother, hne, heq, -⟩ := mem_blobEntries_iff.mp hop
        obtain rfl : filepath = file := by simpa using heq
        obtain rfl := Option.some_inj.mp (hbytes.symm.trans hother)
        exact hne hsame
      · have hop : (["file", filepath], .write (blobToken (Crypto.hashBytes bytes)))
            ∈ treeEntries s w :=
          mem_treeEntries_iff.mpr (Or.inl (mem_blobEntries_iff.mpr
            ⟨filepath, bytes, hseen (FMap.mem_keys_of_lookup hbytes), hbytes, hsame, rfl, rfl⟩))
        rw [opsAtKey_tree_of_mem hperm hop]
        rfl
  | none =>
      dsimp only
      refine final_tree_unwritten hperm fun op hop => ?_
      obtain ⟨file, other, -, hother, -, heq, -⟩ := mem_blobEntries_iff.mp hop
      obtain rfl : filepath = file := by simpa using heq
      rw [hbytes] at hother
      cases hother

theorem final_tree_dir {dir : String} :
    EntryOp.final (s.lookup ["dir", dir]) (opsAtKey store ["dir", dir] others)
      = if s.lookup ["dir", dir] = none then if dir ∈ w.collectEmptyDirs then some [] else none
        else if w.exists_ dir then s.lookup ["dir", dir] else none := by
  have hnot {op : EntryOp Bytes} (hop : (["dir", dir], op) ∈ treeEntries s w) :
      dir ∈ newDirs s w ∧ op = .ensure [] ∨ ["dir", dir] ∈ deletedDirKeys s w := by
    rcases mem_treeEntries_iff.mp hop with hblob | ⟨hkey, -⟩ | ⟨dir', hnew, heq, rfl⟩ | ⟨hkey, -⟩
    · obtain ⟨file, bytes, -, -, -, heq, -⟩ := mem_blobEntries_iff.mp hblob
      simp at heq
    · obtain ⟨-, file, path, heq, -⟩ := mem_deletedFileKeys_iff.mp hkey
      simp at heq
    · obtain rfl : dir = dir' := by simpa using heq
      exact Or.inl ⟨hnew, rfl⟩
    · exact Or.inr hkey
  have hremoved : ["dir", dir] ∈ deletedDirKeys s w
      ↔ s.lookup ["dir", dir] ≠ none ∧ w.exists_ dir = false := by
    rw [mem_deletedDirKeys_iff]
    constructor
    · rintro ⟨dir', heq, h⟩
      obtain rfl : dir = dir' := by simpa using heq
      exact h
    · exact fun h => ⟨dir, rfl, h⟩
  split_ifs with hlook hempty hexists
  · have hop : (["dir", dir], .ensure []) ∈ treeEntries s w :=
      mem_treeEntries_iff.mpr (Or.inr (Or.inr (Or.inl
        ⟨dir, mem_newDirs_iff.mpr ⟨hempty, hlook⟩, rfl, rfl⟩)))
    rw [opsAtKey_tree_of_mem hperm hop, hlook]
    rfl
  · rw [opsAtKey_tree_eq_nil hperm fun op hop => ?_, EntryOp.final_nil, hlook]
    rcases hnot hop with ⟨hnew, -⟩ | hkey
    · exact hempty (mem_newDirs_iff.mp hnew).1
    · exact (hremoved.mp hkey).1 hlook
  · rw [opsAtKey_tree_eq_nil hperm fun op hop => ?_, EntryOp.final_nil]
    rcases hnot hop with ⟨hnew, -⟩ | hkey
    · exact hlook (mem_newDirs_iff.mp hnew).2
    · have hgone := (hremoved.mp hkey).2
      rw [hexists] at hgone
      cases hgone
  · rw [Bool.not_eq_true] at hexists
    exact final_tree_removed hperm (Or.inr (hremoved.mpr ⟨hlook, hexists⟩))

end After

end Ops

end ArcVcs
