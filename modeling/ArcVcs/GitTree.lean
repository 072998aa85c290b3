import ArcVcs.GitObject
import ArcVcs.Lib.Collections
import ArcVcs.Lib.SortedMap
import Mathlib.Data.String.Basic

/-!
# Git trees of a file map

`compile_tree` groups the paths of a map into directories and writes every file and every directory
to an object database. The map is a hash map, so that its files come in any order.
-/

namespace ArcVcs.Git

def gitObjectTree : UInt8 := 2

def gitObjectBlob : UInt8 := 3

def fileMode : UInt32 := 0o100644

abbrev GitOdb := FMap GitSha1 (UInt8 × Bytes)

inductive DirNode where
  | mk (dirs : List (String × DirNode)) (files : List (String × String))

namespace DirNode

def default : DirNode := .mk [] []

/-- The file of some segments, from a node on. -/
def insert (path content : String) : List String → DirNode → Except String DirNode
  | [], node => .ok node
  | [fileName], .mk dirs files =>
      if (dirs.lookup fileName).isSome then
        .error ("invalid projected state: path '" ++ path
          ++ "' collides with an existing directory")
      else .ok (.mk dirs (SortedMap.insert fileName content files))
  | segment :: segment' :: rest, .mk dirs files =>
      if (files.lookup segment).isSome then
        .error ("invalid projected state: path segment '" ++ segment
          ++ "' is both file and directory")
      else do
        let child ← insert path content (segment' :: rest)
          ((dirs.lookup segment).getD DirNode.default)
        .ok (.mk (SortedMap.insert segment child dirs) files)

end DirNode

/-- `path.split('/')` without the empty parts. -/
def segments (path : String) : List String :=
  ((path.toList.splitOn '/').filter fun part => part ≠ []).map String.ofList

/-- The files of the map in the order of an iteration. -/
def buildTree (state : List (String × String)) : Except String DirNode :=
  state.foldlM (fun root file => root.insert file.1 file.2 (segments file.1)) DirNode.default

/-- The loop over the files of a directory. -/
def compileFiles [Sha1] : List (String × String) → GitOdb →
    List (String × GitSha1 × UInt32) × GitOdb
  | [], odb => ([], odb)
  | (name, content) :: files, odb =>
      let (blobId, payload) := hashBlob (utf8 content)
      let (entries, odb) := compileFiles files (odb.insert blobId (gitObjectBlob, payload))
      ((name, blobId, fileMode) :: entries, odb)

mutual

def compileDir [Sha1] : DirNode → GitOdb → GitSha1 × GitOdb
  | .mk dirs files, odb =>
      let (fileEntries, odb) := compileFiles files odb
      let (dirEntries, odb) := compileDirs dirs odb
      let (treeId, payload) := hashTree (fileEntries ++ dirEntries)
      (treeId, odb.insert treeId (gitObjectTree, payload))

/-- The loop over the directories of a directory. -/
def compileDirs [Sha1] : List (String × DirNode) → GitOdb →
    List (String × GitSha1 × UInt32) × GitOdb
  | [], odb => ([], odb)
  | (name, child) :: dirs, odb =>
      let (treeId, odb) := compileDir child odb
      let (entries, odb) := compileDirs dirs odb
      ((name, treeId, dirMode) :: entries, odb)

end

def compileTree [Sha1] (state : List (String × String)) (odb : GitOdb) :
    Except String (GitSha1 × GitOdb) := do
  let root ← buildTree state
  return compileDir root odb

/-! ## What a compilation writes -/

/-- An id with a kind and a payload. -/
abbrev GitObject := GitSha1 × UInt8 × Bytes

section

variable [Sha1]

def fileEntry (file : String × String) : GitTreeEntry :=
  ⟨fileMode, file.1, (hashBlob (utf8 file.2)).1⟩

def blobObject (file : String × String) : GitObject :=
  ((hashBlob (utf8 file.2)).1, gitObjectBlob, utf8 file.2)

def treeObject (entries : List GitTreeEntry) : GitObject :=
  let (treeId, payload) := hashTree (entries.map GitTreeEntry.toTuple)
  (treeId, gitObjectTree, payload)

mutual

def DirNode.entries : DirNode → List GitTreeEntry
  | .mk dirs files => files.map fileEntry ++ dirEntries dirs

def dirEntries : List (String × DirNode) → List GitTreeEntry
  | [] => []
  | (name, child) :: dirs => ⟨dirMode, name, (treeObject child.entries).1⟩ :: dirEntries dirs

end

mutual

/-- The objects of a node, in the order of the writes. -/
def DirNode.objects : DirNode → List GitObject
  | .mk dirs files =>
      files.map blobObject ++ dirObjects dirs ++ [treeObject (DirNode.mk dirs files).entries]

def dirObjects : List (String × DirNode) → List GitObject
  | [] => []
  | (_, child) :: dirs => child.objects ++ dirObjects dirs

end

def DirNode.id (node : DirNode) : GitSha1 := (treeObject node.entries).1

theorem dirEntries_eq (dirs : List (String × DirNode)) :
    dirEntries dirs = dirs.map fun dir => ⟨dirMode, dir.1, dir.2.id⟩ := by
  induction dirs with
  | nil => rfl
  | cons dir dirs ih => rw [dirEntries, ih, List.map_cons, DirNode.id]

theorem dirObjects_eq (dirs : List (String × DirNode)) :
    dirObjects dirs = dirs.flatMap fun dir => dir.2.objects := by
  induction dirs with
  | nil => rfl
  | cons dir dirs ih => rw [dirObjects, ih, List.flatMap_cons]

theorem compileFiles_eq (files : List (String × String)) (odb : GitOdb) :
    compileFiles files odb
      = ((files.map fileEntry).map GitTreeEntry.toTuple, odb.insertAll (files.map blobObject)) := by
  induction files generalizing odb with
  | nil => rfl
  | cons file files ih =>
      rw [compileFiles]
      dsimp only
      rw [ih]
      rfl

mutual

theorem compileDir_eq : ∀ (node : DirNode) (odb : GitOdb),
    compileDir node odb = (node.id, odb.insertAll node.objects)
  | .mk dirs files, odb => by
      have hdirs := compileDirs_eq dirs (odb.insertAll (files.map blobObject))
      rw [compileDir, compileFiles_eq]
      dsimp only
      rw [hdirs]
      dsimp only
      rw [← List.map_append, DirNode.id, DirNode.objects, DirNode.entries, FMap.insertAll_append,
        FMap.insertAll_append]
      rfl

theorem compileDirs_eq : ∀ (dirs : List (String × DirNode)) (odb : GitOdb),
    compileDirs dirs odb
      = ((dirEntries dirs).map GitTreeEntry.toTuple, odb.insertAll (dirObjects dirs))
  | [], _ => rfl
  | (name, child) :: dirs, odb => by
      have hchild := compileDir_eq child odb
      have hdirs := compileDirs_eq dirs (odb.insertAll child.objects)
      rw [compileDirs, hchild]
      dsimp only
      rw [hdirs, dirObjects, FMap.insertAll_append]
      rfl

end

end

/-! ## The files of a node -/

namespace DirNode

/-- The content of the file at a list of segments. -/
def lookup : List String → DirNode → Option String
  | [], _ => none
  | [fileName], .mk _ files => files.lookup fileName
  | segment :: segment' :: rest, .mk dirs _ =>
      (dirs.lookup segment).bind (lookup (segment' :: rest))

/-- Sorted names, each of a file or of a directory, and no directory without a file in it. -/
inductive Valid : DirNode → Prop
  | mk {dirs : List (String × DirNode)} {files : List (String × String)}
      (sorted_dirs : SortedMap.Sorted dirs) (sorted_files : SortedMap.Sorted files)
      (disjoint : ∀ name child, dirs.lookup name = some child → files.lookup name = none)
      (valid : ∀ name child, dirs.lookup name = some child → child.Valid)
      (nonempty : ∀ name child, dirs.lookup name = some child →
        ∃ rest content, child.lookup rest = some content) :
      Valid (.mk dirs files)

theorem valid_default : DirNode.default.Valid := by
  refine .mk SortedMap.sorted_nil SortedMap.sorted_nil ?_ ?_ ?_ <;>
    exact fun name child h => by cases h

theorem lookup_default (path : List String) : DirNode.default.lookup path = none := by
  match path with
  | [] | [_] | _ :: _ :: _ => rfl

theorem lookup_cons {dirs : List (String × DirNode)} {files : List (String × String)}
    {segment : String} {rest : List String} (hrest : rest ≠ []) :
    (DirNode.mk dirs files).lookup (segment :: rest)
      = (dirs.lookup segment).bind (lookup rest) := by
  obtain ⟨segment', rest, rfl⟩ := List.exists_cons_of_ne_nil hrest
  rfl

theorem ne_nil_of_lookup {node : DirNode} {path : List String} {content : String}
    (h : node.lookup path = some content) : path ≠ [] := by
  rintro rfl
  cases h

theorem lookup_child {dirs : List (String × DirNode)} {files : List (String × String)}
    {name : String} {child : DirNode} (h : dirs.lookup name = some child) {rest : List String}
    {content : String} (hrest : child.lookup rest = some content) :
    (DirNode.mk dirs files).lookup (name :: rest) = some content := by
  rw [lookup_cons (ne_nil_of_lookup hrest), h]
  exact hrest

theorem Valid.lookup_iff {dirs : List (String × DirNode)} {files : List (String × String)}
    (h : (DirNode.mk dirs files).Valid) (path : List String) (content : String) :
    (DirNode.mk dirs files).lookup path = some content
      ↔ (∃ file ∈ files, path = [file.1] ∧ content = file.2)
        ∨ ∃ dir ∈ dirs, ∃ rest, path = dir.1 :: rest ∧ dir.2.lookup rest = some content := by
  obtain ⟨hdirs, hfiles, -, -, -⟩ := h
  constructor
  · intro hlook
    obtain ⟨segment, rest, rfl⟩ := List.exists_cons_of_ne_nil (ne_nil_of_lookup hlook)
    by_cases hrest : rest = []
    · subst hrest
      exact Or.inl ⟨(segment, content), hfiles.mem_iff.mpr hlook, rfl, rfl⟩
    · rw [lookup_cons hrest] at hlook
      obtain ⟨child, hchild, hcontent⟩ := Option.bind_eq_some_iff.mp hlook
      exact Or.inr ⟨(segment, child), hdirs.mem_iff.mpr hchild, rest, rfl, hcontent⟩
  · rintro (⟨file, hfile, rfl, rfl⟩ | ⟨dir, hdir, rest, rfl, hcontent⟩)
    · exact hfiles.mem_iff.mp hfile
    · exact lookup_child (hdirs.mem_iff.mp hdir) hcontent

theorem Valid.ext {node node' : DirNode} (h : node.Valid) (h' : node'.Valid)
    (heq : ∀ path, node.lookup path = node'.lookup path) : node = node' := by
  induction h generalizing node' with
  | @mk dirs files hdirs hfiles _ _ hne ih =>
      cases h' with
      | @mk dirs' files' hdirs' hfiles' _ hvalid' hne' =>
          have hf : files = files' := hfiles.ext hfiles' fun name => heq [name]
          have hd : dirs = dirs' := by
            refine hdirs.ext hdirs' fun name => ?_
            have hchild (rest : List String) (hrest : rest ≠ []) :
                (dirs.lookup name).bind (DirNode.lookup rest)
                  = (dirs'.lookup name).bind (DirNode.lookup rest) := by
              rw [← lookup_cons hrest, ← lookup_cons hrest]
              exact heq (name :: rest)
            cases hlook : dirs.lookup name with
            | none =>
                cases hlook' : dirs'.lookup name with
                | none => rfl
                | some child' =>
                    obtain ⟨rest, content, hcontent⟩ := hne' name child' hlook'
                    have hsame := hchild rest (ne_nil_of_lookup hcontent)
                    rw [hlook, hlook', Option.bind_some, hcontent] at hsame
                    cases hsame
            | some child =>
                obtain ⟨rest, content, hcontent⟩ := hne name child hlook
                have hsame := hchild rest (ne_nil_of_lookup hcontent)
                cases hlook' : dirs'.lookup name with
                | none =>
                    rw [hlook, hlook', Option.bind_some, hcontent] at hsame
                    cases hsame
                | some child' =>
                    refine congrArg some (ih name child hlook (hvalid' name child' hlook') ?_)
                    intro rest'
                    by_cases hrest' : rest' = []
                    · rw [hrest']
                      rfl
                    · have hsame' := hchild rest' hrest'
                      rwa [hlook, hlook'] at hsame'
          rw [hf, hd]

/-- One of two paths is a directory of the other. -/
def Clashes (path path' : List String) : Prop := path ≠ path' ∧ (path <+: path' ∨ path' <+: path)

theorem clashes_cons {segment : String} {path path' : List String} :
    Clashes (segment :: path) (segment :: path') ↔ Clashes path path' := by
  simp [Clashes]

theorem head_eq_of_clashes {segment segment' : String} {path path' : List String}
    (h : Clashes (segment :: path) (segment' :: path')) : segment = segment' := by
  rcases h.2 with hprefix | hprefix
  · exact (List.cons_prefix_cons.mp hprefix).1
  · exact (List.cons_prefix_cons.mp hprefix).1.symm

theorem clashes_singleton {dirs : List (String × DirNode)} {files : List (String × String)}
    (h : (DirNode.mk dirs files).Valid) {fileName : String} :
    (dirs.lookup fileName).isSome
      ↔ ∃ path content, (DirNode.mk dirs files).lookup path = some content
        ∧ Clashes [fileName] path := by
  obtain ⟨-, -, -, -, hne⟩ := h
  constructor
  · intro hsome
    obtain ⟨child, hchild⟩ := Option.isSome_iff_exists.mp hsome
    obtain ⟨rest, content, hcontent⟩ := hne fileName child hchild
    refine ⟨fileName :: rest, content, lookup_child hchild hcontent, clashes_cons.mpr ?_⟩
    exact ⟨(ne_nil_of_lookup hcontent).symm, Or.inl (List.nil_prefix)⟩
  · rintro ⟨path, content, hlook, hclash⟩
    obtain ⟨segment, rest, rfl⟩ := List.exists_cons_of_ne_nil (ne_nil_of_lookup hlook)
    obtain rfl := head_eq_of_clashes hclash
    have hrest : rest ≠ [] := by
      rintro rfl
      exact hclash.1 rfl
    rw [lookup_cons hrest] at hlook
    obtain ⟨child, hchild, -⟩ := Option.bind_eq_some_iff.mp hlook
    exact Option.isSome_of_eq_some hchild

theorem clashes_child {dirs : List (String × DirNode)} {files : List (String × String)}
    {segment : String} {rest : List String} (hfile : files.lookup segment = none) :
    (∃ path content, (DirNode.mk dirs files).lookup path = some content
        ∧ Clashes (segment :: rest) path)
      ↔ ∃ path content,
        ((dirs.lookup segment).getD DirNode.default).lookup path = some content
          ∧ Clashes rest path := by
  constructor
  · rintro ⟨path, content, hlook, hclash⟩
    obtain ⟨segment', path, rfl⟩ := List.exists_cons_of_ne_nil (ne_nil_of_lookup hlook)
    obtain rfl := head_eq_of_clashes hclash
    have hpath : path ≠ [] := by
      rintro rfl
      rw [show (DirNode.mk dirs files).lookup [segment] = files.lookup segment from rfl, hfile]
        at hlook
      cases hlook
    rw [lookup_cons hpath] at hlook
    obtain ⟨child, hchild, hcontent⟩ := Option.bind_eq_some_iff.mp hlook
    refine ⟨path, content, ?_, clashes_cons.mp hclash⟩
    rwa [hchild, Option.getD_some]
  · rintro ⟨path, content, hlook, hclash⟩
    cases hchild : dirs.lookup segment with
    | none =>
        rw [hchild, Option.getD_none, lookup_default] at hlook
        cases hlook
    | some child =>
        rw [hchild, Option.getD_some] at hlook
        exact ⟨segment :: path, content, lookup_child hchild hlook, clashes_cons.mpr hclash⟩

theorem valid_getD {dirs : List (String × DirNode)} {segment : String}
    (h : ∀ child, dirs.lookup segment = some child → child.Valid) :
    ((dirs.lookup segment).getD DirNode.default).Valid := by
  cases hlook : dirs.lookup segment with
  | none => exact valid_default
  | some child => exact h child hlook

theorem insert_error_iff {path content : String} {parts : List String} (hparts : parts ≠ [])
    {node : DirNode} (h : node.Valid) :
    (∃ error, node.insert path content parts = .error error)
      ↔ ∃ path' content', node.lookup path' = some content' ∧ Clashes parts path' := by
  induction parts generalizing node with
  | nil => exact absurd rfl hparts
  | cons segment rest ih =>
      obtain ⟨dirs, files⟩ := node
      cases rest with
      | nil =>
          rw [← clashes_singleton h, DirNode.insert]
          split_ifs with hdir <;> simp [hdir]
      | cons segment' rest =>
          rw [DirNode.insert]
          cases hfile : files.lookup segment with
          | some content' =>
              rw [Option.isSome_some, if_pos rfl]
              refine iff_of_true ⟨_, rfl⟩ ⟨[segment], content', hfile, clashes_cons.mpr ?_⟩
              exact ⟨by simp, Or.inr List.nil_prefix⟩
          | none =>
              obtain ⟨-, -, -, hvalid, -⟩ := h
              have hchild := valid_getD (hvalid segment)
              rw [clashes_child hfile, ← ih (by simp) hchild, Option.isSome_none,
                if_neg (by simp)]
              cases ((dirs.lookup segment).getD DirNode.default).insert path content
                (segment' :: rest) <;> simp [bind, Except.bind]

theorem lookup_insertFile {dirs : List (String × DirNode)} {files : List (String × String)}
    {fileName content : String} (path : List String) :
    (DirNode.mk dirs (SortedMap.insert fileName content files)).lookup path
      = if path = [fileName] then some content else (DirNode.mk dirs files).lookup path := by
  match path with
  | [] => simp [DirNode.lookup]
  | [segment] => simp [DirNode.lookup, SortedMap.lookup_insert]
  | _ :: _ :: _ => simp [DirNode.lookup]

theorem lookup_insertDir {dirs : List (String × DirNode)} {files : List (String × String)}
    {segment content : String} {rest : List String} (hrest : rest ≠ []) {child : DirNode}
    (hchild : ∀ path, child.lookup path = if path = rest then some content
      else ((dirs.lookup segment).getD DirNode.default).lookup path) (path : List String) :
    (DirNode.mk (SortedMap.insert segment child dirs) files).lookup path
      = if path = segment :: rest then some content
        else (DirNode.mk dirs files).lookup path := by
  match path with
  | [] => simp [DirNode.lookup]
  | [name] => simp [DirNode.lookup, hrest.symm]
  | name :: name' :: path =>
      rw [lookup_cons (by simp), lookup_cons (by simp), SortedMap.lookup_insert]
      by_cases hname : name = segment
      · subst hname
        rw [if_pos rfl, Option.bind_some, hchild]
        cases hlook : dirs.lookup name with
        | none => simp [lookup_default]
        | some child' => simp
      · simp [hname]

theorem insert_spec {path content : String} {parts : List String} (hparts : parts ≠ [])
    {node node' : DirNode} (h : node.Valid) (hok : node.insert path content parts = .ok node') :
    node'.Valid
      ∧ ∀ path', node'.lookup path' = if path' = parts then some content
        else node.lookup path' := by
  induction parts generalizing node node' with
  | nil => exact absurd rfl hparts
  | cons segment rest ih =>
      obtain ⟨hdirs, hfiles, hdisj, hvalid, hne⟩ := h
      rename_i dirs files
      cases rest with
      | nil =>
          rw [DirNode.insert] at hok
          split_ifs at hok with hdir
          cases hok
          refine ⟨.mk hdirs hfiles.insert (fun name child hlook => ?_) hvalid hne,
            lookup_insertFile⟩
          rw [SortedMap.lookup_insert, if_neg, hdisj name child hlook]
          rintro rfl
          exact hdir (Option.isSome_of_eq_some hlook)
      | cons segment' rest =>
          rw [DirNode.insert] at hok
          split_ifs at hok with hfile
          cases hins : ((dirs.lookup segment).getD DirNode.default).insert path content
              (segment' :: rest) with
          | error error =>
              rw [hins] at hok
              cases hok
          | ok child =>
              rw [hins] at hok
              cases hok
              obtain ⟨hchild, hlook⟩ := ih (by simp) (valid_getD (hvalid segment)) hins
              refine ⟨.mk hdirs.insert hfiles (fun name child' h => ?_) (fun name child' h => ?_)
                (fun name child' h => ?_), lookup_insertDir (by simp) hlook⟩
              all_goals
                rw [SortedMap.lookup_insert] at h
                split_ifs at h with hname
              · rw [hname]
                exact Option.not_isSome_iff_eq_none.mp hfile
              · exact hdisj name child' h
              · cases h
                exact hchild
              · exact hvalid name child' h
              · cases h
                exact ⟨segment' :: rest, content, by rw [hlook, if_pos rfl]⟩
              · exact hne name child' h

end DirNode

/-! ## The node of a map -/

/-- Two files of a map one of which is a directory of the other. -/
def DirClash (state : List (String × String)) : Prop :=
  ∃ file ∈ state, ∃ file' ∈ state, segments file.1 ≠ []
    ∧ segments file.1 ≠ segments file'.1 ∧ segments file.1 <+: segments file'.1

theorem dirClash_iff {state : List (String × String)} :
    DirClash state ↔ ∃ file ∈ state, ∃ file' ∈ state, segments file.1 ≠ [] ∧ segments file'.1 ≠ []
      ∧ DirNode.Clashes (segments file.1) (segments file'.1) := by
  constructor
  · rintro ⟨file, hfile, file', hfile', hne, hdiff, hprefix⟩
    refine ⟨file, hfile, file', hfile', hne, ?_, hdiff, Or.inl hprefix⟩
    intro hnil
    rw [hnil, List.prefix_nil] at hprefix
    exact hne hprefix
  · rintro ⟨file, hfile, file', hfile', hne, hne', hdiff, hprefix | hprefix⟩
    · exact ⟨file, hfile, file', hfile', hne, hdiff, hprefix⟩
    · exact ⟨file', hfile', file, hfile, hne', hdiff.symm, hprefix⟩

/-- A node with the files of a map. -/
structure DirNode.Holds (root : DirNode) (state : List (String × String)) : Prop where
  valid : root.Valid
  sound : ∀ path content, root.lookup path = some content →
    ∃ file ∈ state, segments file.1 = path ∧ file.2 = content
  complete : ∀ file ∈ state, segments file.1 ≠ [] →
    ∃ content, root.lookup (segments file.1) = some content

theorem DirNode.Holds.clashes_iff {root : DirNode} {state : List (String × String)}
    (h : root.Holds state) (parts : List String) :
    (∃ path content, root.lookup path = some content ∧ Clashes parts path)
      ↔ ∃ file ∈ state, segments file.1 ≠ [] ∧ Clashes parts (segments file.1) := by
  constructor
  · rintro ⟨path, content, hlook, hclash⟩
    obtain ⟨file, hfile, rfl, -⟩ := h.sound path content hlook
    exact ⟨file, hfile, ne_nil_of_lookup hlook, hclash⟩
  · rintro ⟨file, hfile, hne, hclash⟩
    obtain ⟨content, hlook⟩ := h.complete file hfile hne
    exact ⟨_, content, hlook, hclash⟩

theorem dirClash_append {state : List (String × String)} {file : String × String} :
    DirClash (state ++ [file]) ↔ DirClash state ∨ segments file.1 ≠ []
      ∧ ∃ file' ∈ state, segments file'.1 ≠ []
        ∧ DirNode.Clashes (segments file.1) (segments file'.1) := by
  simp only [dirClash_iff, List.mem_append, List.mem_singleton]
  constructor
  · rintro ⟨f, hf, g, hg, hne, hne', hclash⟩
    rcases hf with hf | rfl <;> rcases hg with hg | rfl
    · exact Or.inl ⟨f, hf, g, hg, hne, hne', hclash⟩
    · exact Or.inr ⟨hne', f, hf, hne, hclash.1.symm, hclash.2.symm⟩
    · exact Or.inr ⟨hne, g, hg, hne', hclash⟩
    · exact absurd rfl hclash.1
  · rintro (⟨f, hf, g, hg, hclash⟩ | ⟨hne, f, hf, hne', hclash⟩)
    · exact ⟨f, Or.inl hf, g, Or.inl hg, hclash⟩
    · exact ⟨file, Or.inr rfl, f, Or.inl hf, hne, hne', hclash⟩

theorem DirNode.Holds.insert {root root' : DirNode} {state : List (String × String)}
    (h : root.Holds state) {file : String × String}
    (hok : root.insert file.1 file.2 (segments file.1) = .ok root') :
    root'.Holds (state ++ [file]) := by
  by_cases hnil : segments file.1 = []
  · rw [hnil, DirNode.insert] at hok
    cases hok
    refine ⟨h.valid, fun path content hlook => ?_, fun f hf hne => ?_⟩
    · obtain ⟨f, hf, hsound⟩ := h.sound path content hlook
      exact ⟨f, List.mem_append_left _ hf, hsound⟩
    · rcases List.mem_append.mp hf with hf | hf
      · exact h.complete f hf hne
      · rw [List.mem_singleton.mp hf] at hne
        exact absurd hnil hne
  · obtain ⟨hvalid, hlookup⟩ := insert_spec hnil h.valid hok
    refine ⟨hvalid, fun path content hlook => ?_, fun f hf hne => ?_⟩
    · rw [hlookup] at hlook
      split_ifs at hlook with hpath
      · exact ⟨file, by simp, hpath.symm, Option.some_inj.mp hlook⟩
      · obtain ⟨f, hf, hsound⟩ := h.sound path content hlook
        exact ⟨f, List.mem_append_left _ hf, hsound⟩
    · rw [hlookup]
      split_ifs with hpath
      · exact ⟨_, rfl⟩
      · rcases List.mem_append.mp hf with hf | hf
        · exact h.complete f hf hne
        · rw [List.mem_singleton.mp hf] at hpath
          exact absurd rfl hpath

/-- By induction on the files from the last one. -/
theorem buildTree_cases (state : List (String × String)) :
    ((∃ error, buildTree state = .error error) ∧ DirClash state)
      ∨ ∃ root, buildTree state = .ok root ∧ root.Holds state ∧ ¬ DirClash state := by
  induction state using List.reverseRecOn with
  | nil =>
      refine Or.inr ⟨DirNode.default, rfl, ⟨DirNode.valid_default, ?_, ?_⟩, ?_⟩
      · intro path content h
        rw [DirNode.lookup_default] at h
        cases h
      · exact fun file h => absurd h List.not_mem_nil
      · rintro ⟨file, hfile, -⟩
        exact absurd hfile List.not_mem_nil
  | append_singleton state file ih =>
      have hbuild : buildTree (state ++ [file])
          = buildTree state >>= fun root => root.insert file.1 file.2 (segments file.1) := by
        rw [buildTree, List.foldlM_append]
        simp only [List.foldlM_cons, List.foldlM_nil, bind_pure]
        rfl
      rw [dirClash_append]
      rcases ih with ⟨⟨error, herror⟩, hclash⟩ | ⟨root, hroot, hholds, hno⟩
      · exact Or.inl ⟨⟨error, by rw [hbuild, herror]; rfl⟩, Or.inl hclash⟩
      · have hstep : buildTree (state ++ [file])
            = root.insert file.1 file.2 (segments file.1) := by
          rw [hbuild, hroot]
          rfl
        rw [hstep, ← hholds.clashes_iff]
        by_cases hnil : segments file.1 = []
        · refine Or.inr ⟨root, by rw [hnil, DirNode.insert], hholds.insert ?_, ?_⟩
          · rw [hnil, DirNode.insert]
          · rintro (hclash | ⟨hne, -⟩)
            · exact hno hclash
            · exact hne hnil
        · rw [← DirNode.insert_error_iff hnil hholds.valid]
          cases hins : root.insert file.1 file.2 (segments file.1) with
          | error error => exact Or.inl ⟨⟨error, rfl⟩, Or.inr ⟨hnil, error, rfl⟩⟩
          | ok root' =>
              refine Or.inr ⟨root', rfl, hholds.insert hins, ?_⟩
              rintro (hclash | ⟨-, error, herror⟩)
              · exact hno hclash
              · cases herror

end ArcVcs.Git
