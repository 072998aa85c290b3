import ArcVcs.GitTree

/-!
# Reading back the trees of a file map

The trees that `compile_tree` writes, read as git reads them: what is at an id, which files are
below it, and when these are the files of the map.
-/

namespace ArcVcs.Git

/-! ## Reading trees -/

def TreeAt (odb : GitOdb) (id : GitSha1) (entries : List GitTreeEntry) : Prop :=
  (∀ e ∈ entries, e.NoNul) ∧ odb.lookup id = some (gitObjectTree, entries.flatMap entryBytes)

theorem TreeAt.unique {odb : GitOdb} {id : GitSha1} {entries entries' : List GitTreeEntry}
    (h : TreeAt odb id entries) (h' : TreeAt odb id entries') : entries = entries' := by
  have heq : entries.flatMap entryBytes = entries'.flatMap entryBytes :=
    congrArg Prod.snd (Option.some_inj.mp (h.2.symm.trans h'.2))
  exact selfDelimiting_entryBytes.injOn_flatMap (fun e _ => by simp [entryBytes]) h.1 h'.1 heq

/-- The path of a file below a tree, with the id of its blob. -/
inductive Listed (odb : GitOdb) : GitSha1 → List String → GitSha1 → Prop
  | file {id : GitSha1} {entries : List GitTreeEntry} {e : GitTreeEntry}
      (tree : TreeAt odb id entries) (mem : e ∈ entries) (isDir : e.isDir = false) :
      Listed odb id [e.name] e.oid
  | dir {id : GitSha1} {entries : List GitTreeEntry} {e : GitTreeEntry} {path : List String}
      {blob : GitSha1} (tree : TreeAt odb id entries) (mem : e ∈ entries) (isDir : e.isDir = true)
      (listed : Listed odb e.oid path blob) : Listed odb id (e.name :: path) blob

theorem TreeAt.listed_iff {odb : GitOdb} {id : GitSha1} {entries : List GitTreeEntry}
    (h : TreeAt odb id entries) (path : List String) (blob : GitSha1) :
    Listed odb id path blob ↔ (∃ e ∈ entries, e.isDir = false ∧ path = [e.name] ∧ blob = e.oid)
      ∨ ∃ e ∈ entries, e.isDir = true
        ∧ ∃ rest, path = e.name :: rest ∧ Listed odb e.oid rest blob := by
  constructor
  · intro hlisted
    cases hlisted with
    | @file _ _ e tree mem isDir => exact Or.inl ⟨e, h.unique tree ▸ mem, isDir, rfl, rfl⟩
    | @dir _ _ e rest _ tree mem isDir listed =>
        exact Or.inr ⟨e, h.unique tree ▸ mem, isDir, rest, rfl, listed⟩
  · rintro (⟨e, he, hdir, rfl, rfl⟩ | ⟨e, he, hdir, rest, rfl, hlisted⟩)
    · exact .file h he hdir
    · exact .dir h he hdir hlisted

/-- The trees below a tree. -/
inductive Below (odb : GitOdb) (root : GitSha1) : GitSha1 → Prop
  | root : Below odb root root
  | dir {id : GitSha1} {entries : List GitTreeEntry} {e : GitTreeEntry} (below : Below odb root id)
      (tree : TreeAt odb id entries) (mem : e ∈ entries) (isDir : e.isDir = true) :
      Below odb root e.oid

/-- Every tree below the root can be read and names nothing twice, the trees list the files of the
map, and their blobs hold the contents. -/
structure ReadsBack [Sha1] (state : List (String × String)) (odb : GitOdb) (root : GitSha1) :
    Prop where
  trees : ∀ id, Below odb root id →
    ∃ entries, TreeAt odb id entries ∧ (entries.map GitTreeEntry.name).Nodup
  listed : ∀ path blob, Listed odb root path blob ↔
    ∃ file ∈ state, segments file.1 ≠ [] ∧ path = segments file.1
      ∧ blob = (hashBlob (utf8 file.2)).1
  blobs : ∀ file ∈ state, segments file.1 ≠ [] →
    odb.lookup (hashBlob (utf8 file.2)).1 = some (gitObjectBlob, utf8 file.2)

/-- No two objects have the same id. -/
def NoCollision (objects : List GitObject) : Prop :=
  ∀ o ∈ objects, ∀ o' ∈ objects, o.1 = o'.1 → o = o'

instance (objects : List GitObject) : Decidable (NoCollision objects) :=
  inferInstanceAs (Decidable (∀ _ ∈ _, _))

theorem NoCollision.lookup_insertAll {objects : List GitObject} (h : NoCollision objects)
    (odb : GitOdb) {o : GitObject} (ho : o ∈ objects) :
    (odb.insertAll objects).lookup o.1 = some o.2 := by
  obtain ⟨o', ho', hid, hlook⟩ :=
    FMap.lookup_insertAll_of_mem odb objects (List.mem_map_of_mem (f := Prod.fst) ho)
  rw [hlook, h o' ho' o ho hid]

def DirNode.NoNul (node : DirNode) : Prop :=
  ∀ path content, node.lookup path = some content → ∀ segment ∈ path, (0 : UInt8) ∉ utf8 segment

namespace DirNode

variable {dirs : List (String × DirNode)} {files : List (String × String)} {odb : GitOdb}

theorem NoNul.child (h : (DirNode.mk dirs files).NoNul) {name : String} {child : DirNode}
    (hchild : dirs.lookup name = some child) : child.NoNul :=
  fun _ content hlook segment hsegment =>
  h _ content (lookup_child hchild hlook) segment (List.mem_cons_of_mem _ hsegment)

variable [Sha1]

/-- All objects of a node are in the database. -/
def Stored (odb : GitOdb) (node : DirNode) : Prop :=
  ∀ o ∈ node.objects, odb.lookup o.1 = some o.2

theorem Stored.child (h : (DirNode.mk dirs files).Stored odb) {dir : String × DirNode}
    (hdir : dir ∈ dirs) : dir.2.Stored odb := by
  intro o ho
  refine h o ?_
  rw [objects, dirObjects_eq]
  exact List.mem_append_left _ (List.mem_append_right _ (List.mem_flatMap.mpr ⟨dir, hdir, ho⟩))

theorem mem_entries {e : GitTreeEntry} :
    e ∈ (DirNode.mk dirs files).entries
      ↔ (∃ file ∈ files, fileEntry file = e) ∨ ∃ dir ∈ dirs, ⟨dirMode, dir.1, dir.2.id⟩ = e := by
  rw [entries, dirEntries_eq, List.mem_append, List.mem_map, List.mem_map]

theorem Valid.noNul_entries (h : (DirNode.mk dirs files).Valid)
    (hnul : (DirNode.mk dirs files).NoNul) :
    ∀ e ∈ (DirNode.mk dirs files).entries, e.NoNul := by
  obtain ⟨hdirs, hfiles, -, -, hne⟩ := h
  intro e he
  rcases mem_entries.mp he with ⟨file, hfile, rfl⟩ | ⟨dir, hdir, rfl⟩
  · exact hnul [file.1] file.2 (hfiles.mem_iff.mp hfile) file.1 List.mem_cons_self
  · have hchild := hdirs.mem_iff.mp hdir
    obtain ⟨rest, content, hlook⟩ := hne dir.1 dir.2 hchild
    exact hnul _ content (lookup_child hchild hlook) dir.1 List.mem_cons_self

theorem Valid.nodup_names (h : (DirNode.mk dirs files).Valid) :
    ((DirNode.mk dirs files).entries.map GitTreeEntry.name).Nodup := by
  obtain ⟨hdirs, hfiles, hdisj, -, -⟩ := h
  rw [entries, dirEntries_eq, List.map_append, List.map_map, List.map_map]
  refine hfiles.nodup_keys.append hdirs.nodup_keys ?_
  intro name hname hname'
  obtain ⟨file, hfile, rfl⟩ := List.mem_map.mp hname
  obtain ⟨dir, hdir, hsame⟩ := List.mem_map.mp hname'
  have hnone := hdisj dir.1 dir.2 (hdirs.mem_iff.mp hdir)
  rw [show dir.1 = file.1 from hsame, hfiles.mem_iff.mp hfile] at hnone
  cases hnone

theorem Valid.treeAt {node : DirNode} (h : node.Valid) (hnul : node.NoNul)
    (hstored : node.Stored odb) : TreeAt odb node.id (node.entries.sortWith cmpKey) := by
  obtain ⟨dirs, files⟩ := node
  refine ⟨fun e he => h.noNul_entries hnul e ((List.sortWith_perm _ _).mem_iff.mp he), ?_⟩
  have htree := hstored (treeObject (DirNode.mk dirs files).entries) (by simp [objects])
  rw [DirNode.id, htree, treeObject, hashTree_eq]

theorem Valid.listed_iff {node : DirNode} (h : node.Valid) (hnul : node.NoNul)
    (hstored : node.Stored odb) (path : List String) (blob : GitSha1) :
    Listed odb node.id path blob
      ↔ ∃ content, node.lookup path = some content ∧ blob = (hashBlob (utf8 content)).1 := by
  induction h generalizing path blob with
  | @mk dirs files hdirs hfiles hdisj hvalid hne ih =>
      have hnode : (DirNode.mk dirs files).Valid := .mk hdirs hfiles hdisj hvalid hne
      have hsub {dir : String × DirNode} (hdir : dir ∈ dirs) :=
        ih dir.1 dir.2 (hdirs.mem_iff.mp hdir) (hnul.child (hdirs.mem_iff.mp hdir))
          (hstored.child hdir)
      rw [(hnode.treeAt hnul hstored).listed_iff]
      simp only [(List.sortWith_perm cmpKey _).mem_iff, hnode.lookup_iff, mem_entries]
      constructor
      · rintro (⟨_, ⟨file, hfile, rfl⟩ | ⟨dir, hdir, rfl⟩, hkind, rfl, rfl⟩
          | ⟨_, ⟨file, hfile, rfl⟩ | ⟨dir, hdir, rfl⟩, hkind, rest, rfl, hlisted⟩)
        · exact ⟨file.2, Or.inl ⟨file, hfile, rfl, rfl⟩, rfl⟩
        · cases hkind
        · cases hkind
        · obtain ⟨content, hcontent, hblob⟩ := (hsub hdir rest blob).mp hlisted
          exact ⟨content, Or.inr ⟨dir, hdir, rest, rfl, hcontent⟩, hblob⟩
      · rintro ⟨content, ⟨file, hfile, rfl, rfl⟩ | ⟨dir, hdir, rest, rfl, hcontent⟩, rfl⟩
        · exact Or.inl ⟨_, Or.inl ⟨file, hfile, rfl⟩, rfl, rfl, rfl⟩
        · exact Or.inr ⟨_, Or.inr ⟨dir, hdir, rfl⟩, rfl, rest, rfl,
            (hsub hdir rest _).mpr ⟨content, hcontent, rfl⟩⟩

theorem Valid.trees {node : DirNode} (h : node.Valid) (hnul : node.NoNul)
    (hstored : node.Stored odb) {id : GitSha1} (hbelow : Below odb node.id id) :
    ∃ child : DirNode, child.Valid ∧ child.NoNul ∧ child.Stored odb ∧ child.id = id := by
  induction hbelow with
  | root => exact ⟨node, h, hnul, hstored, rfl⟩
  | dir _ tree mem isDir ih =>
      obtain ⟨⟨dirs, files⟩, hchild, hchildNul, hchildStored, rfl⟩ := ih
      rw [tree.unique (hchild.treeAt hchildNul hchildStored),
        (List.sortWith_perm _ _).mem_iff] at mem
      rcases mem_entries.mp mem with ⟨file, -, rfl⟩ | ⟨dir, hdir, rfl⟩
      · cases isDir
      · obtain ⟨hdirs, -, -, hvalid, -⟩ := hchild
        have hlook := hdirs.mem_iff.mp hdir
        exact ⟨dir.2, hvalid dir.1 dir.2 hlook, hchildNul.child hlook, hchildStored.child hdir, rfl⟩

theorem Valid.blobObject_mem {node : DirNode} (h : node.Valid) {path : List String}
    {content : String} (hlook : node.lookup path = some content) :
    ((hashBlob (utf8 content)).1, gitObjectBlob, utf8 content) ∈ node.objects := by
  induction h generalizing path with
  | @mk dirs files hdirs hfiles hdisj hvalid hne ih =>
      have hnode : (DirNode.mk dirs files).Valid := .mk hdirs hfiles hdisj hvalid hne
      rw [objects, dirObjects_eq]
      rcases (hnode.lookup_iff path content).mp hlook with
        ⟨file, hfile, -, rfl⟩ | ⟨dir, hdir, rest, -, hcontent⟩
      · exact List.mem_append_left _ (List.mem_append_left _ (List.mem_map.mpr ⟨file, hfile, rfl⟩))
      · refine List.mem_append_left _ (List.mem_append_right _ (List.mem_flatMap.mpr ?_))
        exact ⟨dir, hdir, ih dir.1 dir.2 (hdirs.mem_iff.mp hdir) hcontent⟩

end DirNode

/-! ## The round trip -/

/-- Two files of a map at one place, or one of which is a directory of the other. -/
def Collide (state : List (String × String)) : Prop :=
  ∃ file ∈ state, ∃ file' ∈ state, file.1 ≠ file'.1 ∧ segments file.1 ≠ []
    ∧ segments file.1 <+: segments file'.1

/-- A map that collides is refused. Any other is compiled to one root, whatever the order of its
files, and can be read back. -/
structure RoundTrips [Sha1] (state : List (String × String)) (odb : GitOdb) : Prop where
  fails : Collide state →
    ∀ order : List (String × String), order.Perm state →
      ∃ error, compileTree order odb = .error error
  succeeds : ¬ Collide state →
    ∃ root, ∀ order : List (String × String), order.Perm state →
      ∃ odb', compileTree order odb = .ok (root, odb') ∧ ReadsBack state odb' root

/-- Different paths have different segments. -/
def DistinctFiles (state : List (String × String)) : Prop :=
  ∀ file ∈ state, ∀ file' ∈ state, segments file.1 ≠ [] →
    segments file.1 = segments file'.1 → file.1 = file'.1

def NoNulPaths (state : List (String × String)) : Prop :=
  ∀ file ∈ state, ∀ segment ∈ segments file.1, (0 : UInt8) ∉ utf8 segment

theorem collide_iff {state : List (String × String)} :
    Collide state ↔ DirClash state ∨ ¬ DistinctFiles state := by
  constructor
  · rintro ⟨file, hfile, file', hfile', hne, hsegments, hprefix⟩
    by_cases heq : segments file.1 = segments file'.1
    · exact Or.inr fun hdistinct => hne (hdistinct file hfile file' hfile' hsegments heq)
    · exact Or.inl ⟨file, hfile, file', hfile', hsegments, heq, hprefix⟩
  · rintro (⟨file, hfile, file', hfile', hsegments, heq, hprefix⟩ | hdistinct)
    · exact ⟨file, hfile, file', hfile', fun h => heq (by rw [h]), hsegments, hprefix⟩
    · rw [DistinctFiles] at hdistinct
      push Not at hdistinct
      obtain ⟨file, hfile, file', hfile', hsegments, heq, hne⟩ := hdistinct
      exact ⟨file, hfile, file', hfile', hne, hsegments, heq ▸ List.prefix_refl _⟩

theorem DirClash.of_perm {state order : List (String × String)} (hperm : order.Perm state)
    (h : DirClash state) : DirClash order := by
  obtain ⟨file, hfile, file', hfile', hclash⟩ := h
  exact ⟨file, hperm.mem_iff.mpr hfile, file', hperm.mem_iff.mpr hfile', hclash⟩

theorem DirNode.Holds.lookup_iff {root : DirNode} {state order : List (String × String)}
    (h : root.Holds order) (hperm : order.Perm state) (hkeys : (state.map Prod.fst).Nodup)
    (hdistinct : DistinctFiles state) (path : List String) (content : String) :
    root.lookup path = some content
      ↔ ∃ file ∈ state, segments file.1 ≠ [] ∧ path = segments file.1 ∧ content = file.2 := by
  constructor
  · intro hlook
    obtain ⟨file, hfile, rfl, rfl⟩ := h.sound path content hlook
    exact ⟨file, hperm.mem_iff.mp hfile, ne_nil_of_lookup hlook, rfl, rfl⟩
  · rintro ⟨file, hfile, hne, rfl, rfl⟩
    obtain ⟨content, hlook⟩ := h.complete file (hperm.mem_iff.mpr hfile) hne
    obtain ⟨file', hfile', hsegments, rfl⟩ := h.sound _ content hlook
    have hpath := hdistinct file hfile file' (hperm.mem_iff.mp hfile') hne hsegments.symm
    obtain rfl : file = file' :=
      List.inj_on_of_nodup_map hkeys hfile (hperm.mem_iff.mp hfile') hpath
    exact hlook

theorem compileTree_of_ok [Sha1] {state : List (String × String)} {root : DirNode}
    (h : buildTree state = .ok root) (odb : GitOdb) :
    compileTree state odb = .ok (root.id, odb.insertAll root.objects) := by
  rw [compileTree, h]
  exact congrArg Except.ok (compileDir_eq root odb)

theorem compileTree_of_error [Sha1] {state : List (String × String)} {error : String}
    (h : buildTree state = .error error) (odb : GitOdb) :
    compileTree state odb = .error error := by
  rw [compileTree, h]
  rfl

theorem Listed.noNul {odb : GitOdb} {id blob : GitSha1} {path : List String}
    (h : Listed odb id path blob) : ∀ segment ∈ path, (0 : UInt8) ∉ utf8 segment := by
  induction h with
  | file tree mem =>
      intro segment hsegment
      rw [List.mem_singleton.mp hsegment]
      exact tree.1 _ mem
  | dir tree mem _ _ ih =>
      intro segment hsegment
      rcases List.mem_cons.mp hsegment with rfl | hrest
      · exact tree.1 _ mem
      · exact ih segment hrest

theorem readsBack_compiled [Sha1] {state : List (String × String)} {root : DirNode}
    (hroot : root.Holds state) (hkeys : (state.map Prod.fst).Nodup)
    (hdistinct : DistinctFiles state) (hnul : NoNulPaths state)
    (hsha : NoCollision root.objects) (odb : GitOdb) :
    ReadsBack state (odb.insertAll root.objects) root.id := by
  have hlookup := hroot.lookup_iff (.refl state) hkeys hdistinct
  have hstored : root.Stored (odb.insertAll root.objects) := fun o ho =>
    hsha.lookup_insertAll odb ho
  have hnames : root.NoNul := by
    intro path content hlook
    obtain ⟨file, hfile, -, rfl, -⟩ := (hlookup path content).mp hlook
    exact hnul file hfile
  refine ⟨fun id hbelow => ?_, fun path blob => ?_, fun file hfile hne => ?_⟩
  · obtain ⟨⟨dirs, files⟩, hvalid, hchildNul, hchildStored, rfl⟩ :=
      hroot.valid.trees hnames hstored hbelow
    refine ⟨_, hvalid.treeAt hchildNul hchildStored, ?_⟩
    exact ((List.sortWith_perm _ _).map _).nodup_iff.mpr hvalid.nodup_names
  · rw [hroot.valid.listed_iff hnames hstored]
    simp only [hlookup]
    constructor
    · rintro ⟨_, ⟨file, hfile, hne, rfl, rfl⟩, rfl⟩
      exact ⟨file, hfile, hne, rfl, rfl⟩
    · rintro ⟨file, hfile, hne, rfl, rfl⟩
      exact ⟨file.2, ⟨file, hfile, hne, rfl, rfl⟩, rfl⟩
  · exact hstored _ (hroot.valid.blobObject_mem ((hlookup _ _).mpr ⟨file, hfile, hne, rfl, rfl⟩))

/-- **When trees round-trip.** Where two files have the same segments and no file is in the way of
a directory, the last of them in the order of the iteration is kept and the map is not refused. -/
theorem compileTree_roundTrips_iff [Sha1] (state : List (String × String)) (odb : GitOdb)
    (hkeys : (state.map Prod.fst).Nodup)
    (hsha : ∀ root, buildTree state = .ok root → NoCollision root.objects) :
    RoundTrips state odb ↔ DirClash state ∨ DistinctFiles state ∧ NoNulPaths state := by
  constructor
  · intro h
    rcases buildTree_cases state with ⟨-, hclash⟩ | ⟨root, hroot, -, hclash⟩
    · exact Or.inl hclash
    · have hdistinct : DistinctFiles state := by
        by_contra hsame
        obtain ⟨error, herror⟩ := h.fails (collide_iff.mpr (Or.inr hsame)) state (.refl _)
        rw [compileTree_of_ok hroot] at herror
        cases herror
      refine Or.inr ⟨hdistinct, fun file hfile segment hsegment => ?_⟩
      have hno : ¬ Collide state := by
        rw [collide_iff]
        rintro (hclash' | hsame)
        · exact hclash hclash'
        · exact hsame hdistinct
      obtain ⟨id, hall⟩ := h.succeeds hno
      obtain ⟨odb', -, hback⟩ := hall state (.refl _)
      have hne : segments file.1 ≠ [] := List.ne_nil_of_mem hsegment
      exact ((hback.listed _ _).mpr ⟨file, hfile, hne, rfl, rfl⟩).noNul segment hsegment
  · intro h
    refine ⟨fun hcollide order hperm => ?_, fun hno => ?_⟩
    · have hclash : DirClash state := by
        rcases h with hclash | ⟨hdistinct, -⟩
        · exact hclash
        · exact (collide_iff.mp hcollide).resolve_right (not_not_intro hdistinct)
      rcases buildTree_cases order with ⟨⟨error, herror⟩, -⟩ | ⟨root, -, -, hno⟩
      · exact ⟨error, compileTree_of_error herror odb⟩
      · exact absurd (hclash.of_perm hperm) hno
    · rw [collide_iff, not_or, not_not] at hno
      obtain ⟨hclash, hdistinct⟩ := hno
      obtain ⟨-, hnul⟩ := h.resolve_left hclash
      obtain ⟨-, hclash'⟩ | ⟨root, hroot, hholds, -⟩ := buildTree_cases state
      · exact absurd hclash' hclash
      refine ⟨root.id, fun order hperm => ?_⟩
      obtain ⟨-, hclash'⟩ | ⟨root', hroot', hholds', -⟩ := buildTree_cases order
      · exact absurd (hclash'.of_perm hperm.symm) hclash
      have hsame : root' = root := by
        refine hholds'.valid.ext hholds.valid fun path => Option.ext fun content => ?_
        rw [hholds'.lookup_iff hperm hkeys hdistinct,
          hholds.lookup_iff (.refl state) hkeys hdistinct]
      subst hsame
      exact ⟨_, compileTree_of_ok hroot' odb,
        readsBack_compiled hholds hkeys hdistinct hnul (hsha _ hroot) odb⟩

/-- Two files of a map, one of them in a directory. -/
theorem compileTree_roundTrips_directory :
    let _ := Sha1.sample
    RoundTrips [("a//b", "x"), ("c", "y")] ∅ := by
  intro sha1
  refine (compileTree_roundTrips_iff [("a//b", "x"), ("c", "y")] ∅ (by decide) ?_).mpr
    (Or.inr ⟨?_, ?_⟩)
  · intro root hroot
    obtain rfl : DirNode.mk [("a", .mk [] [("b", "x")])] [("c", "y")] = root :=
      Except.ok.inj ((show buildTree _ = _ by rfl).symm.trans hroot)
    decide +kernel
  · rw [DistinctFiles]
    decide
  · rw [NoNulPaths]
    decide +kernel

/-- Two spellings of one path: the map is not refused, and its root depends on the order. -/
theorem respelled_path_is_overwritten :
    let _ := Sha1.sample
    ¬ RoundTrips [("a/b", "x"), ("a//b", "y")] ∅
      ∧ (compileTree [("a/b", "x"), ("a//b", "y")] ∅).map Prod.fst
        ≠ (compileTree [("a//b", "y"), ("a/b", "x")] ∅).map Prod.fst := by
  intro sha1
  refine ⟨fun h => ?_, by decide +kernel⟩
  have hcollide : Collide [("a/b", "x"), ("a//b", "y")] := by
    rw [Collide]
    decide
  obtain ⟨error, herror⟩ := h.fails hcollide _ (.refl _)
  have hok : (compileTree [("a/b", "x"), ("a//b", "y")] ∅).isOk = true := by decide
  rw [herror] at hok
  cases hok

end ArcVcs.Git
