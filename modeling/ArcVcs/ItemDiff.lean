import ArcVcs.Delta
import ArcVcs.Entries

/-!
# Differences of item maps

`diff_atoms`, which compares two parses of a file item by item, and what its atoms do when
they run: at every item they take the old entry to the new one.
-/

namespace ArcVcs

/-! ## The atoms between two item maps -/

def Atom.sortKey : Atom → String
  | .insert at_ _ => "/".intercalate at_
  | .delete at_ _ => "/".intercalate at_
  | .semanticsPreserving at_ _ => "/".intercalate at_
  | .conflict _ _ at_ => "/".intercalate at_
  | .move from_ _ => "/".intercalate from_
  | .directory path => "/".intercalate path
  | .blob path _ _ => "file/" ++ path
  | .mount path _ => "/".intercalate path

def sortAtoms (atoms : List Atom) : List Atom :=
  atoms.insertionSort fun a b => a.sortKey ≤ b.sortKey

section Diff

variable [Crypto]

/-- A removal, with the content that is stored for its hash. -/
def deletePair (path : NodePath) (content : Bytes) : Atom × Bytes :=
  (.delete path (Crypto.hashBytes content), content)

def insertPair (path : NodePath) (content : Bytes) : Atom × Bytes :=
  (.insert path (Crypto.hashBytes content), content)

variable (oldMap newMap : FMap NodePath Bytes)

/-- Keys in the old map but not in the new one. -/
def deletedAt (path : NodePath) : List (Atom × Bytes) :=
  match oldMap.lookup path, newMap.lookup path with
  | some content, none => [deletePair path content]
  | _, _ => []

/-- Keys in the new map but not in the old one. -/
def insertedAt (path : NodePath) : List (Atom × Bytes) :=
  match oldMap.lookup path, newMap.lookup path with
  | none, some content => [insertPair path content]
  | _, _ => []

/-- Keys in both whose content differs. -/
def modifiedAt (path : NodePath) : List (Atom × Bytes) :=
  match oldMap.lookup path, newMap.lookup path with
  | some oldContent, some newContent =>
      if oldContent = newContent then []
      else [deletePair path oldContent, insertPair path newContent]
  | _, _ => []

/-- The three loops over the two maps. -/
def diffPairs : List (Atom × Bytes) :=
  oldMap.keys.sorted.flatMap (deletedAt oldMap newMap)
    ++ newMap.keys.sorted.flatMap (insertedAt oldMap newMap)
    ++ oldMap.keys.sorted.flatMap (modifiedAt oldMap newMap)

def diffAtoms : List Atom := sortAtoms ((diffPairs oldMap newMap).map Prod.fst)

def diffContents : List Bytes := (diffPairs oldMap newMap).map Prod.snd

end Diff

/-- The parser and `collect_top_level_items`, which gives no item the empty path. -/
structure ItemParser where
  items : String → Except RepoError (FMap NodePath Bytes)
  path_ne_nil : ∀ src map, items src = .ok map → map.lookup [] = none

def ItemParser.plugin [Crypto] (parser : ItemParser)
    (unparse : MaterializedState → String → String) : LanguagePlugin where
  unparse := unparse
  diff oldSrc newSrc := do
    let oldMap ← parser.items oldSrc
    let newMap ← parser.items newSrc
    .ok (diffAtoms oldMap newMap, diffContents oldMap newMap)

def itemAt (state : MaterializedState) (filepath : String) (path : NodePath) : Option Bytes :=
  state.lookup ("file" :: filepath :: path)

def ItemParser.ReadsBack (parser : ItemParser) (unparse : MaterializedState → String → String)
    (state : MaterializedState) : Prop :=
  ∀ filepath, ∃ map, parser.items (unparse state filepath) = .ok map
    ∧ ∀ path ≠ [], map.lookup path = itemAt state filepath path

/-! ## What the atoms do -/

/-- The contents can be read under their hashes. -/
def Readable [Crypto] (store : BlobStore) (contents : List Bytes) : Prop :=
  ∀ content ∈ contents, store (Crypto.hashBytes content) = .ok content

section Ops

variable [Crypto] {store : BlobStore} {oldMap newMap : FMap NodePath Bytes}

omit [Crypto] in
theorem sortKey_of_entryOp {atom : Atom} {x : NodePath × EntryOp Bytes}
    (h : atom.entryOp store = some x) : atom.sortKey = "/".intercalate x.1 := by
  cases atom with
  | insert at_ contentHash =>
      obtain ⟨bytes, -, rfl⟩ := Option.map_eq_some_iff.mp h
      rfl
  | move from_ to_ => simp [Atom.entryOp] at h
  | semanticsPreserving at_ description => simp [Atom.entryOp] at h
  | blob path hash size =>
      cases h
      change "file/" ++ path = "file" ++ "/" ++ path
      rfl
  | _ =>
      cases h
      rfl

/-- The operations of a list of atoms at one key. -/
def opsAtKey (store : BlobStore) (key : NodePath) (atoms : List Atom) : List (EntryOp Bytes) :=
  EntryOp.opsAt key (atoms.filterMap (Atom.entryOp store))

omit [Crypto] in
@[simp] theorem opsAtKey_append (key : NodePath) (as bs : List Atom) :
    opsAtKey store key (as ++ bs) = opsAtKey store key as ++ opsAtKey store key bs := by
  simp [opsAtKey]

omit [Crypto] in
theorem opsAtKey_cons (key : NodePath) (atom : Atom) (atoms : List Atom) :
    opsAtKey store key (atom :: atoms)
      = opsAtKey store key [atom] ++ opsAtKey store key atoms :=
  opsAtKey_append key [atom] atoms

omit [Crypto] in
theorem opsAtKey_sortAtoms (key : NodePath) (atoms : List Atom) :
    opsAtKey store key (sortAtoms atoms) = opsAtKey store key atoms := by
  let p : Atom → Bool := fun atom => (atom.entryOp store).any fun x => x.1 = key
  have hfilter : ∀ atoms : List Atom, opsAtKey store key atoms
      = (atoms.filter p).filterMap fun atom => (atom.entryOp store).map Prod.snd := by
    intro atoms
    induction atoms with
    | nil => rfl
    | cons atom atoms ih =>
        rw [← List.singleton_append, opsAtKey_append, ih, List.filter_append, List.filterMap_append]
        congr 1
        cases hop : atom.entryOp store with
        | none => simp [opsAtKey, p, hop]
        | some x => by_cases hx : x.1 = key <;> simp [opsAtKey, EntryOp.opsAt, p, hop, hx]
  have hkey : ∀ atom, p atom = true → atom.sortKey = "/".intercalate key := by
    intro atom hatom
    obtain ⟨x, hx, hkey⟩ := (Option.any_eq_true _ _).mp hatom
    rw [sortKey_of_entryOp hx, of_decide_eq_true hkey]
  rw [hfilter, hfilter, sortAtoms, List.filter_insertionSort]
  intro a b ha hb
  rw [hkey a ha, hkey b hb]

omit [Crypto] in
theorem opsAtKey_flatMap {l : List NodePath} (hnodup : l.Nodup)
    {f : NodePath → List (Atom × Bytes)}
    (hf : ∀ path, ∀ pair ∈ f path, ∀ x, pair.1.entryOp store = some x → x.1 = path)
    (key : NodePath) :
    opsAtKey store key ((l.flatMap f).map Prod.fst)
      = if key ∈ l then ((f key).filterMap fun pair => pair.1.entryOp store).map Prod.snd
        else [] := by
  rw [opsAtKey, List.filterMap_map, List.filterMap_flatMap]
  have hkeys : ∀ path, ∀ x ∈ (f path).filterMap fun pair => pair.1.entryOp store, x.1 = path := by
    intro path x hx
    obtain ⟨pair, hpair, hop⟩ := List.mem_filterMap.mp hx
    exact hf path pair hpair x hop
  convert EntryOp.opsAt_flatMap hnodup hkeys key using 2
  rfl

theorem entryOp_key {path : NodePath} {content : Bytes} {x : NodePath × EntryOp Bytes} :
    ((deletePair path content).1.entryOp store = some x → x.1 = path)
      ∧ ((insertPair path content).1.entryOp store = some x → x.1 = path) := by
  constructor
  · intro h
    cases h
    rfl
  · intro h
    obtain ⟨bytes, -, rfl⟩ := Option.map_eq_some_iff.mp h
    rfl

theorem entryOp_insertPair {path : NodePath} {content : Bytes}
    (h : store (Crypto.hashBytes content) = .ok content) :
    (insertPair path content).1.entryOp store = some (path, .write content) := by
  simp [insertPair, Atom.entryOp, h, Except.toOption]

omit [Crypto] in
theorem mem_sorted_keys_iff {m : FMap NodePath Bytes} {key : NodePath} :
    key ∈ m.keys.sorted ↔ m.lookup key ≠ none := by
  rw [Finset.mem_sorted, Ne, ← FMap.notMem_keys_iff, not_not]

theorem insertPair_mem_diffPairs {path : NodePath} {content : Bytes}
    (hnew : newMap.lookup path = some content) (hold : oldMap.lookup path ≠ some content) :
    insertPair path content ∈ diffPairs oldMap newMap := by
  have hmem : path ∈ newMap.keys.sorted := mem_sorted_keys_iff.mpr (by simp [hnew])
  rw [diffPairs, List.mem_append, List.mem_append]
  cases h : oldMap.lookup path with
  | none => exact .inl (.inr (List.mem_flatMap.mpr ⟨path, hmem, by simp [insertedAt, h, hnew]⟩))
  | some oldContent =>
      have hne : oldContent ≠ content := fun heq => hold (by rw [h, heq])
      refine .inr (List.mem_flatMap.mpr ⟨path, mem_sorted_keys_iff.mpr (by simp [h]), ?_⟩)
      simp [modifiedAt, h, hnew, hne]

/-- **The atoms take the old item to the new one.** -/
theorem opsAtKey_diffAtoms (h : Readable store (diffContents oldMap newMap)) (key : NodePath) :
    opsAtKey store key (diffAtoms oldMap newMap)
      = EntryOp.diff (oldMap.lookup key) (newMap.lookup key) := by
  have hread : ∀ content, newMap.lookup key = some content → oldMap.lookup key ≠ some content →
      (insertPair key content).1.entryOp store = some (key, .write content) :=
    fun content hnew hold => entryOp_insertPair
      (h content (List.mem_map.mpr ⟨_, insertPair_mem_diffPairs hnew hold, rfl⟩))
  have hdelete : ∀ content, (deletePair key content).1.entryOp store = some (key, .remove) :=
    fun _ => rfl
  rw [diffAtoms, opsAtKey_sortAtoms, diffPairs, List.map_append, List.map_append,
    opsAtKey_append, opsAtKey_append, opsAtKey_flatMap (Finset.nodup_sorted _),
    opsAtKey_flatMap (Finset.nodup_sorted _), opsAtKey_flatMap (Finset.nodup_sorted _)]
  · simp only [mem_sorted_keys_iff]
    cases hold : oldMap.lookup key with
    | none =>
        cases hnew : newMap.lookup key with
        | none => simp [EntryOp.diff]
        | some content =>
            have hop := hread content hnew (by simp [hold])
            simp [EntryOp.diff, insertedAt, hold, hnew, hop]
    | some oldContent =>
        cases hnew : newMap.lookup key with
        | none => simp [EntryOp.diff, deletedAt, modifiedAt, hold, hnew, hdelete]
        | some content =>
            by_cases heq : oldContent = content
            · simp [EntryOp.diff, deletedAt, insertedAt, modifiedAt, hold, hnew, heq]
            · have hop := hread content hnew (by simp [hold, heq])
              simp [EntryOp.diff, deletedAt, insertedAt, modifiedAt, hold, hnew, heq, hop, hdelete]
  · intro path pair hpair x hx
    unfold modifiedAt at hpair
    split at hpair
    · split_ifs at hpair
      · simp at hpair
      · simp only [List.mem_cons, List.not_mem_nil, or_false] at hpair
        rcases hpair with rfl | rfl
        · exact entryOp_key.1 hx
        · exact entryOp_key.2 hx
    · simp at hpair
  · intro path pair hpair x hx
    unfold insertedAt at hpair
    split at hpair
    · rw [List.mem_singleton.mp hpair] at hx
      exact entryOp_key.2 hx
    · simp at hpair
  · intro path pair hpair x hx
    unfold deletedAt at hpair
    split at hpair
    · rw [List.mem_singleton.mp hpair] at hx
      exact entryOp_key.1 hx
    · simp at hpair

/-! ## Files -/

def ItemParser.itemsOf (parser : ItemParser) (src : String) (path : NodePath) : Option Bytes :=
  (parser.items src).toOption.bind fun map => map.lookup path

omit [Crypto] in
theorem ItemParser.itemsOf_nil (parser : ItemParser) (src : String) :
    parser.itemsOf src [] = none := by
  unfold ItemParser.itemsOf
  cases hitems : parser.items src with
  | error e => rfl
  | ok map => exact parser.path_ne_nil src map hitems

omit [Crypto] in
theorem ItemParser.ReadsBack.itemsOf {parser : ItemParser}
    {unparse : MaterializedState → String → String} {state : MaterializedState}
    (h : parser.ReadsBack unparse state) (filepath : String) {path : NodePath} (hpath : path ≠ []) :
    parser.itemsOf (unparse state filepath) path = itemAt state filepath path := by
  obtain ⟨map, hmap, hlook⟩ := h filepath
  rw [ItemParser.itemsOf, hmap]
  exact hlook path hpath

/-- The atoms and contents of every file whose source changes. -/
def patchFiles (plugin : LanguagePlugin) (srcOld srcNew : String → String) :
    List String → Except RepoError (List Atom × List Bytes)
  | [] => .ok ([], [])
  | filepath :: files =>
      if srcOld filepath = srcNew filepath then patchFiles plugin srcOld srcNew files
      else do
        let (astAtoms, contents) ← plugin.diff (srcOld filepath) (srcNew filepath)
        let rest ← patchFiles plugin srcOld srcNew files
        .ok (astAtoms.map (prefixAtomPath filepath) ++ rest.1, contents ++ rest.2)

/-- What a patch does at a key: at an item of one of the files it takes the old item to the new
one. -/
def patchOps (parser : ItemParser) (srcOld srcNew : String → String) (files : List String) :
    NodePath → List (EntryOp Bytes)
  | kind :: filepath :: path =>
      if kind = "file" ∧ filepath ∈ files then
        EntryOp.diff (parser.itemsOf (srcOld filepath) path) (parser.itemsOf (srcNew filepath) path)
      else []
  | _ => []

theorem mem_diffPairs {pair : Atom × Bytes} (h : pair ∈ diffPairs oldMap newMap) :
    ∃ path content, pair = deletePair path content ∨ pair = insertPair path content := by
  simp only [diffPairs, List.mem_append, List.mem_flatMap] at h
  rcases h with (⟨path, -, h⟩ | ⟨path, -, h⟩) | ⟨path, -, h⟩
  · unfold deletedAt at h
    split at h
    · exact ⟨path, _, .inl (List.mem_singleton.mp h)⟩
    · simp at h
  · unfold insertedAt at h
    split at h
    · exact ⟨path, _, .inr (List.mem_singleton.mp h)⟩
    · simp at h
  · unfold modifiedAt at h
    split at h
    · split_ifs at h
      · simp at h
      · simp only [List.mem_cons, List.not_mem_nil, or_false] at h
        exact h.elim (fun h => ⟨path, _, .inl h⟩) fun h => ⟨path, _, .inr h⟩
    · simp at h

theorem mem_diffAtoms {atom : Atom} (h : atom ∈ diffAtoms oldMap newMap) :
    ∃ path content, content ∈ diffContents oldMap newMap
      ∧ (atom = .insert path (Crypto.hashBytes content)
        ∨ atom = .delete path (Crypto.hashBytes content)) := by
  rw [diffAtoms, sortAtoms, List.mem_insertionSort] at h
  obtain ⟨pair, hpair, rfl⟩ := List.mem_map.mp h
  obtain ⟨path, content, hcases⟩ := mem_diffPairs hpair
  have hcontent : pair.2 ∈ diffContents oldMap newMap := List.mem_map.mpr ⟨pair, hpair, rfl⟩
  rcases hcases with rfl | rfl
  · exact ⟨path, content, hcontent, .inr rfl⟩
  · exact ⟨path, content, hcontent, .inl rfl⟩

def Atom.WritesOrRemoves (store : BlobStore) (atom : Atom) : Prop :=
  ∃ path hash, atom = .delete path hash
    ∨ atom = .insert path hash ∧ ∃ content, store hash = .ok content

omit [Crypto] in
theorem Atom.WritesOrRemoves.isSome_entryOp {atom : Atom} (h : atom.WritesOrRemoves store) :
    (atom.entryOp store).isSome := by
  obtain ⟨path, hash, rfl | ⟨rfl, content, hread⟩⟩ := h
  · rfl
  · simp [Atom.entryOp, hread, Except.toOption]

omit [Crypto] in
theorem Atom.WritesOrRemoves.prefixAtomPath {atom : Atom} (h : atom.WritesOrRemoves store)
    (filepath : String) : (prefixAtomPath filepath atom).WritesOrRemoves store := by
  obtain ⟨path, hash, rfl | ⟨rfl, hread⟩⟩ := h
  · exact ⟨_, hash, .inl rfl⟩
  · exact ⟨_, hash, .inr ⟨rfl, hread⟩⟩

theorem writesOrRemoves_of_mem_diffAtoms (h : Readable store (diffContents oldMap newMap))
    {atom : Atom} (hatom : atom ∈ diffAtoms oldMap newMap) : atom.WritesOrRemoves store := by
  obtain ⟨path, content, hcontent, rfl | rfl⟩ := mem_diffAtoms hatom
  · exact ⟨path, _, .inr ⟨rfl, content, h content hcontent⟩⟩
  · exact ⟨path, _, .inl rfl⟩

omit [Crypto] in
theorem entryOp_prefixAtomPath {atom : Atom} (h : atom.WritesOrRemoves store) (filepath : String) :
    (prefixAtomPath filepath atom).entryOp store
      = (atom.entryOp store).map fun x => ("file" :: filepath :: x.1, x.2) := by
  obtain ⟨path, hash, rfl | ⟨rfl, -⟩⟩ := h
  · rfl
  · simp [prefixAtomPath, Atom.entryOp, Option.map_map, Function.comp_def]

omit [Crypto] in
theorem opsAtKey_map_prefixAtomPath {atoms : List Atom}
    (h : ∀ atom ∈ atoms, atom.WritesOrRemoves store)
    (filepath : String) :
    (∀ path, opsAtKey store ("file" :: filepath :: path) (atoms.map (prefixAtomPath filepath))
        = opsAtKey store path atoms)
      ∧ ∀ key, (∀ path, key ≠ "file" :: filepath :: path) →
        opsAtKey store key (atoms.map (prefixAtomPath filepath)) = [] := by
  induction atoms with
  | nil => exact ⟨fun _ => rfl, fun _ _ => rfl⟩
  | cons atom atoms ih =>
      obtain ⟨hatom, hatoms⟩ := List.forall_mem_cons.mp h
      obtain ⟨hsame, hother⟩ := ih hatoms
      have hop := entryOp_prefixAtomPath hatom filepath
      constructor
      · intro path
        rw [List.map_cons, opsAtKey_cons, hsame, opsAtKey_cons path]
        congr 1
        cases hx : atom.entryOp store with
        | none => simp [opsAtKey, hop, hx]
        | some x => by_cases hp : x.1 = path <;> simp [opsAtKey, EntryOp.opsAt, hop, hx, hp]
      · intro key hkey
        rw [List.map_cons, opsAtKey_cons, hother key hkey, List.append_nil]
        cases hx : atom.entryOp store with
        | none => simp [opsAtKey, hop, hx]
        | some x => simp [opsAtKey, EntryOp.opsAt, hop, hx, (hkey x.1).symm]

omit [Crypto] in
theorem patchOps_cons_of_ne {parser : ItemParser} {srcOld srcNew : String → String}
    {filepath : String} {files : List String} {key : NodePath}
    (h : ∀ path, key ≠ "file" :: filepath :: path) :
    patchOps parser srcOld srcNew (filepath :: files) key
      = patchOps parser srcOld srcNew files key := by
  rcases key with _ | ⟨kind, _ | ⟨other, path⟩⟩
  · rfl
  · rfl
  · have hne : ¬ (kind = "file" ∧ other = filepath) := by
      rintro ⟨rfl, rfl⟩
      exact h path rfl
    have hiff : (kind = "file" ∧ other ∈ filepath :: files) ↔ (kind = "file" ∧ other ∈ files) := by
      rw [List.mem_cons]
      tauto
    simp only [patchOps, hiff]

omit [Crypto] in
theorem patchOps_of_notMem {parser : ItemParser} {srcOld srcNew : String → String}
    {filepath : String} {files : List String} (h : filepath ∉ files) (path : NodePath) :
    patchOps parser srcOld srcNew files ("file" :: filepath :: path) = [] := by
  simp [patchOps, h]

omit [Crypto] in
theorem patchOps_of_mem {parser : ItemParser} {srcOld srcNew : String → String}
    {filepath : String} {files : List String} (h : filepath ∈ files) (path : NodePath) :
    patchOps parser srcOld srcNew files ("file" :: filepath :: path)
      = EntryOp.diff (parser.itemsOf (srcOld filepath) path)
        (parser.itemsOf (srcNew filepath) path) := by
  simp [patchOps, h]

theorem plugin_diff_eq_ok {parser : ItemParser} {unparse : MaterializedState → String → String}
    {oldSrc newSrc : String} {atoms : List Atom} {contents : List Bytes}
    (h : (parser.plugin unparse).diff oldSrc newSrc = .ok (atoms, contents)) :
    ∃ oldMap newMap, parser.items oldSrc = .ok oldMap ∧ parser.items newSrc = .ok newMap
      ∧ atoms = diffAtoms oldMap newMap ∧ contents = diffContents oldMap newMap := by
  obtain ⟨oldMap, hold, h⟩ := Except.bind_eq_ok_iff.mp h
  obtain ⟨newMap, hnew, h⟩ := Except.bind_eq_ok_iff.mp h
  cases h
  exact ⟨oldMap, newMap, hold, hnew, rfl, rfl⟩

theorem patchFiles_cons_eq_ok {parser : ItemParser} {unparse : MaterializedState → String → String}
    {srcOld srcNew : String → String} {filepath : String} {files : List String}
    {atoms : List Atom} {contents : List Bytes}
    (h : patchFiles (parser.plugin unparse) srcOld srcNew (filepath :: files)
      = .ok (atoms, contents)) :
    (srcOld filepath = srcNew filepath
        ∧ patchFiles (parser.plugin unparse) srcOld srcNew files = .ok (atoms, contents))
      ∨ ∃ oldMap newMap rest, parser.items (srcOld filepath) = .ok oldMap
        ∧ parser.items (srcNew filepath) = .ok newMap
        ∧ patchFiles (parser.plugin unparse) srcOld srcNew files = .ok rest
        ∧ atoms = (diffAtoms oldMap newMap).map (prefixAtomPath filepath) ++ rest.1
        ∧ contents = diffContents oldMap newMap ++ rest.2 := by
  rw [patchFiles] at h
  split_ifs at h with hsame
  · exact .inl ⟨hsame, h⟩
  · obtain ⟨out, hdiff, h⟩ := Except.bind_eq_ok_iff.mp h
    obtain ⟨rest, hrest, h⟩ := Except.bind_eq_ok_iff.mp h
    obtain ⟨oldMap, newMap, hold, hnew, hatoms, hcontents⟩ := plugin_diff_eq_ok hdiff
    cases h
    refine .inr ⟨oldMap, newMap, rest, hold, hnew, hrest, ?_, ?_⟩
    · rw [hatoms]
    · rw [hcontents]

theorem exists_patchFiles_iff {parser : ItemParser}
    {unparse : MaterializedState → String → String} {srcOld srcNew : String → String}
    {files : List String} :
    (∃ out, patchFiles (parser.plugin unparse) srcOld srcNew files = .ok out)
      ↔ ∀ filepath ∈ files, srcOld filepath = srcNew filepath
        ∨ (∃ map, parser.items (srcOld filepath) = .ok map)
          ∧ ∃ map, parser.items (srcNew filepath) = .ok map := by
  induction files with
  | nil => exact ⟨fun _ _ hf => absurd hf List.not_mem_nil, fun _ => ⟨_, rfl⟩⟩
  | cons filepath files ih =>
      rw [List.forall_mem_cons, ← ih]
      constructor
      · rintro ⟨⟨atoms, contents⟩, hok⟩
        rcases patchFiles_cons_eq_ok hok with
          ⟨hsame, hrest⟩ | ⟨oldMap, newMap, rest, hold, hnew, hrest, -⟩
        · exact ⟨.inl hsame, _, hrest⟩
        · exact ⟨.inr ⟨⟨oldMap, hold⟩, newMap, hnew⟩, rest, hrest⟩
      · rintro ⟨hfile, rest, hrest⟩
        rw [patchFiles]
        split_ifs with hsame
        · exact ⟨rest, hrest⟩
        · obtain ⟨⟨oldMap, hold⟩, newMap, hnew⟩ := hfile.resolve_left hsame
          have hdiff : (parser.plugin unparse).diff (srcOld filepath) (srcNew filepath)
              = .ok (diffAtoms oldMap newMap, diffContents oldMap newMap) :=
            Except.bind_eq_ok_iff.mpr
              ⟨oldMap, hold, Except.bind_eq_ok_iff.mpr ⟨newMap, hnew, rfl⟩⟩
          exact ⟨_, Except.bind_eq_ok_iff.mpr
            ⟨_, hdiff, Except.bind_eq_ok_iff.mpr ⟨rest, hrest, rfl⟩⟩⟩

theorem writesOrRemoves_of_patchFiles {parser : ItemParser}
    {unparse : MaterializedState → String → String} {srcOld srcNew : String → String}
    {files : List String} {atoms : List Atom} {contents : List Bytes}
    (hok : patchFiles (parser.plugin unparse) srcOld srcNew files = .ok (atoms, contents))
    (hread : Readable store contents) : ∀ atom ∈ atoms, atom.WritesOrRemoves store := by
  induction files generalizing atoms contents with
  | nil =>
      cases hok
      simp
  | cons filepath files ih =>
      rcases patchFiles_cons_eq_ok hok with
        ⟨-, hrest⟩ | ⟨oldMap, newMap, rest, -, -, hrest, rfl, rfl⟩
      · exact ih hrest hread
      · intro atom hatom
        rcases List.mem_append.mp hatom with hfirst | hlater
        · obtain ⟨item, hitem, rfl⟩ := List.mem_map.mp hfirst
          apply Atom.WritesOrRemoves.prefixAtomPath
          exact writesOrRemoves_of_mem_diffAtoms (fun c hc => hread c (List.mem_append_left _ hc))
            hitem
        · exact ih hrest (fun c hc => hread c (List.mem_append_right _ hc)) atom hlater

/-- **A patch takes every item to its new content.** -/
theorem opsAtKey_patchFiles {parser : ItemParser} {unparse : MaterializedState → String → String}
    {srcOld srcNew : String → String} {files : List String} (hnodup : files.Nodup)
    {atoms : List Atom} {contents : List Bytes}
    (hok : patchFiles (parser.plugin unparse) srcOld srcNew files = .ok (atoms, contents))
    (hread : Readable store contents) (key : NodePath) :
    opsAtKey store key atoms = patchOps parser srcOld srcNew files key := by
  induction files generalizing atoms contents with
  | nil =>
      cases hok
      rcases key with _ | ⟨kind, _ | ⟨filepath, path⟩⟩
      · rfl
      · rfl
      · simp [opsAtKey, patchOps]
  | cons filepath files ih =>
      obtain ⟨hmem, hnodup⟩ := List.nodup_cons.mp hnodup
      rcases patchFiles_cons_eq_ok hok with
        ⟨hsame, hrest⟩ | ⟨oldMap, newMap, rest, hold, hnew, hrest, rfl, rfl⟩
      · rw [ih hnodup hrest hread]
        by_cases hkey : ∃ path, key = "file" :: filepath :: path
        · obtain ⟨path, rfl⟩ := hkey
          rw [patchOps_of_notMem hmem, patchOps_of_mem List.mem_cons_self, hsame, EntryOp.diff_self]
        · rw [patchOps_cons_of_ne fun path h => hkey ⟨path, h⟩]
      · have hfirst : Readable store (diffContents oldMap newMap) := fun content hc =>
          hread content (List.mem_append_left _ hc)
        have hlater : Readable store rest.2 := fun content hc =>
          hread content (List.mem_append_right _ hc)
        have hitems : ∀ atom ∈ diffAtoms oldMap newMap, atom.WritesOrRemoves store := fun atom =>
          writesOrRemoves_of_mem_diffAtoms hfirst
        obtain ⟨hown, hother⟩ := opsAtKey_map_prefixAtomPath hitems filepath
        rw [opsAtKey_append, ih hnodup hrest hlater]
        by_cases hkey : ∃ path, key = "file" :: filepath :: path
        · obtain ⟨path, rfl⟩ := hkey
          rw [hown, opsAtKey_diffAtoms hfirst, patchOps_of_notMem hmem,
            patchOps_of_mem List.mem_cons_self, List.append_nil, ItemParser.itemsOf, hold,
            ItemParser.itemsOf, hnew]
          rfl
        · rw [hother key fun path h => hkey ⟨path, h⟩,
            patchOps_cons_of_ne fun path h => hkey ⟨path, h⟩, List.nil_append]

end Ops

/-! ## Files with one function -/

/-- A parser for files with at most one function, which is called `f`. -/
def oneFunction : ItemParser where
  items src := .ok (if src = "" then ∅
    else Finmap.singleton ["source_file", "function_item[f]"] (utf8 src))
  path_ne_nil src map h := by
    obtain rfl := Except.ok.inj h
    split_ifs
    · rfl
    · rfl

/-- The source of such a file, which is one of the given texts. -/
def unparseOneOf (sources : List String) (state : MaterializedState) (filepath : String) : String :=
  match itemAt state filepath ["source_file", "function_item[f]"] with
  | none => ""
  | some bytes => (sources.find? fun src => utf8 src = bytes).getD ""

def functionKey : NodePath := ["file", "a.rs", "source_file", "function_item[f]"]

theorem readsBack_function {sources : List String} {source : String}
    (hfind : sources.find? (fun src => utf8 src = utf8 source) = some source) (hne : source ≠ "") :
    oneFunction.ReadsBack (unparseOneOf sources) (Finmap.singleton functionKey (utf8 source)) := by
  intro filepath
  by_cases hfile : filepath = "a.rs"
  · subst hfile
    refine ⟨Finmap.singleton ["source_file", "function_item[f]"] (utf8 source), ?_, ?_⟩
    · have hunparse : unparseOneOf sources (Finmap.singleton functionKey (utf8 source)) "a.rs"
          = source := by
        change (sources.find? fun src => utf8 src = utf8 source).getD "" = source
        rw [hfind, Option.getD_some]
      rw [hunparse]
      exact congrArg Except.ok (if_neg hne)
    · intro path _
      rw [itemAt, FMap.lookup_singleton, FMap.lookup_singleton]
      simp [functionKey]
  · refine ⟨∅, ?_, fun path _ => ?_⟩
    · have hnone : itemAt (Finmap.singleton functionKey (utf8 source)) filepath
          ["source_file", "function_item[f]"] = none := by
        rw [itemAt, FMap.lookup_singleton, if_neg (by simpa [functionKey] using hfile)]
      rw [unparseOneOf, hnone]
      rfl
    · rw [itemAt, FMap.lookup_singleton, if_neg (by simp [functionKey, hfile])]
      rfl

theorem readsBack_of_no_items {sources : List String} {state : MaterializedState}
    (h : ∀ filepath, ∀ path ≠ [], itemAt state filepath path = none) :
    oneFunction.ReadsBack (unparseOneOf sources) state := by
  intro filepath
  refine ⟨∅, ?_, fun path hpath => ?_⟩
  · rw [unparseOneOf, h filepath _ (by simp)]
    rfl
  · rw [h filepath path hpath]
    rfl

def putFunction (source : String) : Atom :=
  .insert functionKey (@Crypto.hashBytes Crypto.sample (utf8 source))

end ArcVcs
