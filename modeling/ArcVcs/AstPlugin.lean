import ArcVcs.ItemPatch
import Mathlib.Data.Prod.Lex

/-!
# Language plugins

What the tree-sitter plugins share: the paths of the top-level items of a parse, the map of these
items, and the source that is put together again from a materialized state.
-/

namespace ArcVcs

/-! ## Parses -/

/-- A child of the root, with the text of its `name` or `pattern` field. -/
structure SyntaxNode where
  kind : String
  name : Option String
  isNamed : Bool
  text : String
deriving DecidableEq

/-- The kind of the root and its children. -/
structure SyntaxTree where
  kind : String
  children : List SyntaxNode

/-- A node without a name is told apart by its index among the siblings of its kind. -/
def nodeSegment (earlier : List SyntaxNode) (node : SyntaxNode) : String :=
  match node.name with
  | some name => node.kind ++ "[" ++ name ++ "]"
  | none =>
      node.kind ++ "#" ++ toString (earlier.countP fun sibling => sibling.kind = node.kind)

def generatePath (root : String) (earlier : List SyntaxNode) (node : SyntaxNode) : NodePath :=
  [root, nodeSegment earlier node]

/-- The named nodes with their paths. -/
def namedChildren (root : String) :
    List SyntaxNode → List SyntaxNode → List (NodePath × SyntaxNode)
  | _, [] => []
  | earlier, node :: later =>
      if node.isNamed then
        (generatePath root earlier node, node) :: namedChildren root (earlier ++ [node]) later
      else namedChildren root (earlier ++ [node]) later

namespace SyntaxTree

def items (tree : SyntaxTree) : List (NodePath × SyntaxNode) :=
  namedChildren tree.kind [] tree.children

def paths (tree : SyntaxTree) : List NodePath := tree.items.map Prod.fst

end SyntaxTree

/-- Of two items with one path the later one stays. -/
def collectTopLevelItems (tree : SyntaxTree) : FMap NodePath Bytes :=
  FMap.insertAll ∅ (tree.items.map fun item => (item.1, utf8 item.2.text))

def SyntaxTree.content (tree : SyntaxTree) (path : NodePath) : Option Bytes :=
  (collectTopLevelItems tree).lookup path

/-- A grammar of tree-sitter. -/
structure AstParser where
  parse : String → Except RepoError SyntaxTree

/-! ## Items -/

theorem path_eq_of_mem_namedChildren {root : String} {earlier nodes : List SyntaxNode}
    {item : NodePath × SyntaxNode} (h : item ∈ namedChildren root earlier nodes) :
    (∃ segment, item.1 = [root, segment]) ∧ item.2 ∈ nodes ∧ item.2.isNamed = true := by
  induction nodes generalizing earlier with
  | nil => simp [namedChildren] at h
  | cons node later ih =>
      rw [namedChildren] at h
      split_ifs at h with hnamed
      · rcases List.mem_cons.mp h with rfl | hlater
        · exact ⟨⟨_, rfl⟩, List.mem_cons_self, hnamed⟩
        · obtain ⟨hpath, hmem, hname⟩ := ih hlater
          exact ⟨hpath, List.mem_cons_of_mem _ hmem, hname⟩
      · obtain ⟨hpath, hmem, hname⟩ := ih h
        exact ⟨hpath, List.mem_cons_of_mem _ hmem, hname⟩

theorem SyntaxTree.content_eq_none {tree : SyntaxTree} {path : NodePath}
    (h : path ∉ tree.paths) : tree.content path = none := by
  rw [SyntaxTree.content, collectTopLevelItems, FMap.lookup_insertAll_of_notMem]
  · rfl
  · simpa [SyntaxTree.paths] using h

theorem SyntaxTree.content_eq_some_iff {tree : SyntaxTree} (h : tree.paths.Nodup)
    {path : NodePath} {content : Bytes} :
    tree.content path = some content
      ↔ ∃ item ∈ tree.items, item.1 = path ∧ utf8 item.2.text = content := by
  have hkeys : ((tree.items.map fun item => (item.1, utf8 item.2.text)).map Prod.fst).Nodup := by
    rw [List.map_map]
    exact h
  constructor
  · intro hlook
    obtain ⟨entry, hentry, rfl, hsnd⟩ := FMap.lookup_insertAll_of_mem ∅ _
      (FMap.mem_keys_insertAll.mp (FMap.mem_keys_of_lookup hlook))
    obtain ⟨item, hitem, rfl⟩ := List.mem_map.mp hentry
    exact ⟨item, hitem, rfl, Option.some_inj.mp (hsnd.symm.trans hlook)⟩
  · rintro ⟨item, hitem, rfl, rfl⟩
    exact FMap.lookup_insertAll_of_nodup hkeys (List.mem_map.mpr ⟨item, hitem, rfl⟩)

def AstParser.itemParser (parser : AstParser) : ItemParser where
  items src := (parser.parse src).map collectTopLevelItems
  path_ne_nil src map h := by
    cases htree : parser.parse src with
    | error e =>
        rw [htree] at h
        cases h
    | ok tree =>
        rw [htree] at h
        cases h
        apply SyntaxTree.content_eq_none
        intro hnil
        obtain ⟨item, hitem, hpath⟩ := List.mem_map.mp hnil
        obtain ⟨⟨segment, hsegment⟩, -, -⟩ := path_eq_of_mem_namedChildren hitem
        rw [hpath] at hsegment
        cases hsegment

theorem AstParser.items_eq_ok {parser : AstParser} {src : String} {tree : SyntaxTree}
    (h : parser.parse src = .ok tree) :
    parser.itemParser.items src = .ok (collectTopLevelItems tree) := by
  change (parser.parse src).map collectTopLevelItems = _
  rw [h]
  rfl

theorem AstParser.items_of_parse {parser : AstParser} {src : String} {tree : SyntaxTree}
    (h : parser.parse src = .ok tree) (path : NodePath) :
    parser.itemParser.itemsOf src path = tree.content path := by
  rw [ItemParser.itemsOf, AstParser.items_eq_ok h]
  rfl

/-! ## Source from bytes -/

/-- The ranges of the bytes that follow a first byte of a character. -/
def continuations (first : UInt8) : Option (List (UInt8 × UInt8)) :=
  if first < 0x80 then some []
  else if first < 0xC2 then none
  else if first < 0xE0 then some [(0x80, 0xBF)]
  else if first = 0xE0 then some [(0xA0, 0xBF), (0x80, 0xBF)]
  else if first = 0xED then some [(0x80, 0x9F), (0x80, 0xBF)]
  else if first < 0xF0 then some [(0x80, 0xBF), (0x80, 0xBF)]
  else if first = 0xF0 then some [(0x90, 0xBF), (0x80, 0xBF), (0x80, 0xBF)]
  else if first < 0xF4 then some [(0x80, 0xBF), (0x80, 0xBF), (0x80, 0xBF)]
  else if first = 0xF4 then some [(0x80, 0x8F), (0x80, 0xBF), (0x80, 0xBF)]
  else none

/-- How many of the bytes lie in the ranges, up to the first that does not. -/
def continuing : List (UInt8 × UInt8) → Bytes → ℕ
  | (low, high) :: ranges, byte :: bytes =>
      if low ≤ byte ∧ byte ≤ high then continuing ranges bytes + 1 else 0
  | _, _ => 0

/-- The characters of the bytes, with one U+FFFD for each longest part that no character has. -/
def substitute : ℕ → Bytes → String
  | fuel + 1, first :: rest =>
      match continuations first with
      | none => "\uFFFD" ++ substitute fuel rest
      | some ranges =>
          let taken := continuing ranges rest
          let chunk := first :: rest.take taken
          (if taken = ranges.length then (String.fromUTF8? chunk.toByteArray).getD ""
            else "\uFFFD") ++ substitute fuel (rest.drop taken)
  | _, _ => ""

def fromUtf8Lossy (bytes : Bytes) : String :=
  match String.fromUTF8? bytes.toByteArray with
  | some s => s
  | none => substitute bytes.length bytes

/-- **The bytes of a text are read back.** -/
theorem fromUtf8Lossy_utf8 (s : String) : fromUtf8Lossy (utf8 s) = s := by
  rw [fromUtf8Lossy, fromUtf8_utf8]

/-! ## The source of a file -/

def fileItems (state : MaterializedState) (filepath : String) : List (NodePath × Bytes) :=
  (state.keys.sorted.filter fun key => key.length > 2 ∧ key.take 2 = ["file", filepath]).filterMap
    fun key => (state.lookup key).map fun content => (key, content)

/-- The rank of the first entry that the segment at index 2 starts with. -/
def unparseRank (priorities : List (String × ℕ)) (path : NodePath) : ℕ :=
  let kind := path.getD 2 ""
  ((priorities.find? fun entry => kind.startsWith entry.1).map Prod.snd).getD 255

def sortUnparseItems (priorities : List (String × ℕ)) (items : List (NodePath × Bytes)) :
    List (NodePath × Bytes) :=
  items.insertionSort fun a b =>
    toLex (unparseRank priorities a.1, a.1) ≤ toLex (unparseRank priorities b.1, b.1)

def unparse (priorities : List (String × ℕ)) (state : MaterializedState) (filepath : String) :
    String :=
  "\n\n".intercalate
    ((sortUnparseItems priorities (fileItems state filepath)).map fun item => fromUtf8Lossy item.2)

/-! ## Unparsing stored items -/

theorem mem_fileItems_iff {state : MaterializedState} {filepath : String} {key : NodePath}
    {content : Bytes} :
    (key, content) ∈ fileItems state filepath
      ↔ ∃ path ≠ [], key = "file" :: filepath :: path
          ∧ itemAt state filepath path = some content := by
  simp only [fileItems, List.mem_filterMap, List.mem_filter, decide_eq_true_eq,
    Option.map_eq_some_iff, Prod.mk.injEq]
  constructor
  · rintro ⟨k, ⟨-, hlen, htake⟩, bytes, hlook, rfl, rfl⟩
    rcases k with _ | ⟨kind, _ | ⟨file, path⟩⟩
    · simp at hlen
    · simp at hlen
    · obtain ⟨rfl, rfl⟩ : kind = "file" ∧ file = filepath := by simpa using htake
      refine ⟨path, ?_, rfl, hlook⟩
      rintro rfl
      simp at hlen
  · rintro ⟨path, hpath, rfl, hlook⟩
    have hlen : 0 < path.length := List.length_pos_iff.mpr hpath
    refine ⟨_, ⟨mem_sorted_keys_iff.mpr ?_, ?_, rfl⟩, content, hlook, rfl, rfl⟩
    · rw [show state.lookup _ = some content from hlook]
      exact Option.some_ne_none content
    · simp only [List.length_cons]
      omega

theorem nodup_fileItems (state : MaterializedState) (filepath : String) :
    (fileItems state filepath).Nodup := by
  apply List.Nodup.filterMap
  · intro key other item hitem hother
    obtain ⟨content, -, rfl⟩ := Option.map_eq_some_iff.mp hitem
    obtain ⟨content', -, heq⟩ := Option.map_eq_some_iff.mp hother
    exact (congrArg Prod.fst heq).symm
  · exact (Finset.nodup_sorted _).filter _

namespace SyntaxTree

def sortedItems (tree : SyntaxTree) : List (NodePath × SyntaxNode) :=
  tree.items.insertionSort fun a b => a.1 ≤ b.1

variable {tree : SyntaxTree} {state : MaterializedState} {filepath : String}

theorem mem_sortedItems {item : NodePath × SyntaxNode} :
    item ∈ tree.sortedItems ↔ item ∈ tree.items := List.mem_insertionSort _

theorem pairwise_sortedItems (tree : SyntaxTree) :
    tree.sortedItems.Pairwise fun a b => a.1 ≤ b.1 := by
  have htotal : Std.Total fun a b : NodePath × SyntaxNode => a.1 ≤ b.1 :=
    ⟨fun a b => le_total a.1 b.1⟩
  have htrans : IsTrans _ fun a b : NodePath × SyntaxNode => a.1 ≤ b.1 :=
    ⟨fun _ _ _ => le_trans⟩
  exact List.pairwise_insertionSort _ _

def storedItem (filepath : String) (item : NodePath × SyntaxNode) : NodePath × Bytes :=
  ("file" :: filepath :: item.1, utf8 item.2.text)

theorem unparseRank_storedItem (priorities : List (String × ℕ)) (filepath : String)
    {item : NodePath × SyntaxNode} (h : item ∈ tree.items) :
    unparseRank priorities (storedItem filepath item).1
      = unparseRank priorities ["file", filepath, tree.kind] := by
  obtain ⟨⟨segment, hpath⟩, -, -⟩ := path_eq_of_mem_namedChildren h
  rw [storedItem, hpath]
  rfl

theorem perm_fileItems (hnodup : tree.paths.Nodup)
    (hstate : ∀ path, itemAt state filepath path = tree.content path) :
    (fileItems state filepath).Perm (tree.sortedItems.map (storedItem filepath)) := by
  have hitems : tree.sortedItems.Nodup :=
    (List.perm_insertionSort _ _).nodup_iff.mpr (List.Nodup.of_map _ hnodup)
  have hinj : ∀ a ∈ tree.sortedItems, ∀ b ∈ tree.sortedItems,
      storedItem filepath a = storedItem filepath b → a = b := by
    intro a ha b hb hab
    have hpath : a.1 = b.1 := by simpa [storedItem] using congrArg Prod.fst hab
    exact List.inj_on_of_nodup_map hnodup (mem_sortedItems.mp ha) (mem_sortedItems.mp hb) hpath
  rw [List.perm_ext_iff_of_nodup (nodup_fileItems state filepath)
    ((List.nodup_map_iff_inj_on hitems).mpr hinj)]
  rintro ⟨key, content⟩
  rw [mem_fileItems_iff, List.mem_map]
  constructor
  · rintro ⟨path, -, rfl, hlook⟩
    rw [hstate, content_eq_some_iff hnodup] at hlook
    obtain ⟨item, hitem, rfl, rfl⟩ := hlook
    exact ⟨item, mem_sortedItems.mpr hitem, rfl⟩
  · rintro ⟨item, hitem, heq⟩
    obtain ⟨rfl, rfl⟩ := Prod.mk.inj heq
    have hmem := mem_sortedItems.mp hitem
    obtain ⟨⟨segment, hpath⟩, -, -⟩ := path_eq_of_mem_namedChildren hmem
    refine ⟨item.1, ?_, rfl, ?_⟩
    · rw [hpath]
      exact List.cons_ne_nil _ _
    · rw [hstate, content_eq_some_iff hnodup]
      exact ⟨item, hmem, rfl, rfl⟩

theorem sortUnparseItems_fileItems (priorities : List (String × ℕ)) (hnodup : tree.paths.Nodup)
    (hstate : ∀ path, itemAt state filepath path = tree.content path) :
    sortUnparseItems priorities (fileItems state filepath)
      = tree.sortedItems.map (storedItem filepath) := by
  let order (item : NodePath × Bytes) : ℕ ×ₗ NodePath :=
    toLex (unparseRank priorities item.1, item.1)
  have htotal : Std.Total fun a b => order a ≤ order b := ⟨fun a b => le_total (order a) (order b)⟩
  have htrans : IsTrans _ fun a b => order a ≤ order b := ⟨fun _ _ _ => le_trans⟩
  have hperm := perm_fileItems hnodup hstate
  have hsorted : (sortUnparseItems priorities (fileItems state filepath)).Pairwise
      fun a b => order a ≤ order b := List.pairwise_insertionSort _ _
  refine List.Perm.eq_of_pairwise ?_ hsorted ?_ ((List.perm_insertionSort _ _).trans hperm)
  · rintro ⟨key, content⟩ ⟨key', content'⟩ ha hb hab hba
    obtain ⟨path, -, rfl, hlook⟩ := mem_fileItems_iff.mp ((List.mem_insertionSort _).mp ha)
    obtain ⟨path', -, rfl, hlook'⟩ := mem_fileItems_iff.mp (hperm.mem_iff.mpr hb)
    have hkey : "file" :: filepath :: path = "file" :: filepath :: path' :=
      congrArg (fun p => (ofLex p).2) (le_antisymm hab hba)
    obtain rfl : path = path' := by simpa using hkey
    rw [Option.some_inj.mp (hlook.symm.trans hlook')]
  · rw [List.pairwise_map]
    refine (pairwise_sortedItems tree).imp_of_mem fun {a b} ha hb hab => ?_
    change toLex _ ≤ toLex _
    rw [unparseRank_storedItem priorities filepath (mem_sortedItems.mp ha),
      unparseRank_storedItem priorities filepath (mem_sortedItems.mp hb), Prod.Lex.toLex_le_toLex]
    refine .inr ⟨rfl, ?_⟩
    exact List.cons_le_cons _ (List.cons_le_cons _ hab)

/-- **Unparsing lists the texts in the order of the paths.** -/
theorem unparse_eq (priorities : List (String × ℕ)) (hnodup : tree.paths.Nodup)
    (hstate : ∀ path, itemAt state filepath path = tree.content path) :
    unparse priorities state filepath
      = "\n\n".intercalate (tree.sortedItems.map fun item => item.2.text) := by
  rw [unparse, sortUnparseItems_fileItems priorities hnodup hstate, List.map_map]
  congr 1
  refine List.map_congr_left fun item _ => ?_
  exact fromUtf8Lossy_utf8 item.2.text

end SyntaxTree

def rustPriorities : List (String × ℕ) :=
  [("attribute_item", 0), ("inner_attribute_item", 0), ("use_declaration", 1)]

end ArcVcs
