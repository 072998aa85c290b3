import ArcVcs.AstPlugin
import ArcVcs.Lib.SelfDelimiting

/-!
# The paths of top-level items

A node with a name is found under its kind and its name, and a node without one under its kind and
its index among the siblings of that kind. The index tells nameless nodes apart. Nothing tells apart
two nodes of one kind and one name, and of these the map keeps the last.
-/

namespace ArcVcs

namespace SyntaxNode

/-- Two named nodes whose kinds and names are written alike in a path. -/
def SpelledAlike (a b : SyntaxNode) : Prop :=
  ∃ m n, a.name = some m ∧ b.name = some n ∧ a.kind ++ "[" ++ m = b.kind ++ "[" ++ n

end SyntaxNode

/-! ## Segments -/

section Segments

variable {earlier later : List SyntaxNode} {a b : SyntaxNode}

theorem toList_nodeSegment_of_some {name : String} (h : a.name = some name) :
    (nodeSegment earlier a).toList = (a.kind ++ "[" ++ name).toList ++ [']'] := by
  have hbracket : "]".toList = [']'] := by simp
  rw [nodeSegment, h]
  dsimp only
  rw [String.toList_append, hbracket]

theorem toList_nodeSegment_of_none (h : a.name = none) :
    (nodeSegment earlier a).toList = a.kind.toList ++ '#' ::
      Nat.toDigits 10 (earlier.countP fun sibling => sibling.kind = a.kind) := by
  have hhash : "#".toList = ['#'] := by simp
  rw [nodeSegment, h]
  dsimp only
  rw [String.toList_append, String.toList_append, hhash, Nat.toString_eq_repr, Nat.toList_repr,
    List.append_assoc, List.singleton_append]

theorem notMem_toDigits {c : Char} (hc : c.isDigit = false) (n : ℕ) : c ∉ Nat.toDigits 10 n := by
  intro hmem
  have hdigit := Nat.isDigit_of_mem_toDigits (by decide) (by decide) hmem
  rw [hc] at hdigit
  cases hdigit

theorem nodeSegment_ne_of_some {earlier' : List SyntaxNode} {name : String}
    (ha : a.name = some name) (hb : b.name = none) :
    nodeSegment earlier a ≠ nodeSegment earlier' b := by
  intro heq
  have hchars := congrArg String.toList heq
  rw [toList_nodeSegment_of_some ha, toList_nodeSegment_of_none hb] at hchars
  have hlast := congrArg List.getLast? hchars
  rw [List.getLast?_concat, List.getLast?_append_cons] at hlast
  rcases List.mem_cons.mp (List.mem_of_getLast? hlast.symm) with hhash | hdigit
  · exact absurd hhash (by decide)
  · exact notMem_toDigits (by decide) _ hdigit

theorem nodeSegment_ne_of_none (ha : a.name = none) (hb : b.name = none) :
    nodeSegment earlier a ≠ nodeSegment (earlier ++ a :: later) b := by
  intro heq
  have hchars := congrArg (fun s : String => s.toList.reverse) heq
  simp only [toList_nodeSegment_of_none ha, toList_nodeSegment_of_none hb, List.reverse_append,
    List.reverse_cons, List.append_assoc, List.singleton_append] at hchars
  obtain ⟨hindex, hkind⟩ := List.append_cons_inj_of_stop
    (by simpa using notMem_toDigits (by decide) _) (by simpa using notMem_toDigits (by decide) _)
    hchars
  have hsame : a.kind = b.kind := String.toList_injective (List.reverse_injective hkind)
  have hcount := congrArg (Nat.ofDigitChars 10 · 0) (List.reverse_injective hindex)
  simp only [Nat.ofDigitChars_ten_toDigits] at hcount
  rw [List.countP_append, List.countP_cons_of_pos (by simpa using hsame), hsame] at hcount
  omega

/-- **What two nodes share a segment.** -/
theorem nodeSegment_eq_iff :
    nodeSegment earlier a = nodeSegment (earlier ++ a :: later) b ↔ a.SpelledAlike b := by
  cases ha : a.name with
  | none =>
      refine iff_of_false ?_ ?_
      · cases hb : b.name with
        | none => exact nodeSegment_ne_of_none ha hb
        | some n => exact (nodeSegment_ne_of_some hb ha).symm
      · rintro ⟨m, n, hm, -⟩
        rw [ha] at hm
        cases hm
  | some m =>
      cases hb : b.name with
      | none =>
          refine iff_of_false (nodeSegment_ne_of_some ha hb) ?_
          rintro ⟨m', n, -, hn, -⟩
          rw [hb] at hn
          cases hn
      | some n =>
          rw [← String.toList_inj, toList_nodeSegment_of_some ha, toList_nodeSegment_of_some hb,
            List.append_left_inj, String.toList_inj]
          constructor
          · exact fun heq => ⟨m, n, ha, hb, heq⟩
          · rintro ⟨m', n', hm, hn, heq⟩
            rw [ha, Option.some_inj] at hm
            rw [hb, Option.some_inj] at hn
            rwa [hm, hn]

end Segments

/-! ## What is collected -/

theorem mem_namedChildren_iff {root : String} {earlier nodes : List SyntaxNode}
    {item : NodePath × SyntaxNode} :
    item ∈ namedChildren root earlier nodes
      ↔ ∃ pre b post, nodes = pre ++ b :: post ∧ b.isNamed = true
        ∧ item = (generatePath root (earlier ++ pre) b, b) := by
  induction nodes generalizing earlier with
  | nil => simp [namedChildren]
  | cons node later ih =>
      have hlater : item ∈ namedChildren root (earlier ++ [node]) later
          ↔ ∃ pre b post, node :: later = (node :: pre) ++ b :: post ∧ b.isNamed = true
            ∧ item = (generatePath root (earlier ++ node :: pre) b, b) := by
        rw [ih]
        simp only [List.append_assoc, List.cons_append, List.nil_append, List.cons.injEq, true_and]
      rw [namedChildren]
      constructor
      · intro hmem
        split_ifs at hmem with hnamed
        · rcases List.mem_cons.mp hmem with rfl | hmem
          · exact ⟨[], node, later, rfl, hnamed, by rw [List.append_nil]⟩
          · obtain ⟨pre, b, post, hrest⟩ := hlater.mp hmem
            exact ⟨node :: pre, b, post, hrest⟩
        · obtain ⟨pre, b, post, hrest⟩ := hlater.mp hmem
          exact ⟨node :: pre, b, post, hrest⟩
      · rintro ⟨pre, b, post, hsplit, hnamed, hitem⟩
        cases pre with
        | nil =>
            obtain ⟨rfl, rfl⟩ := List.cons.inj hsplit
            rw [List.append_nil] at hitem
            rw [if_pos hnamed]
            exact List.mem_cons.mpr (.inl hitem)
        | cons first pre =>
            obtain ⟨rfl, -⟩ := List.cons.inj hsplit
            have hmem := hlater.mpr ⟨pre, b, post, hsplit, hnamed, hitem⟩
            split_ifs
            · exact List.mem_cons_of_mem _ hmem
            · exact hmem

theorem nodup_namedChildren_iff {root : String} {earlier nodes : List SyntaxNode} :
    ((namedChildren root earlier nodes).map Prod.fst).Nodup
      ↔ (nodes.filter SyntaxNode.isNamed).Pairwise fun a b => ¬ a.SpelledAlike b := by
  induction nodes generalizing earlier with
  | nil => simp [namedChildren]
  | cons node later ih =>
      rw [namedChildren]
      split_ifs with hnamed
      · rw [List.filter_cons_of_pos hnamed, List.map_cons, List.nodup_cons, List.pairwise_cons, ih]
        refine and_congr_left fun _ => ?_
        constructor
        · intro hpath b hb halike
          obtain ⟨hlater, hname⟩ := List.mem_filter.mp hb
          obtain ⟨pre, post, rfl⟩ := List.append_of_mem hlater
          refine hpath (List.mem_map.mpr
            ⟨_, mem_namedChildren_iff.mpr ⟨pre, b, post, rfl, hname, rfl⟩, ?_⟩)
          rw [List.append_assoc, List.singleton_append, generatePath, generatePath,
            nodeSegment_eq_iff.mpr halike]
        · rintro hapart hpath
          obtain ⟨item, hitem, hsame⟩ := List.mem_map.mp hpath
          obtain ⟨pre, b, post, rfl, hb, rfl⟩ := mem_namedChildren_iff.mp hitem
          have hsegment : nodeSegment earlier node = nodeSegment (earlier ++ node :: pre) b := by
            rw [List.append_assoc, List.singleton_append] at hsame
            simpa [generatePath] using hsame.symm
          have hmem : b ∈ (pre ++ b :: post).filter SyntaxNode.isNamed :=
            List.mem_filter.mpr ⟨by simp, hb⟩
          exact hapart b hmem (nodeSegment_eq_iff.mp hsegment)
      · rw [List.filter_cons_of_neg hnamed, ih]

namespace SyntaxTree

/-- Every item has an entry of its own, under a path that no other item has, with its text. -/
def CollectsAll (tree : SyntaxTree) : Prop :=
  tree.paths.Nodup ∧ (collectTopLevelItems tree).keys.card = tree.items.length
    ∧ ∀ item ∈ tree.items, (collectTopLevelItems tree).lookup item.1 = some (utf8 item.2.text)

/-- No two items have kinds and names that are written alike. -/
def NamesApart (tree : SyntaxTree) : Prop :=
  (tree.children.filter SyntaxNode.isNamed).Pairwise fun a b => ¬ a.SpelledAlike b

/-- **When no item is lost.** Every item is collected exactly when no two of them are written alike
by kind and name. -/
theorem collectsAll_iff (tree : SyntaxTree) : tree.CollectsAll ↔ tree.NamesApart := by
  have hpaths : tree.paths.Nodup ↔ tree.NamesApart := nodup_namedChildren_iff
  have hkeys : ((tree.items.map fun item => (item.1, utf8 item.2.text)).map Prod.fst)
      = tree.paths := by
    rw [List.map_map]
    rfl
  rw [← hpaths]
  constructor
  · exact fun h => h.1
  · intro h
    rw [← hkeys] at h
    refine ⟨hkeys ▸ h, ?_, fun item hitem => ?_⟩
    · rw [collectTopLevelItems, FMap.card_keys_insertAll_eq_iff.mpr h, List.length_map]
    · exact FMap.lookup_insertAll_of_nodup h (List.mem_map.mpr ⟨item, hitem, rfl⟩)

end SyntaxTree

/-- Two functions of one name, as under two attributes. -/
theorem collect_loses_function :
    let tree : SyntaxTree := ⟨"source_file",
      [⟨"function_item", some "f", true, "fn f() { 1 }"⟩,
        ⟨"function_item", some "f", true, "fn f() { 2 }"⟩]⟩
    tree.items.length = 2 ∧ (collectTopLevelItems tree).keys.card = 1 ∧ ¬ tree.CollectsAll := by
  refine ⟨rfl, by decide +kernel, fun h => ?_⟩
  exact absurd h.1 (by decide +kernel)

end ArcVcs
