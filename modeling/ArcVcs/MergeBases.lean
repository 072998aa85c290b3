import ArcVcs.GraphIndex

/-!
# Merge bases and tips

Both look at direct children only: a merge base is a common ancestor without a common child, and a
tip is a change all of whose children are ghost nodes. For merge bases this is enough, as the
ancestors of a common ancestor are common. Tips it lets depend on each other through ghost nodes.
-/

namespace ArcVcs

namespace ChangeGraph

variable {g : ChangeGraph} {headsA headsB : Finset Blake3Hash} {x y : Blake3Hash}

/-- Induction from the children to their parents. -/
theorem Acyclic.children_induction (hac : g.Acyclic) (hg : g.Indexed) {nodes : Finset Blake3Hash}
    {P : Blake3Hash → Prop}
    (hstep : ∀ x ∈ nodes, (∀ child ∈ g.children x, child ∈ nodes → P child) → P x)
    (hx : x ∈ nodes) : P x := by
  have hacyclic : Kahn.Acyclic nodes g.children := by
    intro a ha
    apply hac a
    refine Relation.TransGen.mono (fun d c hdc => ?_) _ _ ha
    exact (hg.mem_children c d).mp hdc.1
  exact hacyclic.induction hstep hx

/-! ## Merge bases -/

/-- An ancestor of both sides, or one of their heads. -/
def IsCommon (g : ChangeGraph) (headsA headsB : Finset Blake3Hash) (x : Blake3Hash) : Prop :=
  (∃ a ∈ headsA, g.Reaches a x) ∧ ∃ b ∈ headsB, g.Reaches b x

theorem mem_common_iff : x ∈ g.ancestors headsA ∩ g.ancestors headsB
    ↔ g.IsCommon headsA headsB x := by
  rw [Finset.mem_inter, ancestors, ancestors, mem_ancestorsInclusive, mem_ancestorsInclusive]
  rfl

theorem IsCommon.of_reaches (h : g.IsCommon headsA headsB x) (hxy : g.Reaches x y) :
    g.IsCommon headsA headsB y := by
  obtain ⟨⟨a, ha, hax⟩, b, hb, hbx⟩ := h
  exact ⟨⟨a, ha, hax.trans hxy⟩, b, hb, hbx.trans hxy⟩

theorem mem_mergeBasesOrdered_iff (hg : g.Indexed) : x ∈ g.mergeBasesOrdered headsA headsB
    ↔ g.IsCommon headsA headsB x ∧ ∀ y, g.IsCommon headsA headsB y → ¬ g.ProperAncestor y x := by
  simp only [mergeBasesOrdered, Finset.mem_filter, mem_common_iff, hg.mem_children, not_exists,
    not_and]
  refine and_congr_right fun hx => ⟨fun h y hy hpath => ?_, fun h child hchild hc => ?_⟩
  · obtain ⟨child, hreach, hchild⟩ := Relation.TransGen.tail'_iff.mp hpath
    exact h child hchild (hy.of_reaches hreach)
  · exact h child hc (.single hchild)

theorem exists_mergeBase (hg : g.Indexed) (hac : g.Acyclic) (hx : g.IsCommon headsA headsB x) :
    ∃ base ∈ g.mergeBasesOrdered headsA headsB, g.Reaches base x := by
  refine hac.children_induction hg
    (P := fun y => ∃ base ∈ g.mergeBasesOrdered headsA headsB, g.Reaches base y)
    (fun y hy ih => ?_) (mem_common_iff.mpr hx)
  by_cases hchild : ∃ child ∈ g.children y, child ∈ g.ancestors headsA ∩ g.ancestors headsB
  · obtain ⟨child, hmem, hcommon⟩ := hchild
    obtain ⟨base, hbase, hreach⟩ := ih child hmem hcommon
    exact ⟨base, hbase, hreach.tail ((hg.mem_children y child).mp hmem)⟩
  · exact ⟨y, Finset.mem_filter.mpr ⟨hy, hchild⟩, .refl⟩

theorem mergeBasesOrdered_comm (g : ChangeGraph) (headsA headsB : Finset Blake3Hash) :
    g.mergeBasesOrdered headsA headsB = g.mergeBasesOrdered headsB headsA := by
  rw [mergeBasesOrdered, mergeBasesOrdered, Finset.inter_comm]

theorem mergeBaseDeterministic_eq_some_iff (g : ChangeGraph) (headsA headsB : Finset Blake3Hash)
    (x : Blake3Hash) : g.mergeBaseDeterministic headsA headsB = some x
      ↔ IsLeast {base | base ∈ g.mergeBasesOrdered headsA headsB} x := by
  have hsorted := (g.mergeBasesOrdered headsA headsB).pairwise_sorted
  have hmem (base : Blake3Hash) : base ∈ (g.mergeBasesOrdered headsA headsB).sorted
      ↔ base ∈ g.mergeBasesOrdered headsA headsB := Finset.mem_sorted
  simp only [← hmem]
  rw [mergeBaseDeterministic]
  cases hlist : (g.mergeBasesOrdered headsA headsB).sorted with
  | nil => simp [IsLeast]
  | cons first rest =>
      rw [hlist] at hsorted
      have hfirst : IsLeast {base | base ∈ first :: rest} first := by
        refine ⟨List.mem_cons_self, fun base hbase => ?_⟩
        rcases List.mem_cons.mp hbase with rfl | hrest
        · exact le_rfl
        · exact List.rel_of_pairwise_cons hsorted hrest
      rw [List.head?_cons, Option.some_inj]
      exact ⟨fun h => h ▸ hfirst, fun h => hfirst.unique h⟩

/-- **The merge bases** are the common ancestors that are no proper ancestor of a common one, in
increasing order. There is one as soon as something is common, the two sides may be swapped, and
the deterministic choice is the least one. -/
theorem mergeBases_correct {changes : List Change} (hdeps : OneDepSet changes)
    (hac : (ofChanges changes).Acyclic) (headsA headsB : Finset Blake3Hash) :
    let g := ofChanges changes
    let bases := g.mergeBasesOrdered headsA headsB
    (∀ x, x ∈ bases.sorted ↔ g.IsCommon headsA headsB x
        ∧ ∀ y, g.IsCommon headsA headsB y → ¬ g.ProperAncestor y x)
      ∧ bases.sorted.Pairwise (· < ·)
      ∧ (bases = ∅ ↔ ∀ x, ¬ g.IsCommon headsA headsB x)
      ∧ g.mergeBasesOrdered headsB headsA = bases
      ∧ ∀ x, g.mergeBaseDeterministic headsA headsB = some x
        ↔ IsLeast {base | base ∈ bases} x := by
  intro g bases
  have hg : g.Indexed := indexed_ofChanges hdeps
  refine ⟨fun x => ?_, ?_, ?_, g.mergeBasesOrdered_comm headsB headsA,
    g.mergeBaseDeterministic_eq_some_iff headsA headsB⟩
  · rw [Finset.mem_sorted]
    exact mem_mergeBasesOrdered_iff hg
  · exact (bases.pairwise_sorted.and bases.nodup_sorted).imp fun h => lt_of_le_of_ne h.1 h.2
  · constructor
    · intro hempty x hx
      obtain ⟨base, hbase, -⟩ := exists_mergeBase hg hac hx
      exact Finset.ne_empty_of_mem hbase hempty
    · intro hnone
      refine Finset.eq_empty_of_forall_notMem fun x hx => ?_
      exact hnone x ((mem_mergeBasesOrdered_iff hg).mp hx).1

/-- Two merges of the same two changes have both of them as merge bases. -/
theorem mergeBases_crisscross :
    let g := ofChanges [.bare 1 ∅ [], .bare 2 ∅ [], .bare 3 {1, 2} [], .bare 4 {1, 2} []]
    (∀ x, x ∈ (g.mergeBasesOrdered {3} {4}).sorted ↔ g.IsCommon {3} {4} x
        ∧ ∀ y, g.IsCommon {3} {4} y → ¬ g.ProperAncestor y x)
      ∧ (g.mergeBasesOrdered {3} {4}).sorted = [1, 2]
      ∧ g.mergeBaseDeterministic {3} {4} = some 1 := by
  intro g
  have hdeps : OneDepSet [.bare 1 ∅ [], .bare 2 ∅ [], .bare 3 {1, 2} [], .bare 4 {1, 2} []] := by
    decide
  exact ⟨(mergeBases_correct hdeps (acyclic_of_lt (by decide)) {3} {4}).1, by decide, by decide⟩

/-! ## Tips -/

/-- `nodes.get(id).is_some_and(is_ghost)`. -/
def isGhostNode (g : ChangeGraph) (id : Blake3Hash) : Bool := (g.get id).any Change.isGhost

def tipIds (g : ChangeGraph) : Finset Blake3Hash :=
  g.nodes.keys.filter fun id =>
    ¬ g.isGhostNode id ∧ ∀ child ∈ g.children id, g.isGhostNode child

/-- A node that is no ghost. -/
def IsSolid (g : ChangeGraph) (id : Blake3Hash) : Prop :=
  ∃ c, g.get id = some c ∧ c.isGhost = false

/-- The ids are an antichain of solid changes below which there is everything solid. -/
structure IsFrontier (g : ChangeGraph) (ids : Finset Blake3Hash) : Prop where
  solid : ∀ id ∈ ids, g.IsSolid id
  antichain : ∀ id ∈ ids, ∀ other ∈ ids, ¬ g.ProperAncestor other id
  covers : ∀ id, g.IsSolid id → ∃ tip ∈ ids, g.Reaches tip id

theorem IsSolid.mem_keys (h : g.IsSolid x) : x ∈ g.nodes.keys := by
  obtain ⟨c, hget, -⟩ := h
  exact FMap.mem_keys_of_lookup hget

theorem isSolid_iff (hx : x ∈ g.nodes.keys) : g.IsSolid x ↔ g.isGhostNode x = false := by
  obtain ⟨c, hget⟩ := FMap.mem_keys_iff.mp hx
  have hget : g.get x = some c := hget
  rw [IsSolid, isGhostNode, hget]
  simp

theorem mem_keys_of_mem_children (hg : g.Indexed) (hy : y ∈ g.children x) : y ∈ g.nodes.keys := by
  rw [hg.mem_children] at hy
  by_contra hkey
  rw [hg.deps_ghost (FMap.notMem_keys_iff.mp hkey)] at hy
  exact absurd hy (Finset.notMem_empty x)

theorem mem_tipIds_iff (hg : g.Indexed) :
    x ∈ g.tipIds ↔ g.IsSolid x ∧ ∀ child ∈ g.children x, ¬ g.IsSolid child := by
  rw [tipIds, Finset.mem_filter]
  constructor
  · rintro ⟨hx, hghost, hchildren⟩
    refine ⟨(isSolid_iff hx).mpr (Bool.eq_false_iff.mpr hghost), fun child hchild hsolid => ?_⟩
    have hnot := (isSolid_iff (mem_keys_of_mem_children hg hchild)).mp hsolid
    exact absurd (hchildren child hchild) (Bool.eq_false_iff.mp hnot)
  · rintro ⟨hsolid, hchildren⟩
    refine ⟨hsolid.mem_keys, ?_, fun child hchild => ?_⟩
    · exact Bool.eq_false_iff.mp ((isSolid_iff hsolid.mem_keys).mp hsolid)
    · by_contra hghost
      refine hchildren child hchild ((isSolid_iff (mem_keys_of_mem_children hg hchild)).mpr ?_)
      exact Bool.eq_false_iff.mpr hghost

theorem exists_tip (hg : g.Indexed) (hac : g.Acyclic) (hx : g.IsSolid x) :
    ∃ tip ∈ g.tipIds, g.Reaches tip x := by
  revert hx
  by_cases hkey : x ∈ g.nodes.keys
  · refine hac.children_induction hg
      (P := fun y => g.IsSolid y → ∃ tip ∈ g.tipIds, g.Reaches tip y) (fun y _ ih hy => ?_) hkey
    by_cases hchild : ∃ child ∈ g.children y, g.IsSolid child
    · obtain ⟨child, hmem, hsolid⟩ := hchild
      obtain ⟨tip, htip, hreach⟩ := ih child hmem hsolid.mem_keys hsolid
      exact ⟨tip, htip, hreach.tail ((hg.mem_children y child).mp hmem)⟩
    · refine ⟨y, (mem_tipIds_iff hg).mpr ⟨hy, fun child hmem hsolid => ?_⟩, .refl⟩
      exact hchild ⟨child, hmem, hsolid⟩
  · exact fun hx => absurd hx.mem_keys hkey

/-- A solid change with a solid descendant has a solid child. -/
def NoneHidden (g : ChangeGraph) : Prop :=
  ∀ x, g.IsSolid x → (∃ y, g.IsSolid y ∧ g.ProperAncestor y x) →
    ∃ child ∈ g.children x, g.IsSolid child

/-- **The tips are a frontier** exactly when no change is hidden behind ghost nodes from its solid
descendants. -/
theorem tipIds_isFrontier_iff {changes : List Change} (hdeps : OneDepSet changes)
    (hac : (ofChanges changes).Acyclic) :
    (ofChanges changes).IsFrontier (ofChanges changes).tipIds
      ↔ (ofChanges changes).NoneHidden := by
  have hg : (ofChanges changes).Indexed := indexed_ofChanges hdeps
  constructor
  · rintro ⟨-, hantichain, hcovers⟩ x hx ⟨y, hy, hpath⟩
    by_contra hchild
    have htip : x ∈ (ofChanges changes).tipIds :=
      (mem_tipIds_iff hg).mpr ⟨hx, fun child hmem hsolid => hchild ⟨child, hmem, hsolid⟩⟩
    obtain ⟨top, htop, hreach⟩ := hcovers y hy
    exact hantichain x htip top htop (.trans_right hreach hpath)
  · intro hnone
    refine ⟨fun id hid => ((mem_tipIds_iff hg).mp hid).1, fun id hid other hother hpath => ?_,
      fun id hid => exists_tip hg hac hid⟩
    obtain ⟨hsolid, hchildren⟩ := (mem_tipIds_iff hg).mp hid
    obtain ⟨child, hmem, hchild⟩ :=
      hnone id hsolid ⟨other, ((mem_tipIds_iff hg).mp hother).1, hpath⟩
    exact hchildren child hmem hchild

/-- A ghost on top of a change, and with `top` a change on top of the ghost. -/
def ghostChain (top : List Change) : List Change :=
  [.bare 1 ∅ [], { Change.bare 2 {1} [] with isGhost := true }] ++ top

/-- The tips of a chain whose last change is a ghost. -/
theorem tipIds_ghost_on_top :
    (ofChanges (ghostChain [])).IsFrontier (ofChanges (ghostChain [])).tipIds := by
  have hac : (ofChanges (ghostChain [])).Acyclic := acyclic_of_lt (by decide)
  have hone : ∀ x ∈ (ofChanges (ghostChain [])).nodes.keys,
      (ofChanges (ghostChain [])).isGhostNode x = false → x = 1 := by decide
  have hsolid {x : Blake3Hash} (hx : (ofChanges (ghostChain [])).IsSolid x) : x = 1 :=
    hone x hx.mem_keys ((isSolid_iff hx.mem_keys).mp hx)
  refine (tipIds_isFrontier_iff (by decide) hac).mpr fun x hx ⟨y, hy, hpath⟩ => ?_
  obtain rfl := hsolid hx
  obtain rfl := hsolid hy
  exact absurd hpath (hac 1)

/-- A change on top of the ghost: the first change is still a tip. -/
theorem hidden_change_is_tip :
    ¬ ∀ changes : List Change, OneDepSet changes → (ofChanges changes).Acyclic →
      (ofChanges changes).IsFrontier (ofChanges changes).tipIds := by
  intro h
  have hfrontier := h (ghostChain [.bare 3 {2} []]) (by decide) (acyclic_of_lt (by decide))
  refine hfrontier.antichain 1 (by decide) 3 (by decide) ?_
  exact .tail (.single (by decide : (2 : Blake3Hash) ∈ _)) (by decide : (1 : Blake3Hash) ∈ _)

end ChangeGraph

end ArcVcs
