import ArcVcs.Graph

/-!
# The two indices of the change graph

What a sequence of insertions leaves in the forward and in the reverse edges. An insertion
replaces the dependencies of its id but only ever adds reverse edges, so the indices transpose
each other as long as no id loses a dependency. Then `topological_sort` counts right.
-/

namespace ArcVcs

namespace ChangeGraph

variable {g : ChangeGraph}

def AddedLast (changes : List Change) (c : Change) : Prop :=
  ∃ pre post, changes = pre ++ c :: post ∧ ∀ c' ∈ post, c'.id ≠ c.id

theorem exists_addedLast {changes : List Change} {x : Blake3Hash}
    (hx : x ∈ changes.map Change.id) : ∃ c, AddedLast changes c ∧ c.id = x := by
  induction changes with
  | nil => simp at hx
  | cons a changes ih =>
      by_cases hmem : x ∈ changes.map Change.id
      · obtain ⟨c, ⟨pre, post, hsplit, hpost⟩, hid⟩ := ih hmem
        exact ⟨c, ⟨a :: pre, post, by rw [hsplit, List.cons_append], hpost⟩, hid⟩
      · have hax : a.id = x := by simpa [hmem, eq_comm] using hx
        refine ⟨a, ⟨[], changes, rfl, fun c' hc' hid => hmem ?_⟩, hax⟩
        rw [← hax, ← hid]
        exact List.mem_map_of_mem hc'

theorem AddedLast.mem {changes : List Change} {c : Change} (h : AddedLast changes c) :
    c ∈ changes := by
  obtain ⟨pre, post, rfl, -⟩ := h
  simp

theorem get_addedLast {changes : List Change} {c : Change} (h : AddedLast changes c) :
    (g.addAll changes).get c.id = some c := by
  obtain ⟨pre, post, rfl, hpost⟩ := h
  have hnot : c.id ∉ post.map Change.id := by
    rintro hmem
    obtain ⟨c', hc', hid⟩ := List.mem_map.mp hmem
    exact hpost c' hc' hid
  rw [addAll_append, addAll_cons, get_addAll_of_notMem hnot, get_addChange, if_pos rfl]

theorem node_id_addAll (hid : ∀ id c, g.get id = some c → c.id = id) (changes : List Change)
    {id : Blake3Hash} {c : Change} (h : (g.addAll changes).get id = some c) : c.id = id := by
  induction changes generalizing g with
  | nil => exact hid id c h
  | cons a changes ih =>
      refine ih (fun id' c' h' => ?_) h
      rw [get_addChange] at h'
      split_ifs at h' with ha
      · rw [← Option.some_inj.mp h', ha]
      · exact hid id' c' h'

theorem edges_addAll (hedges : ∀ id, g.edges.lookup id = (g.get id).map Change.deps)
    (changes : List Change) (id : Blake3Hash) :
    (g.addAll changes).edges.lookup id = ((g.addAll changes).get id).map Change.deps := by
  induction changes generalizing g with
  | nil => exact hedges id
  | cons a changes ih =>
      apply ih
      intro id'
      rw [get_addChange, addChange]
      dsimp only
      rw [FMap.lookup_insert_eq]
      split_ifs
      · rfl
      · exact hedges id'

theorem deps_addedLast {changes : List Change} {c : Change} (h : AddedLast changes c) :
    (ofChanges changes).deps c.id = c.deps := by
  rw [deps, ofChanges, edges_addAll (fun _ => rfl), get_addedLast h]
  rfl

theorem deps_of_notMem {changes : List Change} {x : Blake3Hash}
    (hx : x ∉ changes.map Change.id) : (ofChanges changes).deps x = ∅ := by
  rw [deps, ofChanges, edges_addAll (fun _ => rfl), get_addAll_of_notMem hx]
  rfl

theorem mem_children_addAll {changes : List Change} {d x : Blake3Hash} :
    x ∈ (g.addAll changes).children d
      ↔ x ∈ g.children d ∨ ∃ c ∈ changes, c.id = x ∧ d ∈ c.deps := by
  induction changes generalizing g with
  | nil => simp
  | cons a changes ih =>
      rw [addAll_cons, ih, mem_children_addChange, or_assoc]
      refine or_congr_right ?_
      simp only [List.mem_cons, exists_eq_or_imp]
      exact or_congr_left (and_congr_left fun _ => eq_comm)

theorem mem_children_ofChanges {changes : List Change} {d x : Blake3Hash} :
    x ∈ (ofChanges changes).children d ↔ ∃ c ∈ changes, c.id = x ∧ d ∈ c.deps := by
  rw [ofChanges, mem_children_addAll, or_iff_right]
  simp [children, ChangeGraph.new]

/-! ## Consistent indices -/

/-- The reverse edges transpose the forward edges, and no sort of the graph decrements an
in-degree below zero. -/
structure IndexConsistent (g : ChangeGraph) : Prop where
  transposed : ∀ d x, x ∈ g.children d ↔ d ∈ g.deps x
  sorts : ∀ heads, ∃ order, g.topologicalSort heads = some order

/-- The change added last under an id lists every dependency that an earlier one listed. -/
def KeepsDeps (changes : List Change) : Prop :=
  ∀ c, AddedLast changes c → ∀ b ∈ changes, b.id = c.id → b.deps ⊆ c.deps

theorem transposed_iff_keepsDeps (changes : List Change) :
    (∀ d x, x ∈ (ofChanges changes).children d ↔ d ∈ (ofChanges changes).deps x)
      ↔ KeepsDeps changes := by
  constructor
  · intro h c hc b hb hid d hd
    rw [← deps_addedLast hc, ← h, mem_children_ofChanges]
    exact ⟨b, hb, hid, hd⟩
  · intro h d x
    rw [mem_children_ofChanges]
    by_cases hx : x ∈ changes.map Change.id
    · obtain ⟨c, hc, rfl⟩ := exists_addedLast hx
      rw [deps_addedLast hc]
      constructor
      · rintro ⟨b, hb, hid, hd⟩
        exact h c hc b hb hid hd
      · exact fun hd => ⟨c, hc.mem, rfl, hd⟩
    · rw [deps_of_notMem hx]
      simp only [Finset.notMem_empty, iff_false]
      rintro ⟨b, hb, rfl, -⟩
      exact hx (List.mem_map_of_mem hb)

theorem KeepsDeps.indexed {changes : List Change} (h : KeepsDeps changes) :
    (ofChanges changes).Indexed where
  node_id _ _ := node_id_addAll (fun _ _ h => by simp at h) changes
  edges_eq := edges_addAll (fun _ => rfl) changes
  mem_children := (transposed_iff_keepsDeps changes).mpr h

/-- **The indices are consistent exactly when no id loses a dependency.** -/
theorem indexConsistent_iff (changes : List Change) :
    (ofChanges changes).IndexConsistent ↔ KeepsDeps changes := by
  constructor
  · exact fun h => (transposed_iff_keepsDeps changes).mp h.transposed
  · intro h
    refine ⟨(transposed_iff_keepsDeps changes).mpr h, fun heads => ?_⟩
    obtain ⟨order, hrun, -⟩ := h.indexed.exists_topologicalSort heads
    exact ⟨order, hrun⟩

/-- The tombstone of a change replaces it and has no dependencies. The root still lists the
change as a child, whose in-degree is zero. -/
theorem erased_breaks_index :
    let root : Change := .bare 1 ∅ []
    let child : Change := .bare 2 {1} []
    let g := ofChanges [root, child, child.erased]
    2 ∈ g.children 1 ∧ 1 ∉ g.deps 2 ∧ g.topologicalSort {1, 2} = none
      ∧ ¬ g.IndexConsistent := by
  intro root child g
  have hsort : g.topologicalSort {1, 2} = none := by decide
  refine ⟨by decide, by decide, hsort, fun h => ?_⟩
  obtain ⟨order, horder⟩ := h.sorts {1, 2}
  rw [hsort] at horder
  exact absurd horder (by simp)

/-! ## The topological order of a sequence of insertions -/

def OneDepSet (changes : List Change) : Prop :=
  ∀ a ∈ changes, ∀ b ∈ changes, a.id = b.id → a.deps = b.deps

instance (changes : List Change) : Decidable (OneDepSet changes) :=
  inferInstanceAs (Decidable (∀ a ∈ changes, ∀ b ∈ changes, a.id = b.id → a.deps = b.deps))

theorem OneDepSet.deps_eq {changes : List Change} (h : OneDepSet changes) {c : Change}
    (hc : c ∈ changes) : (ofChanges changes).deps c.id = c.deps := by
  obtain ⟨b, hb, hid⟩ := exists_addedLast (List.mem_map_of_mem (f := Change.id) hc)
  rw [← hid, deps_addedLast hb]
  exact h b hb.mem c hc hid

theorem OneDepSet.deps_congr {changes changes' : List Change} (h : OneDepSet changes)
    (hmem : ∀ c, c ∈ changes' ↔ c ∈ changes) (x : Blake3Hash) :
    (ofChanges changes').deps x = (ofChanges changes).deps x := by
  have h' : OneDepSet changes' := fun a ha b hb => h a ((hmem a).mp ha) b ((hmem b).mp hb)
  by_cases hx : x ∈ changes.map Change.id
  · obtain ⟨c, hc, rfl⟩ := List.mem_map.mp hx
    rw [h.deps_eq hc, h'.deps_eq ((hmem c).mpr hc)]
  · rw [deps_of_notMem hx, deps_of_notMem]
    simpa [List.mem_map, hmem] using hx

theorem TopologicalOrder.mem_of_split {heads : Finset Blake3Hash} {order : List Blake3Hash}
    (h : g.TopologicalOrder heads order) (hac : g.Acyclic) {pre post : List Blake3Hash}
    {x d : Blake3Hash} (hsplit : order = pre ++ x :: post) (hd : d ∈ g.deps x) : d ∈ pre := by
  have hx : x ∈ g.ancestorsInclusive heads := (h.mem_iff x).mp (by rw [hsplit]; simp)
  have hmem : d ∈ order := (h.mem_iff d).mpr (ancestorsInclusive_of_mem_deps hx hd)
  rw [hsplit, List.mem_append, List.mem_cons] at hmem
  rcases hmem with hpre | rfl | hpost
  · exact hpre
  · exact absurd (.single hd) (hac d)
  · have hresp := h.respects
    rw [hsplit] at hresp
    have hlater := (List.pairwise_append.mp hresp).2.1
    exact absurd hd ((List.pairwise_cons.mp hlater).1 d hpost)

/-- **`topological_sort` is correct** on every acyclic graph that insertions build with one
dependency set for each id, and does not depend on the order of the insertions. -/
theorem topologicalSort_correct {changes : List Change} (hdeps : OneDepSet changes)
    (hac : (ofChanges changes).Acyclic) (heads : Finset Blake3Hash) :
    ∃ order, (ofChanges changes).topologicalSort heads = some order ∧ order.Nodup
      ∧ (∀ x, x ∈ order ↔ ∃ h ∈ heads, (ofChanges changes).Reaches h x)
      ∧ (∀ pre x post, order = pre ++ x :: post → ∀ d ∈ (ofChanges changes).deps x, d ∈ pre)
      ∧ ∀ changes', (∀ c, c ∈ changes' ↔ c ∈ changes) →
        (ofChanges changes').topologicalSort heads = some order := by
  have hg : (ofChanges changes).Indexed := indexed_ofChanges hdeps
  obtain ⟨order, hrun, horder⟩ := hg.topologicalSort_spec hac heads
  refine ⟨order, hrun, horder.nodup, fun x => ?_, ?_, fun changes' hmem => ?_⟩
  · rw [horder.mem_iff, mem_ancestorsInclusive]
  · exact fun pre x post hsplit d hd => horder.mem_of_split hac hsplit hd
  · have hg' : (ofChanges changes').Indexed :=
      indexed_ofChanges fun a ha b hb => hdeps a ((hmem a).mp ha) b ((hmem b).mp hb)
    rw [← hrun]
    exact topologicalSort_congr hg hg' fun x _ => hdeps.deps_congr hmem x

/-- A diamond on top of a ghost. -/
theorem topologicalSort_diamond :
    let changes : List Change := [.bare 4 {2, 3} [], .bare 2 {1} [], .bare 3 {1} []]
    (ofChanges changes).topologicalSort {4} = some [1, 2, 3, 4]
      ∧ ∀ changes', (∀ c, c ∈ changes' ↔ c ∈ changes) →
        (ofChanges changes').topologicalSort {4} = some [1, 2, 3, 4] := by
  intro changes
  have hrun : (ofChanges changes).topologicalSort {4} = some [1, 2, 3, 4] := by decide
  have hdeps : OneDepSet changes := by decide
  obtain ⟨order, horder, -, -, -, hsame⟩ :=
    topologicalSort_correct hdeps (acyclic_of_lt (by decide)) {4}
  obtain rfl : order = [1, 2, 3, 4] := Option.some_inj.mp (horder.symm.trans hrun)
  exact ⟨hrun, hsame⟩

end ChangeGraph

end ArcVcs
