import ArcVcs.Change
import ArcVcs.Lib.Kahn
import ArcVcs.Lib.Worklist

/-!
# The change graph

`ChangeGraph` of `arc-store-graph`: the nodes with their forward and reverse edges, ancestor
sets, merge bases and the topological order. A dependency may be a ghost, an id without a
node.
-/

namespace ArcVcs

structure ChangeGraph where
  nodes : FMap Blake3Hash Change
  edges : FMap Blake3Hash (Finset Blake3Hash)
  reverseEdges : FMap Blake3Hash (Finset Blake3Hash)

namespace ChangeGraph

def new : ChangeGraph := ⟨∅, ∅, ∅⟩

/-- `reverse_edges.entry(dep).or_default().insert(id)`. -/
def linkChild (id : Blake3Hash) (rev : FMap Blake3Hash (Finset Blake3Hash))
    (dep : Blake3Hash) : FMap Blake3Hash (Finset Blake3Hash) :=
  rev.insert dep (insert id ((rev.lookup dep).getD ∅))

def addChange (g : ChangeGraph) (change : Change) : ChangeGraph where
  nodes := g.nodes.insert change.id change
  edges := g.edges.insert change.id change.deps
  reverseEdges :=
    let rev := change.deps.sorted.foldl (linkChild change.id) g.reverseEdges
    rev.insert change.id ((rev.lookup change.id).getD ∅)

def get (g : ChangeGraph) (id : Blake3Hash) : Option Change := g.nodes.lookup id

/-- The forward edges of an id, none for a ghost. -/
def deps (g : ChangeGraph) (id : Blake3Hash) : Finset Blake3Hash := (g.edges.lookup id).getD ∅

def children (g : ChangeGraph) (id : Blake3Hash) : Finset Blake3Hash :=
  (g.reverseEdges.lookup id).getD ∅

/-- Every push of the closure loop is a head or a forward edge. -/
def closureFuel (g : ChangeGraph) (heads : Finset Blake3Hash) : ℕ :=
  heads.card + ∑ id ∈ g.edges.keys, (g.deps id).card + 1

def ancestorsInclusive (g : ChangeGraph) (heads : Finset Blake3Hash) : Finset Blake3Hash :=
  (Worklist.closure g.deps (g.closureFuel heads) heads.sorted ∅).getD ∅

def ancestors (g : ChangeGraph) (heads : Finset Blake3Hash) : Finset Blake3Hash :=
  g.ancestorsInclusive heads

/-- Kahn's algorithm on the ancestors of the heads. `none` is the panic of a decrement below
zero or of a missing in-degree. -/
def topologicalSort (g : ChangeGraph) (startHeads : Finset Blake3Hash) :
    Option (List Blake3Hash) :=
  Kahn.sort (g.ancestorsInclusive startHeads) g.deps g.children

def parentIds (g : ChangeGraph) (id : Blake3Hash) : List Blake3Hash := (g.deps id).sorted

def childIds (g : ChangeGraph) (id : Blake3Hash) : List Blake3Hash := (g.children id).sorted

/-- The common ancestors none of whose children is a common ancestor. -/
def mergeBasesOrdered (g : ChangeGraph) (headsA headsB : Finset Blake3Hash) :
    Finset Blake3Hash :=
  let common := g.ancestors headsA ∩ g.ancestors headsB
  common.filter fun id => ¬ ∃ child ∈ g.children id, child ∈ common

def mergeBaseDeterministic (g : ChangeGraph) (headsA headsB : Finset Blake3Hash) :
    Option Blake3Hash :=
  (g.mergeBasesOrdered headsA headsB).sorted.head?

/-! ## Well-formed graphs -/

/-- The forward edges are the dependencies of the nodes and the reverse edges transpose
them. -/
structure Indexed (g : ChangeGraph) : Prop where
  node_id : ∀ id c, g.get id = some c → c.id = id
  edges_eq : ∀ id, g.edges.lookup id = (g.get id).map Change.deps
  mem_children : ∀ d x, x ∈ g.children d ↔ d ∈ g.deps x

/-- `x` lists `y` as a dependency. -/
def DependsOn (g : ChangeGraph) (x y : Blake3Hash) : Prop := y ∈ g.deps x

/-- `a` is `x` or an ancestor of it. -/
def Reaches (g : ChangeGraph) : Blake3Hash → Blake3Hash → Prop :=
  Relation.ReflTransGen g.DependsOn

def ProperAncestor (g : ChangeGraph) : Blake3Hash → Blake3Hash → Prop :=
  Relation.TransGen g.DependsOn

def Acyclic (g : ChangeGraph) : Prop := ∀ x, ¬ g.ProperAncestor x x

variable {g : ChangeGraph}

@[simp] theorem get_new (id : Blake3Hash) : new.get id = none := rfl

@[simp] theorem get_addChange (g : ChangeGraph) (c : Change) (id : Blake3Hash) :
    (g.addChange c).get id = if id = c.id then some c else g.get id :=
  FMap.lookup_insert_eq _ _ _ _

@[simp] theorem deps_addChange (g : ChangeGraph) (c : Change) (id : Blake3Hash) :
    (g.addChange c).deps id = if id = c.id then c.deps else g.deps id := by
  simp only [deps, addChange, FMap.lookup_insert_eq]
  split_ifs <;> rfl

theorem getD_insert_self (rev : FMap Blake3Hash (Finset Blake3Hash)) (k d : Blake3Hash) :
    ((rev.insert k ((rev.lookup k).getD ∅)).lookup d).getD ∅ = (rev.lookup d).getD ∅ := by
  rw [FMap.lookup_insert_eq]
  split_ifs with h
  · rw [h]
    rfl
  · rfl

theorem mem_foldl_linkChild {id d x : Blake3Hash} (ds : List Blake3Hash)
    (rev : FMap Blake3Hash (Finset Blake3Hash)) :
    x ∈ ((ds.foldl (linkChild id) rev).lookup d).getD ∅
      ↔ x ∈ (rev.lookup d).getD ∅ ∨ (x = id ∧ d ∈ ds) := by
  induction ds generalizing rev with
  | nil => simp
  | cons e ds ih =>
      rw [List.foldl_cons, ih]
      simp only [linkChild, FMap.lookup_insert_eq]
      split_ifs with h
      · subst h
        simp
        tauto
      · simp [h]

theorem mem_children_addChange {c : Change} {d x : Blake3Hash} :
    x ∈ (g.addChange c).children d ↔ x ∈ g.children d ∨ (x = c.id ∧ d ∈ c.deps) := by
  rw [children, addChange]
  dsimp only
  rw [getD_insert_self, mem_foldl_linkChild, Finset.mem_sorted]
  rfl

theorem Indexed.new : ChangeGraph.new.Indexed :=
  ⟨by simp, fun _ => rfl, by simp [children, deps, ChangeGraph.new]⟩

theorem Indexed.addChange (hg : g.Indexed) {c : Change}
    (hc : ∀ c', g.get c.id = some c' → c'.deps = c.deps) : (g.addChange c).Indexed where
  node_id id c' h := by
    rw [get_addChange] at h
    split_ifs at h with hid
    · rw [← Option.some_inj.mp h, hid]
    · exact hg.node_id id c' h
  edges_eq id := by
    rw [get_addChange]
    simp only [ChangeGraph.addChange, FMap.lookup_insert_eq]
    split_ifs
    · rfl
    · exact hg.edges_eq id
  mem_children d x := by
    rw [mem_children_addChange, deps_addChange, hg.mem_children]
    split_ifs with hx
    · subst hx
      simp only [true_and, or_iff_right_iff_imp]
      intro hd
      have hget := hg.edges_eq c.id
      cases h : g.get c.id with
      | none => simp [deps, hget, h] at hd
      | some c' => simpa [deps, hget, h, hc c' h] using hd
    · simp [hx]

def addAll (g : ChangeGraph) (changes : List Change) : ChangeGraph :=
  changes.foldl ChangeGraph.addChange g

@[simp] theorem addAll_nil (g : ChangeGraph) : g.addAll [] = g := rfl

@[simp] theorem addAll_cons (g : ChangeGraph) (c : Change) (cs : List Change) :
    g.addAll (c :: cs) = (g.addChange c).addAll cs := rfl

theorem addAll_append (g : ChangeGraph) (cs₁ cs₂ : List Change) :
    g.addAll (cs₁ ++ cs₂) = (g.addAll cs₁).addAll cs₂ := List.foldl_append

theorem get_addAll_of_notMem {cs : List Change} {x : Blake3Hash} (hx : x ∉ cs.map Change.id) :
    (g.addAll cs).get x = g.get x := by
  induction cs generalizing g with
  | nil => rfl
  | cons c cs ih =>
      simp only [List.map_cons, List.mem_cons, not_or] at hx
      rw [addAll_cons, ih hx.2, get_addChange, if_neg hx.1]

theorem get_addAll_of_mem {cs : List Change} (hnodup : (cs.map Change.id).Nodup) {c : Change}
    (hc : c ∈ cs) : (g.addAll cs).get c.id = some c := by
  induction cs generalizing g with
  | nil => simp at hc
  | cons c' cs ih =>
      obtain ⟨hc', hnodup⟩ := List.nodup_cons.mp hnodup
      rcases List.mem_cons.mp hc with rfl | hc
      · rw [addAll_cons, get_addAll_of_notMem hc', get_addChange, if_pos rfl]
      · exact ih hnodup hc

theorem Indexed.addAll (hg : g.Indexed) {cs : List Change}
    (hcs : ∀ a ∈ cs, ∀ b ∈ cs, a.id = b.id → a.deps = b.deps)
    (hold : ∀ c ∈ cs, ∀ c', g.get c.id = some c' → c'.deps = c.deps) : (g.addAll cs).Indexed := by
  induction cs generalizing g with
  | nil => exact hg
  | cons c cs ih =>
      refine ih (hg.addChange (hold c List.mem_cons_self))
        (fun a ha b hb => hcs a (.tail _ ha) b (.tail _ hb)) fun d hd c' hc' => ?_
      rw [get_addChange] at hc'
      split_ifs at hc' with hid
      · obtain rfl := Option.some_inj.mp hc'
        exact hcs c List.mem_cons_self d (.tail _ hd) hid.symm
      · exact hold d (.tail _ hd) c' hc'

def ofChanges (changes : List Change) : ChangeGraph := new.addAll changes

theorem indexed_ofChanges {changes : List Change}
    (h : ∀ a ∈ changes, ∀ b ∈ changes, a.id = b.id → a.deps = b.deps) :
    (ofChanges changes).Indexed :=
  Indexed.new.addAll h fun _ _ _ hc' => by simp at hc'

theorem acyclic_of_rank (rank : Blake3Hash → ℕ) (h : ∀ x, ∀ y ∈ g.deps x, rank y < rank x) :
    g.Acyclic := by
  have hlt : ∀ {x a}, g.ProperAncestor x a → rank a < rank x := by
    intro x a hxa
    induction hxa with
    | single hstep => exact h _ _ hstep
    | tail _ hstep ih => exact (h _ _ hstep).trans ih
  exact fun x hx => lt_irrefl _ (hlt hx)

theorem acyclic_of_lt (h : ∀ x ∈ g.edges.keys, ∀ y ∈ g.deps x, y < x) : g.Acyclic := by
  refine acyclic_of_rank Blake3Hash.toNat fun x y hy => ?_
  by_cases hx : x ∈ g.edges.keys
  · exact h x hx y hy
  · simp [deps, FMap.notMem_keys_iff.mp hx] at hy

theorem Indexed.deps_eq (hg : g.Indexed) {id : Blake3Hash} {c : Change}
    (h : g.get id = some c) : g.deps id = c.deps := by
  simp [deps, hg.edges_eq, h]

theorem Indexed.deps_ghost (hg : g.Indexed) {id : Blake3Hash} (h : g.get id = none) :
    g.deps id = ∅ := by
  simp [deps, hg.edges_eq, h]

/-! ## Ancestors -/

theorem exists_closure (g : ChangeGraph) (heads : Finset Blake3Hash) :
    Worklist.closure g.deps (g.closureFuel heads) heads.sorted ∅
      = some (g.ancestorsInclusive heads) := by
  have hsupp : ∀ id, id ∉ g.edges.keys → g.deps id = ∅ := fun id h => by
    rw [deps, FMap.notMem_keys_iff.mp h, Option.getD_none]
  have hfuel : Worklist.potential g.deps g.edges.keys heads.sorted ∅ < g.closureFuel heads := by
    simp [Worklist.potential, closureFuel]
  obtain ⟨out, hout⟩ := Worklist.closure_isSome hsupp hfuel
  rw [ancestorsInclusive, hout, Option.getD_some]

/-- **The ancestor set** holds what the heads reach through dependencies. -/
theorem mem_ancestorsInclusive {heads : Finset Blake3Hash} {a : Blake3Hash} :
    a ∈ g.ancestorsInclusive heads ↔ ∃ h ∈ heads, g.Reaches h a :=
  Worklist.mem_closure_iff (exists_closure g heads)

theorem subset_ancestorsInclusive (g : ChangeGraph) (heads : Finset Blake3Hash) :
    heads ⊆ g.ancestorsInclusive heads :=
  fun h hh => mem_ancestorsInclusive.mpr ⟨h, hh, .refl⟩

theorem ancestorsInclusive_of_reaches {heads : Finset Blake3Hash} {x a : Blake3Hash}
    (hx : x ∈ g.ancestorsInclusive heads) (h : g.Reaches x a) :
    a ∈ g.ancestorsInclusive heads := by
  obtain ⟨r, hr, hrx⟩ := mem_ancestorsInclusive.mp hx
  exact mem_ancestorsInclusive.mpr ⟨r, hr, hrx.trans h⟩

theorem ancestorsInclusive_of_mem_deps {heads : Finset Blake3Hash} {x d : Blake3Hash}
    (hx : x ∈ g.ancestorsInclusive heads) (h : d ∈ g.deps x) : d ∈ g.ancestorsInclusive heads :=
  ancestorsInclusive_of_reaches hx (.single h)

theorem subset_ancestorsInclusive_iff {heads : Finset Blake3Hash} {s : Finset Blake3Hash}
    (hs : ∀ x ∈ s, g.deps x ⊆ s) : g.ancestorsInclusive heads ⊆ s ↔ heads ⊆ s := by
  refine ⟨(subset_ancestorsInclusive g heads).trans, fun h a ha => ?_⟩
  obtain ⟨r, hr, hra⟩ := mem_ancestorsInclusive.mp ha
  clear ha
  induction hra with
  | refl => exact h hr
  | tail _ hstep ih => exact hs _ ih hstep

theorem mem_ancestorsInclusive_deps {x a : Blake3Hash} :
    a ∈ g.ancestorsInclusive (g.deps x) ↔ g.ProperAncestor x a := by
  rw [mem_ancestorsInclusive, ProperAncestor, Relation.TransGen.head'_iff]
  rfl

instance (x a : Blake3Hash) : Decidable (g.ProperAncestor x a) :=
  decidable_of_iff _ mem_ancestorsInclusive_deps

theorem mem_ancestorsInclusive_singleton {x a : Blake3Hash} :
    a ∈ g.ancestorsInclusive {x} ↔ a = x ∨ g.ProperAncestor x a := by
  simp only [mem_ancestorsInclusive, Finset.mem_singleton, exists_eq_left, Reaches,
    Relation.reflTransGen_iff_eq_or_transGen, ProperAncestor]

theorem ancestorsInclusive_congr {g' : ChangeGraph} {heads : Finset Blake3Hash}
    (h : ∀ x ∈ g.ancestorsInclusive heads, g'.deps x = g.deps x) :
    g'.ancestorsInclusive heads = g.ancestorsInclusive heads := by
  apply Finset.Subset.antisymm
  · refine (subset_ancestorsInclusive_iff fun x hx d hd => ?_).mpr
      (subset_ancestorsInclusive g heads)
    rw [h x hx] at hd
    exact ancestorsInclusive_of_mem_deps hx hd
  · intro a ha
    obtain ⟨r, hr, hra⟩ := mem_ancestorsInclusive.mp ha
    have hmem := subset_ancestorsInclusive g heads hr
    refine mem_ancestorsInclusive.mpr ⟨r, hr, ?_⟩
    clear ha
    induction hra with
    | refl => exact .refl
    | tail hra hstep ih =>
        refine ih.tail ?_
        rw [DependsOn, h _ (ancestorsInclusive_of_reaches hmem hra)]
        exact hstep

theorem Acyclic.addChange (hac : g.Acyclic) {c : Change}
    (hc : c.id ∉ g.ancestorsInclusive c.deps) : (g.addChange c).Acyclic := by
  have hedge : ∀ {x y}, (g.addChange c).DependsOn x y →
      (x ≠ c.id ∧ g.DependsOn x y) ∨ (x = c.id ∧ y ∈ c.deps) := by
    intro x y hxy
    rw [DependsOn, deps_addChange] at hxy
    split_ifs at hxy with hx
    · exact .inr ⟨hx, hxy⟩
    · exact .inl ⟨hx, hxy⟩
  -- a path either is an old one or has entered the closure of the new dependencies
  have hpath : ∀ {x z}, (g.addChange c).ProperAncestor x z →
      g.ProperAncestor x z ∨ z ∈ g.ancestorsInclusive c.deps := by
    intro x z hxz
    have hnew : ∀ {z}, z ∈ c.deps → z ∈ g.ancestorsInclusive c.deps :=
      fun hz => subset_ancestorsInclusive g _ hz
    induction hxz with
    | single hstep =>
        rcases hedge hstep with ⟨-, hold⟩ | ⟨-, hz⟩
        · exact .inl (.single hold)
        · exact .inr (hnew hz)
    | tail _ hstep ih =>
        rcases hedge hstep with ⟨-, hold⟩ | ⟨-, hz⟩
        · exact ih.imp (fun hxy => hxy.tail hold) fun hy => ancestorsInclusive_of_mem_deps hy hold
        · exact .inr (hnew hz)
  -- inside that closure every path is an old one
  have hinside : ∀ {x z}, x ∈ g.ancestorsInclusive c.deps →
      (g.addChange c).ProperAncestor x z →
      g.ProperAncestor x z ∧ z ∈ g.ancestorsInclusive c.deps := by
    intro x z hx hxz
    induction hxz with
    | single hstep =>
        rcases hedge hstep with ⟨-, hold⟩ | ⟨rfl, -⟩
        · exact ⟨.single hold, ancestorsInclusive_of_mem_deps hx hold⟩
        · exact absurd hx hc
    | tail _ hstep ih =>
        rcases hedge hstep with ⟨-, hold⟩ | ⟨rfl, -⟩
        · exact ⟨ih.1.tail hold, ancestorsInclusive_of_mem_deps ih.2 hold⟩
        · exact absurd ih.2 hc
  intro x hx
  rcases hpath hx with hold | hmem
  · exact hac x hold
  · exact hac x (hinside hmem hx).1

theorem Acyclic.congr {g' : ChangeGraph} (hac : g.Acyclic) (h : ∀ x, g'.deps x = g.deps x) :
    g'.Acyclic := by
  intro x hx
  refine hac x (Relation.TransGen.mono (fun a b hab => ?_) _ _ hx)
  rw [DependsOn, ← h a]
  exact hab

/-- Adding changes keeps a graph acyclic when each new one is no ancestor of its dependencies in
the graph that it is added to. -/
theorem Acyclic.addAll (hg : g.Indexed) (hac : g.Acyclic) {cs : List Change}
    (hnodup : (cs.map Change.id).Nodup)
    (hold : ∀ c ∈ cs, ∀ c', g.get c.id = some c' → c'.deps = c.deps)
    (hnew : ∀ pre c post, cs = pre ++ c :: post → g.get c.id = none →
      c.id ∉ (g.addAll pre).ancestorsInclusive c.deps) : (g.addAll cs).Acyclic := by
  induction cs using List.reverseRecOn with
  | nil => exact hac
  | append_singleton cs c ih =>
      rw [List.map_append, List.nodup_append] at hnodup
      have hcs : (g.addAll cs).Acyclic :=
        ih hnodup.1 (fun d hd => hold d (List.mem_append_left _ hd)) fun pre d post hsplit =>
          hnew pre d (post ++ [c]) (by rw [hsplit]; simp)
      have hget : (g.addAll cs).get c.id = g.get c.id :=
        get_addAll_of_notMem fun hmem => hnodup.2.2 _ hmem c.id (by simp) rfl
      rw [addAll_append, addAll_cons, addAll_nil]
      cases hc : g.get c.id with
      | none => exact hcs.addChange (hnew cs c [] rfl hc)
      | some c' =>
          have hdeps : c'.deps = c.deps := hold c (by simp) c' hc
          have hgcs : (g.addAll cs).Indexed := by
            refine hg.addAll (fun a ha b hb hid => ?_) fun d hd =>
              hold d (List.mem_append_left _ hd)
            rw [List.inj_on_of_nodup_map hnodup.1 ha hb hid]
          refine hcs.congr fun x => ?_
          rw [deps_addChange]
          split_ifs with hx
          · rw [hx, hgcs.deps_eq (hget.trans hc), hdeps]
          · rfl

/-! ## Topological order -/

/-- A list of the heads' ancestors, each once and after its dependencies. -/
structure TopologicalOrder (g : ChangeGraph) (heads : Finset Blake3Hash)
    (order : List Blake3Hash) : Prop where
  nodup : order.Nodup
  mem_iff : ∀ id, id ∈ order ↔ id ∈ g.ancestorsInclusive heads
  respects : LinearExtension.Respects (fun d x => d ∈ g.deps x) order

theorem Indexed.transposed (hg : g.Indexed) (nodes : Finset Blake3Hash) :
    Kahn.Transposed nodes g.deps g.children := fun a c _ => hg.mem_children a c

theorem Acyclic.kahn (hac : g.Acyclic) (nodes : Finset Blake3Hash) :
    Kahn.Acyclic nodes g.deps := fun a ha =>
  hac a (Relation.transGen_swap.mp (Relation.TransGen.mono (fun _ _ h => h.1) _ _ ha))

theorem Indexed.exists_topologicalSort (hg : g.Indexed) (heads : Finset Blake3Hash) :
    ∃ order, g.topologicalSort heads = some order ∧ order.Nodup
      ∧ (∀ id ∈ order, id ∈ g.ancestorsInclusive heads)
      ∧ LinearExtension.Respects (fun d x => d ∈ g.deps x) order := by
  obtain ⟨order, hrun, hnodup, hsub, hresp, -⟩ := Kahn.sort_spec (hg.transposed _)
  exact ⟨order, hrun, hnodup, hsub, hresp⟩

theorem Indexed.topologicalSort_spec (hg : g.Indexed) (hac : g.Acyclic)
    (heads : Finset Blake3Hash) :
    ∃ order, g.topologicalSort heads = some order ∧ g.TopologicalOrder heads order := by
  obtain ⟨order, hrun, hnodup, hmem, hresp⟩ := Kahn.sort_perm (hg.transposed _) (hac.kahn _)
  exact ⟨order, hrun, hnodup, hmem, hresp⟩

theorem mem_topologicalSort_of_ghost (hg : g.Indexed) {heads : Finset Blake3Hash}
    {order : List Blake3Hash} (hrun : g.topologicalSort heads = some order) {id : Blake3Hash}
    (hid : id ∈ g.ancestorsInclusive heads) (hget : g.get id = none) : id ∈ order := by
  obtain ⟨order', hrun', -, -, -, hready⟩ := Kahn.sort_spec (hg.transposed _)
  obtain rfl : order' = order := Option.some_inj.mp (hrun'.symm.trans hrun)
  exact (hready id hid).mpr fun d hd => by simp [hg.deps_ghost hget] at hd

theorem TopologicalOrder.respects_properAncestor {heads : Finset Blake3Hash}
    {order : List Blake3Hash} (h : g.TopologicalOrder heads order) (hac : g.Acyclic) :
    LinearExtension.Respects (fun a x => g.ProperAncestor x a) order := by
  have htrans := h.respects.transGen h.nodup (fun a ha => hac a (.single ha))
    fun x hx a ha => (h.mem_iff a).mpr (ancestorsInclusive_of_mem_deps ((h.mem_iff x).mp hx) ha)
  exact htrans.imp fun {a b} hab hba => hab (Relation.transGen_swap.mp hba)

/-- **Restriction.** When the closure of `heads'` lies in that of `heads` with the same
dependencies, its topological order is a part of the order of `heads`. -/
theorem topologicalSort_filter {g' : ChangeGraph} (hg : g.Indexed) (hg' : g'.Indexed)
    {heads heads' : Finset Blake3Hash}
    (hsub : g'.ancestorsInclusive heads' ⊆ g.ancestorsInclusive heads)
    (hdeps : ∀ x ∈ g'.ancestorsInclusive heads', g'.deps x = g.deps x)
    {order : List Blake3Hash} (h : g.topologicalSort heads = some order) :
    g'.topologicalSort heads'
      = some (order.filter fun x => decide (x ∈ g'.ancestorsInclusive heads')) := by
  refine Kahn.sort_filter (fun x => x ∈ g'.ancestorsInclusive heads') (fun a => ?_)
    (fun a ha d => ?_) (hg.transposed _) (hg'.transposed _) h
  · exact ⟨fun ha => ⟨hsub ha, ha⟩, fun ha => ha.2⟩
  · rw [hdeps a ha]
    refine and_congr_right fun hd => ⟨fun hd' => hsub hd', fun _ => ?_⟩
    exact ancestorsInclusive_of_mem_deps ha ((hdeps a ha).symm ▸ hd)

theorem topologicalSort_congr {g' : ChangeGraph} (hg : g.Indexed) (hg' : g'.Indexed)
    {heads : Finset Blake3Hash} (hdeps : ∀ x ∈ g.ancestorsInclusive heads, g'.deps x = g.deps x) :
    g'.topologicalSort heads = g.topologicalSort heads := by
  have hclosure := ancestorsInclusive_congr hdeps
  obtain ⟨order, hrun, -, hmem, -⟩ := hg.exists_topologicalSort heads
  rw [topologicalSort_filter hg hg' hclosure.subset (fun x hx => hdeps x (hclosure ▸ hx)) hrun,
    hrun, hclosure, List.filter_eq_self.mpr fun x hx => decide_eq_true (hmem x hx)]

/-! ## Dependency chains -/

theorem reaches_of_isChain {l : List Blake3Hash} (hchain : l.IsChain fun a b => a ∈ g.deps b)
    {a : Blake3Hash} (ha : a ∈ l) {last : Blake3Hash} (hlast : l.getLast? = some last) :
    g.Reaches last a := by
  induction l generalizing a with
  | nil => simp at ha
  | cons b l ih =>
      cases l with
      | nil =>
          obtain rfl : b = last := by simpa using hlast
          obtain rfl : a = b := by simpa using ha
          exact .refl
      | cons c l =>
          rw [List.isChain_cons_cons] at hchain
          rw [List.getLast?_cons_cons] at hlast
          rcases List.mem_cons.mp ha with rfl | ha
          · exact (ih hchain.2 List.mem_cons_self hlast).tail hchain.1
          · exact ih hchain.2 ha hlast

theorem properAncestor_of_isChain {l : List Blake3Hash} {a : Blake3Hash}
    (hchain : (a :: l).IsChain fun a b => a ∈ g.deps b) {x : Blake3Hash} (hx : x ∈ l) :
    g.ProperAncestor x a := by
  induction l generalizing a with
  | nil => simp at hx
  | cons b l ih =>
      rw [List.isChain_cons_cons] at hchain
      rcases List.mem_cons.mp hx with rfl | hx
      · exact .single hchain.1
      · exact (ih hchain.2 hx).tail hchain.1

theorem total_of_isChain {l : List Blake3Hash} (hchain : l.IsChain fun a b => a ∈ g.deps b)
    {a b : Blake3Hash} (ha : a ∈ l) (hb : b ∈ l) (hne : a ≠ b) :
    g.ProperAncestor b a ∨ g.ProperAncestor a b := by
  induction l with
  | nil => simp at ha
  | cons c l ih =>
      rcases List.mem_cons.mp ha with rfl | ha' <;> rcases List.mem_cons.mp hb with rfl | hb'
      · exact absurd rfl hne
      · exact .inl (properAncestor_of_isChain hchain hb')
      · exact .inr (properAncestor_of_isChain hchain ha')
      · exact ih hchain.tail ha' hb'

theorem pairwise_of_isChain {l : List Blake3Hash} (hchain : l.IsChain fun a b => a ∈ g.deps b) :
    l.Pairwise fun a b => g.ProperAncestor b a := by
  induction l with
  | nil => exact .nil
  | cons a l ih =>
      exact .cons (fun b hb => properAncestor_of_isChain hchain hb) (ih hchain.tail)

theorem TopologicalOrder.filter_eq_of_isChain {heads : Finset Blake3Hash}
    {order : List Blake3Hash} (h : g.TopologicalOrder heads order) (hac : g.Acyclic)
    (p : Blake3Hash → Bool) {l : List Blake3Hash} (hnodup : l.Nodup)
    (hchain : l.IsChain fun a b => a ∈ g.deps b)
    (hmem : ∀ x, x ∈ l ↔ x ∈ g.ancestorsInclusive heads ∧ p x = true) : order.filter p = l := by
  have hperm : (order.filter p).Perm l := by
    refine (List.perm_ext_iff_of_nodup (h.nodup.filter _) hnodup).mpr fun x => ?_
    rw [List.mem_filter, h.mem_iff, hmem]
  have hresp : LinearExtension.Respects (fun a x => g.ProperAncestor x a) l := by
    refine (pairwise_of_isChain hchain).imp ?_
    intro a b hba hab
    exact hac a (hab.trans hba)
  refine LinearExtension.Respects.eq_of_perm hperm ((h.respects_properAncestor hac).filter _) hresp
    fun a ha b hb hne => ?_
  exact total_of_isChain hchain (hperm.subset ha) (hperm.subset hb) hne

theorem TopologicalOrder.perm {heads : Finset Blake3Hash} {l₁ l₂ : List Blake3Hash}
    (h₁ : g.TopologicalOrder heads l₁) (h₂ : g.TopologicalOrder heads l₂) : l₁.Perm l₂ :=
  (List.perm_ext_iff_of_nodup h₁.nodup h₂.nodup).mpr fun id =>
    (h₁.mem_iff id).trans (h₂.mem_iff id).symm

theorem deps_addChange_of_notMem {c : Change} {heads : Finset Blake3Hash}
    (hc : c.id ∉ g.ancestorsInclusive heads) {x : Blake3Hash}
    (hx : x ∈ g.ancestorsInclusive heads) : (g.addChange c).deps x = g.deps x := by
  rw [deps_addChange, if_neg]
  rintro rfl
  exact hc hx

theorem ancestorsInclusive_addChange {c : Change} {heads : Finset Blake3Hash}
    (hc : c.id ∉ g.ancestorsInclusive heads) :
    (g.addChange c).ancestorsInclusive heads = g.ancestorsInclusive heads :=
  ancestorsInclusive_congr fun _ hx => deps_addChange_of_notMem hc hx

theorem ancestorsInclusive_addChange_self {c : Change}
    (hc : c.id ∉ g.ancestorsInclusive c.deps) :
    (g.addChange c).ancestorsInclusive {c.id} = insert c.id (g.ancestorsInclusive c.deps) := by
  ext a
  have hdeps : (g.addChange c).deps c.id = c.deps := by simp
  rw [mem_ancestorsInclusive_singleton, Finset.mem_insert, ← mem_ancestorsInclusive_deps, hdeps,
    ancestorsInclusive_addChange hc]

theorem topologicalSort_addChange (hg : g.Indexed) (hac : g.Acyclic) {c : Change}
    (hsame : ∀ c', g.get c.id = some c' → c'.deps = c.deps)
    (hc : c.id ∉ g.ancestorsInclusive c.deps) {base : List Blake3Hash}
    (hbase : g.topologicalSort c.deps = some base) :
    (g.addChange c).topologicalSort {c.id} = some (base ++ [c.id]) := by
  have hg' : (g.addChange c).Indexed := hg.addChange hsame
  have hac' : (g.addChange c).Acyclic := hac.addChange hc
  obtain ⟨order, hrun, horder⟩ := hg'.topologicalSort_spec hac' {c.id}
  have hclosure := ancestorsInclusive_addChange_self hc
  have hfilter : g.topologicalSort c.deps
      = some (order.filter fun x => decide (x ∈ g.ancestorsInclusive c.deps)) :=
    topologicalSort_filter hg' hg (by rw [hclosure]; exact Finset.subset_insert _ _)
      (fun x hx => (deps_addChange_of_notMem hc hx).symm) hrun
  rw [hbase, Option.some_inj] at hfilter
  have hsplit := (horder.respects_properAncestor hac').eq_filter_append_filter
    (fun x => x ∈ g.ancestorsInclusive c.deps) fun a ha b hb hpa hpb => by
      have hb' := (horder.mem_iff b).mp hb
      rw [hclosure, Finset.mem_insert] at hb'
      obtain rfl := hb'.resolve_right hpb
      rw [← mem_ancestorsInclusive_deps, deps_addChange, if_pos rfl,
        ancestorsInclusive_addChange hc]
      exact hpa
  have hlast : order.filter (fun x => decide (x ∉ g.ancestorsInclusive c.deps)) = [c.id] := by
    refine List.perm_singleton.mp ?_
    refine (List.perm_ext_iff_of_nodup (horder.nodup.filter _) (List.nodup_singleton _)).mpr
      fun x => ?_
    rw [List.mem_filter, horder.mem_iff, hclosure, Finset.mem_insert, decide_eq_true_iff,
      List.mem_singleton]
    constructor
    · rintro ⟨hx, hn⟩
      exact hx.resolve_right hn
    · rintro rfl
      exact ⟨.inl rfl, hc⟩
  rw [hrun, hsplit, hlast, ← hfilter]

end ChangeGraph

end ArcVcs
