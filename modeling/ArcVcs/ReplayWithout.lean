import ArcVcs.NewChange

/-!
# A history without one of its changes

What a replay leaves at a key is decided by the operations at that key. If the changes that are
no ancestors of `x` are disjoint from it, then no item is touched both by `x` and by one of
them, so at every item the history with and without `x` looks like the states after and before
it, or `x` does nothing there.
-/

namespace ArcVcs

namespace ChangeGraph

variable {g : ChangeGraph} {env : ApplyEnv}

/-! ## The operations of a replay at a key -/

def idOps (g : ChangeGraph) (store : BlobStore) (key : NodePath) (id : Blake3Hash) :
    List (EntryOp Bytes) :=
  match g.get id with
  | none => []
  | some change => opsAtKey store key change.atoms

theorem opsAtKey_changesOf (store : BlobStore) (key : NodePath) (ids : List Blake3Hash) :
    opsAtKey store key ((changesOf g ids).flatMap Change.atoms)
      = ids.flatMap (g.idOps store key) := by
  induction ids with
  | nil => rfl
  | cons id ids ih =>
      rw [List.flatMap_cons, idOps, ← ih]
      cases hget : g.get id with
      | none => rw [changesOf, List.filterMap_cons_none hget, List.nil_append, changesOf]
      | some change =>
          rw [changesOf, List.filterMap_cons_some hget, List.flatMap_cons, opsAtKey_append,
            changesOf]

theorem get_of_replayAction {order : List Blake3Hash} {s out : MaterializedState}
    (h : (g.replayAction env order).run s = some out) {id : Blake3Hash} (hid : id ∈ order) :
    ∃ c, g.get id = some c := by
  by_contra hnone
  have hzero : g.effectAt env id = 0 := effectAt_of_missing
    (Option.eq_none_iff_forall_ne_some.mpr fun c hc => hnone ⟨c, hc⟩)
  rw [replayAction, PartialAction.prod_eq_zero_of_mem (List.mem_map.mpr ⟨id, hid, hzero⟩)] at h
  simp at h

/-- **The entries that a full replay leaves.** -/
theorem lookup_of_replayAction (hsparse : env.sparse = none) {order : List Blake3Hash}
    {state : MaterializedState} (h : (g.replayAction env order).run ∅ = some state)
    (key : NodePath) :
    state.lookup key = EntryOp.final none (order.flatMap (g.idOps env.store key)) := by
  rw [replayAction_eq_changesOf fun id hid => get_of_replayAction h hid] at h
  rw [prod_effect_of_not_violates fun change hchange => not_violates_of_run h hchange] at h
  have hentries :=
    (run_plainEffect_iff fun atom hatom => isSome_entryOp_of_run hsparse h hatom).mp h
  rw [(hentries key).2, Atom.plannedOp_of_full hsparse, ← opsAtKey_changesOf]
  rfl

/-! ## Leaving a change out -/

def replayWithout (g : ChangeGraph) (env : ApplyEnv) (heads : Finset Blake3Hash)
    (x : Blake3Hash) : Except ReplayError MaterializedState :=
  match g.topologicalSort heads with
  | none => .error .topologicalSort
  | some order => g.replayOrder env (order.filter (· ≠ x)) ∅

/-- Every change of the history that is no ancestor of `target` touches other paths. -/
def OthersDisjoint (g : ChangeGraph) (heads : Finset Blake3Hash) (target : Change) : Prop :=
  ∀ y ∈ g.ancestorsInclusive heads, y ∉ g.ancestorsInclusive {target.id} →
    ∀ c, g.get y = some c → atomsDisjoint c.atoms target.atoms = true

theorem OthersDisjoint.singleton (g : ChangeGraph) (target : Change) :
    g.OthersDisjoint {target.id} target := fun _ hy hnot => absurd hy hnot

variable {heads : Finset Blake3Hash} {target : Change} {current : MaterializedState}

theorem TopologicalOrder.notMem_ancestors_of_after {pre post : List Blake3Hash} {x : Blake3Hash}
    (h : g.TopologicalOrder heads (pre ++ x :: post)) (hac : g.Acyclic) {y : Blake3Hash}
    (hy : y ∈ post) : y ∉ g.ancestorsInclusive {x} := by
  have hcons := List.nodup_cons.mp (List.nodup_append'.mp h.nodup).2.1
  have hafter := List.pairwise_cons.mp (List.pairwise_append.mp (h.respects_properAncestor hac)).2.1
  rw [mem_ancestorsInclusive_singleton]
  rintro (rfl | hanc)
  · exact hcons.1 hy
  · exact hafter.1 y hy hanc

/-- **The other changes replay alone.** -/
theorem exists_replayWithout (hg : g.Indexed) (hac : g.Acyclic)
    (hget : g.get target.id = some target) (hmem : target.id ∈ g.ancestorsInclusive heads)
    (hothers : g.OthersDisjoint heads target)
    (h : g.materializeHeads env heads = .ok current) :
    ∃ without, g.replayWithout env heads target.id = .ok without := by
  obtain ⟨order, hrun, horder⟩ := hg.topologicalSort_spec hac heads
  rw [materializeHeads_eq_ok_iff hrun] at h
  obtain ⟨pre, post, rfl⟩ := List.append_of_mem ((horder.mem_iff target.id).mpr hmem)
  obtain ⟨-, hcons, hdisj⟩ := List.nodup_append'.mp horder.nodup
  have hfilter : (pre ++ target.id :: post).filter (· ≠ target.id) = pre ++ post := by
    have hpre : ∀ y ∈ pre, y ≠ target.id := by
      rintro y hy rfl
      exact hdisj hy List.mem_cons_self
    have hpost : ∀ y ∈ post, y ≠ target.id := by
      rintro y hy rfl
      exact (List.nodup_cons.mp hcons).1 hy
    rw [List.filter_append, List.filter_cons_of_neg (by simp),
      List.filter_eq_self.mpr fun y hy => by simpa using hpre y hy,
      List.filter_eq_self.mpr fun y hy => by simpa using hpost y hy]
  have hcomm : Commute (g.effectAt env target.id) (g.replayAction env post) := by
    rw [effectAt_of_get hget]
    refine Commute.list_prod_right _ _ fun action haction => ?_
    obtain ⟨y, hy, rfl⟩ := List.mem_map.mp haction
    cases hy' : g.get y with
    | none =>
        rw [effectAt_of_missing hy']
        exact Commute.zero_right _
    | some c =>
        rw [effectAt_of_get hy']
        have hmem' : y ∈ g.ancestorsInclusive heads := (horder.mem_iff y).mp (by simp [hy])
        have hnot := horder.notMem_ancestors_of_after hac hy
        exact (effect_commute_of_atomsDisjoint (hothers y hmem' hnot c hy')).symm
  rw [replayAction_append, ← List.singleton_append, replayAction_append, replayAction_singleton,
    hcomm.eq, ← mul_assoc, ← replayAction_append, PartialAction.run_mul] at h
  obtain ⟨without, hwithout, -⟩ := Option.bind_eq_some_iff.mp h
  refine ⟨without, ?_⟩
  rw [replayWithout, hrun]
  dsimp only
  rw [hfilter, replayOrder_eq_ok_iff]
  exact hwithout

/-! ## Items -/

theorem mem_paths_of_entryOp {store : BlobStore} {atom : Atom} {filepath : String}
    {path : NodePath} (hpath : path ≠ []) {op : EntryOp Bytes}
    (h : atom.entryOp store = some ("file" :: filepath :: path, op)) :
    "file" :: filepath :: path ∈ atom.paths ∧ atom.isMove = false := by
  cases atom with
  | insert at_ contentHash =>
      obtain ⟨bytes, -, heq⟩ := Option.map_eq_some_iff.mp h
      cases heq
      exact ⟨List.mem_singleton_self _, rfl⟩
  | move from_ to_ => simp [Atom.entryOp] at h
  | semanticsPreserving at_ description => simp [Atom.entryOp] at h
  | blob blobPath hash size => simp [Atom.entryOp, Ne.symm hpath] at h
  | _ =>
      cases h
      exact ⟨List.mem_singleton_self _, rfl⟩

theorem opsAtKey_eq_nil_of_disjoint {store : BlobStore} {atomsA atomsB : List Atom}
    (h : atomsDisjoint atomsA atomsB = true) {filepath : String} {path : NodePath}
    (hpath : path ≠ []) (hB : opsAtKey store ("file" :: filepath :: path) atomsB ≠ []) :
    opsAtKey store ("file" :: filepath :: path) atomsA = [] := by
  have hwitness : ∀ atoms, opsAtKey store ("file" :: filepath :: path) atoms ≠ [] →
      ∃ atom ∈ atoms, ∃ op, atom.entryOp store = some ("file" :: filepath :: path, op) := by
    intro atoms hne
    obtain ⟨op, hop⟩ := List.exists_mem_of_ne_nil _ hne
    obtain ⟨x, hx, rfl⟩ := List.mem_map.mp hop
    obtain ⟨hx, hkey⟩ := List.mem_filter.mp hx
    obtain ⟨atom, hatom, hentry⟩ := List.mem_filterMap.mp hx
    refine ⟨atom, hatom, x.2, ?_⟩
    rw [hentry, ← of_decide_eq_true hkey]
  by_contra hA
  obtain ⟨a, ha, opA, hopA⟩ := hwitness atomsA hA
  obtain ⟨b, hb, opB, hopB⟩ := hwitness atomsB hB
  obtain ⟨hpathA, hmoveA⟩ := mem_paths_of_entryOp hpath hopA
  obtain ⟨hpathB, hmoveB⟩ := mem_paths_of_entryOp hpath hopB
  have hdisj := List.all_eq_true.mp (List.all_eq_true.mp h a ha) b hb
  rw [atomPairDisjoint, hmoveA, hmoveB, Bool.false_or, Bool.false_or, Bool.and_eq_true] at hdisj
  have hoverlap := List.all_eq_true.mp (List.all_eq_true.mp hdisj.2 _ hpathA) _ hpathB
  simp at hoverlap

/-- **At every item** the history with and without the change look like the states after and
before it, or the change makes no difference. -/
theorem item_cases (hsparse : env.sparse = none) (hg : g.Indexed) (hac : g.Acyclic)
    (hget : g.get target.id = some target) (hmem : target.id ∈ g.ancestorsInclusive heads)
    (hothers : g.OthersDisjoint heads target) {without before after : MaterializedState}
    (hcurrent : g.materializeHeads env heads = .ok current)
    (hwithout : g.replayWithout env heads target.id = .ok without)
    (hbefore : g.materializeHeads env target.deps = .ok before)
    (hafter : g.materializeHeads env {target.id} = .ok after) (filepath : String)
    {path : NodePath} (hpath : path ≠ []) :
    (itemAt current filepath path = itemAt after filepath path
        ∧ itemAt without filepath path = itemAt before filepath path)
      ∨ itemAt current filepath path = itemAt without filepath path
        ∧ itemAt after filepath path = itemAt before filepath path := by
  obtain ⟨order, hrun, horder⟩ := hg.topologicalSort_spec hac heads
  have hdeps : g.deps target.id = target.deps := hg.deps_eq hget
  have hmemDeps : ∀ y, y ∈ g.ancestorsInclusive target.deps ↔ g.ProperAncestor target.id y := by
    intro y
    rw [← hdeps, mem_ancestorsInclusive_deps]
  have hmemSelf : ∀ y, y ∈ g.ancestorsInclusive {target.id}
      ↔ y = target.id ∨ y ∈ g.ancestorsInclusive target.deps := by
    intro y
    rw [mem_ancestorsInclusive_singleton, hmemDeps]
  have hself : target.id ∉ g.ancestorsInclusive target.deps := fun h =>
    hac target.id ((hmemDeps target.id).mp h)
  have hsubset : g.ancestorsInclusive {target.id} ⊆ g.ancestorsInclusive heads :=
    (subset_ancestorsInclusive_iff fun x hx d hd => ancestorsInclusive_of_mem_deps hx hd).mpr
      (Finset.singleton_subset_iff.mpr hmem)
  have hsortDeps := topologicalSort_filter hg hg
    (fun y hy => hsubset ((hmemSelf y).mpr (.inr hy))) (fun _ _ => rfl) hrun
  have hsortSelf := topologicalSort_filter hg hg hsubset (fun _ _ => rfl) hrun
  rw [materializeHeads_eq_ok_iff hrun] at hcurrent
  rw [replayWithout, hrun] at hwithout
  dsimp only at hwithout
  rw [replayOrder_eq_ok_iff] at hwithout
  rw [materializeHeads_eq_ok_iff hsortDeps] at hbefore
  rw [materializeHeads_eq_ok_iff hsortSelf] at hafter
  rw [itemAt, itemAt, itemAt, itemAt, lookup_of_replayAction hsparse hcurrent,
    lookup_of_replayAction hsparse hwithout, lookup_of_replayAction hsparse hbefore,
    lookup_of_replayAction hsparse hafter]
  have hall : order = order.filter fun _ => true := by simp
  by_cases hops : g.idOps env.store ("file" :: filepath :: path) target.id = []
  · right
    constructor
    · conv_lhs => rw [hall]
      rw [List.flatMap_filter_congr fun y _ hne => ?_]
      obtain rfl : y = target.id := by simpa using hne
      exact hops
    · rw [List.flatMap_filter_congr fun y _ hne => ?_]
      have hy : y = target.id := by
        by_contra hy
        exact hne (by simp [hmemSelf, hy])
      rw [hy, hops]
  · left
    have hnone : ∀ y ∈ order, y ∉ g.ancestorsInclusive {target.id} →
        g.idOps env.store ("file" :: filepath :: path) y = [] := by
      intro y hy hnot
      rw [idOps, hget] at hops
      rw [idOps]
      cases hy' : g.get y with
      | none => rfl
      | some c =>
          exact opsAtKey_eq_nil_of_disjoint
            (hothers y ((horder.mem_iff y).mp hy) hnot c hy') hpath hops
    constructor
    · conv_lhs => rw [hall]
      rw [List.flatMap_filter_congr fun y hy hne => ?_]
      exact hnone y hy (by simpa using hne)
    · rw [List.flatMap_filter_congr fun y hy hne => ?_]
      apply hnone y hy
      rw [hmemSelf]
      rintro (rfl | hanc)
      · exact hne (by simp [hself])
      · have hy : y ≠ target.id := fun heq => hself (heq ▸ hanc)
        exact hne (by simp [hy, hanc])

end ChangeGraph

end ArcVcs
