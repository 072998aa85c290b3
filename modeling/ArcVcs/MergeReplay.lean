import ArcVcs.Lib.EntryOrders
import ArcVcs.MergeConflicts
import ArcVcs.ReplayWithout

/-!
# Replaying a merged history

The heads that `merge_heads` saves reach the changes of both sides, and a conflict change comes
after all of them. Whether every order of this history replays to the same state is decided
entry by entry. The conflict change settles what is left at the paths that it records, but the
changes before it still have to find what they remove.
-/

namespace ArcVcs

namespace ChangeGraph

variable {g : ChangeGraph} {env env' : ApplyEnv} {heads : Finset Blake3Hash}
  {order : List Blake3Hash} {state : MaterializedState}

/-! ## All orders of a history -/

/-- Every topological order of the closure of the heads replays to one state. -/
def ReplaysAlike (g : ChangeGraph) (env : ApplyEnv) (heads : Finset Blake3Hash) : Prop :=
  ∃ state, ∀ order, g.TopologicalOrder heads order → g.replayOrder env order ∅ = .ok state

/-- The order of the history: `a` is a proper ancestor of `x`. -/
def Before (g : ChangeGraph) (a x : Blake3Hash) : Prop := g.ProperAncestor x a

theorem Acyclic.isStrictOrder (hac : g.Acyclic) : IsStrictOrder Blake3Hash g.Before where
  irrefl a ha := hac a ha
  trans _ _ _ hab hbc := Relation.TransGen.trans hbc hab

theorem topologicalOrder_iff_extends (hac : g.Acyclic) :
    g.TopologicalOrder heads order
      ↔ LinearExtension.Extends g.Before (g.ancestorsInclusive heads) order := by
  constructor
  · intro h
    exact ⟨h.nodup, h.mem_iff, h.respects_properAncestor hac⟩
  · intro h
    exact ⟨h.nodup, h.mem_iff, h.respects.imp fun hab hdep => hab (.single hdep)⟩

theorem ReplaysAlike.materializeHeads (h : g.ReplaysAlike env heads) (hg : g.Indexed)
    (hac : g.Acyclic) : ∃ state, g.materializeHeads env heads = .ok state := by
  obtain ⟨order, hrun, horder⟩ := hg.topologicalSort_spec hac heads
  obtain ⟨state, hstate⟩ := h
  exact ⟨state, by rw [materializeHeads_of_topologicalSort hrun, hstate order horder]⟩

theorem ReplaysAlike.mono (h : g.ReplaysAlike env heads) (hmore : ReadsMore env env') :
    g.ReplaysAlike env' heads := by
  obtain ⟨state, hstate⟩ := h
  refine ⟨state, fun order horder => ?_⟩
  rw [replayOrder_eq_ok_iff]
  exact hmore.replayAction (replayOrder_eq_ok_iff.mp (hstate order horder))

/-! ## Entry by entry -/

/-- Only a removal can keep the changes of the history from being applied. -/
def Runnable (g : ChangeGraph) (env : ApplyEnv) (heads : Finset Blake3Hash) : Prop :=
  ∀ x ∈ g.ancestorsInclusive heads, ∃ c, g.get x = some c ∧ c.violates env = false
    ∧ ∀ atom ∈ c.atoms, (atom.entryOp env.store).isSome

theorem runnable_of_materializeHeads (hg : g.Indexed) (hac : g.Acyclic)
    (hsparse : env.sparse = none) (h : g.materializeHeads env heads = .ok state) :
    g.Runnable env heads := by
  intro x hx
  obtain ⟨order, hrun, horder⟩ := hg.topologicalSort_spec hac heads
  rw [materializeHeads_eq_ok_iff hrun] at h
  have hall : ∀ id ∈ order, ∃ c, g.get id = some c := fun id hid => get_of_replayAction h hid
  obtain ⟨c, hc⟩ := hall x ((horder.mem_iff x).mpr hx)
  have hmem : c ∈ changesOf g order :=
    List.mem_filterMap.mpr ⟨x, (horder.mem_iff x).mpr hx, hc⟩
  rw [replayAction_eq_changesOf hall] at h
  refine ⟨c, hc, not_violates_of_run h hmem, fun atom hatom => ?_⟩
  rw [prod_effect_of_not_violates fun change hchange => not_violates_of_run h hchange] at h
  exact isSome_entryOp_of_run hsparse h (List.mem_flatMap.mpr ⟨c, hmem, hatom⟩)

theorem Runnable.union {heads' : Finset Blake3Hash} (h : g.Runnable env heads)
    (h' : g.Runnable env heads') : g.Runnable env (heads ∪ heads') := by
  intro x hx
  obtain ⟨head, hhead, hreach⟩ := mem_ancestorsInclusive.mp hx
  rcases Finset.mem_union.mp hhead with hhead | hhead
  · exact h x (mem_ancestorsInclusive.mpr ⟨head, hhead, hreach⟩)
  · exact h' x (mem_ancestorsInclusive.mpr ⟨head, hhead, hreach⟩)

section Tail

variable {tail : List Atom}

theorem run_replayAction_mul (hsparse : env.sparse = none) (h : g.Runnable env heads)
    (horder : g.TopologicalOrder heads order)
    (htail : ∀ atom ∈ tail, (atom.entryOp env.store).isSome) :
    (g.replayAction env order * (tail.map (Atom.plainEffect env)).prod).run ∅
      = KeyedOp.runAll ((((changesOf g order).flatMap Change.atoms ++ tail).filterMap
          (Atom.entryOp env.store)).map fun x => EntryOp.at_ x.1 x.2) ∅ := by
  have hloaded := fun x hx => h x ((horder.mem_iff x).mp hx)
  have hchange : ∀ c ∈ changesOf g order,
      c.violates env = false ∧ ∀ atom ∈ c.atoms, (atom.entryOp env.store).isSome := by
    intro c hc
    obtain ⟨x, hmem, hget⟩ := List.mem_filterMap.mp hc
    obtain ⟨c', hget', hc'⟩ := hloaded x hmem
    obtain rfl := Option.some_inj.mp (hget.symm.trans hget')
    exact hc'
  have hatoms : ∀ atom ∈ (changesOf g order).flatMap Change.atoms ++ tail,
      (atom.entryOp env.store).isSome := by
    intro atom hatom
    rcases List.mem_append.mp hatom with hatom | hatom
    · obtain ⟨c, hc, hatom⟩ := List.mem_flatMap.mp hatom
      exact (hchange c hc).2 atom hatom
    · exact htail atom hatom
  rw [replayAction_eq_changesOf fun x hx => (hloaded x hx).imp fun _ hc => hc.1,
    prod_effect_of_not_violates fun c hc => (hchange c hc).1, ← List.prod_append, ← List.map_append,
    prod_plainEffect hatoms, Atom.plannedOp_of_full hsparse]
  rfl

theorem opsAt_filterMap_entryOp (store : BlobStore) (key : NodePath) :
    EntryOp.opsAt key (((changesOf g order).flatMap Change.atoms ++ tail).filterMap
        (Atom.entryOp store))
      = order.flatMap (g.idOps store key) ++ opsAtKey store key tail := by
  rw [← opsAtKey_changesOf, ← opsAtKey_append]
  rfl

theorem run_replayAction_mul_iff (hsparse : env.sparse = none) (h : g.Runnable env heads)
    (horder : g.TopologicalOrder heads order)
    (htail : ∀ atom ∈ tail, (atom.entryOp env.store).isSome) :
    (g.replayAction env order * (tail.map (Atom.plainEffect env)).prod).run ∅ = some state
      ↔ ∀ key, EntryOp.Safe false (order.flatMap (g.idOps env.store key)
            ++ opsAtKey env.store key tail) = true
          ∧ state.lookup key = EntryOp.final none (order.flatMap (g.idOps env.store key)
            ++ opsAtKey env.store key tail) := by
  rw [run_replayAction_mul hsparse h horder htail, EntryOp.runAll_eq_some_iff]
  simp only [opsAt_filterMap_entryOp, Finmap.lookup_empty, Option.isSome_none]

theorem isSome_run_replayAction_mul_iff (hsparse : env.sparse = none) (h : g.Runnable env heads)
    (horder : g.TopologicalOrder heads order)
    (htail : ∀ atom ∈ tail, (atom.entryOp env.store).isSome) :
    ((g.replayAction env order * (tail.map (Atom.plainEffect env)).prod).run ∅).isSome
      ↔ ∀ key, EntryOp.Safe false (order.flatMap (g.idOps env.store key)
            ++ opsAtKey env.store key tail) = true := by
  rw [run_replayAction_mul hsparse h horder htail, EntryOp.isSome_runAll_iff]
  simp only [opsAt_filterMap_entryOp, Finmap.lookup_empty, Option.isSome_none]

theorem alike_iff_entries (hg : g.Indexed) (hac : g.Acyclic) (hsparse : env.sparse = none)
    (h : g.Runnable env heads) (htail : ∀ atom ∈ tail, (atom.entryOp env.store).isSome) :
    (∃ state, ∀ order, g.TopologicalOrder heads order →
        (g.replayAction env order * (tail.map (Atom.plainEffect env)).prod).run ∅ = some state)
      ↔ ∀ key, (∀ order, g.TopologicalOrder heads order →
            EntryOp.Safe false (order.flatMap (g.idOps env.store key)
              ++ opsAtKey env.store key tail) = true)
          ∧ ∃ out, ∀ order, g.TopologicalOrder heads order →
            EntryOp.final none (order.flatMap (g.idOps env.store key)
              ++ opsAtKey env.store key tail) = out := by
  constructor
  · rintro ⟨state, hrun⟩ key
    have hentry := fun order horder =>
      (run_replayAction_mul_iff hsparse h horder htail).mp (hrun order horder) key
    exact ⟨fun order horder => (hentry order horder).1, state.lookup key,
      fun order horder => (hentry order horder).2.symm⟩
  · intro hentry
    obtain ⟨order₀, -, horder₀⟩ := hg.topologicalSort_spec hac heads
    obtain ⟨state, hstate⟩ := Option.isSome_iff_exists.mp
      ((isSome_run_replayAction_mul_iff hsparse h horder₀ htail).mpr
        fun key => (hentry key).1 order₀ horder₀)
    refine ⟨state, fun order horder => ?_⟩
    rw [run_replayAction_mul_iff hsparse h horder htail]
    intro key
    obtain ⟨hsafe, out, hout⟩ := hentry key
    refine ⟨hsafe order horder, ?_⟩
    rw [((run_replayAction_mul_iff hsparse h horder₀ htail).mp hstate key).2,
      hout order₀ horder₀, hout order horder]

end Tail

theorem eq_nil_of_ensure_mem {store : BlobStore} {key : NodePath} {x : Blake3Hash} {v : Bytes}
    (h : EntryOp.ensure v ∈ g.idOps store key x) : v = [] := by
  unfold idOps at h
  cases hget : g.get x with
  | none => simp [hget] at h
  | some c =>
      rw [hget] at h
      obtain ⟨⟨key', op⟩, hmem, rfl⟩ := List.mem_map.mp h
      obtain ⟨atom, -, hop⟩ := List.mem_filterMap.mp (List.mem_filter.mp hmem).1
      cases atom with
      | directory path =>
          have heq : (path, EntryOp.ensure ([] : Bytes)) = (key', .ensure v) := by
            simpa [Atom.entryOp] using hop
          exact (EntryOp.ensure.inj (Prod.mk.inj heq).2).symm
      | insert at_ contentHash => simp [Atom.entryOp] at hop
      | _ => simp [Atom.entryOp] at hop

theorem safe_iff_removalsFound (hg : g.Indexed) (hac : g.Acyclic) (heads : Finset Blake3Hash)
    (store : BlobStore) (key : NodePath) :
    (∀ order, g.TopologicalOrder heads order →
        EntryOp.Safe false (order.flatMap (g.idOps store key)) = true)
      ↔ EntryOp.RemovalsFound g.Before (g.ancestorsInclusive heads) (g.idOps store key) := by
  have hstrict := hac.isStrictOrder
  obtain ⟨order, -, horder⟩ := hg.topologicalSort_spec hac heads
  simp only [topologicalOrder_iff_extends hac]
  exact EntryOp.safe_iff ((topologicalOrder_iff_extends hac).mp horder)

theorem final_iff_latestAgree (hg : g.Indexed) (hac : g.Acyclic) (heads : Finset Blake3Hash)
    (store : BlobStore) (key : NodePath) :
    (∃ out, ∀ order, g.TopologicalOrder heads order →
        EntryOp.final none (order.flatMap (g.idOps store key)) = out)
      ↔ EntryOp.LatestAgree g.Before (g.ancestorsInclusive heads) (g.idOps store key) [] := by
  have hstrict := hac.isStrictOrder
  obtain ⟨order, -, horder⟩ := hg.topologicalSort_spec hac heads
  simp only [topologicalOrder_iff_extends hac]
  exact EntryOp.final_iff ((topologicalOrder_iff_extends hac).mp horder)
    fun _ _ _ hv => eq_nil_of_ensure_mem hv

/-- **When all orders of a history replay alike**, followed by atoms that write some entries. -/
theorem alike_iff (hg : g.Indexed) (hac : g.Acyclic) (hsparse : env.sparse = none)
    (h : g.Runnable env heads) {t : List Atom}
    (htail : ∀ atom ∈ t, ∃ key v, atom.entryOp env.store = some (key, .write v)) :
    (∃ state, ∀ order, g.TopologicalOrder heads order →
        (g.replayAction env order * (t.map (Atom.plainEffect env)).prod).run ∅ = some state)
      ↔ (∀ key, EntryOp.RemovalsFound g.Before (g.ancestorsInclusive heads)
          (g.idOps env.store key))
        ∧ ∀ key, opsAtKey env.store key t = [] →
          EntryOp.LatestAgree g.Before (g.ancestorsInclusive heads) (g.idOps env.store key) [] := by
  have hwrites : ∀ {key op}, op ∈ opsAtKey env.store key t → ∃ v, op = .write v := by
    intro key op hop
    obtain ⟨⟨key', op'⟩, hmem, rfl⟩ := List.mem_map.mp hop
    obtain ⟨atom, hatom, hop'⟩ := List.mem_filterMap.mp (List.mem_filter.mp hmem).1
    obtain ⟨key'', v, hwrite⟩ := htail atom hatom
    rw [hwrite, Option.some_inj] at hop'
    exact ⟨v, (Prod.mk.inj hop').2.symm⟩
  rw [alike_iff_entries hg hac hsparse h fun atom hatom => by
    obtain ⟨key, v, hwrite⟩ := htail atom hatom
    rw [hwrite]
    rfl]
  have hsafe : ∀ (key : NodePath) (order : List Blake3Hash),
      EntryOp.Safe false (order.flatMap (g.idOps env.store key) ++ opsAtKey env.store key t)
        = EntryOp.Safe false (order.flatMap (g.idOps env.store key)) := by
    intro key order
    have happend := EntryOp.safe_append none (order.flatMap (g.idOps env.store key))
      (opsAtKey env.store key t)
    rwa [EntryOp.safe_of_writes fun op hop => hwrites hop, Bool.and_true] at happend
  simp only [hsafe, safe_iff_removalsFound hg hac]
  rw [forall_and]
  refine and_congr_right fun _ => forall_congr' fun key => ?_
  by_cases hnil : opsAtKey env.store key t = []
  · simp only [hnil, List.append_nil, final_iff_latestAgree hg hac, true_imp_iff]
  · refine iff_of_true ⟨EntryOp.final none (opsAtKey env.store key t), fun order _ => ?_⟩
      fun hnil' => absurd hnil' hnil
    rw [EntryOp.final_append]
    exact (EntryOp.replacing_of_writes hnil fun op hop => hwrites hop).final_eq _ _

/-! ## A change on top of a history -/

theorem topologicalOrder_addChange_iff (hac : g.Acyclic) {c : Change}
    (hc : c.id ∉ g.ancestorsInclusive c.deps) :
    (g.addChange c).TopologicalOrder {c.id} order
      ↔ ∃ base, order = base ++ [c.id] ∧ g.TopologicalOrder c.deps base := by
  have hac' : (g.addChange c).Acyclic := hac.addChange hc
  have hclosure := ancestorsInclusive_addChange_self hc
  have hdeps : (g.addChange c).deps c.id = c.deps := by simp
  constructor
  · intro h
    have hmem : c.id ∈ order := (h.mem_iff c.id).mpr (by simp [hclosure])
    obtain ⟨base, rest, rfl⟩ := List.append_of_mem hmem
    obtain ⟨hbase, hrest, hdisj⟩ := List.nodup_append.mp h.nodup
    have hnil : rest = [] := by
      refine List.eq_nil_iff_forall_not_mem.mpr fun x hx => ?_
      have hx' := (h.mem_iff x).mp (by simp [hx])
      rw [hclosure, Finset.mem_insert] at hx'
      have hanc := hx'.resolve_left fun heq => (List.nodup_cons.mp hrest).1 (heq ▸ hx)
      rw [← ancestorsInclusive_addChange hc, ← hdeps, mem_ancestorsInclusive_deps] at hanc
      have hafter := (List.pairwise_append.mp (h.respects_properAncestor hac')).2.1
      exact (List.pairwise_cons.mp hafter).1 x hx hanc
    subst hnil
    have hiff : ∀ x, x ∈ base ↔ x ∈ g.ancestorsInclusive c.deps := by
      intro x
      have hmem := h.mem_iff x
      rw [hclosure, Finset.mem_insert, List.mem_append, List.mem_singleton] at hmem
      constructor
      · intro hx
        exact (hmem.mp (.inl hx)).resolve_left (hdisj x hx c.id (by simp))
      · intro hx
        exact (hmem.mpr (.inr hx)).resolve_right fun heq => hc (heq ▸ hx)
    refine ⟨base, rfl, hbase, hiff, ?_⟩
    refine (List.pairwise_append.mp h.respects).1.imp_of_mem fun {a b} ha _ hab hba => hab ?_
    change b ∈ (g.addChange c).deps a
    rw [deps_addChange_of_notMem hc ((hiff a).mp ha)]
    exact hba
  · rintro ⟨base, rfl, hbase⟩
    have hnot : c.id ∉ base := fun hmem => hc ((hbase.mem_iff _).mp hmem)
    refine ⟨hbase.nodup.append (List.nodup_singleton _) (by simpa using hnot), fun x => ?_, ?_⟩
    · rw [List.mem_append, hbase.mem_iff, List.mem_singleton, hclosure, Finset.mem_insert, or_comm]
    · refine List.pairwise_append.mpr ⟨?_, List.pairwise_singleton _ _, fun a ha b hb => ?_⟩
      · refine hbase.respects.imp_of_mem fun {a b} ha _ hab hba => hab ?_
        change b ∈ (g.addChange c).deps a at hba
        rwa [deps_addChange_of_notMem hc ((hbase.mem_iff a).mp ha)] at hba
      · obtain rfl := List.mem_singleton.mp hb
        have ha' := (hbase.mem_iff a).mp ha
        change c.id ∉ (g.addChange c).deps a
        rw [deps_addChange_of_notMem hc ha']
        exact fun hdep => hc (ancestorsInclusive_of_mem_deps ha' hdep)

theorem replaysAlike_addChange_iff (hac : g.Acyclic) {c : Change}
    (hc : c.id ∉ g.ancestorsInclusive c.deps) :
    (g.addChange c).ReplaysAlike env {c.id}
      ↔ ∃ state, ∀ order, g.TopologicalOrder c.deps order →
        (g.replayAction env order * c.effect env).run ∅ = some state := by
  refine exists_congr fun state => ?_
  have hrun : ∀ base, g.TopologicalOrder c.deps base →
      ((g.addChange c).replayOrder env (base ++ [c.id]) ∅ = .ok state
        ↔ (g.replayAction env base * c.effect env).run ∅ = some state) := by
    intro base hbase
    rw [replayOrder_eq_ok_iff, replayAction_append, replayAction_singleton, effectAt_addChange_self,
      replayAction_addChange fun hmem => hc ((hbase.mem_iff _).mp hmem)]
  constructor
  · intro h base hbase
    exact (hrun base hbase).mp
      (h _ ((topologicalOrder_addChange_iff hac hc).mpr ⟨base, rfl, hbase⟩))
  · intro h order horder
    obtain ⟨base, rfl, hbase⟩ := (topologicalOrder_addChange_iff hac hc).mp horder
    exact (hrun base hbase).mpr (h base hbase)

/-! ## What a merge saves -/

variable [Crypto] {current target : Finset Blake3Hash} {signer : Author × SigningKey}

theorem mergeHeads_cases (hg : g.Indexed) {out : MergeOutcome}
    (h : g.mergeHeads env current target signer = .ok out) :
    (out = ⟨current ∪ target, none⟩ ∧ ¬ ∃ a b, g.Conflicting current target a b)
      ∨ ∃ c, out = ⟨{c.id}, some c⟩ ∧ c.deps = current ∪ target ∧ c.author = signer.1
        ∧ (∀ atom ∈ c.atoms, ∃ bases sides path, atom = .conflict bases sides path)
        ∧ ∀ a b, g.Conflicting current target a b →
          findOverlappingPath a.atoms b.atoms ≠ none := by
  obtain ⟨currentState, plan, hcur, hplan, rfl⟩ := exists_mergePlan_of_mergeHeads h
  obtain ⟨pairs, hpairs, hcases⟩ := mergePlan_eq_ok hplan
  obtain ⟨hconf, -⟩ := conflicting_iff_mem_pairs hg hpairs
  rcases hcases with ⟨rfl, rfl⟩ | ⟨targetState, lcaState, paths, -, -, -, -, hpaths, rfl⟩
  · refine .inl ⟨rfl, ?_⟩
    rintro ⟨a, b, hab⟩
    exact List.not_mem_nil ((hconf a b).mp hab).1
  · refine .inr ⟨_, rfl, Change.new_deps .., Change.new_author .., fun atom hatom => ?_,
      fun a b hab => ?_⟩
    · rw [Change.new_atoms, ConflictStates.atoms] at hatom
      obtain ⟨path, -, rfl⟩ := List.mem_map.mp hatom
      exact ⟨_, _, path, rfl⟩
    · obtain ⟨hpair, hga, hgb⟩ := (hconf a b).mp hab
      exact (conflictPaths_eq_ok hpaths).1 _ _ hpair a b hga hgb

omit [Crypto] in
/-- The first overlap of two conflicting changes is at `path`, where the merge records it. -/
def ConflictAt (g : ChangeGraph) (current target : Finset Blake3Hash) (path : NodePath) : Prop :=
  ∃ a b, g.Conflicting current target a b ∧ findOverlappingPath a.atoms b.atoms = some path

def afterMerge (g : ChangeGraph) (out : MergeOutcome) : ChangeGraph :=
  out.recorded.elim g g.addChange

/-- Whatever else is stored by then, the heads that the merge saves replay alike in all orders. -/
def MergeReplays (g : ChangeGraph) (env : ApplyEnv) (current target : Finset Blake3Hash)
    (signer : Author × SigningKey) : Prop :=
  ∀ out, g.mergeHeads env current target signer = .ok out →
    ∀ env', ReadsMore env env' → (g.afterMerge out).ReplaysAlike env' out.heads

/-- No loaded change has the id of the conflict change and another payload. -/
def MergeCollisionFree (g : ChangeGraph) (env : ApplyEnv) (current target : Finset Blake3Hash)
    (signer : Author × SigningKey) : Prop :=
  ∀ out, g.mergeHeads env current target signer = .ok out →
    ∀ c ∈ out.recorded, ∀ c', g.get c.id = some c' → c'.payload = c.payload

/-- At every entry the removals of both histories are found, and where no conflict is recorded
the latest changes agree. The signer of the conflict change may write where it is recorded. -/
structure MergeSettled (g : ChangeGraph) (env : ApplyEnv) (current target : Finset Blake3Hash)
    (signer : Author × SigningKey) : Prop where
  removals : ∀ key, EntryOp.RemovalsFound g.Before (g.ancestorsInclusive (current ∪ target))
    (g.idOps env.store key)
  latest : ∀ key, ¬ g.ConflictAt current target key →
    EntryOp.LatestAgree g.Before (g.ancestorsInclusive (current ∪ target))
      (g.idOps env.store key) []
  author : signer.1.isAi = true → ∀ path, g.ConflictAt current target path →
    isRestricted env.agentIgnore path = false

omit [Crypto] in
theorem opsAtKey_conflicts {atoms : List Atom} {store : BlobStore} {key : NodePath}
    (h : ∀ atom ∈ atoms, ∃ bases sides path, atom = .conflict bases sides path) :
    opsAtKey store key atoms = [] ↔ ¬ ∃ bases sides, Atom.conflict bases sides key ∈ atoms := by
  rw [opsAtKey, EntryOp.opsAt, List.map_eq_nil_iff, List.filter_eq_nil_iff]
  constructor
  · rintro hnone ⟨bases, sides, hmem⟩
    exact hnone (key, .write (conflictToken bases sides key))
      (List.mem_filterMap.mpr ⟨_, hmem, rfl⟩) (decide_eq_true rfl)
  · rintro hnone ⟨key', op⟩ hop hkey
    obtain rfl : key' = key := of_decide_eq_true hkey
    obtain ⟨atom, hatom, hop⟩ := List.mem_filterMap.mp hop
    obtain ⟨bases, sides, path, rfl⟩ := h atom hatom
    obtain rfl : path = key' := (Prod.mk.inj (Option.some_inj.mp hop)).1
    exact hnone ⟨bases, sides, hatom⟩

omit [Crypto] in
theorem ReadsMore.refl (env : ApplyEnv) : ReadsMore env env := ⟨fun _ _ h => h, rfl, rfl⟩

theorem replaysAlike_afterMerge_iff (hg : g.Indexed) (hac : g.Acyclic) (hsparse : env.sparse = none)
    (hrun : g.Runnable env (current ∪ target))
    (hfree : g.MergeCollisionFree env current target signer) {out : MergeOutcome}
    (hok : g.mergeHeads env current target signer = .ok out) :
    (g.afterMerge out).ReplaysAlike env out.heads ↔ g.MergeSettled env current target signer := by
  obtain ⟨-, hrecorded⟩ := mergeHeads_eq_ok hg hok
  rcases mergeHeads_cases hg hok with ⟨rfl, hnone⟩ | ⟨c, rfl, hdeps, hauthor, hatoms, -⟩
  · have hnot : ∀ key, ¬ g.ConflictAt current target key := by
      rintro key ⟨a, b, hab, -⟩
      exact hnone ⟨a, b, hab⟩
    have halike := alike_iff (t := []) hg hac hsparse hrun (by simp)
    simp only [List.map_nil, List.prod_nil, mul_one, ← replayOrder_eq_ok_iff] at halike
    change g.ReplaysAlike env (current ∪ target) ↔ _
    rw [ReplaysAlike, halike]
    constructor
    · rintro ⟨hremovals, hlatest⟩
      exact ⟨hremovals, fun key _ => hlatest key rfl, fun _ key hkey => absurd hkey (hnot key)⟩
    · intro h
      exact ⟨h.removals, fun key _ => h.latest key (hnot key)⟩
  · have hpath : ∀ path, g.ConflictAt current target path
        ↔ ∃ bases sides, Atom.conflict bases sides path ∈ c.atoms := by
      intro path
      refine (hrecorded path).symm.trans ⟨?_, fun h => ⟨c, rfl, h⟩⟩
      rintro ⟨c', hc', h⟩
      obtain rfl := Option.some_inj.mp hc'
      exact h
    have hc : c.id ∉ g.ancestorsInclusive c.deps :=
      notMem_ancestors_of_present hg hac (hfree _ hok c rfl) fun x hx => by
        rw [hdeps] at hx
        exact (hrun x hx).imp fun _ h => h.1
    change (g.addChange c).ReplaysAlike env {c.id} ↔ _
    rw [replaysAlike_addChange_iff hac hc, hdeps, Change.effect_eq]
    cases hviolates : c.violates env with
    | true =>
        obtain ⟨order, -, horder⟩ := hg.topologicalSort_spec hac (current ∪ target)
        refine iff_of_false ?_ fun h => ?_
        · rintro ⟨state, hstate⟩
          simpa using hstate order horder
        · obtain ⟨hai, hany⟩ := Bool.and_eq_true_iff.mp hviolates
          obtain ⟨atom, hatom, hbad⟩ := List.any_eq_true.mp hany
          obtain ⟨bases, sides, path, rfl⟩ := hatoms atom hatom
          have hfine := h.author (hauthor ▸ hai) path ((hpath path).mpr ⟨_, _, hatom⟩)
          simp [Atom.isRestricted, Atom.paths, hfine] at hbad
    | false =>
        have hwrites : ∀ atom ∈ c.atoms, ∃ key v,
            atom.entryOp env.store = some (key, .write v) := by
          intro atom hatom
          obtain ⟨bases, sides, path, rfl⟩ := hatoms atom hatom
          exact ⟨path, _, rfl⟩
        rw [if_neg Bool.false_ne_true, Change.plainEffect, alike_iff hg hac hsparse hrun hwrites]
        simp only [opsAtKey_conflicts hatoms, ← hpath]
        refine ⟨fun h => ⟨h.1, h.2, fun hai path hp => ?_⟩, fun h => ⟨h.removals, h.latest⟩⟩
        obtain ⟨bases, sides, hatom⟩ := (hpath path).mp hp
        rw [Change.violates, hauthor, hai, Bool.true_and, Change.isRestricted,
          List.any_eq_false] at hviolates
        have hfine := hviolates _ hatom
        simpa [Atom.isRestricted, Atom.paths] using hfine

/-- **A merge leaves a history that replays alike in all orders iff both histories are settled**,
unless it fails. -/
theorem mergeReplays_iff (hg : g.Indexed) (hac : g.Acyclic) (store : BlobStore)
    (agentIgnore : Gitignore) (current target : Finset Blake3Hash) (signer : Author × SigningKey)
    (hcurrent : ∃ state, g.materializeHeads ⟨store, agentIgnore, none⟩ current = .ok state)
    (htarget : ∃ state, g.materializeHeads ⟨store, agentIgnore, none⟩ target = .ok state)
    (hfree : g.MergeCollisionFree ⟨store, agentIgnore, none⟩ current target signer) :
    g.MergeReplays ⟨store, agentIgnore, none⟩ current target signer
      ↔ (g.Mergeable ⟨store, agentIgnore, none⟩ current target →
          (∀ a b, g.Conflicting current target a b →
            findOverlappingPath a.atoms b.atoms ≠ none) →
          g.MergeSettled ⟨store, agentIgnore, none⟩ current target signer) := by
  obtain ⟨currentState, hcurrent⟩ := hcurrent
  obtain ⟨targetState, htarget⟩ := htarget
  have hrun := (runnable_of_materializeHeads hg hac rfl hcurrent).union
    (runnable_of_materializeHeads hg hac rfl htarget)
  constructor
  · intro h hmergeable hover
    obtain ⟨out, hok⟩ : ∃ out, g.mergeHeads ⟨store, agentIgnore, none⟩ current target signer
        = .ok out := exists_mergeHeads hg hmergeable hover
    exact (replaysAlike_afterMerge_iff hg hac rfl hrun hfree hok).mp (h out hok _ (.refl _))
  · intro h out hok env' hmore
    have hmergeable := (mergeHeads_eq_ok hg hok).1
    have hover : ∀ a b, g.Conflicting current target a b →
        findOverlappingPath a.atoms b.atoms ≠ none := by
      intro a b hab
      rcases mergeHeads_cases hg hok with ⟨-, hnone⟩ | ⟨c, -, -, -, -, hover⟩
      · exact absurd ⟨a, b, hab⟩ hnone
      · exact hover a b hab
    refine ReplaysAlike.mono ?_ hmore
    exact (replaysAlike_afterMerge_iff hg hac rfl hrun hfree hok).mpr (h hmergeable hover)

omit [Crypto] in
/-- Two insertions of one item, which the conflict change settles. -/
theorem mergeReplays_one_item :
    let g := ofChanges [.bare 1 ∅ [.insert ["file", "a.rs"] 7],
      .bare 2 ∅ [.insert ["file", "a.rs"] 8]]
    @MergeReplays Crypto.sample g ⟨fun _ => .ok [1, 2], fun _ _ => false, none⟩ {1} {2}
      (.human "" "" 0, 0) := by
  intro g
  let a := Change.bare 1 ∅ [.insert ["file", "a.rs"] 7]
  let b := Change.bare 2 ∅ [.insert ["file", "a.rs"] 8]
  let env : ApplyEnv := ⟨fun _ => .ok [1, 2], fun _ _ => false, none⟩
  let c := @Change.new Crypto.sample {1, 2} [.conflict [0] [517, 517] ["file", "a.rs"]]
    "merge conflict: 1 pair(s)" (.human "" "" 0) 0
  have hok : @mergeHeads Crypto.sample g env {1} {2} (.human "" "" 0, 0)
      = .ok ⟨{c.id}, some c⟩ := by
    decide +kernel
  have hnone : g.get c.id = none := by decide
  have hfree : @MergeCollisionFree Crypto.sample g env {1} {2} (.human "" "" 0, 0) := by
    rintro out hout c' hc' old hold
    obtain rfl := Except.ok.inj (hok.symm.trans hout)
    obtain rfl := Option.some_inj.mp hc'
    exact absurd (hold.symm.trans hnone) (Option.some_ne_none old)
  have hconflict : g.ConflictAt {1} {2} ["file", "a.rs"] := by
    refine ⟨a, b, ⟨⟨?_, ?_, ?_, ?_⟩, ?_⟩, ?_⟩ <;> decide +kernel
  have hclosure : g.ancestorsInclusive ({1} ∪ {2}) = {1, 2} := by decide
  have hops : ∀ key, ∀ x ∈ ({1, 2} : Finset Blake3Hash), g.idOps env.store key x
      = if ["file", "a.rs"] = key then [.write [1, 2]] else [] := by
    intro key x hx
    have hget : g.get x = some a ∨ g.get x = some b := by
      revert x
      decide +kernel
    have hop : ∀ hash, opsAtKey env.store key [.insert ["file", "a.rs"] hash]
        = if ["file", "a.rs"] = key then [.write [1, 2]] else [] := by
      intro hash
      by_cases hkey : ["file", "a.rs"] = key <;>
        simp [opsAtKey, EntryOp.opsAt, Atom.entryOp, Except.toOption, env, hkey]
    rcases hget with hget | hget <;> rw [idOps, hget] <;> exact hop _
  refine (@mergeReplays_iff g Crypto.sample (indexed_ofChanges (by decide))
    (acyclic_of_lt (by decide)) env.store env.agentIgnore {1} {2} (.human "" "" 0, 0)
    ?_ ?_ hfree).mpr fun _ _ => ?_
  · exact ⟨Finmap.singleton ["file", "a.rs"] [1, 2], by decide⟩
  · exact ⟨Finmap.singleton ["file", "a.rs"] [1, 2], by decide⟩
  have hsafe : ∀ key, ∀ x ∈ ({1, 2} : Finset Blake3Hash),
      EntryOp.Safe false (g.idOps env.store key x) = true := by
    intro key x hx
    rw [hops key x hx]
    split_ifs <;> rfl
  have hneeds : ∀ {key x}, x ∈ g.ancestorsInclusive ({1} ∪ {2}) →
      EntryOp.Safe false (g.idOps env.store key x) ≠ false := by
    intro key x hx
    rw [hclosure] at hx
    rw [hsafe key x hx]
    exact Bool.true_eq_false_eq_False
  refine ⟨fun key => ⟨fun x hx => ?_, fun x hx h => absurd h (hneeds hx),
    fun x hx h => absurd h (hneeds hx)⟩, fun key hkey x _ hx => ?_, fun h => ?_⟩
  · rw [hclosure] at hx
    exact EntryOp.safe_of_safe_false (hsafe key x hx) true
  · have hne : ["file", "a.rs"] ≠ key := by
      rintro rfl
      exact hkey hconflict
    have hrep := hx.replacing
    rw [hops key x (hclosure ▸ hx.mem), if_neg hne] at hrep
    exact absurd rfl hrep.ne_nil
  · cases h

omit [Crypto] in
/-- Both sides delete the item that their common ancestor inserts. The saved head depends on both
deletions, and the second one finds nothing to delete. -/
theorem merge_of_two_deletions_cannot_replay :
    let g := ofChanges [.bare 1 ∅ [.insert ["file", "a.rs"] 7],
      .bare 2 {1} [.delete ["file", "a.rs"] 7], .bare 3 {1} [.delete ["file", "a.rs"] 7]]
    let env : ApplyEnv := ⟨fun _ => .ok [1, 2], fun _ _ => false, none⟩
    let signer : Author × SigningKey := (.human "" "" 0, 0)
    g.Indexed ∧ g.Acyclic ∧ g.materializeHeads env {2} = .ok ∅ ∧ g.materializeHeads env {3} = .ok ∅
      ∧ (∃ out, @mergeHeads Crypto.sample g env {2} {3} signer = .ok out
        ∧ (g.afterMerge out).materializeHeads env out.heads
          = .error (.apply (.deleteMissing ["file", "a.rs"])))
      ∧ ¬ @MergeReplays Crypto.sample g env {2} {3} signer := by
  intro g env signer
  have hg : g.Indexed := indexed_ofChanges (by decide)
  have hac : g.Acyclic := acyclic_of_lt (by decide)
  let c := @Change.new Crypto.sample {2, 3} [.conflict [517] [0, 0] ["file", "a.rs"]]
    "merge conflict: 1 pair(s)" signer.1 signer.2
  have hok : @mergeHeads Crypto.sample g env {2} {3} signer = .ok ⟨{c.id}, some c⟩ := by
    decide +kernel
  have hrun : (g.addChange c).materializeHeads env {c.id}
      = .error (.apply (.deleteMissing ["file", "a.rs"])) := by decide
  refine ⟨hg, hac, by decide, by decide, ⟨_, hok, hrun⟩, fun h => ?_⟩
  have hg' : (g.addChange c).Indexed := hg.addChange (by decide)
  have hac' : (g.addChange c).Acyclic := hac.addChange (by decide)
  obtain ⟨state, hstate⟩ := (h _ hok env (.refl env)).materializeHeads hg' hac'
  cases hrun.symm.trans hstate

end ChangeGraph

end ArcVcs
