import ArcVcs.Commute
import ArcVcs.Graph

/-!
# Replay of a history

`materialize_heads` replays the topological order of the ancestors of the heads from the
empty state. If causally unrelated changes commute, the order does not matter.
-/

namespace ArcVcs

inductive ReplayError where
  | missing (id : Blake3Hash)
  | apply (error : ApplyError)
  /-- The panic of `topological_sort`, which an indexed graph does not reach. -/
  | topologicalSort
deriving DecidableEq

namespace ChangeGraph

/-- The replay loop: look each change up and apply it. -/
def replayOrder (g : ChangeGraph) (env : ApplyEnv) : List Blake3Hash → MaterializedState →
    Except ReplayError MaterializedState
  | [], state => .ok state
  | id :: order, state =>
      match g.get id with
      | none => .error (.missing id)
      | some change =>
          match applyChangeScoped env change ⟨state, none⟩ with
          | (.error e, _) => .error (.apply e)
          | (.ok (), r) => replayOrder g env order r.state

def materializeHeads (g : ChangeGraph) (env : ApplyEnv) (heads : Finset Blake3Hash) :
    Except ReplayError MaterializedState :=
  match g.topologicalSort heads with
  | none => .error .topologicalSort
  | some order => g.replayOrder env order ∅

/-- The effect of the change with an id. A missing change fails. -/
def effectAt (g : ChangeGraph) (env : ApplyEnv) (id : Blake3Hash) :
    PartialAction MaterializedState :=
  match g.get id with
  | some change => change.effect env
  | none => 0

variable {g : ChangeGraph} {env : ApplyEnv}

theorem effectAt_of_get {id : Blake3Hash} {c : Change} (h : g.get id = some c) :
    g.effectAt env id = c.effect env := by
  rw [effectAt, h]

theorem effectAt_of_missing {id : Blake3Hash} (h : g.get id = none) :
    g.effectAt env id = 0 := by
  rw [effectAt, h]

def replayAction (g : ChangeGraph) (env : ApplyEnv) (order : List Blake3Hash) :
    PartialAction MaterializedState :=
  (order.map (g.effectAt env)).prod

/-- **Replay runs the product of the effects.** -/
theorem replayOrder_toOption (order : List Blake3Hash) (state : MaterializedState) :
    (g.replayOrder env order state).toOption = (g.replayAction env order).run state := by
  induction order generalizing state with
  | nil => rfl
  | cons id order ih =>
      rw [replayAction, List.map_cons, List.prod_cons, PartialAction.run_mul, replayOrder, effectAt]
      cases g.get id with
      | none => rfl
      | some change =>
          have hstep := applyChangeScoped_state env change ⟨state, none⟩
          dsimp only
          rw [← hstep]
          rcases applyChangeScoped env change ⟨state, none⟩ with ⟨e | u, r⟩
          · rfl
          · exact ih r.state

theorem replayOrder_eq_ok_iff {order : List Blake3Hash} {state out : MaterializedState} :
    g.replayOrder env order state = .ok out
      ↔ (g.replayAction env order).run state = some out := by
  rw [← replayOrder_toOption]
  cases g.replayOrder env order state <;> simp [Except.toOption]

theorem materializeHeads_of_topologicalSort {heads : Finset Blake3Hash}
    {order : List Blake3Hash} (h : g.topologicalSort heads = some order) :
    g.materializeHeads env heads = g.replayOrder env order ∅ := by
  rw [materializeHeads, h]

@[simp] theorem replayAction_singleton (id : Blake3Hash) :
    g.replayAction env [id] = g.effectAt env id := List.prod_singleton

theorem replayAction_append (l₁ l₂ : List Blake3Hash) :
    g.replayAction env (l₁ ++ l₂) = g.replayAction env l₁ * g.replayAction env l₂ := by
  rw [replayAction, List.map_append, List.prod_append]
  rfl

theorem replayAction_congr {g' : ChangeGraph} {order : List Blake3Hash}
    (h : ∀ x ∈ order, g'.get x = g.get x) :
    g'.replayAction env order = g.replayAction env order :=
  congrArg List.prod (List.map_congr_left fun x hx => by rw [effectAt, effectAt, h x hx])

theorem materializeHeads_eq_ok_iff {heads : Finset Blake3Hash} {order : List Blake3Hash}
    (h : g.topologicalSort heads = some order) {s : MaterializedState} :
    g.materializeHeads env heads = .ok s ↔ (g.replayAction env order).run ∅ = some s := by
  rw [materializeHeads_of_topologicalSort h, replayOrder_eq_ok_iff]

theorem effectAt_addChange_self (c : Change) :
    (g.addChange c).effectAt env c.id = c.effect env :=
  effectAt_of_get (by simp)

theorem replayAction_addChange {c : Change} {order : List Blake3Hash} (hc : c.id ∉ order) :
    (g.addChange c).replayAction env order = g.replayAction env order := by
  refine replayAction_congr fun x hx => ?_
  rw [get_addChange, if_neg]
  rintro rfl
  exact hc hx

theorem materializeHeads_addChange (hg : g.Indexed) (hac : g.Acyclic) {c : Change}
    (hsame : ∀ c', g.get c.id = some c' → c'.deps = c.deps)
    (hc : c.id ∉ g.ancestorsInclusive c.deps) {base : List Blake3Hash}
    (hbase : g.topologicalSort c.deps = some base) {s : MaterializedState} :
    (g.addChange c).materializeHeads env {c.id} = .ok s
      ↔ (g.replayAction env base * c.effect env).run ∅ = some s := by
  obtain ⟨base', hrun, -, hmem, -⟩ := hg.exists_topologicalSort c.deps
  obtain rfl : base = base' := Option.some_inj.mp (hbase.symm.trans hrun)
  have hcb : c.id ∉ base := fun h => hc (hmem _ h)
  rw [materializeHeads_eq_ok_iff (topologicalSort_addChange hg hac hsame hc hbase),
    replayAction_append, replayAction_addChange hcb, replayAction_singleton,
    effectAt_addChange_self]

/-- A part that is closed under dependencies can be replayed first, when the changes outside
it commute with the unrelated ones inside. -/
theorem TopologicalOrder.replayAction_split {heads : Finset Blake3Hash}
    {order : List Blake3Hash} (h : g.TopologicalOrder heads order) (hac : g.Acyclic)
    (part : Finset Blake3Hash) (hdown : ∀ x ∈ part, g.deps x ⊆ part)
    (hcomm : ∀ u ∈ part, ∀ x ∈ order, x ∉ part → ¬ g.ProperAncestor x u →
      Commute (g.effectAt env u) (g.effectAt env x)) :
    g.replayAction env order
      = g.replayAction env (order.filter fun x => decide (x ∈ part))
        * g.replayAction env (order.filter fun x => decide (x ∉ part)) := by
  have hanc : ∀ {x a}, g.ProperAncestor x a → x ∈ part → a ∈ part := by
    intro x a hxa hx
    induction hxa with
    | single hstep => exact hdown _ hx hstep
    | tail _ hstep ih => exact hdown _ ih hstep
  refine LinearExtension.prod_eq_filter_mul_filter (fun x => x ∈ part)
    (h.respects_properAncestor hac) (fun a _ x _ hax hx => hanc hax hx) ?_
  exact fun u _ x hx hu hxp hux _ => hcomm u hu x hx hxp hux

theorem materializeHeads_ne_ok (hg : g.Indexed) (hac : g.Acyclic) {heads : Finset Blake3Hash}
    {x : Blake3Hash} (hzero : g.effectAt env x = 0) (hx : x ∈ g.ancestorsInclusive heads)
    (s : MaterializedState) : g.materializeHeads env heads ≠ .ok s := by
  obtain ⟨order, hrun, horder⟩ := hg.topologicalSort_spec hac heads
  have hmem : (0 : PartialAction MaterializedState) ∈ order.map (g.effectAt env) :=
    List.mem_map.mpr ⟨x, (horder.mem_iff x).mpr hx, hzero⟩
  rw [Ne, materializeHeads_eq_ok_iff hrun, replayAction, PartialAction.prod_eq_zero_of_mem hmem]
  simp

theorem get_ne_none_of_replay (hg : g.Indexed) {heads : Finset Blake3Hash}
    {state : MaterializedState} (h : g.materializeHeads env heads = .ok state) {x : Blake3Hash}
    (hx : x ∈ g.ancestorsInclusive heads) : g.get x ≠ none := by
  intro hget
  obtain ⟨order, hrun, -⟩ := hg.exists_topologicalSort heads
  have hzero : (0 : PartialAction MaterializedState) ∈ order.map (g.effectAt env) :=
    List.mem_map.mpr ⟨x, mem_topologicalSort_of_ghost hg hrun hx hget, effectAt_of_missing hget⟩
  rw [materializeHeads_eq_ok_iff hrun, replayAction, PartialAction.prod_eq_zero_of_mem hzero] at h
  simp at h

theorem materializeHeads_split (hg : g.Indexed) (hac : g.Acyclic) {heads part : Finset Blake3Hash}
    (hsub : part ⊆ g.ancestorsInclusive heads) (hdown : ∀ x ∈ part, g.deps x ⊆ part)
    {base l : List Blake3Hash} (hbase : g.topologicalSort part = some base) (hnodup : l.Nodup)
    (hchain : l.IsChain fun a b => a ∈ g.deps b)
    (hmem : ∀ x, x ∈ l ↔ x ∈ g.ancestorsInclusive heads ∧ x ∉ part)
    (hcomm : ∀ u ∈ part, ∀ x ∈ l, ¬ g.ProperAncestor x u →
      Commute (g.effectAt env u) (g.effectAt env x)) {s : MaterializedState} :
    g.materializeHeads env heads = .ok s
      ↔ (g.replayAction env base * g.replayAction env l).run ∅ = some s := by
  have hclosed : g.ancestorsInclusive part = part := Finset.Subset.antisymm
    ((subset_ancestorsInclusive_iff hdown).mpr subset_rfl) (subset_ancestorsInclusive g part)
  obtain ⟨order, hrun, horder⟩ := hg.topologicalSort_spec hac heads
  have hfilter := topologicalSort_filter hg hg (hclosed ▸ hsub) (fun _ _ => rfl) hrun
  rw [hbase, Option.some_inj, hclosed] at hfilter
  have hrest : order.filter (fun x => decide (x ∉ part)) = l := by
    refine horder.filter_eq_of_isChain hac _ hnodup hchain fun x => ?_
    rw [decide_eq_true_iff]
    exact hmem x
  have hsplit := @TopologicalOrder.replayAction_split g env heads order horder hac part hdown
    fun u hu x hx hxp hxu =>
      hcomm u hu x ((hmem x).mpr ⟨(horder.mem_iff x).mp hx, hxp⟩) hxu
  rw [materializeHeads_eq_ok_iff hrun, hsplit, hrest, ← hfilter]

/-! ## The check of AI authors -/

def changesOf (g : ChangeGraph) (ids : List Blake3Hash) : List Change := ids.filterMap g.get

/-- The product of the effects without the check of AI authors. -/
def plainAction (g : ChangeGraph) (env : ApplyEnv) (ids : List Blake3Hash) :
    PartialAction MaterializedState :=
  ((changesOf g ids).map (Change.plainEffect env)).prod

theorem replayAction_eq_changesOf {ids : List Blake3Hash}
    (h : ∀ x ∈ ids, ∃ c, g.get x = some c) :
    g.replayAction env ids = ((changesOf g ids).map (Change.effect env)).prod := by
  induction ids with
  | nil => rfl
  | cons id ids ih =>
      obtain ⟨c, hc⟩ := h id List.mem_cons_self
      have hrest := ih fun x hx => h x (.tail _ hx)
      rw [replayAction] at hrest ⊢
      rw [List.map_cons, List.prod_cons, hrest, effectAt_of_get hc, changesOf, changesOf,
        List.filterMap_cons_some hc, List.map_cons, List.prod_cons]

theorem prod_effect_eq (cs : List Change) :
    (cs.map (Change.effect env)).prod
      = if cs.any (Change.violates env) then 0 else (cs.map (Change.plainEffect env)).prod := by
  split_ifs with h
  · obtain ⟨c, hc, hv⟩ := List.any_eq_true.mp h
    apply PartialAction.prod_eq_zero_of_mem
    exact List.mem_map.mpr ⟨c, hc, by rw [Change.effect_eq, if_pos hv]⟩
  · refine congrArg List.prod (List.map_congr_left fun c hc => ?_)
    rw [Change.effect_eq, if_neg]
    exact fun hv => h (List.any_eq_true.mpr ⟨c, hc, hv⟩)

theorem plainEffect_flatMap (cs : List Change) :
    ((cs.flatMap Change.atoms).map (Atom.plainEffect env)).prod
      = (cs.map (Change.plainEffect env)).prod := by
  induction cs with
  | nil => rfl
  | cons c cs ih =>
      rw [List.flatMap_cons, List.map_append, List.prod_append, ih, List.map_cons, List.prod_cons]
      rfl

theorem run_guard_iff (a p : PartialAction MaterializedState) (v w : Bool) :
    (∀ s, (a * if w then 0 else p).run ∅ = some s ↔ (a * if v then 0 else p).run ∅ = some s)
      ↔ (a * p).run ∅ = none ∨ v = w := by
  have hzero : (a * 0).run ∅ = none := by rw [mul_zero, PartialAction.run_zero]
  cases hrun : (a * p).run ∅ with
  | none => cases v <;> cases w <;> simp [hrun]
  | some s =>
      cases v <;> cases w <;> simp only [Bool.false_eq_true, if_false, if_true, hrun, hzero]
      · simp
      · simp only [reduceCtorEq, false_iff, false_or, iff_false]
        exact fun h => h s rfl
      · simp only [reduceCtorEq, iff_false, false_or]
        exact fun h => h s rfl
      · simp

/-- Replaying a base and then some changes fails even without the check of their authors. -/
def PlainReplayFails (g : ChangeGraph) (env : ApplyEnv) (heads : Finset Blake3Hash)
    (ids : List Blake3Hash) : Prop :=
  ∀ base, g.topologicalSort heads = some base →
    (g.replayAction env base * plainAction g env ids).run ∅ = none

/-! ## Independence of the order -/

/-- Every two present changes in the closure of the heads, neither an ancestor of the other,
commute. -/
def UnrelatedCommute (g : ChangeGraph) (heads : Finset Blake3Hash) : Prop :=
  ∀ a b, a.id ∈ g.ancestorsInclusive heads → b.id ∈ g.ancestorsInclusive heads →
    g.get a.id = some a → g.get b.id = some b → a.id ≠ b.id →
    ¬ g.ProperAncestor a.id b.id → ¬ g.ProperAncestor b.id a.id → commutes a b = true

theorem UnrelatedCommute.effectAt (hg : g.Indexed) {heads : Finset Blake3Hash}
    (h : g.UnrelatedCommute heads) {x y : Blake3Hash} (hx : x ∈ g.ancestorsInclusive heads)
    (hy : y ∈ g.ancestorsInclusive heads) (hne : x ≠ y) (hxy : ¬ g.ProperAncestor x y)
    (hyx : ¬ g.ProperAncestor y x) : Commute (g.effectAt env x) (g.effectAt env y) := by
  cases hgx : g.get x with
  | none =>
      rw [effectAt_of_missing hgx]
      exact Commute.zero_left _
  | some a =>
      cases hgy : g.get y with
      | none =>
          rw [effectAt_of_missing hgy]
          exact Commute.zero_right _
      | some b =>
          obtain rfl := hg.node_id x a hgx
          obtain rfl := hg.node_id y b hgy
          rw [effectAt_of_get hgx, effectAt_of_get hgy]
          exact effect_commute_of_commutes (h a b hx hy hgx hgy hne hxy hyx)

theorem replayAction_eq (hg : g.Indexed) (hac : g.Acyclic) {heads : Finset Blake3Hash}
    (hcomm : g.UnrelatedCommute heads) {l₁ l₂ : List Blake3Hash}
    (h₁ : g.TopologicalOrder heads l₁) (h₂ : g.TopologicalOrder heads l₂) :
    g.replayAction env l₁ = g.replayAction env l₂ := by
  refine LinearExtension.prod_eq_of_respects (h₁.perm h₂) h₁.nodup
    (h₁.respects_properAncestor hac) (h₂.respects_properAncestor hac)
    fun x hx y hy hne hxy hyx => ?_
  exact hcomm.effectAt hg ((h₁.mem_iff x).mp hx) ((h₁.mem_iff y).mp hy) hne hyx hxy

/-- **Linear-extension independence.** When causally unrelated changes commute, every two
topological orders of the heads' closure replay to the same outcome, which is the outcome of
`materialize_heads`. -/
theorem replay_independent_of_order (hg : g.Indexed) (hac : g.Acyclic) (env : ApplyEnv)
    (heads : Finset Blake3Hash) (hcomm : g.UnrelatedCommute heads) :
    (∀ l₁ l₂, g.TopologicalOrder heads l₁ → g.TopologicalOrder heads l₂ →
        ∀ s, g.replayOrder env l₁ ∅ = .ok s ↔ g.replayOrder env l₂ ∅ = .ok s)
      ∧ ∀ l, g.TopologicalOrder heads l →
        ∀ s, g.replayOrder env l ∅ = .ok s ↔ g.materializeHeads env heads = .ok s := by
  have hsame : ∀ l₁ l₂, g.TopologicalOrder heads l₁ → g.TopologicalOrder heads l₂ →
      ∀ s, g.replayOrder env l₁ ∅ = .ok s ↔ g.replayOrder env l₂ ∅ = .ok s := by
    intro l₁ l₂ h₁ h₂ s
    rw [replayOrder_eq_ok_iff, replayOrder_eq_ok_iff, replayAction_eq hg hac hcomm h₁ h₂]
  obtain ⟨order, hrun, horder⟩ := hg.topologicalSort_spec hac heads
  refine ⟨hsame, fun l hl s => ?_⟩
  rw [materializeHeads_of_topologicalSort hrun]
  exact hsame l order hl horder s

/-- A root and two commuting branches, replayed in both orders. -/
theorem replay_independent_of_order_two_branches :
    let g := ofChanges [.bare 1 ∅ [.directory ["dir", "src"]],
      .bare 2 {1} [.insert ["file", "src/a.rs"] 7], .bare 3 {1} [.blob "b.png" 8 3]]
    let env : ApplyEnv := ⟨fun _ => .ok [1, 2], fun _ _ => false, none⟩
    g.topologicalSort {2, 3} = some [1, 2, 3]
      ∧ ∀ l, g.TopologicalOrder {2, 3} l →
        ∀ s, g.replayOrder env l ∅ = .ok s ↔ g.materializeHeads env {2, 3} = .ok s := by
  intro g env
  refine ⟨by decide, ?_⟩
  have hall : ∀ a ∈ g.ancestorsInclusive {2, 3}, ∀ b ∈ g.ancestorsInclusive {2, 3},
      ∀ c ∈ g.get a, ∀ d ∈ g.get b, a ≠ b → b ∉ g.deps a → a ∉ g.deps b → commutes c d = true := by
    decide
  refine (replay_independent_of_order (indexed_ofChanges (by decide))
    (acyclic_of_lt (by decide)) env {2, 3} fun a b ha hb hga hgb hne hab hba => ?_).2
  exact hall a.id ha b.id hb a hga b hgb hne (fun h => hab (.single h)) (fun h => hba (.single h))

end ChangeGraph

end ArcVcs
