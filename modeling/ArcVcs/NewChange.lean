import ArcVcs.Hydration
import ArcVcs.ItemDiff

/-!
# A new change on top of a history

A change whose hash collides with no other one is added to the graph as a leaf, and its replay
is the replay of its dependencies followed by its own atoms. If these only write stored
contents and remove entries, the replay can fail only on a removal.
-/

namespace ArcVcs

namespace ChangeGraph

variable {g : ChangeGraph} {env : ApplyEnv} {c : Change} {state : MaterializedState}

theorem replayOrder_append (l₁ l₂ : List Blake3Hash) (s : MaterializedState) :
    g.replayOrder env (l₁ ++ l₂) s = (g.replayOrder env l₁ s).bind (g.replayOrder env l₂) := by
  induction l₁ generalizing s with
  | nil => rfl
  | cons id l₁ ih =>
      rw [List.cons_append, replayOrder, replayOrder]
      cases g.get id with
      | none => rfl
      | some change =>
          dsimp only
          rcases applyChangeScoped env change ⟨s, none⟩ with ⟨e | u, r⟩
          · rfl
          · exact ih r.state

theorem replayOrder_congr {g' : ChangeGraph} {order : List Blake3Hash}
    (h : ∀ x ∈ order, g'.get x = g.get x) (s : MaterializedState) :
    g'.replayOrder env order s = g.replayOrder env order s := by
  induction order generalizing s with
  | nil => rfl
  | cons id order ih =>
      obtain ⟨hid, hrest⟩ := List.forall_mem_cons.mp h
      rw [replayOrder, replayOrder, hid]
      cases g.get id with
      | none => rfl
      | some change =>
          dsimp only
          rcases applyChangeScoped env change ⟨s, none⟩ with ⟨e | u, r⟩
          · rfl
          · exact ih hrest r.state

theorem notMem_ancestors_of_present (hg : g.Indexed) (hac : g.Acyclic)
    (hpayload : ∀ c', g.get c.id = some c' → c'.payload = c.payload)
    (hpresent : ∀ x ∈ g.ancestorsInclusive c.deps, ∃ c', g.get x = some c') :
    c.id ∉ g.ancestorsInclusive c.deps := by
  intro hmem
  obtain ⟨c', hc'⟩ := hpresent c.id hmem
  have hdeps : g.deps c.id = c.deps := by
    rw [hg.deps_eq hc', Change.deps_eq_of_payload_eq (hpayload c' hc')]
  obtain ⟨head, hhead, hreach⟩ := mem_ancestorsInclusive.mp hmem
  have hstep : g.DependsOn c.id head := by
    rw [DependsOn, hdeps]
    exact hhead
  exact hac c.id (Relation.TransGen.head' hstep hreach)

theorem notMem_ancestors_of_payload (hg : g.Indexed) (hac : g.Acyclic)
    (hpayload : ∀ c', g.get c.id = some c' → c'.payload = c.payload)
    (h : g.materializeHeads env c.deps = .ok state) : c.id ∉ g.ancestorsInclusive c.deps :=
  notMem_ancestors_of_present hg hac hpayload fun _ hx =>
    Option.ne_none_iff_exists'.mp (get_ne_none_of_replay hg h hx)

theorem materializeHeads_addChange_of_notMem (hg : g.Indexed)
    (hsame : ∀ c', g.get c.id = some c' → c'.deps = c.deps) {heads : Finset Blake3Hash}
    (hc : c.id ∉ g.ancestorsInclusive heads) (env : ApplyEnv) :
    (g.addChange c).materializeHeads env heads = g.materializeHeads env heads := by
  obtain ⟨order, hrun, -, hmem, -⟩ := hg.exists_topologicalSort heads
  have hrun' := topologicalSort_congr hg (hg.addChange hsame) fun x hx =>
    deps_addChange_of_notMem hc hx
  rw [hrun] at hrun'
  rw [materializeHeads_of_topologicalSort hrun', materializeHeads_of_topologicalSort hrun]
  refine replayOrder_congr (fun x hx => ?_) ∅
  rw [get_addChange, if_neg]
  rintro rfl
  exact hc (hmem _ hx)

/-- **The replay of a new change** is that of its dependencies and then its own. -/
theorem materializeHeads_onTop (hg : g.Indexed) (hac : g.Acyclic)
    (hpayload : ∀ c', g.get c.id = some c' → c'.payload = c.payload)
    (h : g.materializeHeads env c.deps = .ok state) :
    (g.addChange c).materializeHeads env {c.id}
      = match applyChangeScoped env c ⟨state, none⟩ with
        | (.error e, _) => .error (.apply e)
        | (.ok (), r) => .ok r.state := by
  have hnot := notMem_ancestors_of_payload hg hac hpayload h
  have hsame : ∀ c', g.get c.id = some c' → c'.deps = c.deps := fun c' hc' =>
    Change.deps_eq_of_payload_eq (hpayload c' hc')
  obtain ⟨base, hbase, -, hmem, -⟩ := hg.exists_topologicalSort c.deps
  have hreplay : (g.addChange c).replayOrder env base ∅ = .ok state := by
    rw [materializeHeads_eq_ok_iff hbase] at h
    rw [replayOrder_eq_ok_iff, replayAction_addChange fun hc => hnot (hmem _ hc)]
    exact h
  rw [materializeHeads_of_topologicalSort (topologicalSort_addChange hg hac hsame hnot hbase),
    replayOrder_append, hreplay]
  change (g.addChange c).replayOrder env [c.id] state = _
  rw [replayOrder, get_addChange, if_pos rfl]
  dsimp only
  rcases applyChangeScoped env c ⟨state, none⟩ with ⟨e | u, r⟩ <;> rfl

end ChangeGraph

theorem applyAtoms_error_cases {env : ApplyEnv} {change : Change} {atoms : List Atom}
    (hguard : ∀ atom ∈ atoms, (change.author.isAi && atom.isRestricted env.agentIgnore) = false)
    (hatoms : ∀ atom ∈ atoms, atom.WritesOrRemoves env.store) {r r' : Replay} {e : ApplyError}
    (h : applyAtoms env change atoms r = (.error e, r')) : ∃ path, e = .deleteMissing path := by
  induction atoms generalizing r with
  | nil => simp [applyAtoms] at h
  | cons atom atoms ih =>
      obtain ⟨hg, hguard⟩ := List.forall_mem_cons.mp hguard
      obtain ⟨ha, hatoms⟩ := List.forall_mem_cons.mp hatoms
      rw [applyAtoms] at h
      cases hstep : applyAtom env change r atom with
      | ok r₁ =>
          rw [hstep] at h
          exact ih hguard hatoms h
      | error e' =>
          rw [hstep] at h
          obtain rfl : e' = e := by simpa using congrArg Prod.fst h
          have hcheck := checkAgentIgnore_toOption env.agentIgnore change.author atom
          rw [hg, if_neg Bool.false_ne_true] at hcheck
          unfold applyAtom at hstep
          cases hres : checkAgentIgnore env.agentIgnore change.author atom with
          | error e'' => simp [hres, Except.toOption] at hcheck
          | ok u =>
              rw [hres] at hstep
              dsimp only at hstep
              split_ifs at hstep
              obtain ⟨path, hash, rfl | ⟨rfl, content, hread⟩⟩ := ha
              · cases hlook : r.state.lookup path with
                | none => exact ⟨path, by simpa [executeAtom, hlook, eq_comm] using hstep⟩
                | some content => simp [executeAtom, hlook] at hstep
              · simp [executeAtom, hread] at hstep

section Cases

variable {env : ApplyEnv} {c : Change}

section Single

variable (hsparse : env.sparse = none) (hguard : c.violates env = false)
  (hops : ∀ atom ∈ c.atoms, (atom.entryOp env.store).isSome)
include hsparse

theorem opsOf_singleton (key : NodePath) : opsOf env [c] key = opsAtKey env.store key c.atoms := by
  simp [opsOf, opsAtKey, Atom.plannedOp_of_full hsparse]

include hguard hops

theorem exists_applySequence_singleton_iff {state : MaterializedState} :
    (∃ out, applySequence env [c] state = .ok out)
      ↔ ∀ key, EntryOp.Safe (state.lookup key).isSome (opsAtKey env.store key c.atoms) = true := by
  rw [exists_applySequence_iff_safe env (by simpa using hguard) (by simpa using hops)]
  simp only [opsOf_singleton hsparse]

theorem applySequence_singleton_eq_ok_iff {state out : MaterializedState} :
    applySequence env [c] state = .ok out
      ↔ ∀ key, EntryOp.Safe (state.lookup key).isSome (opsAtKey env.store key c.atoms) = true
        ∧ out.lookup key = EntryOp.final (state.lookup key) (opsAtKey env.store key c.atoms) := by
  rw [applySequence_eq_ok_iff_entries env (by simpa using hguard) (by simpa using hops)]
  simp only [opsOf_singleton hsparse]

end Single

/-- **A change of such atoms** applies exactly when its removals find their entries. -/
theorem applyChangeScoped_cases (hsparse : env.sparse = none) (hguard : c.violates env = false)
    (hatoms : ∀ atom ∈ c.atoms, atom.WritesOrRemoves env.store) (state : MaterializedState) :
    ((∀ key, EntryOp.Safe (state.lookup key).isSome (opsAtKey env.store key c.atoms) = true)
        ∧ ∃ r, applyChangeScoped env c ⟨state, none⟩ = (.ok (), r)
          ∧ ∀ key, r.state.lookup key
            = EntryOp.final (state.lookup key) (opsAtKey env.store key c.atoms))
      ∨ (¬ ∀ key, EntryOp.Safe (state.lookup key).isSome (opsAtKey env.store key c.atoms) = true)
        ∧ ∃ path r, applyChangeScoped env c ⟨state, none⟩ = (.error (.deleteMissing path), r) := by
  have hops : ∀ atom ∈ c.atoms, (atom.entryOp env.store).isSome := fun atom hatom =>
    (hatoms atom hatom).isSome_entryOp
  have hrun : applySequence env [c] state = match applyChangeScoped env c ⟨state, none⟩ with
      | (.error e, _) => .error e
      | (.ok (), r) => .ok r.state := rfl
  have hiff := @exists_applySequence_singleton_iff _ _ hsparse hguard hops state
  have hout (out : MaterializedState) :=
    @applySequence_singleton_eq_ok_iff _ _ hsparse hguard hops state out
  simp only [hrun] at hiff hout
  rcases hres : applyChangeScoped env c ⟨state, none⟩ with ⟨e | u, r⟩
  · rw [hres] at hiff
    have hunits :
        ∀ atom ∈ c.atoms, (c.author.isAi && atom.isRestricted env.agentIgnore) = false := by
      intro atom hatom
      by_contra hbad
      have hbad : c.author.isAi = true ∧ atom.isRestricted env.agentIgnore = true := by
        simpa using hbad
      have hviol : c.violates env = true := by
        rw [Change.violates, hbad.1, Bool.true_and, Change.isRestricted, List.any_eq_true]
        exact ⟨atom, hatom, hbad.2⟩
      rw [hguard] at hviol
      exact Bool.false_ne_true hviol
    obtain ⟨path, rfl⟩ := applyAtoms_error_cases hunits hatoms hres
    exact .inr ⟨fun hsafe => by simpa using hiff.mpr hsafe, path, r, rfl⟩
  · rw [hres] at hiff
    refine .inl ⟨hiff.mp ⟨r.state, rfl⟩, r, rfl, fun key => ?_⟩
    have hentries := (hout r.state).mp (by rw [hres])
    exact (hentries key).2

theorem ChangeGraph.materializeHeads_onTop_cases {g : ChangeGraph} (hg : g.Indexed)
    (hac : g.Acyclic) (hpayload : ∀ c', g.get c.id = some c' → c'.payload = c.payload)
    (hsparse : env.sparse = none) (hguard : c.violates env = false)
    (hatoms : ∀ atom ∈ c.atoms, atom.WritesOrRemoves env.store) {state : MaterializedState}
    (h : g.materializeHeads env c.deps = .ok state) :
    ((∀ key, EntryOp.Safe (state.lookup key).isSome (opsAtKey env.store key c.atoms) = true)
        ∧ ∃ out, (g.addChange c).materializeHeads env {c.id} = .ok out
          ∧ ∀ key, out.lookup key
            = EntryOp.final (state.lookup key) (opsAtKey env.store key c.atoms))
      ∨ (¬ ∀ key, EntryOp.Safe (state.lookup key).isSome (opsAtKey env.store key c.atoms) = true)
        ∧ ∃ path, (g.addChange c).materializeHeads env {c.id}
          = .error (.apply (.deleteMissing path)) := by
  rw [materializeHeads_onTop hg hac hpayload h]
  rcases applyChangeScoped_cases hsparse hguard hatoms state with
    ⟨hsafe, r, hrun, hout⟩ | ⟨hsafe, path, r, hrun⟩
  · rw [hrun]
    exact .inl ⟨hsafe, r.state, rfl, hout⟩
  · rw [hrun]
    exact .inr ⟨hsafe, path, rfl⟩

end Cases

end ArcVcs
