import ArcVcs.Lib.Worklist
import ArcVcs.Readable

/-!
# Hydrating again

A process hydrates for every command and keeps what it has loaded. What it loads is read from the
store under an id that is not redirected, and leads to what is loaded, directly or over redirects.
So a hydration that succeeds in some process still succeeds after others, with the same fuel, and
the replay of its heads gives the same state.
-/

namespace ArcVcs

variable {store : FMap Blake3Hash Change} {epochs : FMap Blake3Hash Blake3Hash}
  {P Q : Blake3Hash → Prop} {g g' : ChangeGraph} {fuel : ℕ} {heads : Finset Blake3Hash}
  {x : Blake3Hash}

/-- The redirects of an id end in one with the property. -/
inductive RedirectsTo (epochs : FMap Blake3Hash Blake3Hash) (P : Blake3Hash → Prop) :
    Blake3Hash → Prop where
  | here {x : Blake3Hash} (h : P x) : RedirectsTo epochs P x
  | redirect {x y : Blake3Hash} (hmap : epochs.lookup x = some y) (h : RedirectsTo epochs P y) :
      RedirectsTo epochs P x

theorem RedirectsTo.bind (h : RedirectsTo epochs P x) (hPQ : ∀ y, P y → RedirectsTo epochs Q y) :
    RedirectsTo epochs Q x := by
  induction h with
  | here h => exact hPQ _ h
  | redirect hmap _ ih => exact .redirect hmap ih

namespace Repo

/-- What hydrations have made of the graph `g`, with a queue still to be loaded. -/
structure GrowsOn (store : FMap Blake3Hash Change) (epochs : FMap Blake3Hash Blake3Hash)
    (g : ChangeGraph) (queue : List Blake3Hash) (g' : ChangeGraph) : Prop where
  indexed : g'.Indexed
  kept : ∀ x c, g.get x = some c → g'.get x = some c
  unmapped : ∀ x, g'.get x ≠ none → g.get x = none → x ∉ epochs.keys
  read : ∀ x c, g'.get x = some c → g.get x = none → readChange store x = .ok c
  deps : ∀ x c, g'.get x = some c → g.get x = none →
    ∀ d ∈ c.deps, RedirectsTo epochs (fun y => g'.get y ≠ none ∨ y ∈ queue) d

/-- What whole hydrations have made of the graph `g`. -/
abbrev Grown (store : FMap Blake3Hash Change) (epochs : FMap Blake3Hash Blake3Hash)
    (g g' : ChangeGraph) : Prop :=
  GrowsOn store epochs g [] g'

theorem Grown.refl (hg : g.Indexed) : Grown store epochs g g :=
  ⟨hg, fun _ _ h => h, fun _ h h' => absurd h' h, fun _ _ h h' => by simp [h'] at h,
    fun _ _ h h' => by simp [h'] at h⟩

theorem GrowsOn.queue {queue queue' : List Blake3Hash} (h : GrowsOn store epochs g queue g')
    (hqueue : ∀ y ∈ queue, RedirectsTo epochs (fun y => g'.get y ≠ none ∨ y ∈ queue') y) :
    GrowsOn store epochs g queue' g' := by
  refine ⟨h.indexed, h.kept, h.unmapped, h.read, fun x c hc hnone d hd => ?_⟩
  refine (h.deps x c hc hnone d hd).bind fun y hy => ?_
  rcases hy with hy | hy
  · exact .here (.inl hy)
  · exact hqueue y hy

theorem hydrateStep_eq_ok {pushed : List Blake3Hash}
    (h : hydrateStep store epochs g x = .ok (pushed, g')) :
    (∃ y, epochs.lookup x = some y ∧ g' = g ∧ pushed = if (g.get y).isNone then [y] else [])
      ∨ (x ∉ epochs.keys ∧ g.get x ≠ none ∧ g' = g ∧ pushed = [])
      ∨ x ∉ epochs.keys ∧ g.get x = none ∧ ∃ c, readChange store x = .ok c ∧ g' = g.addChange c
        ∧ pushed = (c.deps.filter fun dep => (g.get dep).isNone).sorted := by
  unfold hydrateStep at h
  cases hmap : epochs.lookup x with
  | some y =>
      simp only [hmap, Except.ok.injEq, Prod.mk.injEq] at h
      exact .inl ⟨y, rfl, h.2.symm, h.1.symm⟩
  | none =>
      have hkey := FMap.notMem_keys_iff.mpr hmap
      simp only [hmap] at h
      split_ifs at h with hget
      · simp only [Except.ok.injEq, Prod.mk.injEq] at h
        exact .inr (.inl ⟨hkey, Option.isSome_iff_ne_none.mp hget, h.2.symm, h.1.symm⟩)
      · cases hread : readChange store x with
        | error e => simp [hread] at h
        | ok c =>
            simp only [hread, Except.ok.injEq, Prod.mk.injEq] at h
            exact .inr (.inr ⟨hkey, by simpa using hget, c, rfl, h.2.symm, h.1.symm⟩)

theorem GrowsOn.of_hydrateStep {queue pushed : List Blake3Hash} {g₁ g₂ : ChangeGraph}
    (h : GrowsOn store epochs g (x :: queue) g₁)
    (hstep : hydrateStep store epochs g₁ x = .ok (pushed, g₂)) :
    GrowsOn store epochs g (queue ++ pushed) g₂ := by
  obtain ⟨y, hmap, rfl, rfl⟩ | ⟨hkey, hget, rfl, rfl⟩ | ⟨hkey, hget, c, hread, rfl, rfl⟩ :=
    hydrateStep_eq_ok hstep
  · refine h.queue fun z hz => ?_
    rcases List.mem_cons.mp hz with rfl | hz
    · refine .redirect hmap (.here ?_)
      cases hy : g₂.get y with
      | none => simp
      | some c => simp
    · exact .here (.inr (List.mem_append_left _ hz))
  · refine h.queue fun z hz => .here ?_
    rcases List.mem_cons.mp hz with rfl | hz
    · exact .inl hget
    · exact .inr (List.mem_append_left _ hz)
  · obtain ⟨-, rfl⟩ := readChange_eq_ok_iff.mp hread
    have hfresh : g.get c.id = none := by
      cases hc : g.get c.id with
      | none => rfl
      | some c' => exact absurd (hget.symm.trans (h.kept _ _ hc)) (by simp)
    have hmono : ∀ y, g₁.get y ≠ none → (g₁.addChange c).get y ≠ none := by
      intro y hy
      rw [ChangeGraph.get_addChange]
      split_ifs
      · exact Option.some_ne_none c
      · exact hy
    refine ⟨h.indexed.addChange fun c' hc' => by simp [hget] at hc', fun y c' hc' => ?_,
      fun y hy hnone => ?_, fun y c' hy hnone => ?_, fun y c' hy hnone d hd => ?_⟩
    · rw [ChangeGraph.get_addChange, if_neg]
      · exact h.kept y c' hc'
      · rintro rfl
        simp [hfresh] at hc'
    · rw [ChangeGraph.get_addChange] at hy
      split_ifs at hy with hyc
      · exact hyc ▸ hkey
      · exact h.unmapped y hy hnone
    · rw [ChangeGraph.get_addChange] at hy
      split_ifs at hy with hyc
      · rw [hyc, ← Option.some_inj.mp hy]
        exact hread
      · exact h.read y c' hy hnone
    · rw [ChangeGraph.get_addChange] at hy
      split_ifs at hy with hyc
      · -- a dependency of the new node is loaded or pushed
        obtain rfl := Option.some_inj.mp hy
        refine .here ?_
        cases hd' : g₁.get d with
        | none => exact .inr (List.mem_append_right _ (by simp [hd, hd']))
        | some c' => exact .inl (hmono d (by simp [hd']))
      · refine (h.deps y c' hy hnone d hd).bind fun z hz => .here ?_
        rcases hz with hz | hz
        · exact .inl (hmono z hz)
        · rcases List.mem_cons.mp hz with rfl | hz
          · exact .inl (by simp)
          · exact .inr (List.mem_append_left _ hz)

theorem Grown.hydrateGraph {g₁ : ChangeGraph} (h : Grown store epochs g g')
    (hrun : hydrateGraph fuel store epochs g' heads = some (.ok g₁)) :
    Grown store epochs g g₁ := by
  have hstart : GrowsOn store epochs g heads.sorted g' := h.queue fun y hy => by simp at hy
  exact Worklist.process_ok (GrowsOn store epochs g)
    (fun _ _ _ _ _ h hstep => h.of_hydrateStep hstep) hstart hrun

/-! ## A process that has loaded more -/

theorem Grown.redirectsTo {c : Change} {d : Blake3Hash} (h : Grown store epochs g g')
    (hc : g'.get x = some c) (hnone : g.get x = none) (hd : d ∈ c.deps) :
    RedirectsTo epochs (fun y => g'.get y ≠ none) d :=
  (h.deps x c hc hnone d hd).bind fun y hy => .here (by simpa using hy)

theorem Grown.get_ne_none (h : Grown store epochs g g') (hx : g.get x ≠ none) :
    g'.get x ≠ none := by
  obtain ⟨c, hc⟩ := Option.ne_none_iff_exists'.mp hx
  rw [h.kept x c hc]
  exact Option.some_ne_none c

theorem Grown.addChange {c : Change} (h : Grown store epochs g g') (hc : g'.get c.id = some c) :
    Grown store epochs (g.addChange c) g' := by
  have hnone : ∀ y, (g.addChange c).get y = none → g.get y = none := by
    intro y hy
    rw [ChangeGraph.get_addChange] at hy
    split_ifs at hy
    exact hy
  refine ⟨h.indexed, fun y c' hy => ?_, fun y hy hy' => h.unmapped y hy (hnone y hy'),
    fun y c' hy hy' => h.read y c' hy (hnone y hy'),
    fun y c' hy hy' => h.deps y c' hy (hnone y hy')⟩
  rw [ChangeGraph.get_addChange] at hy
  split_ifs at hy with hyc
  · rw [hyc, ← Option.some_inj.mp hy]
    exact hc
  · exact h.kept y c' hy

theorem Grown.addChange_both {c : Change} (h : Grown store epochs g g')
    (hc : g'.get c.id = none) : Grown store epochs (g.addChange c) (g'.addChange c) := by
  have hmono : ∀ y, g'.get y ≠ none → (g'.addChange c).get y ≠ none := by
    intro y hy
    rw [ChangeGraph.get_addChange]
    split_ifs
    · exact Option.some_ne_none c
    · exact hy
  have hold : ∀ y, (g.addChange c).get y = none → y ≠ c.id ∧ g.get y = none := by
    intro y hy
    rw [ChangeGraph.get_addChange] at hy
    split_ifs at hy with hyc
    exact ⟨hyc, hy⟩
  refine ⟨h.indexed.addChange fun c' hc' => by simp [hc] at hc', fun y c' hy => ?_,
    fun y hy hy' => ?_, fun y c' hy hy' => ?_, fun y c' hy hy' d hd => ?_⟩
  · rw [ChangeGraph.get_addChange] at hy ⊢
    split_ifs at hy ⊢ with hyc
    · exact hy
    · exact h.kept y c' hy
  all_goals
    obtain ⟨hyc, hnone⟩ := hold y hy'
    rw [ChangeGraph.get_addChange, if_neg hyc] at hy
  · exact h.unmapped y hy hnone
  · exact h.read y c' hy hnone
  · refine (h.redirectsTo hy hnone hd).bind fun z hz => .here (.inl (hmono z hz))

/-- What a process need not visit: it leads to what is loaded, and the process that has loaded less
has not come across it. -/
def Settled (epochs : FMap Blake3Hash Blake3Hash) (g g' : ChangeGraph) (x : Blake3Hash) : Prop :=
  RedirectsTo epochs (fun y => g'.get y ≠ none) x ∧ (x ∈ epochs.keys → g.get x = none)

theorem Settled.of_loaded (hx : g'.get x ≠ none) (hnone : g.get x = none) :
    Settled epochs g g' x :=
  ⟨.here hx, fun _ => hnone⟩

theorem Settled.addChange {c : Change} (hkey : c.id ∉ epochs.keys)
    (h : Settled epochs g g' x) : Settled epochs (g.addChange c) g' x := by
  refine ⟨h.1, fun hx => ?_⟩
  rw [ChangeGraph.get_addChange, if_neg]
  · exact h.2 hx
  · rintro rfl
    exact hkey hx

theorem Settled.addChange_both {c : Change} (hkey : c.id ∉ epochs.keys)
    (h : Settled epochs g g' x) : Settled epochs (g.addChange c) (g'.addChange c) x := by
  refine ⟨h.1.bind fun y hy => .here ?_, (h.addChange hkey).2⟩
  rw [ChangeGraph.get_addChange]
  split_ifs
  · exact Option.some_ne_none c
  · exact hy

theorem Grown.settled_deps {c : Change} {d : Blake3Hash} (h : Grown store epochs g g')
    (hkey : c.id ∉ epochs.keys) (hc : g'.get c.id = some c) (hnone : g.get c.id = none)
    (hd : d ∈ c.deps) (hdnone : g.get d = none) : Settled epochs (g.addChange c) g' d :=
  Settled.addChange hkey ⟨h.redirectsTo hc hnone hd, fun _ => hdnone⟩

theorem hydrateStep_mapped {y : Blake3Hash} (hmap : epochs.lookup x = some y) :
    hydrateStep store epochs g x = .ok (if (g.get y).isNone then [y] else [], g) := by
  rw [hydrateStep, hmap]

theorem hydrateStep_loaded (hkey : x ∉ epochs.keys) (hx : g.get x ≠ none) :
    hydrateStep store epochs g x = .ok ([], g) := by
  rw [hydrateStep, FMap.notMem_keys_iff.mp hkey]
  exact if_pos (Option.isSome_iff_ne_none.mpr hx)

theorem hydrateStep_read {c : Change} (hkey : x ∉ epochs.keys) (hx : g.get x = none)
    (hread : readChange store x = .ok c) :
    hydrateStep store epochs g x
      = .ok ((c.deps.filter fun dep => (g.get dep).isNone).sorted, g.addChange c) := by
  rw [hydrateStep, FMap.notMem_keys_iff.mp hkey, hread]
  exact if_neg (by simp [hx])

theorem skips_hydrateStep (store : FMap Blake3Hash Change) (epochs : FMap Blake3Hash Blake3Hash) :
    Worklist.Skips (hydrateStep store epochs) (hydrateStep store epochs) (Grown store epochs)
      (Settled epochs) where
  both g g' x pushed g₁ h hstep := by
    obtain ⟨y, hmap, rfl, rfl⟩ | ⟨hkey, hx, rfl, rfl⟩ | ⟨hkey, hx, c, hread, rfl, rfl⟩ :=
      hydrateStep_eq_ok hstep
    · refine ⟨_, g', hydrateStep_mapped hmap, h, fun _ hd => hd, ?_⟩
      cases hy : g₁.get y with
      | some c =>
          rw [h.kept y c hy]
          exact .nil
      | none =>
          cases hy' : g'.get y with
          | none => exact .refl _ _
          | some c => exact .drop (.of_loaded (by simp [hy']) hy) .nil
    · exact ⟨_, g', hydrateStep_loaded hkey (h.get_ne_none hx), h, fun _ hd => hd, .nil⟩
    · obtain ⟨-, rfl⟩ := readChange_eq_ok_iff.mp hread
      cases hx' : g'.get c.id with
      | some c' =>
          obtain rfl := Except.ok.inj (hread.symm.trans (h.read _ c' hx' hx))
          refine ⟨_, g', hydrateStep_loaded hkey (by simp [hx']), h.addChange hx',
            fun _ hd => hd.addChange hkey, .of_forall fun d hd => ?_⟩
          obtain ⟨hd, hdnone⟩ := Finset.mem_filter.mp (Finset.mem_sorted.mp hd)
          exact h.settled_deps hkey hx' hx hd (by simpa using hdnone)
      | none =>
          refine ⟨_, _, hydrateStep_read hkey hx' hread, h.addChange_both hx',
            fun _ hd => hd.addChange_both hkey, ?_⟩
          rw [← Finset.filter_sorted, ← Finset.filter_sorted]
          refine .filter _ (fun d _ hd => ?_) fun d _ hd hd' => ?_
          · cases hget : g.get d with
            | none => simp
            | some c' => simp [h.kept d c' hget] at hd
          · exact Settled.addChange_both hkey
              (.of_loaded (by simpa [Option.isSome_iff_ne_none] using hd') (by simpa using hd))
  left g g' x pushed g₁ h hsettled hstep := by
    obtain ⟨y, hmap, rfl, rfl⟩ | ⟨hkey, hx, rfl, rfl⟩ | ⟨hkey, hx, c, hread, rfl, rfl⟩ :=
      hydrateStep_eq_ok hstep
    · refine ⟨h, fun _ hd => hd, fun z hz => ?_⟩
      have hkey : x ∈ epochs.keys := FMap.mem_keys_iff.mpr ⟨y, hmap⟩
      have hnone := hsettled.2 hkey
      rcases hsettled.1 with hx | ⟨hmap', hy⟩
      · exact absurd hkey (h.unmapped x hx hnone)
      · obtain rfl := Option.some_inj.mp (hmap.symm.trans hmap')
        split_ifs at hz with hget
        · obtain rfl := List.mem_singleton.mp hz
          exact ⟨hy, fun _ => by simpa using hget⟩
        · simp at hz
    · exact ⟨h, fun _ hd => hd, fun z hz => by simp at hz⟩
    · obtain ⟨-, rfl⟩ := readChange_eq_ok_iff.mp hread
      rcases hsettled.1 with hx' | ⟨hmap, -⟩
      · obtain ⟨c', hc'⟩ := Option.ne_none_iff_exists'.mp hx'
        obtain rfl := Except.ok.inj (hread.symm.trans (h.read _ c' hc' hx))
        refine ⟨h.addChange hc', fun _ hd => hd.addChange hkey, fun d hd => ?_⟩
        obtain ⟨hd, hdnone⟩ := Finset.mem_filter.mp (Finset.mem_sorted.mp hd)
        exact h.settled_deps hkey hc' hx hd (by simpa using hdnone)
      · exact absurd hmap (by simp [FMap.notMem_keys_iff.mp hkey])

theorem Grown.hydrateGraph_again {g₁ : ChangeGraph} (h : Grown store epochs g g')
    (hrun : Repo.hydrateGraph fuel store epochs g heads = some (.ok g₁)) :
    ∃ g₁', Repo.hydrateGraph fuel store epochs g' heads = some (.ok g₁')
      ∧ Grown store epochs g₁ g₁' :=
  (skips_hydrateStep store epochs).exists_process h (.refl _ _) hrun

/-! ## Replaying again -/

variable {env : ApplyEnv} {state : MaterializedState}

theorem Grown.materializeHeads (h : Grown store epochs g g') (hg : g.Indexed)
    (hrun : g.materializeHeads env heads = .ok state) :
    g'.materializeHeads env heads = .ok state := by
  have hall : ∀ x ∈ g.ancestorsInclusive heads, ∃ c, g.get x = some c := fun x hx =>
    Option.ne_none_iff_exists'.mp (ChangeGraph.get_ne_none_of_replay hg hrun hx)
  have hdeps : ∀ x ∈ g.ancestorsInclusive heads, g'.deps x = g.deps x := by
    intro x hx
    obtain ⟨c, hc⟩ := hall x hx
    rw [hg.deps_eq hc, h.indexed.deps_eq (h.kept x c hc)]
  obtain ⟨order, horder, -, hmem, -⟩ := hg.exists_topologicalSort heads
  have horder' := ChangeGraph.topologicalSort_congr hg h.indexed hdeps
  rw [horder] at horder'
  rw [ChangeGraph.materializeHeads_eq_ok_iff horder']
  rw [ChangeGraph.materializeHeads_eq_ok_iff horder] at hrun
  rw [ChangeGraph.replayAction_congr fun x hx => ?_]
  · exact hrun
  · obtain ⟨c, hc⟩ := hall x (hmem x hx)
    rw [hc, h.kept x c hc]

end Repo

end ArcVcs
