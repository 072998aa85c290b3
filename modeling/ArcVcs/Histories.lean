import ArcVcs.EpochMap
import ArcVcs.Requests

/-!
# Stored histories

What a new process can read of a view. Hydration leaves a redirected id out, and the graph keeps
naming it, so all ids in the sorted history of the heads are loaded exactly when the stored history
of the heads is complete and nothing in it is redirected.
-/

namespace ArcVcs

/-- The records that a store gives back. -/
def storedChanges (store : FMap Blake3Hash Change) : Set Change :=
  {c | Repo.readChange store c.id = .ok c}

/-- The ids that the heads lead to in the stored records. -/
def History (store : FMap Blake3Hash Change) (heads : Finset Blake3Hash) : Set Blake3Hash :=
  {id | ∃ h ∈ heads, LeadsTo (storedChanges store) h id}

/-- The history of the heads is stored, and no id in it is redirected. -/
def Live (store : FMap Blake3Hash Change) (epochs : FMap Blake3Hash Blake3Hash)
    (heads : Finset Blake3Hash) : Prop :=
  ∀ id ∈ History store heads, id ∉ epochs.keys ∧ ∃ c, Repo.readChange store id = .ok c

/-- The store after changes are written, each under an id that is free. -/
def putChanges (store : FMap Blake3Hash Change) (changes : List Change) : FMap Blake3Hash Change :=
  changes.foldl (fun store c => store.putOnce c.id c) store

variable {store store' : FMap Blake3Hash Change} {epochs epochs' : FMap Blake3Hash Blake3Hash}
  {heads : Finset Blake3Hash} {id : Blake3Hash} {c : Change}

theorem dependsIn_storedChanges {d : Blake3Hash} (hread : Repo.readChange store id = .ok c) :
    DependsIn (storedChanges store) id d ↔ d ∈ c.deps := by
  obtain ⟨-, rfl⟩ := Repo.readChange_eq_ok_iff.mp hread
  constructor
  · rintro ⟨c', hc', hid, hd⟩
    have hsame : Repo.readChange store c.id = .ok c' := hid ▸ hc'
    rwa [Except.ok.inj (hread.symm.trans hsame)]
  · exact fun hd => ⟨c, hread, rfl, hd⟩

theorem mem_history_of_mem {h : Blake3Hash} (hh : h ∈ heads) : h ∈ History store heads :=
  ⟨h, hh, .refl⟩

theorem mem_history_of_mem_deps {d : Blake3Hash} (hid : id ∈ History store heads)
    (hread : Repo.readChange store id = .ok c) (hd : d ∈ c.deps) : d ∈ History store heads := by
  obtain ⟨h, hh, hlead⟩ := hid
  exact ⟨h, hh, hlead.tail ((dependsIn_storedChanges hread).mpr hd)⟩

theorem history_subset {T : Set Blake3Hash} (hheads : ∀ h ∈ heads, h ∈ T)
    (hT : ∀ id ∈ T, ∀ c, Repo.readChange store id = .ok c → ∀ d ∈ c.deps, d ∈ T) :
    History store heads ⊆ T := by
  rintro id ⟨h, hh, hlead⟩
  induction hlead with
  | refl => exact hheads h hh
  | tail _ hstep ih =>
      obtain ⟨c, hc, rfl, hd⟩ := hstep
      exact hT _ ih c hc _ hd

theorem Live.of_closed {T : Set Blake3Hash} (hheads : ∀ h ∈ heads, h ∈ T)
    (hT : ∀ id ∈ T, id ∉ epochs.keys
      ∧ ∃ c, Repo.readChange store id = .ok c ∧ ∀ d ∈ c.deps, d ∈ T) :
    Live store epochs heads := by
  have hsub : History store heads ⊆ T := by
    refine history_subset hheads fun id hid c hread => ?_
    obtain ⟨-, c', hread', hdeps⟩ := hT id hid
    rwa [Except.ok.inj (hread.symm.trans hread')]
  intro id hid
  obtain ⟨hmap, c, hread, -⟩ := hT id (hsub hid)
  exact ⟨hmap, c, hread⟩

theorem Live.empty (store : FMap Blake3Hash Change) (epochs : FMap Blake3Hash Blake3Hash) :
    Live store epochs ∅ := by
  rintro id ⟨h, hh, -⟩
  simp at hh

theorem Live.union {heads' : Finset Blake3Hash} (h : Live store epochs heads)
    (h' : Live store epochs heads') : Live store epochs (heads ∪ heads') := by
  rintro id ⟨x, hx, hlead⟩
  rcases Finset.mem_union.mp hx with hx | hx
  · exact h id ⟨x, hx, hlead⟩
  · exact h' id ⟨x, hx, hlead⟩

theorem Live.of_mem (h : Live store epochs heads) (hid : id ∈ History store heads) :
    Live store epochs {id} := by
  obtain ⟨x, hx, hlead⟩ := hid
  rintro y ⟨z, hz, hlead'⟩
  obtain rfl := Finset.mem_singleton.mp hz
  exact h y ⟨x, hx, hlead.trans hlead'⟩

theorem readChange_mono (hstore : ∀ id c, store.lookup id = some c → store'.lookup id = some c)
    (hread : Repo.readChange store id = .ok c) : Repo.readChange store' id = .ok c := by
  obtain ⟨hlook, hid⟩ := Repo.readChange_eq_ok_iff.mp hread
  exact Repo.readChange_eq_ok_iff.mpr ⟨hstore id c hlook, hid⟩

theorem lookup_putChanges_of_some {changes : List Change} (h : store.lookup id = some c) :
    (putChanges store changes).lookup id = some c := by
  induction changes generalizing store with
  | nil => exact h
  | cons c cs ih => exact ih (FMap.lookup_putOnce_of_some _ _ _ h)

/-- A live history stays the same, and live, in a larger store, as long as nothing in it is
redirected. -/
theorem Live.mono (h : Live store epochs heads)
    (hstore : ∀ id c, store.lookup id = some c → store'.lookup id = some c)
    (hepochs : ∀ id ∈ History store heads, id ∉ epochs'.keys) : Live store' epochs' heads := by
  refine .of_closed (T := History store heads) (fun x hx => mem_history_of_mem hx) fun x hx => ?_
  obtain ⟨-, c, hread⟩ := h x hx
  exact ⟨hepochs x hx, c, readChange_mono hstore hread, fun d => mem_history_of_mem_deps hx hread⟩

theorem Live.stored (h : Live store epochs heads) : Live store ∅ heads :=
  h.mono (fun _ _ h => h) fun _ _ => by simp

/-! ## Hydration of a live history -/

/-- A process on its way through the history of the heads: what it has loaded leads to what it has
loaded or is going to load. -/
structure Hydrating (store : FMap Blake3Hash Change) (heads : Finset Blake3Hash)
    (queue : List Blake3Hash) (g : ChangeGraph) : Prop where
  loaded : Repo.Loaded store g
  queued : ∀ x ∈ queue, x ∈ History store heads
  heads : ∀ h ∈ heads, h ∈ queue ∨ g.get h ≠ none
  deps : ∀ x c, g.get x = some c → ∀ d ∈ c.deps, d ∈ queue ∨ g.get d ≠ none

/-- The same for a process that started with a graph of its own, where only what it has loaded of
`S` needs to lead on. -/
structure HydratingOn (S : Set Blake3Hash) (store : FMap Blake3Hash Change)
    (heads : Finset Blake3Hash) (queue : List Blake3Hash) (g : ChangeGraph) : Prop where
  loaded : Repo.Loaded store g
  queued : ∀ x ∈ queue, x ∈ History store heads
  heads : ∀ h ∈ heads, h ∈ queue ∨ g.get h ≠ none
  deps : ∀ x ∈ S, ∀ c, g.get x = some c → ∀ d ∈ c.deps, d ∈ queue ∨ g.get d ≠ none

theorem hydratingOn_univ_iff {queue : List Blake3Hash} {g : ChangeGraph} :
    HydratingOn Set.univ store heads queue g ↔ Hydrating store heads queue g :=
  ⟨fun h => ⟨h.loaded, h.queued, h.heads, fun x => h.deps x (Set.mem_univ x)⟩,
    fun h => ⟨h.loaded, h.queued, h.heads, fun x _ => h.deps x⟩⟩

theorem Hydrating.start (store : FMap Blake3Hash Change) (heads : Finset Blake3Hash) :
    Hydrating store heads heads.sorted .new where
  loaded := .new store
  queued x hx := mem_history_of_mem (Finset.mem_sorted.mp hx)
  heads h hh := .inl (Finset.mem_sorted.mpr hh)
  deps x c hc := by simp at hc

theorem HydratingOn.of_hydrateStep {S : Set Blake3Hash} {queue pushed : List Blake3Hash}
    {g g' : ChangeGraph} (h : HydratingOn S store heads (id :: queue) g) (hmap : id ∉ epochs.keys)
    (hstep : Repo.hydrateStep store epochs g id = .ok (pushed, g')) :
    HydratingOn S store heads (queue ++ pushed) g' := by
  have hid := h.queued id List.mem_cons_self
  unfold Repo.hydrateStep at hstep
  rw [FMap.notMem_keys_iff.mp hmap] at hstep
  dsimp only at hstep
  by_cases hget : g.get id = none
  · rw [if_neg (by simp [hget])] at hstep
    cases hread : Repo.readChange store id with
    | error e => simp [hread] at hstep
    | ok c =>
        simp only [hread, Except.ok.injEq, Prod.mk.injEq] at hstep
        obtain ⟨rfl, rfl⟩ := hstep
        obtain ⟨-, rfl⟩ := Repo.readChange_eq_ok_iff.mp hread
        have hseen {x : Blake3Hash} (hx : x ∈ c.id :: queue ∨ g.get x ≠ none) :
            x ∈ queue ∨ (g.addChange c).get x ≠ none := by
          rw [ChangeGraph.get_addChange]
          by_cases hxc : x = c.id
          · simp [hxc]
          · simpa [hxc] using hx
        refine ⟨h.loaded.addChange hread, fun x hx => ?_, fun x hx => ?_,
          fun x hxS c' hc' d hd => ?_⟩
        · rcases List.mem_append.mp hx with hx | hx
          · exact h.queued x (.tail _ hx)
          · have hdep := (Finset.mem_filter.mp (Finset.mem_sorted.mp hx)).1
            exact mem_history_of_mem_deps hid hread hdep
        · exact (hseen (h.heads x hx)).imp_left (List.mem_append_left _)
        · rw [ChangeGraph.get_addChange] at hc'
          split_ifs at hc' with hx
          · obtain rfl := Option.some_inj.mp hc'
            by_cases hd' : g.get d = none
            · left
              apply List.mem_append_right
              exact Finset.mem_sorted.mpr (Finset.mem_filter.mpr ⟨hd, by simp [hd']⟩)
            · exact (hseen (.inr hd')).imp_left (List.mem_append_left _)
          · exact (hseen (h.deps x hxS c' hc' d hd)).imp_left (List.mem_append_left _)
  · rw [if_pos (Option.isSome_iff_ne_none.mpr hget)] at hstep
    simp only [Except.ok.injEq, Prod.mk.injEq] at hstep
    obtain ⟨rfl, rfl⟩ := hstep
    have hseen {x : Blake3Hash} (hx : x ∈ id :: queue ∨ g.get x ≠ none) :
        x ∈ queue ++ [] ∨ g.get x ≠ none := by
      rw [List.append_nil]
      rcases hx with hx | hx
      · rcases List.mem_cons.mp hx with rfl | hx
        · exact .inr hget
        · exact .inl hx
      · exact .inr hx
    refine ⟨h.loaded, fun x hx => ?_, fun x hx => hseen (h.heads x hx),
      fun x hxS c' hc' d hd => hseen (h.deps x hxS c' hc' d hd)⟩
    rw [List.append_nil] at hx
    exact h.queued x (.tail _ hx)

theorem HydratingOn.hydrateGraph {S : Set Blake3Hash} {fuel : ℕ} {g g' : ChangeGraph}
    (hfree : ∀ id ∈ History store heads, id ∉ epochs.keys)
    (hstart : HydratingOn S store heads heads.sorted g)
    (hrun : Repo.hydrateGraph fuel store epochs g heads = some (.ok g')) :
    HydratingOn S store heads [] g' := by
  refine Worklist.process_ok (HydratingOn S store heads) (fun id queue g pushed g' h hstep => ?_)
    hstart hrun
  exact h.of_hydrateStep (hfree id (h.queued id List.mem_cons_self)) hstep

theorem Live.exists_hydrateStep (hlive : Live store epochs heads) (hid : id ∈ History store heads)
    (g : ChangeGraph) : ∃ pushed g', Repo.hydrateStep store epochs g id = .ok (pushed, g') := by
  obtain ⟨hmap, c, hread⟩ := hlive id hid
  unfold Repo.hydrateStep
  rw [FMap.notMem_keys_iff.mp hmap, hread]
  dsimp only
  split_ifs
  · exact ⟨_, _, rfl⟩
  · exact ⟨_, _, rfl⟩

theorem HydratingOn.get_ne_none {S : Set Blake3Hash} {g : ChangeGraph}
    (h : HydratingOn S store heads [] g) (hS : History store heads ⊆ S)
    (hid : id ∈ History store heads) : g.get id ≠ none := by
  obtain ⟨x, hx, hlead⟩ := hid
  induction hlead with
  | refl => simpa using h.heads x hx
  | @tail y d hpath hstep ih =>
      obtain ⟨c, hc⟩ := Option.ne_none_iff_exists'.mp ih
      have hd := h.deps y (hS ⟨x, hx, hpath⟩) c hc
      simpa using hd d ((dependsIn_storedChanges (h.loaded.stored y c hc)).mp hstep)

theorem Live.exists_hydrateGraph_on {S : Set Blake3Hash} (hlive : Live store epochs heads)
    {g : ChangeGraph} (hstart : HydratingOn S store heads heads.sorted g) :
    ∃ fuel g', Repo.hydrateGraph fuel store epochs g heads = some (.ok g')
      ∧ HydratingOn S store heads [] g' := by
  have hrun : ∃ g', Repo.hydrateGraph (hydrationPotential store (fun _ => 0) heads.sorted g + 1)
      store epochs g heads = some (.ok g') := by
    apply Worklist.exists_process_ok (HydratingOn S store heads)
      (hydrationPotential store fun _ => 0) ?_ hstart (Nat.lt_succ_self _)
    intro id queue g h
    have hid := h.queued id List.mem_cons_self
    obtain ⟨pushed, g', hstep⟩ := hlive.exists_hydrateStep hid g
    have hmap := (hlive id hid).1
    refine ⟨pushed, g', hstep, h.of_hydrateStep hmap hstep,
      hydrationPotential_lt (fun next hnext => ?_) hstep⟩
    simp [FMap.notMem_keys_iff.mp hmap] at hnext
  obtain ⟨g', hg'⟩ := hrun
  exact ⟨_, g', hg', hstart.hydrateGraph (fun id hid => (hlive id hid).1) hg'⟩

theorem Live.exists_hydrateGraph (hlive : Live store epochs heads) :
    ∃ fuel g, Repo.hydrateGraph fuel store epochs .new heads = some (.ok g)
      ∧ Hydrating store heads [] g := by
  obtain ⟨fuel, g, hrun, hg⟩ :=
    hlive.exists_hydrateGraph_on (hydratingOn_univ_iff.mpr (Hydrating.start store heads))
  exact ⟨fuel, g, hrun, hydratingOn_univ_iff.mp hg⟩

/-! ## The ancestors in a loaded graph -/

theorem Repo.Loaded.mem_history {g : ChangeGraph} (hg : Repo.Loaded store g)
    (hid : id ∈ g.ancestorsInclusive heads) : id ∈ History store heads := by
  obtain ⟨h, hh, hreach⟩ := ChangeGraph.mem_ancestorsInclusive.mp hid
  clear hid
  induction hreach with
  | refl => exact mem_history_of_mem hh
  | @tail x d _ hstep ih =>
      cases hget : g.get x with
      | none => simp [ChangeGraph.DependsOn, hg.indexed.deps_ghost hget] at hstep
      | some c =>
          rw [ChangeGraph.DependsOn, hg.indexed.deps_eq hget] at hstep
          exact mem_history_of_mem_deps ih (hg.stored x c hget) hstep

theorem Repo.Loaded.mem_ancestorsInclusive_iff {g : ChangeGraph} (hg : Repo.Loaded store g)
    (hall : ∀ x ∈ History store heads, g.get x ≠ none) :
    id ∈ g.ancestorsInclusive heads ↔ id ∈ History store heads := by
  refine ⟨hg.mem_history, ?_⟩
  rintro ⟨h, hh, hlead⟩
  refine ChangeGraph.mem_ancestorsInclusive.mpr ⟨h, hh, ?_⟩
  induction hlead with
  | refl => exact .refl
  | @tail x d hpath hstep ih =>
      obtain ⟨c, hc⟩ := Option.ne_none_iff_exists'.mp (hall x ⟨h, hh, hpath⟩)
      refine ih.tail ?_
      rw [ChangeGraph.DependsOn, hg.indexed.deps_eq hc]
      exact (dependsIn_storedChanges (hg.stored x c hc)).mp hstep

end ArcVcs
