import ArcVcs.ReorderSteps

/-!
# Rewriting a chain

The graph after the rewritten changes of a reorder are added: each keeps the external
dependencies of its original and depends on the one before it. It has the unselected ancestors of
its original exactly when they are reached from external dependencies of changes placed no later.
-/

namespace ArcVcs

namespace Mutator

open ChangeGraph

variable {g : ChangeGraph}

/-! ## The rewritten graph -/

/-- The proper history of the old head outside the selection. -/
def unselectedAncestors (g : ChangeGraph) (selected : Finset Blake3Hash) (head : Blake3Hash) :
    Finset Blake3Hash :=
  g.ancestorsInclusive {head} \ selected

/-- The change at a position reaches `u` through an external dependency of a change placed no
later. -/
def Covers (g : ChangeGraph) (selected : Finset Blake3Hash) (desired : List Blake3Hash) (k : ℕ)
    (u : Blake3Hash) : Prop :=
  ∃ j ≤ k, ∃ y, desired[j]? = some y ∧ ∃ d ∈ g.deps y, d ∉ selected ∧ g.Reaches d u

/-- A sequence of changes that rewrites a selection in a given order. -/
structure Rewriting (g : ChangeGraph) (selected : Finset Blake3Hash) (head : Blake3Hash)
    (desired : List Blake3Hash) (rewritten : List Change) : Prop where
  length_eq : rewritten.length = desired.length
  nodup : desired.Nodup
  mem_iff : ∀ x, x ∈ desired ↔ x ∈ selected
  present : ∀ x ∈ selected, ∃ c, g.get x = some c
  below : ∀ x ∈ selected, g.Reaches head x
  external : ∀ {k : ℕ} {x : Blake3Hash} {r : Change}, desired[k]? = some x →
    rewritten[k]? = some r → ∀ d ∈ g.deps x, d ∉ selected → d ∈ r.deps
  deps_cases : ∀ {k : ℕ} {x : Blake3Hash} {r : Change}, desired[k]? = some x →
    rewritten[k]? = some r → ∀ d ∈ r.deps,
      (d ∈ g.deps x ∧ d ∉ selected) ∨ d ∈ (rewritten.take k).map Change.id
  previous : ∀ {k : ℕ} {r r' : Change}, rewritten[k]? = some r →
    rewritten[k + 1]? = some r' → r.id ∈ r'.deps
  distinct : (rewritten.map Change.id).Nodup
  same : ∀ r ∈ rewritten, ∀ c, g.get r.id = some c → c.deps = r.deps
  fresh : ∀ r ∈ rewritten, r.id ∉ unselectedAncestors g selected head

namespace Rewriting

variable {selected : Finset Blake3Hash} {head : Blake3Hash} {desired : List Blake3Hash}
  {rewritten : List Change}

theorem mem_closure (h : Rewriting g selected head desired rewritten) {x : Blake3Hash}
    (hx : x ∈ selected) : x ∈ g.ancestorsInclusive {head} :=
  mem_ancestorsInclusive.mpr ⟨head, Finset.mem_singleton_self _, h.below x hx⟩

theorem external_mem_closure (h : Rewriting g selected head desired rewritten)
    {x d : Blake3Hash} (hx : x ∈ selected) (hd : d ∈ g.deps x) :
    d ∈ g.ancestorsInclusive {head} :=
  ancestorsInclusive_of_mem_deps (h.mem_closure hx) hd

theorem present_of_mem_closure (h : Rewriting g selected head desired rewritten) {r : Change}
    (hr : r ∈ rewritten) (hmem : r.id ∈ g.ancestorsInclusive {head}) :
    ∃ c, g.get r.id = some c := by
  by_cases hsel : r.id ∈ selected
  · exact h.present _ hsel
  · exact absurd (Finset.mem_sdiff.mpr ⟨hmem, hsel⟩) (h.fresh r hr)

theorem indexed (h : Rewriting g selected head desired rewritten) (hg : g.Indexed) :
    (g.addAll rewritten).Indexed :=
  hg.addAll (fun a ha b hb hid => by rw [List.inj_on_of_nodup_map h.distinct ha hb hid]) h.same

theorem get_rewritten (h : Rewriting g selected head desired rewritten) {r : Change}
    (hr : r ∈ rewritten) : (g.addAll rewritten).get r.id = some r :=
  get_addAll_of_mem h.distinct hr

theorem deps_rewritten (h : Rewriting g selected head desired rewritten) (hg : g.Indexed)
    {r : Change} (hr : r ∈ rewritten) : (g.addAll rewritten).deps r.id = r.deps :=
  (h.indexed hg).deps_eq (h.get_rewritten hr)

theorem deps_eq (h : Rewriting g selected head desired rewritten) (hg : g.Indexed)
    {x : Blake3Hash} (hx : x ∈ g.ancestorsInclusive {head}) :
    (g.addAll rewritten).deps x = g.deps x := by
  by_cases hmem : x ∈ rewritten.map Change.id
  · obtain ⟨r, hr, rfl⟩ := List.mem_map.mp hmem
    obtain ⟨c, hc⟩ := h.present_of_mem_closure hr hx
    rw [h.deps_rewritten hg hr, hg.deps_eq hc, h.same r hr c hc]
  · have hget := get_addAll_of_notMem (g := g) hmem
    cases hc : g.get x with
    | none => rw [hg.deps_ghost hc, (h.indexed hg).deps_ghost (hget.trans hc)]
    | some c => rw [hg.deps_eq hc, (h.indexed hg).deps_eq (hget.trans hc)]

theorem acyclic (h : Rewriting g selected head desired rewritten) (hg : g.Indexed)
    (hac : g.Acyclic) : (g.addAll rewritten).Acyclic := by
  refine hac.addAll hg h.distinct h.same fun pre c post hsplit hnone hmem => ?_
  have hpre : ∀ {k r}, pre[k]? = some r → rewritten[k]? = some r := fun hk => by
    obtain ⟨hlt, -⟩ := List.getElem?_eq_some_iff.mp hk
    rw [hsplit, List.getElem?_append_left hlt, hk]
  have hc : rewritten[pre.length]? = some c := by simp [hsplit]
  have hdesired : ∀ {k r}, rewritten[k]? = some r → ∃ x, desired[k]? = some x := fun hk => by
    obtain ⟨hlt, -⟩ := List.getElem?_eq_some_iff.mp hk
    exact ⟨_, List.getElem?_eq_getElem (h.length_eq ▸ hlt)⟩
  have htake : ∀ k ≤ pre.length, (rewritten.take k).map Change.id ⊆ pre.map Change.id := by
    intro k hk
    rw [hsplit, List.take_append_of_le_length hk]
    exact List.map_subset _ (List.take_subset _ _)
  -- the closure of the new dependencies stays in the rewritten prefix and the old history
  let s := (pre.map Change.id).toFinset ∪ g.ancestorsInclusive {head}
  have hdeps : ∀ {k r x}, k ≤ pre.length → rewritten[k]? = some r → desired[k]? = some x →
      r.deps ⊆ s := by
    intro k r x hk hr hx d hd
    have hxsel : x ∈ selected := (h.mem_iff x).mp (List.mem_of_getElem? hx)
    rcases h.deps_cases hx hr d hd with ⟨hd, -⟩ | hd
    · exact Finset.mem_union_right _ (h.external_mem_closure hxsel hd)
    · exact Finset.mem_union_left _ (List.mem_toFinset.mpr (htake k hk hd))
  have hprenodup : (pre.map Change.id).Nodup := by
    have hd := h.distinct
    rw [hsplit, List.map_append] at hd
    exact (List.nodup_append.mp hd).1
  have hpreg : (g.addAll pre).Indexed := by
    refine hg.addAll (fun a ha b hb hid => by rw [List.inj_on_of_nodup_map hprenodup ha hb hid])
      fun r hr => h.same r (by simp [hsplit, hr])
  have hclosed : ∀ x ∈ s, (g.addAll pre).deps x ⊆ s := by
    intro x hx
    by_cases hxp : x ∈ pre.map Change.id
    · obtain ⟨r, hr, rfl⟩ := List.mem_map.mp hxp
      rw [hpreg.deps_eq (get_addAll_of_mem hprenodup hr)]
      obtain ⟨k, hk, hkr⟩ := List.getElem_of_mem hr
      have hrk := hpre ((List.getElem?_eq_getElem hk).trans (congrArg some hkr))
      obtain ⟨y, hy⟩ := hdesired hrk
      exact hdeps hk.le hrk hy
    · have hxc : x ∈ g.ancestorsInclusive {head} := by
        rcases Finset.mem_union.mp hx with hx | hx
        · exact absurd (List.mem_toFinset.mp hx) hxp
        · exact hx
      intro d hd
      have hget := get_addAll_of_notMem (g := g) hxp
      have hd' : d ∈ g.deps x := by
        cases hgx : g.get x with
        | none => simp [hpreg.deps_ghost (hget.trans hgx)] at hd
        | some cx => rwa [hpreg.deps_eq (hget.trans hgx), ← hg.deps_eq hgx] at hd
      exact Finset.mem_union_right _ (ancestorsInclusive_of_mem_deps hxc hd')
  obtain ⟨x, hx⟩ := hdesired hc
  have hin := (subset_ancestorsInclusive_iff hclosed).mpr (hdeps le_rfl hc hx) hmem
  rcases Finset.mem_union.mp hin with hin | hin
  · have hd := h.distinct
    rw [hsplit, List.map_append, List.nodup_append] at hd
    exact hd.2.2 c.id (List.mem_toFinset.mp hin) c.id (by simp) rfl
  · obtain ⟨c', hc'⟩ := h.present_of_mem_closure (r := c) (by simp [hsplit]) hin
    simp [hnone] at hc'

/-! ## Ancestors in the rewritten graph -/

theorem reaches_iff (h : Rewriting g selected head desired rewritten) (hg : g.Indexed)
    {x u : Blake3Hash} (hx : x ∈ g.ancestorsInclusive {head}) :
    (g.addAll rewritten).Reaches x u ↔ g.Reaches x u := by
  have hclosure : (g.addAll rewritten).ancestorsInclusive {x} = g.ancestorsInclusive {x} := by
    refine ancestorsInclusive_congr fun y hy => h.deps_eq hg ?_
    obtain ⟨x', hx', hxy⟩ := mem_ancestorsInclusive.mp hy
    obtain rfl := Finset.mem_singleton.mp hx'
    exact ancestorsInclusive_of_reaches hx hxy
  have hu := Finset.ext_iff.mp hclosure u
  simpa [mem_ancestorsInclusive] using hu

theorem properAncestor_of_lt (h : Rewriting g selected head desired rewritten) (hg : g.Indexed)
    {j k : ℕ} (hjk : j < k) {r r' : Change} (hr : rewritten[j]? = some r)
    (hr' : rewritten[k]? = some r') : (g.addAll rewritten).ProperAncestor r'.id r.id := by
  induction k, hjk using Nat.le_induction generalizing r' with
  | base =>
      refine .single ?_
      rw [ChangeGraph.DependsOn, h.deps_rewritten hg (List.mem_of_getElem? hr')]
      exact h.previous hr hr'
  | succ k hjk ih =>
      obtain ⟨hlt, -⟩ := List.getElem?_eq_some_iff.mp hr'
      have hmid := List.getElem?_eq_getElem (show k < rewritten.length by omega)
      refine .head ?_ (ih hmid)
      rw [ChangeGraph.DependsOn, h.deps_rewritten hg (List.mem_of_getElem? hr')]
      exact h.previous hmid hr'

theorem exists_desired (h : Rewriting g selected head desired rewritten) {k : ℕ} {r : Change}
    (hr : rewritten[k]? = some r) : ∃ x, desired[k]? = some x ∧ x ∈ selected := by
  obtain ⟨hlt, -⟩ := List.getElem?_eq_some_iff.mp hr
  have hx := List.getElem?_eq_getElem (h.length_eq ▸ hlt)
  exact ⟨_, hx, (h.mem_iff _).mp (List.mem_of_getElem? hx)⟩

theorem exists_rewritten (h : Rewriting g selected head desired rewritten) {k : ℕ}
    {x : Blake3Hash} (hx : desired[k]? = some x) : ∃ r, rewritten[k]? = some r := by
  obtain ⟨hlt, -⟩ := List.getElem?_eq_some_iff.mp hx
  exact ⟨_, List.getElem?_eq_getElem (h.length_eq ▸ hlt)⟩

theorem properAncestor_of_covers (h : Rewriting g selected head desired rewritten)
    (hg : g.Indexed) {k : ℕ} {r : Change} (hr : rewritten[k]? = some r) {u : Blake3Hash}
    (hu : Covers g selected desired k u) : (g.addAll rewritten).ProperAncestor r.id u := by
  obtain ⟨j, hjk, y, hy, d, hd, hds, hdu⟩ := hu
  obtain ⟨r', hr'⟩ := h.exists_rewritten hy
  have hsel : y ∈ selected := (h.mem_iff y).mp (List.mem_of_getElem? hy)
  have hdep : (g.addAll rewritten).DependsOn r'.id d := by
    rw [ChangeGraph.DependsOn, h.deps_rewritten hg (List.mem_of_getElem? hr')]
    exact h.external hy hr' d hd hds
  have htail := Relation.TransGen.head' hdep
    ((h.reaches_iff hg (h.external_mem_closure hsel hd)).mpr hdu)
  rcases hjk.eq_or_lt with rfl | hjk
  · obtain rfl := Option.some_inj.mp (hr.symm.trans hr')
    exact htail
  · exact (h.properAncestor_of_lt hg hjk hr' hr).trans htail

theorem properAncestor_cases (h : Rewriting g selected head desired rewritten) (hg : g.Indexed)
    {k : ℕ} {r : Change} (hr : rewritten[k]? = some r) {u : Blake3Hash}
    (hu : (g.addAll rewritten).ProperAncestor r.id u) :
    u ∈ (rewritten.take k).map Change.id ∨ Covers g selected desired k u := by
  induction k using Nat.strong_induction_on generalizing r with
  | _ k ih =>
      obtain ⟨x, hx, hxsel⟩ := h.exists_desired hr
      obtain ⟨d, hd, hdu⟩ := Relation.TransGen.head'_iff.mp hu
      rw [ChangeGraph.DependsOn, h.deps_rewritten hg (List.mem_of_getElem? hr)] at hd
      rcases h.deps_cases hx hr d hd with ⟨hd, hds⟩ | hd
      · exact .inr ⟨k, le_rfl, x, hx, d, hd, hds,
          (h.reaches_iff hg (h.external_mem_closure hxsel hd)).mp hdu⟩
      · obtain ⟨r', hr', rfl⟩ := List.mem_map.mp hd
        obtain ⟨j, hj, rfl⟩ := List.getElem_of_mem hr'
        rw [List.length_take] at hj
        have hget : rewritten[j]? = some (rewritten.take k)[j] := by
          rw [List.getElem_take, List.getElem?_eq_getElem]
        rcases Relation.reflTransGen_iff_eq_or_transGen.mp hdu with rfl | hdu
        · exact .inl hd
        · rcases ih j (by omega) hget hdu with hmem | ⟨i, hij, hi⟩
          · refine .inl (List.map_subset _ ?_ hmem)
            exact List.take_subset_take_left _ (by omega)
          · exact .inr ⟨i, by omega, hi⟩

theorem properAncestor_iff (h : Rewriting g selected head desired rewritten) (hg : g.Indexed)
    {k : ℕ} {r : Change} (hr : rewritten[k]? = some r) {u : Blake3Hash}
    (hu : u ∈ unselectedAncestors g selected head) :
    (g.addAll rewritten).ProperAncestor r.id u ↔ Covers g selected desired k u := by
  refine ⟨fun hru => (h.properAncestor_cases hg hr hru).resolve_left fun hmem => ?_,
    h.properAncestor_of_covers hg hr⟩
  obtain ⟨r', hr', rfl⟩ := List.mem_map.mp hmem
  exact h.fresh r' (List.take_subset _ _ hr') hu

theorem isChain_drop (h : Rewriting g selected head desired rewritten) (hg : g.Indexed) (n : ℕ) :
    ((rewritten.drop n).map Change.id).IsChain fun a b => a ∈ (g.addAll rewritten).deps b := by
  have hall : (rewritten.map Change.id).IsChain fun a b => a ∈ (g.addAll rewritten).deps b := by
    refine List.isChain_iff_getElem.mpr fun k hk => ?_
    rw [List.length_map] at hk
    rw [List.getElem_map, List.getElem_map, h.deps_rewritten hg (List.getElem_mem hk)]
    exact h.previous (List.getElem?_eq_getElem (by omega)) (List.getElem?_eq_getElem hk)
  rw [List.map_drop]
  exact hall.suffix (List.drop_suffix _ _)

theorem reaches_last (h : Rewriting g selected head desired rewritten) (hg : g.Indexed)
    {last : Change} (hlast : rewritten.getLast? = some last) {r : Change} (hr : r ∈ rewritten) :
    (g.addAll rewritten).Reaches last.id r.id := by
  refine reaches_of_isChain (h.isChain_drop hg 0) (List.mem_map_of_mem hr) ?_
  rw [List.drop_zero, List.getLast?_map, hlast]
  rfl

end Rewriting

end Mutator

end ArcVcs
