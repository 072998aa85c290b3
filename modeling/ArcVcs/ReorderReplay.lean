import Mathlib.Data.Finset.Powerset
import ArcVcs.Reorder

/-!
# Replaying a reordered history

Both heads replay the kept history first. The old head then replays the replaced changes, the
new one their rewritings, which are the same effects in another order.
-/

namespace ArcVcs

namespace Mutator

open ChangeGraph

variable {g : ChangeGraph} {env : ApplyEnv} {signer : Author × SigningKey}
  {desired chain : List Blake3Hash} {working : List WorkingChange} {rewritten : List Change}
  {head : Blake3Hash}

/-! ## The replaced part -/

theorem partAction_eq_plainAction {p : Blake3Hash → Bool} {ws : List WorkingChange}
    (h : ∀ w ∈ ws, ∃ c, g.get w.origin = some c ∧ w.change.atoms = c.atoms) :
    partAction env p ws = plainAction g env ((ws.map WorkingChange.origin).filter p) := by
  induction ws with
  | nil => rfl
  | cons w ws ih =>
      have hrest := ih fun v hv => h v (.tail _ hv)
      obtain ⟨c, hc, hatoms⟩ := h w List.mem_cons_self
      have heffect : w.change.plainEffect env = c.plainEffect env := by
        rw [Change.plainEffect, Change.plainEffect, hatoms]
      rw [partAction] at hrest ⊢
      cases hp : p w.origin
      · simpa [hp] using hrest
      · simp [hp, hrest, plainAction, changesOf, hc, heffect]

theorem origins_workingChanges {order : List Blake3Hash} (h : ∀ x ∈ order, ∃ c, g.get x = some c) :
    (workingChanges g order).map WorkingChange.origin = order := by
  induction order with
  | nil => rfl
  | cons x order ih =>
      obtain ⟨c, hc⟩ := h x List.mem_cons_self
      have hrest := ih fun y hy => h y (.tail _ hy)
      simpa [workingChanges, hc] using hrest

theorem map_atoms_eq {ids : List Blake3Hash} {cs : List Change} (hlen : cs.length = ids.length)
    (h : ∀ (k : ℕ) (x : Blake3Hash) (r : Change), ids[k]? = some x → cs[k]? = some r →
      ∃ c, g.get x = some c ∧ r.atoms = c.atoms) :
    cs.map Change.atoms = (changesOf g ids).map Change.atoms := by
  induction ids generalizing cs with
  | nil => simp [List.length_eq_zero_iff.mp hlen, changesOf]
  | cons x ids ih =>
      cases cs with
      | nil => simp at hlen
      | cons r cs =>
          obtain ⟨c, hc, hatoms⟩ := h 0 x r rfl rfl
          have hrest := ih (by simpa using hlen) fun k y r' hy hr' => h (k + 1) y r' hy hr'
          rw [changesOf] at hrest ⊢
          rw [List.filterMap_cons_some hc, List.map_cons, List.map_cons, hrest, hatoms]

variable [Crypto]

theorem take_keptCount (g : ChangeGraph) (signer : Author) (chain desired : List Blake3Hash) :
    chain.take (keptCount g signer chain desired) = keptPrefix g signer chain desired
      ∧ desired.take (keptCount g signer chain desired) = keptPrefix g signer chain desired := by
  obtain ⟨hchain, hdesired, -⟩ := keptPrefix_spec g signer chain desired
  exact ⟨(List.prefix_iff_eq_take.mp hchain).symm, (List.prefix_iff_eq_take.mp hdesired).symm⟩

namespace IsReordered

theorem mem_replaced (h : IsReordered g signer desired chain working rewritten) {x : Blake3Hash} :
    x ∈ replacedChanges g signer.1 chain desired
      ↔ x ∈ desired.toFinset ∧ x ∉ keptPrefix g signer.1 chain desired := by
  rw [replacedChanges, h.isChain.nodup.mem_drop_iff, ← h.isChain.mem_iff,
    (take_keptCount g signer.1 chain desired).1]

theorem mem_drop_desired (h : IsReordered g signer desired chain working rewritten)
    {x : Blake3Hash} : x ∈ desired.drop (keptCount g signer.1 chain desired)
      ↔ x ∈ replacedChanges g signer.1 chain desired := by
  rw [h.mem_replaced, h.nodup.mem_drop_iff, List.mem_toFinset,
    (take_keptCount g signer.1 chain desired).2]

theorem mem_keptHistory (h : IsReordered g signer desired chain working rewritten)
    (hhead : chain.getLast? = some head) {u : Blake3Hash} :
    u ∈ keptHistory g head (replacedChanges g signer.1 chain desired)
      ↔ u ∈ unselectedAncestors g desired.toFinset head
        ∨ u ∈ keptPrefix g signer.1 chain desired := by
  obtain ⟨-, hdesired, -⟩ := keptPrefix_spec g signer.1 chain desired
  rw [keptHistory, unselectedAncestors, Finset.mem_sdiff, Finset.mem_sdiff, List.mem_toFinset,
    h.mem_replaced]
  constructor
  · rintro ⟨hu, hn⟩
    by_cases hsel : u ∈ desired.toFinset
    · exact .inr (by simpa [hsel] using hn)
    · exact .inl ⟨hu, hsel⟩
  · rintro (⟨hu, hsel⟩ | hu)
    · exact ⟨hu, fun hn => hsel hn.1⟩
    · refine ⟨mem_ancestorsInclusive.mpr ⟨head, by simp, ?_⟩, fun hn => hn.2 hu⟩
      exact h.reaches hhead u (hdesired.subset hu)

theorem deps_subset_keptHistory (h : IsReordered g signer desired chain working rewritten)
    (hhead : chain.getLast? = some head)
    (hind : Independent g desired.toFinset head (replacedChanges g signer.1 chain desired)) :
    ∀ u ∈ keptHistory g head (replacedChanges g signer.1 chain desired),
      g.deps u ⊆ keptHistory g head (replacedChanges g signer.1 chain desired) := by
  intro u hu d hd
  have hclosure := ancestorsInclusive_of_mem_deps (Finset.mem_sdiff.mp hu).1 hd
  refine Finset.mem_sdiff.mpr ⟨hclosure, fun hrep => ?_⟩
  rw [List.mem_toFinset] at hrep
  rcases (h.mem_keptHistory hhead).mp hu with hu | hu
  · exact hind.no_dependent u hu d hd hrep
  · -- the selected dependency of a kept change is the kept one before it
    obtain ⟨hchain, -, -⟩ := keptPrefix_spec g signer.1 chain desired
    obtain ⟨hsel, hnot⟩ := h.mem_replaced.mp hrep
    obtain ⟨k, hk⟩ := List.mem_iff_getElem?.mp hu
    obtain ⟨hlt, rfl⟩ := List.getElem?_eq_some_iff.mp hk
    have hkc := List.prefix_iff_getElem?.mp hchain k hlt
    obtain ⟨j, rfl, hj⟩ := h.isChain.eq_previous hkc hd hsel
    refine hnot (List.mem_iff_getElem?.mpr ⟨j, ?_⟩)
    have hlt' : j < (keptPrefix g signer.1 chain desired).length := by omega
    rw [List.getElem?_eq_getElem hlt', ← List.prefix_iff_getElem?.mp hchain j hlt', hj]

theorem isChain_replaced (h : IsReordered g signer desired chain working rewritten) :
    (replacedChanges g signer.1 chain desired).IsChain fun a b => a ∈ g.deps b :=
  h.isChain.isChain.suffix (List.drop_suffix _ _)

theorem nodup_replaced (h : IsReordered g signer desired chain working rewritten) :
    (replacedChanges g signer.1 chain desired).Nodup :=
  h.isChain.nodup.sublist (List.drop_sublist _ _)

theorem properAncestor_of_kept (h : IsReordered g signer desired chain working rewritten)
    {x u : Blake3Hash} (hx : x ∈ replacedChanges g signer.1 chain desired)
    (hu : u ∈ keptPrefix g signer.1 chain desired) : g.ProperAncestor x u := by
  have hpair := pairwise_of_isChain h.isChain.isChain
  rw [← List.take_append_drop (keptCount g signer.1 chain desired) chain,
    (take_keptCount g signer.1 chain desired).1] at hpair
  exact (List.pairwise_append.mp hpair).2.2 u hu x hx

theorem commute_replaced (h : IsReordered g signer desired chain working rewritten)
    (hind : Independent g desired.toFinset head (replacedChanges g signer.1 chain desired))
    {u x : Blake3Hash} (hu : u ∈ unselectedAncestors g desired.toFinset head)
    (hx : x ∈ replacedChanges g signer.1 chain desired) (hxu : ¬ g.ProperAncestor x u) :
    Commute (g.effectAt env u) (g.effectAt env x) := by
  cases hgu : g.get u with
  | none =>
      rw [effectAt_of_missing hgu]
      exact Commute.zero_left _
  | some cu =>
      obtain ⟨cx, hgx⟩ := h.present x (List.mem_toFinset.mp (h.mem_replaced.mp hx).1)
      rw [effectAt_of_get hgu, effectAt_of_get hgx]
      exact effect_commute_of_commutes (hind.commutes u hu x hx hxu cu cx hgu hgx)

/-! ## The two replays -/

theorem materializeHeads_old (h : IsReordered g signer desired chain working rewritten)
    (hg : g.Indexed) (hac : g.Acyclic) (hhead : chain.getLast? = some head)
    (hind : Independent g desired.toFinset head (replacedChanges g signer.1 chain desired))
    {base : List Blake3Hash}
    (hbase : g.topologicalSort (keptHistory g head (replacedChanges g signer.1 chain desired))
      = some base) {s : MaterializedState} :
    g.materializeHeads env {head} = .ok s ↔
      (g.replayAction env base *
        if (changesOf g (replacedChanges g signer.1 chain desired)).any (Change.violates env) then 0
        else plainAction g env (replacedChanges g signer.1 chain desired)).run ∅ = some s := by
  have hpresent : ∀ x ∈ replacedChanges g signer.1 chain desired, ∃ c, g.get x = some c :=
    fun x hx => h.present x (List.mem_toFinset.mp (h.mem_replaced.mp hx).1)
  rw [materializeHeads_split hg hac Finset.sdiff_subset (h.deps_subset_keptHistory hhead hind) hbase
    h.nodup_replaced h.isChain_replaced (fun x => ?_)
    fun u hu x hx hxu => ?_, replayAction_eq_changesOf hpresent, prod_effect_eq]
  · rfl
  · rw [Finset.mem_sdiff, List.mem_toFinset]
    constructor
    · intro hx
      refine ⟨mem_ancestorsInclusive.mpr ⟨head, by simp, ?_⟩, fun hn => hn.2 hx⟩
      exact h.reaches hhead x (List.mem_toFinset.mp (h.mem_replaced.mp hx).1)
    · rintro ⟨hx, hn⟩
      by_contra hnot
      exact hn ⟨hx, hnot⟩
  · rcases (h.mem_keptHistory hhead).mp hu with hu | hu
    · exact h.commute_replaced hind hu hx hxu
    · exact absurd (h.properAncestor_of_kept hx hu) hxu

/-! ## Effects without moves -/

variable (hmoves : ∀ y ∈ desired.toFinset, ∀ c, g.get y = some c → hasMove c.atoms = false)

include hmoves

theorem atoms_eq (h : IsReordered g signer desired chain working rewritten) (hg : g.Indexed)
    {k : ℕ} {x : Blake3Hash} {r c : Change} (hx : desired[k]? = some x)
    (hr : rewritten[k]? = some r) (hc : g.get x = some c) :
    r.atoms = c.atoms ∧ r.author = signer.1 := by
  obtain ⟨w, cx, -, rfl, hget, hder, hrew⟩ := h.exists_rewrittenFrom hg hx hr
  obtain ⟨c', -, hc', hatoms⟩ := hder.atoms.eq_of_not_hasMove hmoves
  obtain rfl := Option.some_inj.mp (hc.symm.trans hc')
  exact ⟨hrew.atoms.trans hatoms, hrew.author⟩

theorem effectAt_keptHistory (h : IsReordered g signer desired chain working rewritten)
    (hg : g.Indexed) (hR : Rewriting g desired.toFinset head desired rewritten)
    (hcf : CollisionFree g desired.toFinset head signer.1 rewritten)
    (hhead : chain.getLast? = some head) {u : Blake3Hash}
    (hu : u ∈ keptHistory g head (replacedChanges g signer.1 chain desired)) :
    (g.addAll rewritten).effectAt env u = g.effectAt env u := by
  rcases (h.mem_keptHistory hhead).mp hu with hu | hu
  · have hget : (g.addAll rewritten).get u = g.get u := get_addAll_of_notMem fun hmem => by
      obtain ⟨r, hr, rfl⟩ := List.mem_map.mp hmem
      exact hR.fresh r hr hu
    rw [effectAt, effectAt, hget]
  · obtain ⟨-, hdesired, hkept⟩ := keptPrefix_spec g signer.1 chain desired
    obtain ⟨k, hk⟩ := List.mem_iff_getElem?.mp hu
    obtain ⟨hlt, rfl⟩ := List.getElem?_eq_some_iff.mp hk
    have hkd := List.prefix_iff_getElem?.mp hdesired k hlt
    obtain ⟨r, hr⟩ := hR.exists_rewritten hkd
    have hid := h.id_of_kept hg hR hmoves hk hr
    have hrmem := List.mem_of_getElem? hr
    obtain ⟨c, hc, -⟩ := hkept _ (List.getElem_mem hlt)
    obtain ⟨hatoms, -⟩ := h.atoms_eq hmoves hg hkd hr hc
    have hauthor : c.author = r.author :=
      congrArg IdPayload.author (hcf.old r (.inl hrmem) c (by rw [hid, hc]))
    have hget : (g.addAll rewritten).get (keptPrefix g signer.1 chain desired)[k] = some r := by
      rw [← hid]
      exact hR.get_rewritten hrmem
    rw [effectAt_of_get hget, effectAt_of_get hc, Change.effect, Change.effect, hatoms, hauthor]

theorem plainAction_drop_desired (h : IsReordered g signer desired chain working rewritten)
    (hg : g.Indexed) :
    plainAction g env (desired.drop (keptCount g signer.1 chain desired))
      = plainAction g env (replacedChanges g signer.1 chain desired) := by
  have hin : ∀ x ∈ chain, x ∈ desired.toFinset := fun x hx => (h.isChain.mem_iff x).mp hx
  have hstart := @derived_workingChanges g _ signer desired.toFinset chain hg hin
  have hsorted := @partAction_of_swapSteps g _ signer desired.toFinset env
    (fun x => decide (x ∈ replacedChanges g signer.1 chain desired)) _ _ h.steps hstart hmoves
  have hpresent : ∀ x ∈ chain, ∃ c, g.get x = some c := fun x hx =>
    h.present x (List.mem_toFinset.mp (hin x hx))
  obtain ⟨hchain, hdesired⟩ := take_keptCount g signer.1 chain desired
  have hfront : ∀ {x}, x ∈ keptPrefix g signer.1 chain desired →
      decide (x ∈ replacedChanges g signer.1 chain desired) = false := fun hx =>
    decide_eq_false fun hrep => (h.mem_replaced.mp hrep).2 hx
  rw [partAction_eq_plainAction fun w hw => ?_, partAction_eq_plainAction fun w hw => ?_,
    h.origins, origins_workingChanges hpresent,
    List.filter_eq_drop (n := keptCount g signer.1 chain desired)
      (fun x hx => hfront (hdesired ▸ hx))
      fun x hx => decide_eq_true (h.mem_drop_desired.mp hx),
    List.filter_eq_drop (n := keptCount g signer.1 chain desired) (fun x hx => hfront (hchain ▸ hx))
      fun x hx => decide_eq_true hx] at hsorted
  · exact hsorted
  · obtain ⟨c, hc⟩ := hstart w hw
    obtain ⟨c', -, hc', hatoms⟩ := hc.atoms.eq_of_not_hasMove hmoves
    exact ⟨c', hc', hatoms⟩
  · obtain ⟨c, hc⟩ := h.derived hg w hw
    obtain ⟨c', -, hc', hatoms⟩ := hc.atoms.eq_of_not_hasMove hmoves
    exact ⟨c', hc', hatoms⟩

theorem map_atoms_drop (h : IsReordered g signer desired chain working rewritten)
    (hg : g.Indexed) (n : ℕ) :
    (rewritten.drop n).map Change.atoms = (changesOf g (desired.drop n)).map Change.atoms := by
  have hlen : rewritten.length = desired.length := by
    rw [h.length_eq, ← h.origins, List.length_map]
  apply map_atoms_eq
  · rw [List.length_drop, List.length_drop, hlen]
  · intro k x r hx hr
    rw [List.getElem?_drop] at hx hr
    obtain ⟨c, hc⟩ := h.present x (List.mem_of_getElem? hx)
    exact ⟨c, hc, (h.atoms_eq hmoves hg hx hr hc).1⟩

theorem prod_plainEffect (h : IsReordered g signer desired chain working rewritten)
    (hg : g.Indexed) :
    ((rewritten.drop (keptCount g signer.1 chain desired)).map (Change.plainEffect env)).prod
      = plainAction g env (replacedChanges g signer.1 chain desired) := by
  have hmap := h.map_atoms_drop hmoves hg (keptCount g signer.1 chain desired)
  have heffects := congrArg (List.map fun atoms => (atoms.map (Atom.plainEffect env)).prod) hmap
  rw [List.map_map, List.map_map] at heffects
  rw [← h.plainAction_drop_desired hmoves hg]
  exact congrArg List.prod heffects

theorem any_isRestricted (h : IsReordered g signer desired chain working rewritten)
    (hg : g.Indexed) :
    (rewritten.drop (keptCount g signer.1 chain desired)).any (Change.isRestricted env)
      = (changesOf g (replacedChanges g signer.1 chain desired)).any
        (Change.isRestricted env) := by
  have hmap := h.map_atoms_drop hmoves hg (keptCount g signer.1 chain desired)
  have hany := congrArg (List.any · fun atoms => atoms.any (Atom.isRestricted env.agentIgnore)) hmap
  simp only [List.any_map] at hany
  have hperm : (desired.drop (keptCount g signer.1 chain desired)).Perm
      (replacedChanges g signer.1 chain desired) :=
    (List.perm_ext_iff_of_nodup (h.nodup.sublist (List.drop_sublist _ _)) h.nodup_replaced).mpr
      fun x => h.mem_drop_desired
  exact hany.trans (hperm.filterMap g.get).any_eq

/-! ## The new head -/

theorem violates_rewritten (h : IsReordered g signer desired chain working rewritten)
    (hg : g.Indexed) :
    (rewritten.drop (keptCount g signer.1 chain desired)).any (Change.violates env)
      = (signer.1.isAi && (changesOf g (replacedChanges g signer.1 chain desired)).any
        (Change.isRestricted env)) := by
  have hauthor : ∀ r ∈ rewritten.drop (keptCount g signer.1 chain desired),
      r.violates env = (signer.1.isAi && r.isRestricted env) := by
    intro r hr
    obtain ⟨k, hk⟩ := List.mem_iff_getElem?.mp (List.mem_of_mem_drop hr)
    obtain ⟨x, hx⟩ := h.getElem?_desired hk
    obtain ⟨w, cx, -, -, -, -, hrew⟩ := h.exists_rewrittenFrom hg hx hk
    rw [Change.violates, hrew.author]
  rw [← h.any_isRestricted hmoves hg, List.and_any_distrib_left, Bool.eq_iff_iff,
    List.any_eq_true, List.any_eq_true]
  exact exists_congr fun r => and_congr_right fun hr => by rw [hauthor r hr]

theorem ids_take (h : IsReordered g signer desired chain working rewritten) (hg : g.Indexed)
    (hR : Rewriting g desired.toFinset head desired rewritten) :
    (rewritten.take (keptCount g signer.1 chain desired)).map Change.id
      = keptPrefix g signer.1 chain desired := by
  have hle : keptCount g signer.1 chain desired ≤ rewritten.length := by
    rw [hR.length_eq]
    exact (keptPrefix_spec g signer.1 chain desired).2.1.length_le
  refine List.ext_getElem (by simpa [keptCount] using hle) fun k hk hk' => ?_
  have hlt : k < rewritten.length := lt_of_lt_of_le hk' hle
  rw [List.getElem_map, List.getElem_take]
  exact h.id_of_kept hg hR hmoves (List.getElem?_eq_getElem hk') (List.getElem?_eq_getElem hlt)

theorem keptHistory_subset (h : IsReordered g signer desired chain working rewritten)
    (hg : g.Indexed) (hhead : chain.getLast? = some head)
    (hR : Rewriting g desired.toFinset head desired rewritten)
    (hcov : AncestorsCovered g desired.toFinset desired) {last : Change}
    (hlast : rewritten.getLast? = some last) :
    keptHistory g head (replacedChanges g signer.1 chain desired)
      ⊆ (g.addAll rewritten).ancestorsInclusive {last.id} := by
  intro u hu
  refine mem_ancestorsInclusive.mpr ⟨last.id, Finset.mem_singleton_self _, ?_⟩
  rcases (h.mem_keptHistory hhead).mp hu with hu | hu
  · obtain ⟨hmem, hsel⟩ := Finset.mem_sdiff.mp hu
    have hheadsel : head ∈ desired.toFinset :=
      (h.isChain.mem_iff head).mp (List.mem_of_getLast? hhead)
    obtain ⟨k, hk⟩ := List.mem_iff_getElem?.mp (List.mem_toFinset.mp hheadsel)
    obtain ⟨r, hr⟩ := hR.exists_rewritten hk
    have hpa : g.ProperAncestor head u := by
      refine (mem_ancestorsInclusive_singleton.mp hmem).resolve_left ?_
      rintro rfl
      exact hsel hheadsel
    have hru := hR.properAncestor_of_covers hg hr (hcov k head hk u hsel hpa)
    exact (hR.reaches_last hg hlast (List.mem_of_getElem? hr)).trans hru.to_reflTransGen
  · rw [← h.ids_take hmoves hg hR] at hu
    obtain ⟨r, hr, rfl⟩ := List.mem_map.mp hu
    exact hR.reaches_last hg hlast (List.mem_of_mem_take hr)

theorem mem_drop_rewritten (h : IsReordered g signer desired chain working rewritten)
    (hg : g.Indexed) (hhead : chain.getLast? = some head)
    (hR : Rewriting g desired.toFinset head desired rewritten)
    (hind : Independent g desired.toFinset head (replacedChanges g signer.1 chain desired))
    {last : Change} (hlast : rewritten.getLast? = some last) (y : Blake3Hash) :
    y ∈ (rewritten.drop (keptCount g signer.1 chain desired)).map Change.id
      ↔ y ∈ (g.addAll rewritten).ancestorsInclusive {last.id}
        ∧ y ∉ keptHistory g head (replacedChanges g signer.1 chain desired) := by
  have hids : y ∈ (rewritten.drop (keptCount g signer.1 chain desired)).map Change.id
      ↔ y ∈ rewritten.map Change.id ∧ y ∉ keptPrefix g signer.1 chain desired := by
    rw [List.map_drop, hR.distinct.mem_drop_iff, ← List.map_take, h.ids_take hmoves hg hR]
  rw [hids, h.mem_keptHistory hhead]
  constructor
  · rintro ⟨hy, hn⟩
    obtain ⟨r, hr, rfl⟩ := List.mem_map.mp hy
    refine ⟨mem_ancestorsInclusive.mpr ⟨last.id, Finset.mem_singleton_self _, ?_⟩, ?_⟩
    · exact hR.reaches_last hg hlast hr
    · rintro (hu | hu)
      · exact hR.fresh r hr hu
      · exact hn hu
  · rintro ⟨hy, hn⟩
    rw [not_or] at hn
    refine ⟨?_, hn.2⟩
    rcases mem_ancestorsInclusive_singleton.mp hy with rfl | hpa
    · exact List.mem_map_of_mem (List.mem_of_getLast? hlast)
    · rw [List.getLast?_eq_getElem?] at hlast
      rcases hR.properAncestor_cases hg hlast hpa with hmem | ⟨j, -, z, hz, d, hd, hds, hdy⟩
      · exact List.map_subset _ (List.take_subset _ _) hmem
      · -- what an external dependency reaches is kept
        have hzsel := (hR.mem_iff z).mp (List.mem_of_getElem? hz)
        have hdk : d ∈ keptHistory g head (replacedChanges g signer.1 chain desired) :=
          (h.mem_keptHistory hhead).mpr
            (.inl (Finset.mem_sdiff.mpr ⟨hR.external_mem_closure hzsel hd, hds⟩))
        have hyk : y ∈ keptHistory g head (replacedChanges g signer.1 chain desired) := by
          clear hd hds hpa hy hn hids
          induction hdy with
          | refl => exact hdk
          | tail _ hstep ih => exact h.deps_subset_keptHistory hhead hind _ ih hstep
        rcases (h.mem_keptHistory hhead).mp hyk with hu | hu
        · exact absurd hu hn.1
        · exact absurd hu hn.2

theorem commute_rewritten (h : IsReordered g signer desired chain working rewritten)
    (hg : g.Indexed) (hhead : chain.getLast? = some head)
    (hR : Rewriting g desired.toFinset head desired rewritten)
    (hcf : CollisionFree g desired.toFinset head signer.1 rewritten)
    (hind : Independent g desired.toFinset head (replacedChanges g signer.1 chain desired))
    (hcov : AncestorsCovered g desired.toFinset desired) {u y : Blake3Hash}
    (hu : u ∈ keptHistory g head (replacedChanges g signer.1 chain desired))
    (hy : y ∈ (rewritten.drop (keptCount g signer.1 chain desired)).map Change.id)
    (hyu : ¬ (g.addAll rewritten).ProperAncestor y u) :
    Commute ((g.addAll rewritten).effectAt env u) ((g.addAll rewritten).effectAt env y) := by
  obtain ⟨r, hr, rfl⟩ := List.mem_map.mp hy
  obtain ⟨k, hk⟩ := List.mem_iff_getElem?.mp hr
  rw [List.getElem?_drop] at hk
  obtain ⟨x, hx⟩ := h.getElem?_desired hk
  have hxrep : x ∈ replacedChanges g signer.1 chain desired := by
    rw [← h.mem_drop_desired, List.mem_iff_getElem?]
    exact ⟨k, by rw [List.getElem?_drop, hx]⟩
  rw [h.effectAt_keptHistory hmoves hg hR hcf hhead hu,
    effectAt_of_get (hR.get_rewritten (List.mem_of_getElem? hk))]
  rcases (h.mem_keptHistory hhead).mp hu with hu | hu
  · have hxu : ¬ g.ProperAncestor x u := fun hxu =>
      hyu (hR.properAncestor_of_covers hg hk (hcov _ x hx u (Finset.mem_sdiff.mp hu).2 hxu))
    cases hgu : g.get u with
    | none =>
        rw [effectAt_of_missing hgu]
        exact Commute.zero_left _
    | some cu =>
        obtain ⟨cx, hgx⟩ := h.present x (List.mem_of_getElem? hx)
        rw [effectAt_of_get hgu]
        apply effect_commute_of_atomsDisjoint
        rw [(h.atoms_eq hmoves hg hx hk hgx).1]
        exact atomsDisjoint_of_commutes (hind.commutes u hu x hxrep hxu cu cx hgu hgx)
  · rw [← h.ids_take hmoves hg hR] at hu
    obtain ⟨r', hr', rfl⟩ := List.mem_map.mp hu
    obtain ⟨j, hj⟩ := List.mem_iff_getElem?.mp hr'
    rw [List.getElem?_take] at hj
    split_ifs at hj with hlt
    exact absurd (hR.properAncestor_of_lt hg (by omega) hj hk) hyu

theorem materializeHeads_new (h : IsReordered g signer desired chain working rewritten)
    (hg : g.Indexed) (hac : g.Acyclic) (hhead : chain.getLast? = some head)
    (hR : Rewriting g desired.toFinset head desired rewritten)
    (hcf : CollisionFree g desired.toFinset head signer.1 rewritten)
    (hind : Independent g desired.toFinset head (replacedChanges g signer.1 chain desired))
    (hcov : AncestorsCovered g desired.toFinset desired) {last : Change}
    (hlast : rewritten.getLast? = some last)
    {base : List Blake3Hash}
    (hbase : g.topologicalSort (keptHistory g head (replacedChanges g signer.1 chain desired))
      = some base) {s : MaterializedState} :
    (g.addAll rewritten).materializeHeads env {last.id} = .ok s ↔
      (g.replayAction env base *
        if signer.1.isAi && (changesOf g (replacedChanges g signer.1 chain desired)).any
          (Change.isRestricted env) then 0
        else plainAction g env (replacedChanges g signer.1 chain desired)).run ∅ = some s := by
  let g' := g.addAll rewritten
  let n := keptCount g signer.1 chain desired
  let kept := keptHistory g head (replacedChanges g signer.1 chain desired)
  have hdeps : ∀ u ∈ kept, g'.deps u = g.deps u := fun u hu =>
    hR.deps_eq hg (Finset.mem_sdiff.mp hu).1
  have hdown : ∀ u ∈ kept, g'.deps u ⊆ kept := fun u hu => by
    rw [hdeps u hu]
    exact h.deps_subset_keptHistory hhead hind u hu
  have hclosed : g.ancestorsInclusive kept ⊆ kept :=
    (subset_ancestorsInclusive_iff (h.deps_subset_keptHistory hhead hind)).mpr subset_rfl
  have hbase' : g'.topologicalSort kept = some base := by
    rw [topologicalSort_congr hg (hR.indexed hg) fun x hx => hdeps x (hclosed hx), hbase]
  have hnodup : ((rewritten.drop n).map Change.id).Nodup := by
    rw [List.map_drop]
    exact hR.distinct.sublist (List.drop_sublist _ _)
  have hbaseEffects : g'.replayAction env base = g.replayAction env base := by
    obtain ⟨base', hrun, -, hmem, -⟩ := hg.exists_topologicalSort kept
    obtain rfl := Option.some_inj.mp (hbase.symm.trans hrun)
    exact congrArg List.prod (List.map_congr_left fun u hu =>
      h.effectAt_keptHistory hmoves hg hR hcf hhead (hclosed (hmem u hu)))
  have hrest : g'.replayAction env ((rewritten.drop n).map Change.id)
      = ((rewritten.drop n).map (Change.effect env)).prod := by
    rw [replayAction, List.map_map]
    exact congrArg List.prod (List.map_congr_left fun r hr =>
      effectAt_of_get (hR.get_rewritten (List.mem_of_mem_drop hr)))
  rw [materializeHeads_split (hR.indexed hg) (hR.acyclic hg hac)
    (h.keptHistory_subset hmoves hg hhead hR hcov hlast) hdown hbase' hnodup (hR.isChain_drop hg n)
    (h.mem_drop_rewritten hmoves hg hhead hR hind hlast)
    fun u hu y hy hyu => h.commute_rewritten hmoves hg hhead hR hcf hind hcov hu hy hyu,
    hbaseEffects, hrest, prod_effect_eq, h.violates_rewritten hmoves hg,
    h.prod_plainEffect hmoves hg]

end IsReordered

/-! ## Histories with moves -/

omit [Crypto] in
theorem plainEffect_of_hasMove {c : Change} (hfull : env.sparse = none)
    (h : hasMove c.atoms = true) : c.plainEffect env = 0 := by
  obtain ⟨atom, hatom, hmove⟩ := List.any_eq_true.mp h
  apply PartialAction.prod_eq_zero_of_mem
  refine List.mem_map.mpr ⟨atom, hatom, ?_⟩
  rw [Atom.plainEffect, hfull, Atom.keyedOp_of_isMove hmove]
  rfl

omit [Crypto] in
theorem effect_of_hasMove {c : Change} (hfull : env.sparse = none) (h : hasMove c.atoms = true) :
    c.effect env = 0 := by
  rw [Change.effect_eq, plainEffect_of_hasMove hfull h, ite_self]

theorem IsReordered.replay_of_hasMove
    (h : IsReordered g signer desired chain working rewritten) (hg : g.Indexed) (hac : g.Acyclic)
    (hfull : env.sparse = none) (hhead : chain.getLast? = some head)
    (hR : Rewriting g desired.toFinset head desired rewritten) {last : Change}
    (hlast : rewritten.getLast? = some last) {y : Blake3Hash} (hy : y ∈ desired) {c : Change}
    (hc : g.get y = some c) (hmove : hasMove c.atoms = true) :
    (∀ s, g.materializeHeads env {head} ≠ .ok s)
      ∧ (∀ s, (g.addAll rewritten).materializeHeads env {last.id} ≠ .ok s)
      ∧ AuthorsAgree g env head (replacedChanges g signer.1 chain desired) signer.1 := by
  have hzero : g.effectAt env y = 0 := by
    rw [effectAt_of_get hc, effect_of_hasMove hfull hmove]
  refine ⟨?_, ?_, .inl fun base hbase => ?_⟩
  · exact materializeHeads_ne_ok hg hac hzero
      (mem_ancestorsInclusive.mpr ⟨head, by simp, h.reaches hhead y hy⟩)
  · obtain ⟨k, hk⟩ := List.mem_iff_getElem?.mp hy
    obtain ⟨r, hr⟩ := hR.exists_rewritten hk
    have hrmem := List.mem_of_getElem? hr
    obtain ⟨w, cx, -, rfl, hget, hder, hrew⟩ := h.exists_rewrittenFrom hg hk hr
    have hmove' : hasMove r.atoms = true := by
      rw [hrew.atoms, hder.atoms.hasMove_eq hc, hmove]
    have hzero' : (g.addAll rewritten).effectAt env r.id = 0 := by
      rw [effectAt_of_get (hR.get_rewritten hrmem), effect_of_hasMove hfull hmove']
    exact materializeHeads_ne_ok (hR.indexed hg) (hR.acyclic hg hac) hzero'
      (mem_ancestorsInclusive.mpr ⟨last.id, by simp, hR.reaches_last hg hlast hrmem⟩)
  · by_cases hrep : y ∈ replacedChanges g signer.1 chain desired
    · have hplain : plainAction g env (replacedChanges g signer.1 chain desired) = 0 := by
        apply PartialAction.prod_eq_zero_of_mem
        refine List.mem_map.mpr ⟨c, List.mem_filterMap.mpr ⟨y, hrep, hc⟩, ?_⟩
        exact plainEffect_of_hasMove hfull hmove
      rw [hplain, mul_zero]
      rfl
    · have hkept : y ∈ keptHistory g head (replacedChanges g signer.1 chain desired) :=
        Finset.mem_sdiff.mpr ⟨mem_ancestorsInclusive.mpr ⟨head, by simp, h.reaches hhead y hy⟩,
          fun hn => hrep (List.mem_toFinset.mp hn)⟩
      obtain ⟨order, hrun, horder⟩ := hg.topologicalSort_spec hac
        (keptHistory g head (replacedChanges g signer.1 chain desired))
      obtain rfl := Option.some_inj.mp (hbase.symm.trans hrun)
      have hmem := (horder.mem_iff y).mpr (subset_ancestorsInclusive g _ hkept)
      have hbasezero : g.replayAction env base = 0 :=
        PartialAction.prod_eq_zero_of_mem (List.mem_map.mpr ⟨y, hmem, hzero⟩)
      rw [hbasezero, zero_mul]
      rfl

/-! ## Chains from a root -/

omit [Crypto] in
theorem ancestorsCovered_of_whole_history
    (hempty : unselectedAncestors g desired.toFinset head = ∅)
    (hbelow : desired.toFinset ⊆ g.ancestorsInclusive {head}) :
    AncestorsCovered g desired.toFinset desired
      ∧ ∀ replaced, Independent g desired.toFinset head replaced := by
  have hno : ∀ u, u ∉ unselectedAncestors g desired.toFinset head := fun u => by
    rw [hempty]
    exact Finset.notMem_empty u
  refine ⟨fun k x hx u hu hxu => absurd (Finset.mem_sdiff.mpr ⟨?_, hu⟩) (hno u), fun replaced => ?_⟩
  · have hxmem := hbelow (List.mem_toFinset.mpr (List.mem_of_getElem? hx))
    exact ancestorsInclusive_of_reaches hxmem hxu.to_reflTransGen
  · exact ⟨fun u hu => absurd hu (hno u), fun u hu => absurd hu (hno u)⟩

omit [Crypto] in
theorem unrepeated_of_whole_history (hempty : unselectedAncestors g desired.toFinset head = ∅) :
    Unrepeated g desired.toFinset head signer.1 := fun u hu => by
  rw [hempty] at hu
  exact absurd hu (Finset.notMem_empty u)

theorem collisionFree_of_whole_history
    (hempty : unselectedAncestors g desired.toFinset head = ∅)
    (hmoves : ∀ x ∈ desired.toFinset, ∀ c ∈ g.get x, hasMove c.atoms = false)
    (hsort : ∀ x ∈ desired.toFinset, ∀ c ∈ g.get x, ∀ deps ∈ c.deps.powerset,
      ∀ c' ∈ g.get (Change.computeId deps c.atoms c.intent signer.1),
        c'.payload = { c with deps := deps, author := signer.1 }.payload)
    (hold : ∀ r ∈ rewritten, ∀ c ∈ g.get r.id, c.payload = r.payload)
    (hnew : ∀ r ∈ rewritten, ∀ r' ∈ rewritten, r.id = r'.id → r.payload = r'.payload) :
    CollisionFree g desired.toFinset head signer.1 rewritten := by
  refine ⟨?_, hnew, fun c _ hc => ?_⟩
  · rintro c (hr | ⟨x, cx, hx, hatoms, hdeps, hintent, hauthor, hid⟩) c' hc'
    · exact hold c hr c' hc'
    · obtain ⟨cx', hxsel, hx', heq⟩ := hatoms.eq_of_not_hasMove fun y hy d hd => hmoves y hy d hd
      obtain rfl := Option.some_inj.mp (hx.symm.trans hx')
      rw [hid, heq, hintent] at hc'
      rw [hsort x hxsel cx hx c.deps (Finset.mem_powerset.mpr hdeps) c' hc', Change.payload,
        Change.payload, heq, hintent, hauthor]
  · rw [hempty] at hc
    exact absurd hc (Finset.notMem_empty _)

/-! ## The whole reorder -/

/-- **A reorder keeps the ancestors exactly when they are covered, and the history exactly when
moreover the check of AI authors decides alike**, provided that the unselected history does not
depend on the replaced changes and commutes with them. -/
theorem reorder_preserves_iff (hg : g.Indexed) (hac : g.Acyclic) (env : ApplyEnv)
    (hfull : env.sparse = none) {out : ReorderOutcome} (hok : reorder g desired signer = .ok out)
    (hchain : resolveLinearChain g desired.toFinset = .ok chain)
    (hhead : chain.getLast? = some head)
    (hcf : CollisionFree g desired.toFinset head signer.1 out.rewritten)
    (hun : Unrepeated g desired.toFinset head signer.1) :
    (AncestorsKept g desired.toFinset head out ↔ AncestorsCovered g desired.toFinset desired)
      ∧ (Independent g desired.toFinset head (replacedChanges g signer.1 chain desired) →
        (ReorderPreserves g env desired.toFinset head out
          ↔ AncestorsCovered g desired.toFinset desired
            ∧ AuthorsAgree g env head (replacedChanges g signer.1 chain desired) signer.1)) := by
  obtain ⟨working, h, hmap, last, hlast, hnew⟩ := isReordered_of_ok hg hok hchain
  have hR := h.rewriting hg hcf hun hhead
  have hkept := h.ancestorsKept_iff hg hhead rfl hR hmap hlast hnew
  refine ⟨hkept, fun hind => ?_⟩
  have hreplay : AncestorsCovered g desired.toFinset desired →
      ((∀ s, (g.addAll out.rewritten).materializeHeads env {out.newHead} = .ok s
          ↔ g.materializeHeads env {head} = .ok s)
        ↔ AuthorsAgree g env head (replacedChanges g signer.1 chain desired) signer.1) := by
    intro hcov
    rw [hnew]
    by_cases hmoves : ∀ y ∈ desired.toFinset, ∀ c, g.get y = some c → hasMove c.atoms = false
    · obtain ⟨base, hbase, -⟩ := hg.exists_topologicalSort
        (keptHistory g head (replacedChanges g signer.1 chain desired))
      simp only [h.materializeHeads_new hmoves hg hac hhead hR hcf hind hcov hlast hbase,
        h.materializeHeads_old hg hac hhead hind hbase]
      rw [run_guard_iff, AuthorsAgree, PlainReplayFails]
      simp only [hbase, Option.some_inj, forall_eq']
    · simp only [not_forall] at hmoves
      obtain ⟨y, hy, c, hc, hmove⟩ := hmoves
      obtain ⟨hold, hnew', hauthors⟩ := h.replay_of_hasMove hg hac hfull hhead hR hlast
        (List.mem_toFinset.mp hy) hc (by simpa using hmove)
      exact ⟨fun _ => hauthors,
        fun _ s => ⟨fun hs => absurd hs (hnew' s), fun hs => absurd hs (hold s)⟩⟩
  constructor
  · intro hp
    have hcov := hkept.mp hp.ancestors
    exact ⟨hcov, (hreplay hcov).mp hp.replay⟩
  · rintro ⟨hcov, hauthors⟩
    exact ⟨hkept.mpr hcov, (hreplay hcov).mpr hauthors⟩

omit [Crypto] in
/-- Exchanging a chain of two insertions preserves the history. -/
theorem reorder_preserves_two_changes :
    let a := Change.sample ∅ "a.rs" "a"
    let b := Change.sample {a.id} "b.rs" "b"
    let g := ofChanges [a, b]
    let signer : Author × SigningKey := (.human "" "" 0, 0)
    let env : ApplyEnv := ⟨fun _ => .ok [1, 2], fun _ _ => false, none⟩
    ∃ out, @reorder Crypto.sample g [b.id, a.id] signer = .ok out
      ∧ ReorderPreserves g env [b.id, a.id].toFinset b.id out := by
  intro a b g signer env
  let b' := @Change.rewrittenOrResigned Crypto.sample b ∅ b.atoms b.intent signer.1 signer.2
  let a' := @Change.rewrittenOrResigned Crypto.sample a {b'.id} a.atoms a.intent
    signer.1 signer.2
  let out : ReorderOutcome := ⟨[b', a'], FMap.insertAll ∅ [(b.id, b'.id), (a.id, a'.id)], a'.id⟩
  have hok : @reorder Crypto.sample g [b.id, a.id] signer = .ok out := by decide +kernel
  have hchain : resolveLinearChain g [b.id, a.id].toFinset = .ok [a.id, b.id] := by decide
  have hempty : unselectedAncestors g [b.id, a.id].toFinset b.id = ∅ := by decide
  have hg : g.Indexed := indexed_ofChanges (by decide)
  have hcf : @CollisionFree Crypto.sample g [b.id, a.id].toFinset b.id signer.1 out.rewritten :=
    @collisionFree_of_whole_history g signer _ out.rewritten _ Crypto.sample hempty
      (by decide)
      (by decide) (by decide) (by decide)
  have hiff := @reorder_preserves_iff g signer [b.id, a.id] [a.id, b.id] b.id Crypto.sample hg
    (acyclic_of_lt (by decide)) env rfl out hok hchain rfl hcf
    (unrepeated_of_whole_history hempty)
  obtain ⟨hcov, hind⟩ := ancestorsCovered_of_whole_history hempty (by decide)
  exact ⟨out, hok, (hiff.2 (hind _)).mpr ⟨hcov, .inr (by decide)⟩⟩
omit [Crypto] in
/-- `b` deletes what `x` inserted and depends on it through `a`. Moved before `a`, it depends on
nothing, and the replay meets it before `x`. -/
theorem reorder_drops_base :
    let x := Change.sample ∅ "f.rs" "z"
    let a := Change.sample {x.id} "g.rs" "a"
    let b := @Change.newWithMetadata Crypto.sample {a.id} [.delete ["file", "f.rs"] 1] "b"
      (.human "" "" 0) .human false 0
    let g := ofChanges [x, a, b]
    let signer : Author × SigningKey := (.human "" "" 0, 0)
    let env : ApplyEnv := ⟨fun _ => .ok [1, 2], fun _ _ => false, none⟩
    g.Indexed ∧ g.Acyclic ∧ resolveLinearChain g {b.id, a.id} = .ok [a.id, b.id]
      ∧ ∃ out, @reorder Crypto.sample g [b.id, a.id] signer = .ok out
        ∧ ¬ AncestorsKept g {b.id, a.id} b.id out
        ∧ (g.materializeHeads env {b.id}).toOption.isSome
        ∧ ((g.addAll out.rewritten).materializeHeads env {out.newHead}).toOption = none
        ∧ ¬ ReorderPreserves g env {b.id, a.id} b.id out := by
  intro x a b g signer env
  have hg : g.Indexed := indexed_ofChanges (by decide)
  have hac : g.Acyclic := acyclic_of_lt (by decide)
  let b' := @Change.rewrittenOrResigned Crypto.sample b ∅ b.atoms b.intent signer.1 signer.2
  let a' := @Change.rewrittenOrResigned Crypto.sample a {x.id, b'.id} a.atoms a.intent
    signer.1 signer.2
  let out : ReorderOutcome := ⟨[b', a'], FMap.insertAll ∅ [(b.id, b'.id), (a.id, a'.id)], a'.id⟩
  have hok : @reorder Crypto.sample g [b.id, a.id] signer = .ok out := by decide +kernel
  have hold : (g.materializeHeads env {b.id}).toOption.isSome := by decide
  have hnew : ((g.addAll out.rewritten).materializeHeads env {out.newHead}).toOption = none := by
    decide
  have hlost : ¬ (g.addAll out.rewritten).ProperAncestor b'.id x.id := by decide
  have hnot : ¬ AncestorsKept g {b.id, a.id} b.id out := fun h =>
    hlost (h.each b.id (by decide) b'.id (by decide) x.id (by decide)
      (by decide))
  exact ⟨hg, hac, by decide, out, hok, hnot, hold, hnew, fun h => hnot h.ancestors⟩
end Mutator

end ArcVcs
