import ArcVcs.Mutator
import ArcVcs.Replay

/-!
# Squashing a spine

`squash_into` accepts a spine in which every change but the last has exactly one child. When
every change of the spine descends from the target and has no further dependency outside the
target's history, and the author check decides alike before and after, the squashed change
replaces the spine in the history and in the replay. When one of these fails, so does that.
-/

namespace ArcVcs

namespace Mutator

open ChangeGraph

variable {g : ChangeGraph} {env : ApplyEnv}

/-! ## What a successful squash returns -/

theorem spineAtoms_eq_ok {ids : List Blake3Hash} {atoms : List Atom}
    (h : spineAtoms g ids = .ok atoms) :
    (∀ x ∈ ids, ∃ c, g.get x = some c) ∧ atoms = (ids.filterMap g.get).flatMap Change.atoms := by
  induction ids generalizing atoms with
  | nil =>
      obtain rfl : [] = atoms := by simpa [spineAtoms] using h
      simp
  | cons id ids ih =>
      cases hid : g.get id with
      | none => simp [spineAtoms, hid] at h
      | some change =>
          cases hrest : spineAtoms g ids with
          | error e => simp [spineAtoms, hid, hrest] at h
          | ok rest =>
              obtain ⟨hpresent, rfl⟩ := ih hrest
              obtain rfl : change.atoms ++ (ids.filterMap g.get).flatMap Change.atoms = atoms := by
                simpa [spineAtoms, hid, hrest] using h
              refine ⟨?_, by simp [hid]⟩
              intro x hx
              rcases List.mem_cons.mp hx with rfl | hx
              · exact ⟨change, hid⟩
              · exact hpresent x hx

theorem collectLinearSpine_eq_ok {heads : Finset Blake3Hash} {target : Blake3Hash}
    {spine : List Blake3Hash} (h : collectLinearSpine g heads target = .ok spine) :
    ∃ topo, g.topologicalSort heads = some topo ∧ target ∈ topo ∧ spine = spineOf topo target
      ∧ (spine.length < 2 ∨ isLinearSpine g spine = true) := by
  unfold collectLinearSpine at h
  split_ifs at h
  cases htopo : g.topologicalSort heads with
  | none => simp [htopo] at h
  | some topo =>
      simp only [htopo] at h
      split_ifs at h with hmem hlen hlin
      · obtain rfl : spineOf topo target = spine := by simpa using h
        exact ⟨topo, rfl, hmem, rfl, .inl hlen⟩
      · obtain rfl : spineOf topo target = spine := by simpa using h
        exact ⟨topo, rfl, hmem, rfl, .inr hlin⟩

theorem squashInto_eq_ok [Crypto] {heads : Finset Blake3Hash} {targetId : Blake3Hash}
    {signer : Author × SigningKey} {out : SquashOutcome}
    (h : squashInto g heads targetId signer = .ok out) :
    ∃ target spine atoms, g.get targetId = some target
      ∧ collectLinearSpine g heads targetId = .ok spine ∧ spineAtoms g spine = .ok atoms
      ∧ out.squashed = Change.rewrittenOrResigned target target.deps atoms
          (squashIntent spine.length target.intent) signer.1 signer.2 := by
  unfold squashInto at h
  cases htarget : g.get targetId with
  | none => simp [htarget] at h
  | some target =>
      cases hspine : collectLinearSpine g heads targetId with
      | error e => simp [htarget, hspine] at h
      | ok spine =>
          cases hatoms : spineAtoms g spine with
          | error e => simp [htarget, hspine, hatoms] at h
          | ok atoms =>
              simp only [htarget, hspine, hatoms, Except.ok.injEq] at h
              exact ⟨target, spine, atoms, rfl, rfl, hatoms, h ▸ rfl⟩

/-! ## The shape of a spine -/

/-- A suffix of a topological order that starts at the target and in which no change has two
children. -/
structure IsSpine (g : ChangeGraph) (heads : Finset Blake3Hash) (target : Blake3Hash)
    (spine : List Blake3Hash) : Prop where
  suffix : ∃ pre, g.TopologicalOrder heads (pre ++ spine)
  head : ∃ rest, spine = target :: rest
  one_child : ∀ a ∈ spine, ∀ b ∈ spine, ∀ c ∈ spine, a ∈ g.deps b → a ∈ g.deps c → b = c

theorem mem_childrenInSpine (hg : g.Indexed) {spine : List Blake3Hash} {a c : Blake3Hash} :
    c ∈ childrenInSpine g spine a ↔ a ∈ g.deps c ∧ c ∈ spine := by
  simp [childrenInSpine, childIds, hg.mem_children]

theorem one_child_of_isLinearSpine (hg : g.Indexed) {spine : List Blake3Hash}
    (h : isLinearSpine g spine = true) {a b c : Blake3Hash} (ha : a ∈ spine) (hb : b ∈ spine)
    (hc : c ∈ spine) (hab : a ∈ g.deps b) (hac : a ∈ g.deps c) : b = c := by
  have hlen : (childrenInSpine g spine a).length ≤ 1 := by
    have := of_decide_eq_true (List.all_eq_true.mp h a ha)
    split_ifs at this <;> omega
  have hb' := (mem_childrenInSpine hg).mpr ⟨hab, hb⟩
  have hc' := (mem_childrenInSpine hg).mpr ⟨hac, hc⟩
  match hch : childrenInSpine g spine a with
  | [] => simp [hch] at hb'
  | [d] =>
      rw [hch, List.mem_singleton] at hb' hc'
      rw [hb', hc']
  | _ :: _ :: _ => simp [hch] at hlen

theorem isSpine_of_collect (hg : g.Indexed) (hac : g.Acyclic) {heads : Finset Blake3Hash}
    {target : Blake3Hash} {spine : List Blake3Hash}
    (h : collectLinearSpine g heads target = .ok spine) : IsSpine g heads target spine := by
  obtain ⟨topo, htopo, hmem, rfl, hlin⟩ := collectLinearSpine_eq_ok h
  obtain ⟨topo', htopo', horder⟩ := hg.topologicalSort_spec hac heads
  obtain rfl : topo = topo' := Option.some_inj.mp (htopo.symm.trans htopo')
  have hlt := List.idxOf_lt_length_of_mem hmem
  have hcons : spineOf topo target = target :: topo.drop (topo.idxOf target + 1) := by
    rw [spineOf, List.drop_eq_getElem_cons hlt, List.getElem_idxOf]
  refine ⟨⟨topo.take (topo.idxOf target), ?_⟩, ⟨_, hcons⟩, ?_⟩
  · rwa [spineOf, List.take_append_drop]
  · rcases hlin with hshort | hlin
    · have hnil : topo.drop (topo.idxOf target + 1) = [] := by
        rw [hcons, List.length_cons] at hshort
        exact List.eq_nil_of_length_eq_zero (by omega)
      rw [hcons, hnil]
      simp only [List.mem_singleton]
      rintro a rfl b rfl c rfl - -
      rfl
    · exact fun a ha b hb c hc => one_child_of_isLinearSpine hg hlin ha hb hc

namespace IsSpine

variable {heads : Finset Blake3Hash} {target : Blake3Hash} {spine : List Blake3Hash}

theorem nodup (h : IsSpine g heads target spine) : spine.Nodup :=
  (List.nodup_append.mp h.suffix.choose_spec.nodup).2.1

theorem target_mem (h : IsSpine g heads target spine) : target ∈ spine := by
  obtain ⟨rest, rfl⟩ := h.head
  exact List.mem_cons_self

theorem mem_closure (h : IsSpine g heads target spine) {x : Blake3Hash} (hx : x ∈ spine) :
    x ∈ g.ancestorsInclusive heads :=
  (h.suffix.choose_spec.mem_iff x).mp (List.mem_append_right _ hx)

theorem respects (h : IsSpine g heads target spine) (hac : g.Acyclic) :
    LinearExtension.Respects (fun a x => g.ProperAncestor x a) spine :=
  (h.suffix.choose_spec.respects_properAncestor hac).sublist (List.sublist_append_right _ _)

theorem notMem_of_properAncestor (h : IsSpine g heads target spine) (hac : g.Acyclic)
    {a : Blake3Hash} (ha : g.ProperAncestor target a) : a ∉ spine := by
  obtain ⟨rest, rfl⟩ := h.head
  intro hmem
  rcases List.mem_cons.mp hmem with rfl | hrest
  · exact hac a ha
  · exact (List.pairwise_cons.mp (h.respects hac)).1 a hrest ha

theorem mem_of_descends (h : IsSpine g heads target spine) (hac : g.Acyclic) {x : Blake3Hash}
    (hx : x ∈ g.ancestorsInclusive heads) (hxt : g.ProperAncestor x target) : x ∈ spine := by
  obtain ⟨pre, htopo⟩ := h.suffix
  rcases List.mem_append.mp ((htopo.mem_iff x).mpr hx) with hpre | hspine
  · have hresp := htopo.respects_properAncestor hac
    exact absurd hxt ((List.pairwise_append.mp hresp).2.2 x hpre target h.target_mem)
  · exact hspine

theorem isChain (h : IsSpine g heads target spine) (hac : g.Acyclic)
    (hdesc : ∀ x ∈ spine, x ≠ target → g.ProperAncestor x target) :
    spine.IsChain fun a b => a ∈ g.deps b := by
  -- every later change has a parent in the spine
  have hparent : ∀ x ∈ spine, x ≠ target → ∃ p ∈ spine, p ∈ g.deps x := by
    intro x hx hxt
    obtain ⟨p, hp, hpt⟩ := Relation.TransGen.head'_iff.mp (hdesc x hx hxt)
    refine ⟨p, ?_, hp⟩
    rcases Relation.reflTransGen_iff_eq_or_transGen.mp hpt with rfl | hpt
    · exact h.target_mem
    · exact h.mem_of_descends hac (ancestorsInclusive_of_mem_deps (h.mem_closure hx) hp) hpt
  have hresp := List.pairwise_iff_getElem.mp (h.respects hac)
  have hne : ∀ i (hi : i + 1 < spine.length), spine[i + 1] ≠ target := by
    obtain ⟨rest, hrest⟩ := h.head
    intro i hi heq
    have hpos : 0 < spine.length := by omega
    have hzero : spine[0] = target := by simp [hrest]
    have := (h.nodup.getElem_inj_iff).mp (heq.trans hzero.symm)
    omega
  refine List.isChain_iff_getElem.mpr fun i hi => ?_
  -- the parent of the next change cannot be an earlier one, whose only child is its successor
  induction i using Nat.strong_induction_on with
  | _ i ih =>
      obtain ⟨p, hp, hpx⟩ := hparent _ (List.getElem_mem hi) (hne i hi)
      obtain ⟨j, hj, rfl⟩ := List.getElem_of_mem hp
      have hji : j < i + 1 := by
        rcases Nat.lt_trichotomy j (i + 1) with hlt | rfl | hgt
        · exact hlt
        · exact absurd (.single hpx) (hac _)
        · exact absurd (.single hpx) (hresp _ _ hi hj hgt)
      rcases Nat.lt_succ_iff_lt_or_eq.mp hji with hlt | rfl
      · have hnext := ih j hlt (by omega)
        have heq :=
          h.one_child _ hp _ (List.getElem_mem (by omega)) _ (List.getElem_mem hi) hnext hpx
        have := (h.nodup.getElem_inj_iff).mp heq
        omega
      · exact hpx

theorem exists_getLast (h : IsSpine g heads target spine) :
    ∃ last, spine.getLast? = some last ∧ last ∈ spine := by
  obtain ⟨rest, rfl⟩ := h.head
  exact ⟨_, List.getLast?_eq_some_getLast (List.cons_ne_nil _ _), List.getLast_mem _⟩

theorem descends_of_isChain (h : IsSpine g heads target spine)
    (hchain : spine.IsChain fun a b => a ∈ g.deps b) {x : Blake3Hash} (hx : x ∈ spine)
    (hxt : x ≠ target) : g.ProperAncestor x target := by
  obtain ⟨rest, rfl⟩ := h.head
  exact properAncestor_of_isChain hchain ((List.mem_cons.mp hx).resolve_left hxt)

theorem reaches_target (h : IsSpine g heads target spine)
    (hchain : spine.IsChain fun a b => a ∈ g.deps b) {x : Blake3Hash} (hx : x ∈ spine) :
    g.Reaches x target := by
  by_cases hxt : x = target
  · exact hxt ▸ .refl
  · exact (h.descends_of_isChain hchain hx hxt).to_reflTransGen

theorem mem_closure_last_iff (h : IsSpine g heads target spine)
    (hchain : spine.IsChain fun a b => a ∈ g.deps b)
    (hext : ∀ x ∈ spine, ∀ d ∈ g.deps x, d ∉ spine → g.ProperAncestor target d)
    {last : Blake3Hash} (hlast : spine.getLast? = some last) {a : Blake3Hash} :
    a ∈ g.ancestorsInclusive {last} ↔ a ∈ spine ∨ g.ProperAncestor target a := by
  have hlmem : last ∈ spine := List.mem_of_getLast? hlast
  constructor
  · intro ha
    obtain ⟨r, hr, hra⟩ := mem_ancestorsInclusive.mp ha
    obtain rfl := Finset.mem_singleton.mp hr
    clear ha
    induction hra with
    | refl => exact .inl hlmem
    | @tail b c _ hstep ih =>
        rcases ih with hb | hb
        · by_cases hc : c ∈ spine
          · exact .inl hc
          · exact .inr (hext b hb c hstep hc)
        · exact .inr (hb.tail hstep)
  · intro ha
    have hreach : g.Reaches last a := by
      rcases ha with ha | ha
      · exact reaches_of_isChain hchain ha hlast
      · exact (h.reaches_target hchain hlmem).trans ha.to_reflTransGen
    exact mem_ancestorsInclusive.mpr ⟨last, Finset.mem_singleton_self _, hreach⟩

end IsSpine

/-! ## What a squash preserves -/

/-- The spine is a dependency chain, the squashed change takes its place in the history of the
old head, and replaying from the squashed change gives what replaying from the old head gives. -/
structure SquashPreserves (g : ChangeGraph) (env : ApplyEnv) (spine : List Blake3Hash)
    (squashed : Change) : Prop where
  chain : spine.IsChain fun a b => a ∈ g.deps b
  closure : ∀ head, spine.getLast? = some head →
    (g.addChange squashed).ancestorsInclusive {squashed.id}
      = insert squashed.id (g.ancestorsInclusive {head} \ spine.toFinset)
  replay : ∀ head, spine.getLast? = some head → ∀ s,
    (g.addChange squashed).materializeHeads env {squashed.id} = .ok s
      ↔ g.materializeHeads env {head} = .ok s

/-- When a squash from `target` on preserves the history. -/
structure SquashCondition (g : ChangeGraph) (env : ApplyEnv) (target : Blake3Hash)
    (spine : List Blake3Hash) (signer : Author) : Prop where
  descends : ∀ x ∈ spine, x ≠ target → g.ProperAncestor x target
  external : ∀ x ∈ spine, ∀ d ∈ g.deps x, d ∉ spine → g.ProperAncestor target d
  authors : PlainReplayFails g env (g.deps target) spine ∨
    ((changesOf g spine).any (Change.violates env)
      = (signer.isAi && (changesOf g spine).any (Change.isRestricted env)))

theorem IsSpine.topologicalSort_last {heads : Finset Blake3Hash} {target : Blake3Hash}
    {spine : List Blake3Hash} (h : IsSpine g heads target spine) (hg : g.Indexed)
    (hac : g.Acyclic) (hchain : spine.IsChain fun a b => a ∈ g.deps b)
    (hext : ∀ x ∈ spine, ∀ d ∈ g.deps x, d ∉ spine → g.ProperAncestor target d)
    {last : Blake3Hash} (hlast : spine.getLast? = some last) {base : List Blake3Hash}
    (hbase : g.topologicalSort (g.deps target) = some base) :
    g.topologicalSort {last} = some (base ++ spine) := by
  obtain ⟨order, hrun, horder⟩ := hg.topologicalSort_spec hac {last}
  have hmem : ∀ {a}, a ∈ g.ancestorsInclusive {last} ↔ a ∈ spine ∨ g.ProperAncestor target a :=
    h.mem_closure_last_iff hchain hext hlast
  have hfilter : g.topologicalSort (g.deps target)
      = some (order.filter fun x => decide (x ∈ g.ancestorsInclusive (g.deps target))) :=
    topologicalSort_filter hg hg
      (fun a ha => hmem.mpr (.inr (mem_ancestorsInclusive_deps.mp ha))) (fun _ _ => rfl) hrun
  rw [hbase, Option.some_inj] at hfilter
  have hresp := horder.respects_properAncestor hac
  have hsplit := hresp.eq_filter_append_filter
    (fun x => x ∈ g.ancestorsInclusive (g.deps target)) fun a ha b hb hpa hpb => by
      rw [mem_ancestorsInclusive_deps] at hpa hpb
      have hbs := (hmem.mp ((horder.mem_iff b).mp hb)).resolve_right hpb
      exact hpa.trans_right (h.reaches_target hchain hbs)
  have hrest : order.filter (fun x => decide (x ∉ g.ancestorsInclusive (g.deps target)))
      = spine := by
    refine horder.filter_eq_of_isChain hac _ h.nodup hchain fun x => ?_
    rw [hmem, decide_eq_true_iff, mem_ancestorsInclusive_deps]
    constructor
    · exact fun hx => ⟨.inl hx, fun hn => h.notMem_of_properAncestor hac hn hx⟩
    · rintro ⟨hx, hn⟩
      exact hx.resolve_right hn
  rw [hrun, hsplit, hrest, ← hfilter]

section Preserves

variable {heads : Finset Blake3Hash} {target : Blake3Hash} {spine : List Blake3Hash}
  {squashed : Change} {base : List Blake3Hash}

theorem IsSpine.materializeHeads_last (h : IsSpine g heads target spine) (hg : g.Indexed)
    (hac : g.Acyclic) (hpresent : ∀ x ∈ spine, ∃ c, g.get x = some c)
    (hchain : spine.IsChain fun a b => a ∈ g.deps b)
    (hext : ∀ x ∈ spine, ∀ d ∈ g.deps x, d ∉ spine → g.ProperAncestor target d)
    {last : Blake3Hash} (hlast : spine.getLast? = some last)
    (hbase : g.topologicalSort (g.deps target) = some base) {s : MaterializedState} :
    g.materializeHeads env {last} = .ok s ↔
      (g.replayAction env base * if (changesOf g spine).any (Change.violates env) then 0
        else plainAction g env spine).run ∅ = some s := by
  rw [materializeHeads_eq_ok_iff (h.topologicalSort_last hg hac hchain hext hlast hbase),
    replayAction_append, replayAction_eq_changesOf hpresent, prod_effect_eq]
  rfl

theorem effect_squashed {signer : Author} (hauthor : squashed.author = signer)
    (hatoms : squashed.atoms = (changesOf g spine).flatMap Change.atoms) :
    squashed.effect env
      = if signer.isAi && (changesOf g spine).any (Change.isRestricted env) then 0
        else plainAction g env spine := by
  have hres : squashed.isRestricted env = (changesOf g spine).any (Change.isRestricted env) := by
    rw [Change.isRestricted, hatoms, List.any_flatMap]
    rfl
  rw [Change.effect_eq, Change.violates, hauthor, hres, Change.plainEffect, hatoms,
    plainEffect_flatMap, plainAction]

/-- The squashed change takes the place of the spine iff the spine has no dependency outside
the target's history. -/
theorem IsSpine.closure_eq_iff (h : IsSpine g heads target spine) (hac : g.Acyclic)
    (hchain : spine.IsChain fun a b => a ∈ g.deps b) {last : Blake3Hash}
    (hlast : spine.getLast? = some last) (hfresh : squashed.id ∉ g.ancestorsInclusive {last})
    (hdeps : squashed.deps = g.deps target) :
    (g.addChange squashed).ancestorsInclusive {squashed.id}
        = insert squashed.id (g.ancestorsInclusive {last} \ spine.toFinset)
      ↔ ∀ x ∈ spine, ∀ d ∈ g.deps x, d ∉ spine → g.ProperAncestor target d := by
  have hreach : ∀ {x}, x ∈ spine → g.Reaches last x :=
    fun hx => reaches_of_isChain hchain hx hlast
  have hlow : ∀ {a}, g.ProperAncestor target a → a ∈ g.ancestorsInclusive {last} := fun ha =>
    mem_ancestorsInclusive.mpr ⟨last, Finset.mem_singleton_self _,
      (hreach h.target_mem).trans ha.to_reflTransGen⟩
  have hnew : squashed.id ∉ g.ancestorsInclusive squashed.deps := fun hmem =>
    hfresh (hlow (mem_ancestorsInclusive_deps.mp (hdeps ▸ hmem)))
  rw [ancestorsInclusive_addChange_self hnew, hdeps]
  constructor
  · intro heq x hx d hd hds
    have hdlast : d ∈ g.ancestorsInclusive {last} :=
      mem_ancestorsInclusive.mpr ⟨last, Finset.mem_singleton_self _, (hreach hx).tail hd⟩
    have hmem : d ∈ insert squashed.id (g.ancestorsInclusive {last} \ spine.toFinset) :=
      Finset.mem_insert_of_mem (Finset.mem_sdiff.mpr ⟨hdlast, by simpa using hds⟩)
    rw [← heq, Finset.mem_insert] at hmem
    rcases hmem with rfl | hmem
    · exact absurd hdlast hfresh
    · exact mem_ancestorsInclusive_deps.mp hmem
  · intro hext
    refine congrArg (insert squashed.id) (Finset.ext fun a => ?_)
    rw [Finset.mem_sdiff, h.mem_closure_last_iff hchain hext hlast, List.mem_toFinset,
      mem_ancestorsInclusive_deps]
    constructor
    · exact fun ha => ⟨.inr ha, h.notMem_of_properAncestor hac ha⟩
    · rintro ⟨ha | ha, hn⟩
      · exact absurd ha hn
      · exact ha

/-- **A squash preserves the history exactly under its condition.** -/
theorem squashInto_preserves_iff [Crypto] (hg : g.Indexed) (hac : g.Acyclic)
    (env : ApplyEnv) {signer : Author × SigningKey} {out : SquashOutcome}
    (hok : squashInto g heads target signer = .ok out) {topo : List Blake3Hash}
    (htopo : g.topologicalSort heads = some topo)
    (hfresh : ∀ head, (spineOf topo target).getLast? = some head →
      out.squashed.id ∉ g.ancestorsInclusive {head})
    (hsame : ∀ c, g.get out.squashed.id = some c → c.deps = out.squashed.deps) :
    SquashPreserves g env (spineOf topo target) out.squashed
      ↔ SquashCondition g env target (spineOf topo target) signer.1 := by
  obtain ⟨tchange, spine, atoms, hget, hcollect, hatoms, hsq⟩ := squashInto_eq_ok hok
  obtain ⟨topo', htopo', -, hspine, -⟩ := collectLinearSpine_eq_ok hcollect
  obtain rfl : topo = topo' := Option.some_inj.mp (htopo.symm.trans htopo')
  rw [← hspine] at hfresh ⊢
  obtain ⟨hpresent, rfl⟩ := spineAtoms_eq_ok hatoms
  have hs := isSpine_of_collect hg hac hcollect
  obtain ⟨last, hlast, hlmem⟩ := hs.exists_getLast
  have hfresh' := hfresh last hlast
  have hdeps : out.squashed.deps = g.deps target := by
    rw [hsq, Change.rewrittenOrResigned_deps, hg.deps_eq hget]
  have heffect := @effect_squashed g env spine out.squashed signer.1
    (by rw [hsq, Change.rewrittenOrResigned_author])
    (by rw [hsq, Change.rewrittenOrResigned_atoms]; rfl)
  obtain ⟨base, hbase, -⟩ := hg.exists_topologicalSort (g.deps target)
  have hclosure := fun hchain => hs.closure_eq_iff hac hchain hlast hfresh' hdeps
  -- both replays run the target's history and then the spine, each behind its own guard
  have hreplay : ∀ (hchain : spine.IsChain fun a b => a ∈ g.deps b)
      (hext : ∀ x ∈ spine, ∀ d ∈ g.deps x, d ∉ spine → g.ProperAncestor target d),
      (∀ s, (g.addChange out.squashed).materializeHeads env {out.squashed.id} = .ok s
          ↔ g.materializeHeads env {last} = .ok s)
        ↔ (g.replayAction env base * plainAction g env spine).run ∅ = none
          ∨ (changesOf g spine).any (Change.violates env)
            = (signer.1.isAi && (changesOf g spine).any (Change.isRestricted env)) := by
    intro hchain hext
    have hnew : out.squashed.id ∉ g.ancestorsInclusive out.squashed.deps := by
      have hclosed := (hs.closure_eq_iff hac hchain hlast hfresh' hdeps).mpr hext
      intro hmem
      rw [hdeps, mem_ancestorsInclusive_deps] at hmem
      exact hfresh' ((hs.mem_closure_last_iff hchain hext hlast).mpr (.inr hmem))
    rw [← run_guard_iff]
    refine forall_congr' fun s => iff_congr ?_ ?_
    · rw [materializeHeads_addChange hg hac hsame hnew (hdeps ▸ hbase), heffect]
    · exact hs.materializeHeads_last hg hac hpresent hchain hext hlast hbase
  constructor
  · intro h
    have hext := (hclosure h.chain).mp (h.closure last hlast)
    refine ⟨fun x hx hxt => hs.descends_of_isChain h.chain hx hxt, hext, ?_⟩
    rcases (hreplay h.chain hext).mp (h.replay last hlast) with hfail | hguard
    · refine .inl fun base' hbase' => ?_
      rwa [← Option.some_inj.mp (hbase.symm.trans hbase')]
    · exact .inr hguard
  · intro h
    have hchain := hs.isChain hac h.descends
    have hlast' : ∀ head, spine.getLast? = some head → head = last :=
      fun head hhead => Option.some_inj.mp (hhead.symm.trans hlast)
    refine ⟨hchain, fun head hhead => ?_, fun head hhead => ?_⟩
    · rw [hlast' head hhead]
      exact (hclosure hchain).mpr h.external
    · rw [hlast' head hhead]
      exact (hreplay hchain h.external).mpr (h.authors.imp (fun hfail => hfail base hbase) id)

end Preserves

/-- The spine starts at `a`, whose child `b` also depends on the older `e`: the squashed change
drops `e` from the history. -/
theorem squashInto_drops_external_dependency :
    let e := Change.sample ∅ "e.rs" "a"
    let a := Change.sample ∅ "a.rs" "b"
    let b := Change.sample {a.id, e.id} "b.rs" "c"
    let g := ofChanges [e, a, b]
    let signer : Author × SigningKey := (.human "" "" 0, 0)
    g.Indexed ∧ g.Acyclic ∧ g.topologicalSort {b.id} = some [e.id, a.id, b.id]
      ∧ ∃ out, @squashInto Crypto.sample g {b.id} a.id signer = .ok out
        ∧ e.id ∉ (g.addChange out.squashed).ancestorsInclusive {out.squashed.id}
        ∧ ∀ env, ¬ SquashPreserves g env (spineOf [e.id, a.id, b.id] a.id) out.squashed := by
  intro e a b g signer
  have hg : g.Indexed := indexed_ofChanges (by decide)
  have hac : g.Acyclic := acyclic_of_lt (by decide)
  let sq := @Change.rewrittenOrResigned Crypto.sample a ∅ (a.atoms ++ b.atoms)
    (squashIntent 2 "b") signer.1 signer.2
  let out : SquashOutcome := ⟨sq, FMap.insertAll ∅ [(a.id, sq.id), (b.id, sq.id)]⟩
  have hlast : (spineOf [e.id, a.id, b.id] a.id).getLast? = some b.id := by decide
  have hlost : ¬ (g.addChange out.squashed).ancestorsInclusive {out.squashed.id}
      = insert out.squashed.id
        (g.ancestorsInclusive {b.id} \ (spineOf [e.id, a.id, b.id] a.id).toFinset) := by
    decide
  refine ⟨hg, hac, by decide +kernel, out, by decide +kernel, by decide +kernel, fun env h => ?_⟩
  have hclosure := h.closure b.id hlast
  contradiction

/-- Squashing a chain of two changes into its root meets the condition. -/
theorem squashInto_preserves_two_changes :
    let a := Change.sample ∅ "a.rs" "b"
    let b := Change.sample {a.id} "b.rs" "c"
    let g := ofChanges [a, b]
    let signer : Author × SigningKey := (.human "" "" 0, 0)
    let env : ApplyEnv := ⟨fun _ => .ok [1, 2], fun _ _ => false, none⟩
    ∃ out, @squashInto Crypto.sample g {b.id} a.id signer = .ok out
      ∧ SquashPreserves g env [a.id, b.id] out.squashed := by
  intro a b g signer env
  let sq := @Change.rewrittenOrResigned Crypto.sample a ∅ (a.atoms ++ b.atoms)
    (squashIntent 2 "b") signer.1 signer.2
  let out : SquashOutcome := ⟨sq, FMap.insertAll ∅ [(a.id, sq.id), (b.id, sq.id)]⟩
  have hok : @squashInto Crypto.sample g {b.id} a.id signer = .ok out := by decide +kernel
  have htopo : g.topologicalSort {b.id} = some [a.id, b.id] := by decide
  have hspine : spineOf [a.id, b.id] a.id = [a.id, b.id] := by decide
  refine ⟨out, hok, ?_⟩
  have hiff := @squashInto_preserves_iff g {b.id} a.id Crypto.sample
    (indexed_ofChanges (by decide)) (acyclic_of_lt (by decide)) env signer out hok
    _ htopo
    (fun head hhead => by
      obtain rfl : b.id = head := by simpa [hspine] using hhead
      decide)
    (fun c hc => by
      have hnone : g.get out.squashed.id = none := by decide
      simp [hnone] at hc)
  rw [hspine] at hiff
  exact hiff.mpr ⟨by decide, by decide, .inr (by decide)⟩

end Mutator

end ArcVcs
