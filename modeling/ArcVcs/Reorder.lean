import ArcVcs.Rewriting
import ArcVcs.Replay

/-!
# What a reorder preserves

A reorder keeps the ancestors of every rewritten change exactly when they are covered by
changes placed no later. If moreover no unselected ancestor depends on a replaced change and
concurrent ones commute, the new head replays as the old one exactly when the check of AI
authors decides alike.
-/

namespace ArcVcs

namespace Mutator

open ChangeGraph

variable {g : ChangeGraph} [Crypto]

/-! ## Statement -/

/-- Every unselected ancestor stays an ancestor of the head and of the rewritten changes that
had it. -/
structure AncestorsKept (g : ChangeGraph) (selected : Finset Blake3Hash) (head : Blake3Hash)
    (out : ReorderOutcome) : Prop where
  head : ∀ u ∉ selected, g.ProperAncestor head u →
    (g.addAll out.rewritten).ProperAncestor out.newHead u
  each : ∀ x ∈ selected, ∀ x', out.rewriteMap.lookup x = some x' →
    ∀ u ∉ selected, g.ProperAncestor x u → (g.addAll out.rewritten).ProperAncestor x' u

/-- The ancestors are kept, and the new head replays as the old one. -/
structure ReorderPreserves (g : ChangeGraph) (env : ApplyEnv) (selected : Finset Blake3Hash)
    (head : Blake3Hash) (out : ReorderOutcome) : Prop where
  ancestors : AncestorsKept g selected head out
  replay : ∀ s, (g.addAll out.rewritten).materializeHeads env {out.newHead} = .ok s
    ↔ g.materializeHeads env {head} = .ok s

/-- Each unselected ancestor of a change is reached from an external dependency of a change
placed no later. -/
def AncestorsCovered (g : ChangeGraph) (selected : Finset Blake3Hash)
    (desired : List Blake3Hash) : Prop :=
  ∀ k x, desired[k]? = some x → ∀ u ∉ selected, g.ProperAncestor x u →
    Covers g selected desired k u

/-- The changes before the first one that is moved or gets another id when it is signed again. -/
def keptPrefix (g : ChangeGraph) (signer : Author) : List Blake3Hash → List Blake3Hash →
    List Blake3Hash
  | x :: chain, y :: desired =>
      if x = y ∧ (g.get x).any fun c => Change.computeId c.deps c.atoms c.intent signer = x then
        x :: keptPrefix g signer chain desired
      else []
  | _, _ => []

def keptCount (g : ChangeGraph) (signer : Author) (chain desired : List Blake3Hash) : ℕ :=
  (keptPrefix g signer chain desired).length

def replacedChanges (g : ChangeGraph) (signer : Author) (chain desired : List Blake3Hash) :
    List Blake3Hash :=
  chain.drop (keptCount g signer chain desired)

/-- No unselected ancestor depends on a replaced change, and those that are not its ancestors
commute with it. -/
structure Independent (g : ChangeGraph) (selected : Finset Blake3Hash) (head : Blake3Hash)
    (replaced : List Blake3Hash) : Prop where
  no_dependent : ∀ u ∈ unselectedAncestors g selected head, ∀ d ∈ g.deps u, d ∉ replaced
  commutes : ∀ u ∈ unselectedAncestors g selected head, ∀ x ∈ replaced,
    ¬ g.ProperAncestor x u → ∀ cu cx, g.get u = some cu → g.get x = some cx →
      commutes cu cx = true

def keptHistory (g : ChangeGraph) (head : Blake3Hash) (replaced : List Blake3Hash) :
    Finset Blake3Hash :=
  g.ancestorsInclusive {head} \ replaced.toFinset

/-- The check of AI authors decides alike for the replaced changes and for the signer, or the
replay fails without it. -/
def AuthorsAgree (g : ChangeGraph) (env : ApplyEnv) (head : Blake3Hash)
    (replaced : List Blake3Hash) (signer : Author) : Prop :=
  PlainReplayFails g env (keptHistory g head replaced) replaced
    ∨ (changesOf g replaced).any (Change.violates env)
      = (signer.isAi && (changesOf g replaced).any (Change.isRestricted env))

/-- No unselected ancestor by the signer repeats the intent and the atoms that a selected change
may get. -/
def Unrepeated (g : ChangeGraph) (selected : Finset Blake3Hash) (head : Blake3Hash)
    (signer : Author) : Prop :=
  ∀ u ∈ unselectedAncestors g selected head, ∀ cu, g.get u = some cu → cu.author = signer →
    ∀ x cx atoms, g.get x = some cx → SortedAtoms g selected x atoms → cu.intent = cx.intent →
      Change.canonicalizeAtomsForId cu.atoms ≠ Change.canonicalizeAtomsForId atoms

/-- A change whose id the reorder computes, in the sort or in the rewriting. -/
def IsHashed (g : ChangeGraph) (selected : Finset Blake3Hash) (signer : Author)
    (rewritten : List Change) (c : Change) : Prop :=
  c ∈ rewritten ∨ ∃ x cx, g.get x = some cx ∧ SortedAtoms g selected x c.atoms
    ∧ c.deps ⊆ cx.deps ∧ c.intent = cx.intent ∧ c.author = signer
    ∧ c.id = Change.computeId c.deps c.atoms c.intent signer

/-- The ids that the reorder computes do not collide. -/
structure CollisionFree (g : ChangeGraph) (selected : Finset Blake3Hash) (head : Blake3Hash)
    (signer : Author) (rewritten : List Change) : Prop where
  old : ∀ c, IsHashed g selected signer rewritten c → ∀ c', g.get c.id = some c' →
    c'.payload = c.payload
  new : ∀ r ∈ rewritten, ∀ r' ∈ rewritten, r.id = r'.id → r.payload = r'.payload
  missing : ∀ c, IsHashed g selected signer rewritten c →
    c.id ∈ unselectedAncestors g selected head → g.get c.id ≠ none

/-! ## A successful reorder -/

variable {signer : Author × SigningKey} {desired chain : List Blake3Hash}
  {working : List WorkingChange} {rewritten : List Change} {head : Blake3Hash}

/-- The chain was sorted into the desired order and rewritten along it. -/
structure IsReordered (g : ChangeGraph) (signer : Author × SigningKey)
    (desired chain : List Blake3Hash) (working : List WorkingChange)
    (rewritten : List Change) : Prop where
  nodup : desired.Nodup
  present : ∀ x ∈ desired, ∃ c, g.get x = some c
  isChain : IsSelectedChain g desired.toFinset chain
  steps : Relation.ReflTransGen (SwapStep signer) (workingChanges g chain) working
  origins : working.map WorkingChange.origin = desired
  length_eq : rewritten.length = working.length
  rewritten : ∀ k w r, working[k]? = some w → rewritten[k]? = some r →
    RewrittenFrom desired.toFinset signer.1
      (rewrittenPairs (working.take k) (rewritten.take k)) w r

namespace IsReordered

theorem derived (h : IsReordered g signer desired chain working rewritten) (hg : g.Indexed) :
    ∀ w ∈ working, ∃ c, Derived g desired.toFinset signer.1 w c :=
  derived_of_swapSteps h.steps (derived_workingChanges hg fun x hx => (h.isChain.mem_iff x).mp hx)

theorem exists_rewrittenFrom (h : IsReordered g signer desired chain working rewritten)
    (hg : g.Indexed) {k : ℕ} {x : Blake3Hash} {r : Change} (hx : desired[k]? = some x)
    (hr : rewritten[k]? = some r) :
    ∃ w c, working[k]? = some w ∧ w.origin = x ∧ g.get x = some c
      ∧ Derived g desired.toFinset signer.1 w c
      ∧ RewrittenFrom desired.toFinset signer.1
        (rewrittenPairs (working.take k) (rewritten.take k)) w r := by
  rw [← h.origins, List.getElem?_map, Option.map_eq_some_iff] at hx
  obtain ⟨w, hw, rfl⟩ := hx
  obtain ⟨c, hc⟩ := h.derived hg w (List.mem_of_getElem? hw)
  exact ⟨w, c, hw, rfl, hc.get, hc, h.rewritten k w r hw hr⟩

theorem getElem?_desired (h : IsReordered g signer desired chain working rewritten) {k : ℕ}
    {r : Change} (hr : rewritten[k]? = some r) : ∃ x, desired[k]? = some x := by
  obtain ⟨hlt, -⟩ := List.getElem?_eq_some_iff.mp hr
  have hlen : desired.length = working.length := by rw [← h.origins, List.length_map]
  exact ⟨_, List.getElem?_eq_getElem (by rw [hlen, ← h.length_eq]; exact hlt)⟩

end IsReordered

theorem isReordered_of_ok (hg : g.Indexed) {out : ReorderOutcome}
    (hok : reorder g desired signer = .ok out)
    (hchain : resolveLinearChain g desired.toFinset = .ok chain) :
    ∃ working, IsReordered g signer desired chain working out.rewritten
      ∧ (∀ (k : ℕ) (x : Blake3Hash) (r : Change), desired[k]? = some x →
        out.rewritten[k]? = some r → out.rewriteMap.lookup x = some r.id)
      ∧ ∃ last, out.rewritten.getLast? = some last ∧ out.newHead = last.id := by
  obtain ⟨hnodup, hpresent, chain', working, hchain', hsteps, horigins, hrew, hmap, hlast⟩ :=
    reorder_eq_ok hok
  obtain rfl : chain = chain' := by
    rw [hchain] at hchain'
    exact Except.ok.inj hchain'
  have hchainspec := @rewriteChain_spec _ signer desired.toFinset working ∅ [] (by simp)
  simp only [List.map_nil, List.getLast?_nil, List.nil_append] at hchainspec
  obtain ⟨hlen, hspec⟩ := hchainspec
  refine ⟨working, ⟨hnodup, hpresent, resolveLinearChain_eq_ok hg hchain, hsteps, horigins, ?_, ?_⟩,
    fun k x r hx hr => ?_, hlast⟩
  · rw [hrew, hlen]
  · rw [hrew]
    exact hspec
  · rw [← horigins, List.getElem?_map, Option.map_eq_some_iff] at hx
    obtain ⟨w, hw, rfl⟩ := hx
    rw [hmap]
    exact lookup_rewriteChain (horigins.symm ▸ hnodup) hw (hrew ▸ hr)

/-! ## The rewriting of a reorder -/

theorem not_isWorkingId
    (hcf : CollisionFree g desired.toFinset head signer.1 rewritten)
    (hun : Unrepeated g desired.toFinset head signer.1) {u : Blake3Hash}
    (hu : u ∈ unselectedAncestors g desired.toFinset head) :
    ¬ IsWorkingId g desired.toFinset signer.1 u := by
  rintro ⟨x, cx, atoms, deps, hx, hatoms, hdeps, rfl⟩
  have hhashed : IsHashed g desired.toFinset signer.1 rewritten
      (Change.new deps atoms cx.intent signer.1 signer.2) :=
    .inr ⟨x, cx, hx, hatoms, hdeps, rfl, rfl, rfl⟩
  obtain ⟨c, hc⟩ := Option.ne_none_iff_exists'.mp (hcf.missing _ hhashed hu)
  have hpayload := hcf.old _ hhashed c hc
  apply hun _ hu c hc (congrArg IdPayload.author hpayload) x cx atoms hx hatoms
  · exact congrArg IdPayload.intent hpayload
  · exact congrArg IdPayload.atoms hpayload

namespace IsReordered

theorem fresh (h : IsReordered g signer desired chain working rewritten) (hg : g.Indexed)
    (hcf : CollisionFree g desired.toFinset head signer.1 rewritten)
    (hun : Unrepeated g desired.toFinset head signer.1) {r : Change} (hr : r ∈ rewritten) :
    r.id ∉ unselectedAncestors g desired.toFinset head := by
  intro hmem
  obtain ⟨c, hc⟩ := Option.ne_none_iff_exists'.mp (hcf.missing r (.inl hr) hmem)
  have hpayload := hcf.old r (.inl hr) c hc
  obtain ⟨k, hk⟩ := List.mem_iff_getElem?.mp hr
  obtain ⟨x, hx⟩ := h.getElem?_desired hk
  obtain ⟨w, cx, -, rfl, hget, hder, hrew⟩ := h.exists_rewrittenFrom hg hx hk
  apply hun r.id hmem c hc ((congrArg IdPayload.author hpayload).trans hrew.author) w.origin cx
    w.change.atoms hget hder.atoms
  · exact (congrArg IdPayload.intent hpayload).trans (hrew.intent.trans hder.intent)
  · rw [← hrew.atoms]
    exact congrArg IdPayload.atoms hpayload

theorem mem_deps_of_external (h : IsReordered g signer desired chain working rewritten)
    (hg : g.Indexed) (hcf : CollisionFree g desired.toFinset head signer.1 rewritten)
    (hun : Unrepeated g desired.toFinset head signer.1) (hbelow : ∀ x ∈ desired, g.Reaches head x)
    {k : ℕ} {x : Blake3Hash} {r : Change} (hx : desired[k]? = some x)
    (hr : rewritten[k]? = some r) {d : Blake3Hash} (hd : d ∈ g.deps x)
    (hsel : d ∉ desired.toFinset) : d ∈ r.deps := by
  obtain ⟨w, cx, -, rfl, hget, hder, hrew⟩ := h.exists_rewrittenFrom hg hx hr
  have hmem : d ∈ unselectedAncestors g desired.toFinset head := by
    refine Finset.mem_sdiff.mpr ⟨mem_ancestorsInclusive.mpr ⟨head, by simp, ?_⟩, hsel⟩
    exact (hbelow _ (List.mem_of_getElem? hx)).tail hd
  rw [hg.deps_eq hget] at hd
  exact hrew.external d (hder.external d hd hsel (not_isWorkingId hcf hun hmem)) hsel

/-- A dependency of a rewritten change is an external one of its original or an earlier rewritten
change: that of the selected dependency of its original, or the previous one. -/
theorem deps_cases (h : IsReordered g signer desired chain working rewritten) (hg : g.Indexed)
    {k : ℕ} {x : Blake3Hash} {r : Change} (hx : desired[k]? = some x)
    (hr : rewritten[k]? = some r) {d : Blake3Hash} (hd : d ∈ r.deps) :
    (d ∈ g.deps x ∧ d ∉ desired.toFinset)
      ∨ (∃ j < k, ∃ e r', desired[j]? = some e ∧ e ∈ g.deps x ∧ rewritten[j]? = some r' ∧ d = r'.id)
      ∨ ∃ r', rewritten[k - 1]? = some r' ∧ 0 < k ∧ d = r'.id := by
  obtain ⟨w, cx, -, rfl, hget, hder, hrew⟩ := h.exists_rewrittenFrom hg hx hr
  have hsub := hg.deps_eq hget ▸ hder.deps_subset
  have hlen : (rewritten.take k).length = (working.take k).length := by
    rw [List.length_take, List.length_take, h.length_eq]
  rcases hrew.deps_cases d hd with ⟨hd, hsel⟩ | ⟨e, he, -, hed⟩ | hlast
  · exact .inl ⟨hsub hd, hsel⟩
  · obtain ⟨j, hj, hpair⟩ := List.getElem_of_mem hed
    simp only [rewrittenPairs, List.getElem_zipWith, List.getElem_take, Prod.mk.injEq,
      List.length_zipWith, List.length_take, lt_min_iff] at hj hpair
    refine .inr (.inl ⟨j, hj.1.1, e, rewritten[j], ?_, hsub he, ?_, hpair.2.symm⟩)
    · rw [← h.origins, List.getElem?_map, List.getElem?_eq_getElem hj.1.2, Option.map_some,
        hpair.1]
    · exact List.getElem?_eq_getElem hj.2.2
  · rw [snd_rewrittenPairs hlen, List.getLast?_map, Option.map_eq_some_iff] at hlast
    obtain ⟨r', hr', rfl⟩ := hlast
    rw [List.getLast?_eq_getElem?, List.getElem?_take, List.length_take] at hr'
    obtain ⟨hlt, -⟩ := List.getElem?_eq_some_iff.mp hr
    rw [min_eq_left hlt.le] at hr'
    split_ifs at hr' with hk
    exact .inr (.inr ⟨r', hr', by omega, rfl⟩)

theorem mem_deps_previous (h : IsReordered g signer desired chain working rewritten)
    (hg : g.Indexed) {k : ℕ} {r r' : Change} (hr : rewritten[k]? = some r)
    (hr' : rewritten[k + 1]? = some r') : r.id ∈ r'.deps := by
  obtain ⟨x, hx⟩ := h.getElem?_desired hr'
  obtain ⟨w, cx, -, -, -, -, hrew⟩ := h.exists_rewrittenFrom hg hx hr'
  obtain ⟨hlt, -⟩ := List.getElem?_eq_some_iff.mp hr'
  have hlen : (rewritten.take (k + 1)).length = (working.take (k + 1)).length := by
    rw [List.length_take, List.length_take, h.length_eq]
  apply hrew.previous
  rw [snd_rewrittenPairs hlen, List.getLast?_map, List.getLast?_eq_getElem?, List.length_take,
    min_eq_left hlt.le, Nat.add_sub_cancel, List.getElem?_take, if_pos (Nat.lt_succ_self k), hr]
  rfl

/-- Rewritten changes with one id would have one payload, so the changes before them would have
one id, down to the first. -/
theorem ids_ne (h : IsReordered g signer desired chain working rewritten) (hg : g.Indexed)
    (hcf : CollisionFree g desired.toFinset head signer.1 rewritten)
    (hun : Unrepeated g desired.toFinset head signer.1) (hbelow : ∀ x ∈ desired, g.Reaches head x)
    {j k : ℕ} (hjk : j < k) {r r' : Change} (hr : rewritten[j]? = some r)
    (hr' : rewritten[k]? = some r') : r.id ≠ r'.id := by
  induction j using Nat.strong_induction_on generalizing k r r' with
  | _ j ih =>
      intro hid
      obtain ⟨m, rfl⟩ : ∃ m, k = m + 1 := ⟨k - 1, by omega⟩
      obtain ⟨hlt, -⟩ := List.getElem?_eq_some_iff.mp hr'
      have hm := List.getElem?_eq_getElem (show m < rewritten.length by omega)
      have hdeps : r.deps = r'.deps := Change.deps_eq_of_payload_eq
        (hcf.new r (List.mem_of_getElem? hr) r' (List.mem_of_getElem? hr') hid)
      have hprev : rewritten[m].id ∈ r.deps := hdeps ▸ h.mem_deps_previous hg hm hr'
      obtain ⟨x, hx⟩ := h.getElem?_desired hr
      have hxmem := List.mem_of_getElem? hx
      rcases h.deps_cases hg hx hr hprev with ⟨hd, hsel⟩ | ⟨i, hij, e, r'', -, -, hr'', heq⟩
        | ⟨r'', hr'', hpos, heq⟩
      · refine h.fresh hg hcf hun (List.getElem_mem (by omega)) (Finset.mem_sdiff.mpr ⟨?_, hsel⟩)
        exact mem_ancestorsInclusive.mpr ⟨head, by simp, (hbelow x hxmem).tail hd⟩
      · exact ih i hij (show i < m by omega) hr'' hm heq.symm
      · exact ih (j - 1) (by omega) (show j - 1 < m by omega) hr'' hm heq.symm

theorem nodup_ids (h : IsReordered g signer desired chain working rewritten) (hg : g.Indexed)
    (hcf : CollisionFree g desired.toFinset head signer.1 rewritten)
    (hun : Unrepeated g desired.toFinset head signer.1)
    (hbelow : ∀ x ∈ desired, g.Reaches head x) : (rewritten.map Change.id).Nodup := by
  rw [List.Nodup, List.pairwise_map, List.pairwise_iff_getElem]
  intro j k hj hk hjk
  exact h.ids_ne hg hcf hun hbelow hjk (List.getElem?_eq_getElem hj) (List.getElem?_eq_getElem hk)

theorem reaches (h : IsReordered g signer desired chain working rewritten)
    (hhead : chain.getLast? = some head) : ∀ x ∈ desired, g.Reaches head x := fun x hx =>
  reaches_of_isChain h.isChain.isChain ((h.isChain.mem_iff x).mpr (List.mem_toFinset.mpr hx)) hhead

theorem rewriting (h : IsReordered g signer desired chain working rewritten) (hg : g.Indexed)
    (hcf : CollisionFree g desired.toFinset head signer.1 rewritten)
    (hun : Unrepeated g desired.toFinset head signer.1) (hhead : chain.getLast? = some head) :
    Rewriting g desired.toFinset head desired rewritten where
  length_eq := by rw [h.length_eq, ← h.origins, List.length_map]
  nodup := h.nodup
  mem_iff x := List.mem_toFinset.symm
  present x hx := h.present x (List.mem_toFinset.mp hx)
  below x hx := h.reaches hhead x (List.mem_toFinset.mp hx)
  external hx hr d hd hsel := h.mem_deps_of_external hg hcf hun (h.reaches hhead) hx hr hd hsel
  deps_cases {k} x r hx hr d hd := by
    have hmem : ∀ {j r'}, j < k → rewritten[j]? = some r' →
        r'.id ∈ (rewritten.take k).map Change.id := by
      intro j r' hj hr'
      have hget : (rewritten.take k)[j]? = some r' := by rw [List.getElem?_take, if_pos hj, hr']
      exact List.mem_map_of_mem (List.mem_of_getElem? hget)
    rcases h.deps_cases hg hx hr hd with hd | ⟨j, hj, -, r', -, -, hr', rfl⟩ | ⟨r', hr', hk, rfl⟩
    · exact .inl hd
    · exact .inr (hmem hj hr')
    · exact .inr (hmem (by omega) hr')
  previous hr hr' := h.mem_deps_previous hg hr hr'
  distinct := h.nodup_ids hg hcf hun (h.reaches hhead)
  same r hr c hc := Change.deps_eq_of_payload_eq (hcf.old r (.inl hr) c hc)
  fresh r hr := h.fresh hg hcf hun hr

end IsReordered

/-! ## The kept prefix -/

omit [Crypto] in
theorem IsSelectedChain.mem_deps {selected : Finset Blake3Hash}
    (h : IsSelectedChain g selected chain) {k : ℕ} {x y : Blake3Hash} (hx : chain[k]? = some x)
    (hy : chain[k + 1]? = some y) : x ∈ g.deps y := by
  obtain ⟨hk, rfl⟩ := List.getElem?_eq_some_iff.mp hx
  obtain ⟨hk', rfl⟩ := List.getElem?_eq_some_iff.mp hy
  exact List.isChain_iff_getElem.mp h.isChain k hk'

omit [Crypto] in
theorem IsSelectedChain.eq_previous {selected : Finset Blake3Hash}
    (h : IsSelectedChain g selected chain) {k : ℕ} {x d : Blake3Hash} (hx : chain[k]? = some x)
    (hd : d ∈ g.deps x) (hsel : d ∈ selected) : ∃ j, k = j + 1 ∧ chain[j]? = some d := by
  cases k with
  | zero =>
      obtain ⟨root, rest, rfl, hroot⟩ := h.root
      obtain rfl : root = x := by simpa using hx
      exact absurd hd (hroot d hsel)
  | succ j =>
      obtain ⟨hlt, -⟩ := List.getElem?_eq_some_iff.mp hx
      have hj := List.getElem?_eq_getElem (show j < chain.length by omega)
      have hmem : ∀ {i z}, chain[i]? = some z → z ∈ selected :=
        fun hz => (h.mem_iff _).mp (List.mem_of_getElem? hz)
      refine ⟨j, rfl, ?_⟩
      rw [h.one_parent x (hmem hx) d hsel _ (hmem hj) hd (h.mem_deps hj hx), hj]

theorem keptPrefix_spec (g : ChangeGraph) (signer : Author) (chain desired : List Blake3Hash) :
    keptPrefix g signer chain desired <+: chain ∧ keptPrefix g signer chain desired <+: desired
      ∧ ∀ x ∈ keptPrefix g signer chain desired, ∃ c, g.get x = some c
        ∧ Change.computeId c.deps c.atoms c.intent signer = x := by
  induction chain generalizing desired with
  | nil => simp [keptPrefix]
  | cons x chain ih =>
      cases desired with
      | nil => simp [keptPrefix]
      | cons y desired =>
          rw [keptPrefix]
          split_ifs with hkeep
          · obtain ⟨rfl, hany⟩ := hkeep
            obtain ⟨h₁, h₂, h₃⟩ := ih desired
            refine ⟨(List.prefix_cons_inj x).mpr h₁, (List.prefix_cons_inj x).mpr h₂, ?_⟩
            intro z hz
            rcases List.mem_cons.mp hz with rfl | hz
            · obtain ⟨c, hc, hid⟩ := (Option.any_eq_true _ _).mp hany
              exact ⟨c, hc, of_decide_eq_true hid⟩
            · exact h₃ z hz
          · simp

namespace IsReordered

theorem id_of_kept (h : IsReordered g signer desired chain working rewritten) (hg : g.Indexed)
    (hR : Rewriting g desired.toFinset head desired rewritten)
    (hmoves : ∀ y ∈ desired.toFinset, ∀ c, g.get y = some c → hasMove c.atoms = false) {k : ℕ}
    {x : Blake3Hash} {r : Change} (hx : (keptPrefix g signer.1 chain desired)[k]? = some x)
    (hr : rewritten[k]? = some r) : r.id = x := by
  obtain ⟨hchain, hdesired, hkept⟩ := keptPrefix_spec g signer.1 chain desired
  have hcx : ∀ {j : ℕ} {y : Blake3Hash}, (keptPrefix g signer.1 chain desired)[j]? = some y →
      chain[j]? = some y ∧ desired[j]? = some y := by
    intro j y hy
    obtain ⟨hlt, rfl⟩ := List.getElem?_eq_some_iff.mp hy
    exact ⟨List.prefix_iff_getElem?.mp hchain j hlt, List.prefix_iff_getElem?.mp hdesired j hlt⟩
  induction k using Nat.strong_induction_on generalizing x r with
  | _ k ih =>
      have hlt := (List.getElem?_eq_some_iff.mp hx).1
      obtain ⟨hxc, hxd⟩ := hcx hx
      obtain ⟨w, c, -, rfl, hget, hder, hrew⟩ := h.exists_rewrittenFrom hg hxd hr
      -- the change before this one is its own rewriting
      have hprev : ∀ {j : ℕ} {y : Blake3Hash} {r' : Change}, j < k →
          desired[j]? = some y → rewritten[j]? = some r' →
          r'.id = y := by
        intro j y r' hj hy hr'
        have hj' := List.getElem?_eq_getElem
          (show j < (keptPrefix g signer.1 chain desired).length by omega)
        have hid := ih j hj hj' hr'
        rw [hid]
        exact Option.some_inj.mp ((hcx hj').2.symm.trans hy)
      have hdeps : r.deps = g.deps w.origin := by
        refine Finset.Subset.antisymm (fun d hd => ?_) fun d hd => ?_
        · rcases h.deps_cases hg hxd hr hd with hd | ⟨j, hj, e, r', he, hed, hr', rfl⟩
            | ⟨r', hr', hk, rfl⟩
          · exact hd.1
          · rw [hprev hj he hr']
            exact hed
          · have hj := List.getElem?_eq_getElem
              (show k - 1 < (keptPrefix g signer.1 chain desired).length by omega)
            rw [hprev (show k - 1 < k by omega) (hcx hj).2 hr']
            apply h.isChain.mem_deps (hcx hj).1
            rw [Nat.sub_add_cancel hk]
            exact hxc
        · by_cases hsel : d ∈ desired.toFinset
          · obtain ⟨j, rfl, hj⟩ := h.isChain.eq_previous hxc hd hsel
            have hj' := List.getElem?_eq_getElem
              (show j < (keptPrefix g signer.1 chain desired).length by omega)
            have hdj : desired[j]? = some d := by
              rw [(hcx hj').2, ← (hcx hj').1, hj]
            obtain ⟨r', hr'⟩ := hR.exists_rewritten hdj
            rw [← hprev (Nat.lt_succ_self j) hdj hr']
            exact h.mem_deps_previous hg hr' hr
          · exact hR.external hxd hr d hd hsel
      obtain ⟨c', -, hc', hatoms⟩ := hder.atoms.eq_of_not_hasMove hmoves
      obtain rfl := Option.some_inj.mp (hget.symm.trans hc')
      obtain ⟨c', hc', hid⟩ := hkept w.origin (List.mem_of_getElem? hx)
      obtain rfl := Option.some_inj.mp (hget.symm.trans hc')
      rw [hrew.id, hdeps, hg.deps_eq hget, hrew.atoms, hatoms, hrew.intent, hder.intent, hid]

end IsReordered

/-! ## Ancestors -/

/-- **A reorder keeps the ancestors exactly when they are covered.** -/
theorem IsReordered.ancestorsKept_iff (h : IsReordered g signer desired chain working rewritten)
    (hg : g.Indexed) (hhead : chain.getLast? = some head) {out : ReorderOutcome}
    (hrew : out.rewritten = rewritten)
    (hR : Rewriting g desired.toFinset head desired rewritten)
    (hmap : ∀ (k : ℕ) (x : Blake3Hash) (r : Change), desired[k]? = some x →
      rewritten[k]? = some r → out.rewriteMap.lookup x = some r.id)
    {last : Change} (hlast : rewritten.getLast? = some last) (hnew : out.newHead = last.id) :
    AncestorsKept g desired.toFinset head out
      ↔ AncestorsCovered g desired.toFinset desired := by
  subst hrew
  have hmem : ∀ {x u}, x ∈ desired → u ∉ desired.toFinset → g.ProperAncestor x u →
      u ∈ unselectedAncestors g desired.toFinset head := by
    intro x u hx hu hxu
    refine Finset.mem_sdiff.mpr ⟨?_, hu⟩
    exact mem_ancestorsInclusive.mpr
      ⟨head, by simp, (h.reaches hhead x hx).trans hxu.to_reflTransGen⟩
  constructor
  · intro hkept k x hx u hu hxu
    obtain ⟨r, hr⟩ := hR.exists_rewritten hx
    have hxmem := List.mem_of_getElem? hx
    apply (hR.properAncestor_iff hg hr (hmem hxmem hu hxu)).mp
    exact hkept.each x (List.mem_toFinset.mpr hxmem) r.id (hmap k x r hx hr) u hu hxu
  · intro hcov
    have heach : ∀ (k : ℕ) (x : Blake3Hash), desired[k]? = some x → ∀ r : Change,
        out.rewritten[k]? = some r → ∀ u ∉ desired.toFinset, g.ProperAncestor x u →
          (g.addAll out.rewritten).ProperAncestor r.id u := fun k x hx r hr u hu hxu =>
      hR.properAncestor_of_covers hg hr (hcov k x hx u hu hxu)
    constructor
    · intro u hu hhu
      have hsel : head ∈ desired := List.mem_toFinset.mp
        ((h.isChain.mem_iff head).mp (List.mem_of_getLast? hhead))
      obtain ⟨k, hk⟩ := List.mem_iff_getElem?.mp hsel
      obtain ⟨r, hr⟩ := hR.exists_rewritten hk
      have hru := heach k head hk r hr u hu hhu
      rw [hnew]
      rw [List.getLast?_eq_getElem?] at hlast
      obtain ⟨hlt, -⟩ := List.getElem?_eq_some_iff.mp hr
      rcases (show k ≤ out.rewritten.length - 1 by omega).eq_or_lt with rfl | hlt
      · obtain rfl := Option.some_inj.mp (hr.symm.trans hlast)
        exact hru
      · exact (hR.properAncestor_of_lt hg hlt hr hlast).trans hru
    · intro x hx x' hx' u hu hxu
      obtain ⟨k, hk⟩ := List.mem_iff_getElem?.mp (List.mem_toFinset.mp hx)
      obtain ⟨r, hr⟩ := hR.exists_rewritten hk
      obtain rfl := Option.some_inj.mp ((hmap k x r hk hr).symm.trans hx')
      exact heach k x hk r hr u hu hxu

end Mutator

end ArcVcs
