import ArcVcs.Rewrites

/-!
# What hydration loads

A process loads changes from the store and never one that the epoch map redirects. The store
may grow under it without changing what it loads.
-/

namespace ArcVcs

namespace Repo

variable {store store' : FMap Blake3Hash Change} {epochs : FMap Blake3Hash Blake3Hash}
  {g g' : ChangeGraph} {fuel : ℕ} {heads : Finset Blake3Hash}

theorem readChange_eq_ok_iff {id : Blake3Hash} {c : Change} :
    readChange store id = .ok c ↔ store.lookup id = some c ∧ c.id = id := by
  unfold readChange
  cases h : store.lookup id with
  | none => simp
  | some c' =>
      by_cases hid : c'.id = id
      · simp only [hid, if_true, Except.ok.injEq, Option.some.injEq]
        constructor
        · rintro rfl
          exact ⟨rfl, hid⟩
        · exact fun h => h.1
      · simp only [hid, if_false, reduceCtorEq, Option.some.injEq, false_iff, not_and]
        rintro rfl
        exact hid

/-- The loaded changes with their edges are those that the store holds. -/
structure Loaded (store : FMap Blake3Hash Change) (g : ChangeGraph) : Prop where
  indexed : g.Indexed
  stored : ∀ id c, g.get id = some c → readChange store id = .ok c

/-- No redirected change is loaded. -/
def Unmapped (epochs : FMap Blake3Hash Blake3Hash) (g : ChangeGraph) : Prop :=
  ∀ id ∈ epochs.keys, g.get id = none

theorem Loaded.new (store : FMap Blake3Hash Change) : Loaded store .new :=
  ⟨.new, fun id c h => by simp at h⟩

theorem Unmapped.new (epochs : FMap Blake3Hash Blake3Hash) : Unmapped epochs .new :=
  fun _ _ => rfl

theorem hydrateStep_cases {id : Blake3Hash} {pushed : List Blake3Hash}
    (h : hydrateStep store epochs g id = .ok (pushed, g')) :
    g' = g ∨ id ∉ epochs.keys ∧ g.get id = none
      ∧ ∃ c, readChange store id = .ok c ∧ g' = g.addChange c := by
  unfold hydrateStep at h
  cases hmap : epochs.lookup id with
  | some genesisId =>
      rw [hmap] at h
      simp only [Except.ok.injEq, Prod.mk.injEq] at h
      exact .inl h.2.symm
  | none =>
      rw [hmap] at h
      dsimp only at h
      split_ifs at h with hget
      · simp only [Except.ok.injEq, Prod.mk.injEq] at h
        exact .inl h.2.symm
      · cases hread : readChange store id with
        | error e => simp [hread] at h
        | ok c =>
            simp only [hread, Except.ok.injEq, Prod.mk.injEq] at h
            exact .inr ⟨FMap.notMem_keys_iff.mpr hmap, by simpa using hget, c, rfl, h.2.symm⟩

theorem Loaded.addChange (hg : Loaded store g) {c : Change}
    (hread : readChange store c.id = .ok c) : Loaded store (g.addChange c) := by
  refine ⟨hg.indexed.addChange fun c' hc' => ?_, fun x c' hc' => ?_⟩
  · rw [Except.ok.inj ((hg.stored c.id c' hc').symm.trans hread)]
  · rw [ChangeGraph.get_addChange] at hc'
    split_ifs at hc' with hx
    · rw [hx, ← Option.some_inj.mp hc']
      exact hread
    · exact hg.stored x c' hc'

theorem Loaded.putOnce (hg : Loaded store g) (id : Blake3Hash) (c : Change) :
    Loaded (store.putOnce id c) g := by
  refine ⟨hg.indexed, fun id' c' hget => ?_⟩
  obtain ⟨hlook, hid⟩ := readChange_eq_ok_iff.mp (hg.stored id' c' hget)
  exact readChange_eq_ok_iff.mpr ⟨FMap.lookup_putOnce_of_some _ _ _ hlook, hid⟩

theorem readChange_putOnce_self {c : Change} (h : ∀ c', store.lookup c.id = some c' → c' = c) :
    readChange (store.putOnce c.id c) c.id = .ok c := by
  refine readChange_eq_ok_iff.mpr ⟨?_, rfl⟩
  rw [FMap.lookup_putOnce]
  split_ifs with hput
  · rfl
  · obtain ⟨c', hc'⟩ : ∃ c', store.lookup c.id = some c' :=
      Option.ne_none_iff_exists'.mp fun hnone => hput ⟨rfl, FMap.notMem_keys_iff.mpr hnone⟩
    rw [hc', h c' hc']

theorem Loaded.hydrateStep (hg : Loaded store g) {id : Blake3Hash} {pushed : List Blake3Hash}
    (h : hydrateStep store epochs g id = .ok (pushed, g')) : Loaded store g' := by
  rcases hydrateStep_cases h with rfl | ⟨-, -, c, hread, rfl⟩
  · exact hg
  · obtain ⟨-, rfl⟩ := readChange_eq_ok_iff.mp hread
    exact hg.addChange hread

theorem Unmapped.hydrateStep (hg : Unmapped epochs g) {id : Blake3Hash}
    {pushed : List Blake3Hash} (h : hydrateStep store epochs g id = .ok (pushed, g')) :
    Unmapped epochs g' := by
  rcases hydrateStep_cases h with rfl | ⟨hid, -, c, hread, rfl⟩
  · exact hg
  · obtain ⟨-, rfl⟩ := readChange_eq_ok_iff.mp hread
    intro x hx
    rw [ChangeGraph.get_addChange, if_neg]
    · exact hg x hx
    · rintro rfl
      exact hid hx

theorem Loaded.hydrateGraph (hg : Loaded store g)
    (hrun : hydrateGraph fuel store epochs g heads = some (.ok g')) : Loaded store g' :=
  Worklist.process_ok (fun _ g => Loaded store g) (fun _ _ _ _ _ hg h => hg.hydrateStep h) hg hrun

theorem Unmapped.hydrateGraph (hg : Unmapped epochs g)
    (hrun : hydrateGraph fuel store epochs g heads = some (.ok g')) : Unmapped epochs g' :=
  Worklist.process_ok (fun _ g => Unmapped epochs g) (fun _ _ _ _ _ hg h => hg.hydrateStep h) hg
    hrun

theorem get_of_hydrateGraph {id : Blake3Hash} {c : Change}
    (hrun : hydrateGraph fuel store epochs g heads = some (.ok g')) (h : g.get id = some c) :
    g'.get id = some c := by
  refine Worklist.process_ok (fun _ g => g.get id = some c)
    (fun _ g₁ x pushed g₂ hget hstep => ?_) h
    hrun
  rcases hydrateStep_cases hstep with rfl | ⟨-, hnone, c', hread, rfl⟩
  · exact hget
  · obtain ⟨-, rfl⟩ := readChange_eq_ok_iff.mp hread
    rw [ChangeGraph.get_addChange, if_neg]
    · exact hget
    · rintro rfl
      simp [hnone] at hget

theorem hydrateGraph_mono (hstore : ∀ id c, store.lookup id = some c → store'.lookup id = some c)
    (hrun : hydrateGraph fuel store epochs g heads = some (.ok g')) :
    hydrateGraph fuel store' epochs g heads = some (.ok g') := by
  refine Worklist.process_congr (fun st b next h => ?_) hrun
  unfold hydrateStep at h ⊢
  cases hmap : epochs.lookup b with
  | some genesisId => simpa [hmap] using h
  | none =>
      rw [hmap] at h
      dsimp only at h ⊢
      split_ifs at h ⊢ with hget
      · exact h
      · cases hread : readChange store b with
        | error e => simp [hread] at h
        | ok c =>
            obtain ⟨hlook, hid⟩ := readChange_eq_ok_iff.mp hread
            rw [readChange_eq_ok_iff.mpr ⟨hstore b c hlook, hid⟩]
            simpa [hread] using h

theorem hydrateGraph_of_loaded (hheads : ∀ h ∈ heads, h ∉ epochs.keys ∧ g.get h ≠ none)
    (hfuel : heads.card < fuel) : hydrateGraph fuel store epochs g heads = some (.ok g) := by
  refine Worklist.process_of_idle (fun h hh => ?_) (by simpa using hfuel)
  obtain ⟨hmap, hget⟩ := hheads h (Finset.mem_sorted.mp hh)
  rw [hydrateStep, FMap.notMem_keys_iff.mp hmap]
  simp [Option.isSome_iff_ne_none, hget]

theorem card_lt_of_hydrateGraph (hrun : hydrateGraph fuel store epochs g heads = some (.ok g')) :
    heads.card < fuel := by
  simpa using Worklist.length_lt_of_process hrun

theorem hydrateGraph_fuel {more : ℕ} {g₁ g₂ : ChangeGraph}
    (h₁ : hydrateGraph fuel store epochs g heads = some (.ok g₁))
    (h₂ : hydrateGraph more store epochs g heads = some (.ok g₂)) : g₁ = g₂ := by
  have h₁' := Worklist.process_mono (le_max_left fuel more) h₁
  have h₂' := Worklist.process_mono (le_max_right fuel more) h₂
  simpa using h₁'.symm.trans h₂'

/-! ## Runs -/

theorem hydrateHeads_eq_ok_iff {s s' : Repo} :
    hydrateHeads fuel heads s = some (.ok (), s') ↔
      ∃ g, hydrateGraph fuel s.store s.epochs s.graph heads = some (.ok g)
        ∧ s' = { s with graph := g } := by
  unfold hydrateHeads
  rcases hydrateGraph fuel s.store s.epochs s.graph heads with _ | ⟨e | g⟩
  · simp
  · simp
  · simp [eq_comm]

theorem loadView_eq_ok_iff {name : String} {s s' : Repo} :
    loadView name s = some (.ok heads, s') ↔ s.views.lookup name = some heads ∧ s' = s := by
  rw [loadView, Program.bind_run, Program.get]
  dsimp only
  cases s.views.lookup name with
  | none => simp [Program.throw]
  | some heads' => simp [eq_comm]

theorem hydrate_eq_ok {view : String} {s s₁ : Repo}
    (h : hydrate fuel view s = some (.ok (), s₁)) :
    ∃ heads g, s.views.lookup view = some heads
      ∧ hydrateGraph fuel s.store s.epochs s.graph heads = some (.ok g)
      ∧ s₁ = { s with graph := g } := by
  obtain ⟨heads, _, hload, hrun⟩ := Program.bind_eq_ok_iff.mp h
  obtain ⟨hheads, rfl⟩ := loadView_eq_ok_iff.mp hload
  obtain ⟨g, hg, rfl⟩ := hydrateHeads_eq_ok_iff.mp hrun
  exact ⟨heads, g, hheads, hg, rfl⟩

theorem soleHead_eq_ok {s s' : Repo} {view : String} {heads : Finset Blake3Hash} {head : Blake3Hash}
    (h : soleHead view heads s = some (.ok head, s')) : heads = {head} ∧ s' = s := by
  unfold soleHead at h
  rcases hsorted : heads.sorted with _ | ⟨x, _ | ⟨y, l⟩⟩
  · simp [hsorted, Program.throw] at h
  · obtain ⟨rfl, rfl⟩ : x = head ∧ s = s' := by simpa [hsorted] using h
    rw [← Finset.toFinset_sorted heads, hsorted]
    exact ⟨rfl, rfl⟩
  · simp [hsorted, Program.throw] at h

theorem signingIdentity_eq_ok {s s' : Repo} {signer : Author × SigningKey}
    (h : signingIdentity s = some (.ok signer, s')) : s.identity = some signer ∧ s' = s := by
  obtain ⟨_, _, hget, h⟩ := Program.bind_eq_ok_iff.mp h
  cases hget
  cases hid : s.identity with
  | none => simp [hid, Program.throw] at h
  | some signer' => simpa [hid, eq_comm] using h

theorem writeStateToWorkingDir_eq_ok_iff {wd : WorkDir} {state : MaterializedState} {s s' : Repo} :
    writeStateToWorkingDir wd state s = some (.ok (), s') ↔ wd.canWrite state = true ∧ s' = s := by
  unfold writeStateToWorkingDir
  split_ifs with h
  · simp [h, eq_comm]
  · simp [h, Program.throw]

theorem checkWorkingDirClean_eq_ok_iff {wd : WorkDir} {state : MaterializedState} {s s' : Repo}
    {u : Unit} :
    checkWorkingDirClean wd state s = some (.ok u, s') ↔ wd.isClean state = true ∧ s' = s := by
  unfold checkWorkingDirClean
  split_ifs with h
  · simp [h, eq_comm]
  · simp [h, Program.throw]

variable [Crypto]

theorem materializeHeads_eq_ok_iff {wd : WorkDir} {s s' : Repo} {state : MaterializedState} :
    materializeHeads wd heads s = some (.ok state, s') ↔
      s.graph.materializeHeads (s.applyEnv wd.agentIgnore) heads = .ok state ∧ s' = s := by
  rw [materializeHeads, Program.bind_run, Program.get]
  dsimp only
  cases s.graph.materializeHeads (s.applyEnv wd.agentIgnore) heads with
  | error e => simp [Program.throw]
  | ok state' => simp [eq_comm]

theorem materializeNonempty_eq_ok_iff {wd : WorkDir} {s s' : Repo} {state : MaterializedState} :
    materializeNonempty wd heads s = some (.ok state, s') ↔ s' = s
      ∧ if heads = ∅ then state = ∅
        else s.graph.materializeHeads (s.applyEnv wd.agentIgnore) heads = .ok state := by
  unfold materializeNonempty
  split_ifs
  · simp [eq_comm, and_comm]
  · rw [materializeHeads_eq_ok_iff, and_comm]

theorem checkoutView_eq_ok {wd : WorkDir} {view : String} {s s' : Repo}
    (h : checkoutView wd view s = some (.ok (), s')) : s' = s := by
  obtain ⟨state, s₁, hstate, hwrite⟩ := Program.bind_eq_ok_iff.mp h
  obtain ⟨heads, s₂, hload, hreplay⟩ := Program.bind_eq_ok_iff.mp hstate
  rw [(writeStateToWorkingDir_eq_ok_iff.mp hwrite).2, (materializeHeads_eq_ok_iff.mp hreplay).2,
    (loadView_eq_ok_iff.mp hload).2]

/-! ## Contents -/

/-- Contents that the store can take: no other content lies under the hash of one. -/
structure Storable (blobs : FMap Blake3Hash Bytes) (contents : List Bytes) : Prop where
  stored : ∀ content ∈ contents, ∀ other,
    blobs.lookup (Crypto.hashBytes content) = some other → other = content
  distinct : ∀ content ∈ contents, ∀ other ∈ contents,
    Crypto.hashBytes other = Crypto.hashBytes content → other = content

theorem Storable.of_all {blobs : FMap Blake3Hash Bytes} {contents : List Bytes}
    (hstored : ∀ content ∈ contents, (blobs.lookup (Crypto.hashBytes content)).all
      (fun other => decide (other = content)) = true)
    (hdistinct : ∀ content ∈ contents, ∀ other ∈ contents,
      Crypto.hashBytes other = Crypto.hashBytes content → other = content) :
    Storable blobs contents := by
  refine ⟨fun content hcontent other hother => ?_, hdistinct⟩
  simpa [hother] using hstored content hcontent

def putContents (blobs : FMap Blake3Hash Bytes) (contents : List Bytes) : FMap Blake3Hash Bytes :=
  contents.foldl (fun blobs content => blobs.putOnce (Crypto.hashBytes content) content) blobs

theorem writeBlobs_run (contents : List Bytes) (s : Repo) :
    writeBlobs contents s = some (.ok (), { s with blobs := putContents s.blobs contents }) := by
  induction contents generalizing s with
  | nil => rfl
  | cons content contents ih =>
      exact ih { s with blobs := s.blobs.putOnce (Crypto.hashBytes content) content }

theorem lookup_putContents_of_some {blobs : FMap Blake3Hash Bytes} {contents : List Bytes}
    {hash : Blake3Hash} {content : Bytes} (h : blobs.lookup hash = some content) :
    (putContents blobs contents).lookup hash = some content := by
  induction contents generalizing blobs with
  | nil => exact h
  | cons c cs ih => exact ih (FMap.lookup_putOnce_of_some _ _ _ h)

theorem eq_or_mem_of_lookup_putContents {blobs : FMap Blake3Hash Bytes} {contents : List Bytes}
    {hash : Blake3Hash} {content : Bytes}
    (h : (putContents blobs contents).lookup hash = some content) :
    blobs.lookup hash = some content ∨ content ∈ contents ∧ Crypto.hashBytes content = hash := by
  induction contents generalizing blobs with
  | nil => exact .inl h
  | cons c cs ih =>
      rcases ih h with hput | ⟨hmem, hhash⟩
      · rw [FMap.lookup_putOnce] at hput
        split_ifs at hput with hc
        · obtain rfl := Option.some_inj.mp hput
          exact .inr ⟨List.mem_cons_self, hc.1.symm⟩
        · exact .inl hput
      · exact .inr ⟨List.mem_cons_of_mem _ hmem, hhash⟩

theorem readBlob_eq_ok_iff {blobs : FMap Blake3Hash Bytes} {hash : Blake3Hash} {content : Bytes} :
    readBlob blobs hash = .ok content
      ↔ blobs.lookup hash = some content ∧ Crypto.hashBytes content = hash := by
  unfold readBlob
  cases h : blobs.lookup hash with
  | none => simp
  | some bytes =>
      by_cases hhash : Crypto.hashBytes bytes = hash
      · simp only [hhash, if_true, Except.ok.injEq, Option.some.injEq]
        constructor
        · rintro rfl
          exact ⟨rfl, hhash⟩
        · exact fun h => h.1
      · simp only [hhash, if_false, reduceCtorEq, Option.some.injEq, false_iff, not_and]
        rintro rfl
        exact hhash

theorem readBlob_putContents {blobs : FMap Blake3Hash Bytes} {contents : List Bytes}
    {hash : Blake3Hash} {content : Bytes} (h : readBlob blobs hash = .ok content) :
    readBlob (putContents blobs contents) hash = .ok content := by
  obtain ⟨hlook, hhash⟩ := readBlob_eq_ok_iff.mp h
  exact readBlob_eq_ok_iff.mpr ⟨lookup_putContents_of_some hlook, hhash⟩

theorem Storable.readBlob {blobs : FMap Blake3Hash Bytes} {contents : List Bytes}
    (h : Storable blobs contents) {content : Bytes} (hmem : content ∈ contents) :
    readBlob (putContents blobs contents) (Crypto.hashBytes content) = .ok content := by
  refine readBlob_eq_ok_iff.mpr ⟨?_, rfl⟩
  induction contents generalizing blobs with
  | nil => simp at hmem
  | cons c cs ih =>
      have hc : (blobs.putOnce (Crypto.hashBytes c) c).lookup (Crypto.hashBytes c) = some c := by
        rw [FMap.lookup_putOnce]
        cases hlook : blobs.lookup (Crypto.hashBytes c) with
        | none => simp [FMap.notMem_keys_iff.mpr hlook]
        | some other =>
            rw [if_neg fun hk => hk.2 (FMap.mem_keys_of_lookup hlook),
              h.stored c List.mem_cons_self other hlook]
      change (putContents (blobs.putOnce (Crypto.hashBytes c) c) cs).lookup _ = _
      rcases List.mem_cons.mp hmem with rfl | hcs
      · exact lookup_putContents_of_some hc
      · refine ih ⟨fun d hd other hother => ?_,
          fun d hd e he => h.distinct d (.tail _ hd) e (.tail _ he)⟩
          hcs
        rw [FMap.lookup_putOnce] at hother
        split_ifs at hother with hk
        · rw [← Option.some_inj.mp hother]
          exact h.distinct d (.tail _ hd) c List.mem_cons_self hk.1.symm
        · exact h.stored d (.tail _ hd) other hother

end Repo

namespace ChangeGraph

theorem get_ne_none_of_materializeHeads {g : ChangeGraph} (hg : g.Indexed) {env : ApplyEnv}
    {heads : Finset Blake3Hash} {state : MaterializedState}
    (h : g.materializeHeads env heads = .ok state) {head : Blake3Hash} (hhead : head ∈ heads) :
    g.get head ≠ none :=
  get_ne_none_of_replay hg h (subset_ancestorsInclusive g heads hhead)

end ChangeGraph

/-! ## Processes on one store -/

namespace Repo

variable {store : FMap Blake3Hash Change} {g g' : ChangeGraph} {env : ApplyEnv}
  {heads : Finset Blake3Hash} {state state' : MaterializedState}

theorem Loaded.deps_eq (hg : Loaded store g) (hg' : Loaded store g') {x : Blake3Hash}
    (hx : g.get x ≠ none) (hx' : g'.get x ≠ none) : g'.deps x = g.deps x := by
  obtain ⟨c, hc⟩ := Option.ne_none_iff_exists'.mp hx
  obtain ⟨c', hc'⟩ := Option.ne_none_iff_exists'.mp hx'
  obtain rfl := Except.ok.inj ((hg.stored x c hc).symm.trans (hg'.stored x c' hc'))
  rw [hg.indexed.deps_eq hc, hg'.indexed.deps_eq hc']

theorem Loaded.acyclic_of_lt (hg : Loaded store g)
    (h : ∀ x ∈ store.keys, ∀ y ∈ ((store.lookup x).map Change.deps).getD ∅, y < x) : g.Acyclic := by
  refine ChangeGraph.acyclic_of_rank Blake3Hash.toNat fun x y hy => ?_
  cases hx : g.get x with
  | none => simp [hg.indexed.deps_ghost hx] at hy
  | some c =>
      obtain ⟨hlook, -⟩ := readChange_eq_ok_iff.mp (hg.stored x c hx)
      rw [hg.indexed.deps_eq hx] at hy
      exact h x (FMap.mem_keys_of_lookup hlook) y (by rwa [hlook])

theorem Loaded.materializeHeads_eq (hg : Loaded store g) (hg' : Loaded store g')
    (h : g.materializeHeads env heads = .ok state)
    (h' : g'.materializeHeads env heads = .ok state') : state' = state := by
  have hpresent : ∀ x ∈ g.ancestorsInclusive heads, g.get x ≠ none := fun x hx =>
    ChangeGraph.get_ne_none_of_replay hg.indexed h hx
  have hpresent' : ∀ x ∈ g'.ancestorsInclusive heads, g'.get x ≠ none := fun x hx =>
    ChangeGraph.get_ne_none_of_replay hg'.indexed h' hx
  have hsub : ∀ x ∈ g.ancestorsInclusive heads, x ∈ g'.ancestorsInclusive heads := by
    intro x hx
    obtain ⟨head, hhead, hreach⟩ := ChangeGraph.mem_ancestorsInclusive.mp hx
    clear hx
    induction hreach with
    | refl => exact ChangeGraph.subset_ancestorsInclusive g' heads hhead
    | @tail y z hpath hstep ih =>
        have hy : g.get y ≠ none :=
          hpresent y (ChangeGraph.mem_ancestorsInclusive.mpr ⟨head, hhead, hpath⟩)
        refine ChangeGraph.ancestorsInclusive_of_mem_deps ih ?_
        rw [hg.deps_eq hg' hy (hpresent' y ih)]
        exact hstep
  have hdeps : ∀ x ∈ g.ancestorsInclusive heads, g'.deps x = g.deps x := fun x hx =>
    hg.deps_eq hg' (hpresent x hx) (hpresent' x (hsub x hx))
  obtain ⟨order, horder, -, hmem, -⟩ := hg.indexed.exists_topologicalSort heads
  have horder' := ChangeGraph.topologicalSort_congr hg.indexed hg'.indexed hdeps
  rw [horder] at horder'
  rw [ChangeGraph.materializeHeads_eq_ok_iff horder] at h
  rw [ChangeGraph.materializeHeads_eq_ok_iff horder', ChangeGraph.replayAction_congr (g := g)] at h'
  · exact Option.some_inj.mp (h'.symm.trans h)
  · intro x hx
    obtain ⟨c, hc⟩ := Option.ne_none_iff_exists'.mp (hpresent x (hmem x hx))
    obtain ⟨c', hc'⟩ := Option.ne_none_iff_exists'.mp (hpresent' x (hsub x (hmem x hx)))
    obtain rfl := Except.ok.inj ((hg.stored x c hc).symm.trans (hg'.stored x c' hc'))
    rw [hc, hc']

end Repo

namespace ChangeGraph

/-! ## Larger blob stores -/

section Mono

variable {env env' : ApplyEnv}

/-- The second environment reads what the first one reads. -/
structure ReadsMore (env env' : ApplyEnv) : Prop where
  store : ∀ hash content, env.store hash = .ok content → env'.store hash = .ok content
  agentIgnore : env'.agentIgnore = env.agentIgnore
  sparse : env'.sparse = env.sparse

theorem ReadsMore.effect (h : ReadsMore env env') (author : Author) (atom : Atom) :
    atom.effect env author = 0 ∨ atom.effect env' author = atom.effect env author := by
  unfold Atom.effect Atom.plainEffect
  rw [h.agentIgnore, h.sparse]
  by_cases hbad : (author.isAi && atom.isRestricted env.agentIgnore) = true
  · exact .inl (if_pos hbad)
  rw [if_neg hbad, if_neg hbad]
  by_cases hskip : isSkipped env.sparse atom = true
  · exact .inr (by rw [if_pos hskip, if_pos hskip])
  rw [if_neg hskip, if_neg hskip]
  cases atom with
  | insert at_ contentHash =>
      cases hread : env.store contentHash with
      | error e => exact .inl (by simp [Atom.keyedOp, hread, Except.toOption])
      | ok content =>
          right
          simp [Atom.keyedOp, hread, h.store contentHash content hread, Except.toOption]
  | _ => exact .inr rfl

theorem ReadsMore.changeEffect (h : ReadsMore env env') (change : Change) :
    change.effect env = 0 ∨ change.effect env' = change.effect env := by
  unfold Change.effect
  by_cases hzero : ∃ atom ∈ change.atoms, atom.effect env change.author = 0
  · obtain ⟨atom, hatom, hz⟩ := hzero
    exact .inl (PartialAction.prod_eq_zero_of_mem (List.mem_map.mpr ⟨atom, hatom, hz⟩))
  · right
    refine congrArg List.prod (List.map_congr_left fun atom hatom => ?_)
    exact (h.effect change.author atom).resolve_left fun hz => hzero ⟨atom, hatom, hz⟩

theorem ReadsMore.replayAction (h : ReadsMore env env') {g : ChangeGraph} {order : List Blake3Hash}
    {state out : MaterializedState} (hrun : (g.replayAction env order).run state = some out) :
    (g.replayAction env' order).run state = some out := by
  rw [← hrun]
  refine congrArg (fun action => PartialAction.run (List.prod action) state)
    (List.map_congr_left fun id hid => ?_)
  have hne : g.effectAt env id ≠ 0 := by
    intro hz
    rw [ChangeGraph.replayAction, PartialAction.prod_eq_zero_of_mem
      (List.mem_map.mpr ⟨id, hid, hz⟩)] at hrun
    simp at hrun
  unfold effectAt at hne ⊢
  cases hget : g.get id with
  | none => rfl
  | some change =>
      rw [hget] at hne
      exact (h.changeEffect change).resolve_left hne

theorem ReadsMore.materializeHeads (h : ReadsMore env env') {g : ChangeGraph} (hg : g.Indexed)
    {heads : Finset Blake3Hash} {state : MaterializedState}
    (hrun : g.materializeHeads env heads = .ok state) :
    g.materializeHeads env' heads = .ok state := by
  obtain ⟨order, horder, -⟩ := hg.exists_topologicalSort heads
  rw [materializeHeads_eq_ok_iff horder] at hrun ⊢
  exact h.replayAction hrun

end Mono

end ChangeGraph

/-! ## Small repositories -/

/-- A repository with the given history, which the process has loaded. -/
def Repo.ofHistory (changes : List Change) (heads : Finset Blake3Hash) (contents : List Bytes) :
    Repo :=
  { Repo.init with
    store := FMap.insertAll ∅ (changes.map fun c => (c.id, c))
    blobs := FMap.insertAll ∅ (contents.map fun bytes =>
      (@Crypto.hashBytes Crypto.sample bytes, bytes))
    views := Finmap.singleton "main" heads
    graph := .ofChanges changes
    identity := some (.human "" "" 0, 0) }

theorem Repo.Loaded.ofChanges {changes : List Change} (hnodup : (changes.map Change.id).Nodup) :
    Loaded (FMap.insertAll ∅ (changes.map fun c => (c.id, c))) (.ofChanges changes) := by
  have hids : ∀ a ∈ changes, ∀ b ∈ changes, a.id = b.id → a = b := fun a ha b hb hab =>
    List.inj_on_of_nodup_map hnodup ha hb hab
  refine ⟨ChangeGraph.indexed_ofChanges fun a ha b hb hab => by rw [hids a ha b hb hab], ?_⟩
  intro id c hc
  have hmem : id ∈ changes.map Change.id := by
    by_contra hid
    rw [ChangeGraph.ofChanges, ChangeGraph.get_addAll_of_notMem hid] at hc
    simp at hc
  obtain ⟨c', hc', rfl⟩ := List.mem_map.mp hmem
  rw [ChangeGraph.ofChanges, ChangeGraph.get_addAll_of_mem hnodup hc'] at hc
  obtain rfl := Option.some_inj.mp hc
  have hkey : c'.id ∈ (changes.map fun c => (c.id, c)).map Prod.fst := by
    rw [List.map_map]
    exact hmem
  obtain ⟨e, he, hfst, hlook⟩ := FMap.lookup_insertAll_of_mem ∅ _ hkey
  obtain ⟨d, hd, rfl⟩ := List.mem_map.mp he
  rw [readChange_eq_ok_iff, hlook, hids d hd c' hc' hfst]
  exact ⟨rfl, rfl⟩

theorem Repo.readsMore_putContents [Crypto] (s : Repo) (contents : List Bytes)
    (agentIgnore : Gitignore) :
    ChangeGraph.ReadsMore (s.applyEnv agentIgnore)
      ({ s with blobs := putContents s.blobs contents }.applyEnv agentIgnore) :=
  ⟨fun _ _ h => readBlob_putContents h, rfl, rfl⟩

end ArcVcs
