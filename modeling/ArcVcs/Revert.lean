import ArcVcs.HeadMoves
import ArcVcs.ReplayWithout
import ArcVcs.StateDelta

/-!
# Reverting a change

`revert` compares the texts of the states after and before a change and puts the difference on top
of the view. Where the later changes commute with it, an item becomes what it is without the change
if the texts are read back so. Nothing else is carried back, and a change that touches no item
cannot be reverted.
-/

namespace ArcVcs

theorem ChangeGraph.materializeHeads_empty {g : ChangeGraph} (hg : g.Indexed) (env : ApplyEnv) :
    g.materializeHeads env ∅ = .ok ∅ := by
  obtain ⟨order, hrun, -, hmem, -⟩ := hg.exists_topologicalSort ∅
  have hnil : order = [] := by
    refine List.eq_nil_iff_forall_not_mem.mpr fun x hx => ?_
    obtain ⟨head, hhead, -⟩ := mem_ancestorsInclusive.mp (hmem x hx)
    simp at hhead
  rw [materializeHeads_of_topologicalSort hrun, hnil]
  rfl

namespace Repo

variable {s s₁ s₂ : Repo} {fuel : ℕ} {wd : WorkDir} {target : Change} {heads : Finset Blake3Hash}

/-! ## Loading the change -/

/-- `revert` loads the view, the change and its dependencies. -/
structure RevertLoads (fuel : ℕ) (target : Change) (s s₁ : Repo) : Prop where
  stored : readChange s.store target.id = .ok target
  loads : ∃ s₀, hydrate fuel s.head s = some (.ok (), s₀)
    ∧ hydrateHeads fuel target.deps { s₀ with graph := s₀.graph.addChange target }
      = some (.ok (), s₁)

theorem RevertLoads.same (h : RevertLoads fuel target s s₁) :
    s₁ = { s with graph := s₁.graph } := by
  obtain ⟨s₀, hheads, hdeps⟩ := h.loads
  obtain ⟨_, _, _, _, rfl⟩ := hydrate_eq_ok hheads
  obtain ⟨_, _, rfl⟩ := hydrateHeads_eq_ok_iff.mp hdeps
  rfl

theorem RevertLoads.loaded (h : RevertLoads fuel target s s₁) (hs : Loaded s.store s.graph) :
    Loaded s.store s₁.graph := by
  obtain ⟨s₀, hheads, hdeps⟩ := h.loads
  obtain ⟨_, g, _, hg, rfl⟩ := hydrate_eq_ok hheads
  obtain ⟨g', hg', rfl⟩ := hydrateHeads_eq_ok_iff.mp hdeps
  exact ((hs.hydrateGraph hg).addChange h.stored).hydrateGraph hg'

theorem RevertLoads.get (h : RevertLoads fuel target s s₁) :
    s₁.graph.get target.id = some target := by
  obtain ⟨s₀, hheads, hdeps⟩ := h.loads
  obtain ⟨g', hg', rfl⟩ := hydrateHeads_eq_ok_iff.mp hdeps
  exact get_of_hydrateGraph hg' (by rw [ChangeGraph.get_addChange, if_pos rfl])

theorem RevertLoads.of_loaded
    (hread : readChange s.store target.id = .ok target) (hepochs : s.epochs = ∅)
    (hview : s.views.lookup s.head = some heads) (hheads : ∀ h ∈ heads, s.graph.get h ≠ none)
    (hdeps : ∀ d ∈ target.deps, s.graph.get d ≠ none)
    (hfuel : heads.card < fuel ∧ target.deps.card < fuel) :
    RevertLoads fuel target s { s with graph := s.graph.addChange target } := by
  have hunmapped : ∀ id, id ∉ s.epochs.keys := by
    rw [hepochs]
    exact fun id => by simp
  refine ⟨hread, s, ?_, ?_⟩
  · refine Program.bind_eq_ok_iff.mpr ⟨heads, s, loadView_eq_ok_iff.mpr ⟨hview, rfl⟩, ?_⟩
    refine hydrateHeads_eq_ok_iff.mpr ⟨s.graph, hydrateGraph_of_loaded ?_ hfuel.1, rfl⟩
    exact fun h hh => ⟨hunmapped h, hheads h hh⟩
  · refine hydrateHeads_eq_ok_iff.mpr ⟨_, hydrateGraph_of_loaded ?_ hfuel.2, rfl⟩
    intro d hd
    refine ⟨hunmapped d, ?_⟩
    rw [ChangeGraph.get_addChange]
    split_ifs
    · simp
    · exact hdeps d hd

variable [Crypto]

/-! ## The states around the change -/

/-- The states before and after the change. -/
structure StatesAround (wd : WorkDir) (target : Change) (s : Repo)
    (before after : MaterializedState) : Prop where
  before : s.graph.materializeHeads (s.applyEnv wd.agentIgnore) target.deps = .ok before
  after : s.graph.materializeHeads (s.applyEnv wd.agentIgnore) {target.id} = .ok after

theorem StatesAround.unique {before after before' after' : MaterializedState}
    (h : StatesAround wd target s before after) (h' : StatesAround wd target s before' after') :
    before' = before ∧ after' = after :=
  ⟨Except.ok.inj (h'.before.symm.trans h.before), Except.ok.inj (h'.after.symm.trans h.after)⟩

theorem StatesAround.exists_iff {before after : MaterializedState}
    (h : StatesAround wd target s before after) {P : MaterializedState → MaterializedState → Prop} :
    (∃ before after, StatesAround wd target s before after ∧ P before after)
      ↔ P before after := by
  constructor
  · rintro ⟨before', after', h', hP⟩
    obtain ⟨rfl, rfl⟩ := h.unique h'
    exact hP
  · exact fun hP => ⟨before, after, h, hP⟩

theorem materializeNonempty_run (hg : s.graph.Indexed) (wd : WorkDir)
    (heads : Finset Blake3Hash) : materializeNonempty wd heads s
      = match s.graph.materializeHeads (s.applyEnv wd.agentIgnore) heads with
        | .error e => some (.error (.replay e), s)
        | .ok state => some (.ok state, s) := by
  rw [materializeNonempty]
  split_ifs with hempty
  · rw [hempty, ChangeGraph.materializeHeads_empty hg]
    rfl
  · rw [materializeHeads, Program.bind_run, Program.get]
    dsimp only
    cases s.graph.materializeHeads (s.applyEnv wd.agentIgnore) heads <;> rfl

theorem revertPlan_run (h : RevertLoads fuel target s s₁) (plugin : LanguagePlugin) :
    revertPlan fuel wd plugin target.id s = (do
      let stateA ← materializeNonempty wd target.deps
      let stateB ← materializeHeads wd {target.id}
      let revertAtoms ← computeStateDelta plugin stateB stateA
      if revertAtoms = [] then .throw .nothingToRevert
      else do
        let heads ← loadView s.head
        let signer ← signingIdentity
        pure ⟨"revert", s.head, heads,
          Change.new heads revertAtoms (revertIntent target.id) signer.1 signer.2⟩ :
      RepoM Advance) s₁ := by
  obtain ⟨s₀, hheads, hdeps⟩ := h.loads
  have hstored : readChange s₀.store target.id = .ok target := by
    obtain ⟨_, _, _, _, rfl⟩ := hydrate_eq_ok hheads
    exact h.stored
  have hview : currentViewName s = some (.ok s.head, s) := rfl
  unfold revertPlan
  rw [Program.bind_run, hview]
  dsimp only
  rw [Program.bind_run, hheads]
  dsimp only
  rw [Program.bind_run, Program.get]
  dsimp only
  rw [hstored, Program.bind_run, Program.ofExcept]
  dsimp only
  rw [Program.bind_run, graphAddChange, Program.modify]
  dsimp only
  rw [Program.bind_run, hdeps]

/-! ## Outcomes of the plan -/

variable {plugin : LanguagePlugin} {before after : MaterializedState} {atoms : List Atom}
  {contents : List Bytes} {signer : Author × SigningKey}

theorem revertPlan_of_not_around (h : RevertLoads fuel target s s₁) (hg : s₁.graph.Indexed)
    (hnone : ¬ ∃ before after, StatesAround wd target s₁ before after) :
    ∃ e s', revertPlan fuel wd plugin target.id s = some (.error e, s') := by
  rw [revertPlan_run h, Program.bind_run, materializeNonempty_run hg]
  cases hbefore : s₁.graph.materializeHeads (s₁.applyEnv wd.agentIgnore) target.deps with
  | error e => exact ⟨_, _, rfl⟩
  | ok before =>
      dsimp only
      rw [Program.bind_run, materializeHeads, Program.bind_run, Program.get]
      dsimp only
      cases hafter : s₁.graph.materializeHeads (s₁.applyEnv wd.agentIgnore) {target.id} with
      | error e => exact ⟨_, _, rfl⟩
      | ok after => exact absurd ⟨before, after, hbefore, hafter⟩ hnone

theorem revertPlan_around (h : RevertLoads fuel target s s₁) (hg : s₁.graph.Indexed)
    (haround : StatesAround wd target s₁ before after)
    (hdelta : stateDelta plugin after before = .ok (atoms, contents)) :
    revertPlan fuel wd plugin target.id s = (if atoms = [] then .throw .nothingToRevert
      else do
        let heads ← loadView s.head
        let signer ← signingIdentity
        pure ⟨"revert", s.head, heads,
          Change.new heads atoms (revertIntent target.id) signer.1 signer.2⟩ :
      RepoM Advance) { s₁ with blobs := putContents s₁.blobs contents } := by
  have hafter : materializeHeads wd {target.id} s₁ = some (.ok after, s₁) :=
    materializeHeads_eq_ok_iff.mpr ⟨haround.after, rfl⟩
  rw [revertPlan_run h, Program.bind_run, materializeNonempty_run hg, haround.before]
  dsimp only
  rw [Program.bind_run, hafter]
  dsimp only
  rw [Program.bind_run, computeStateDelta_run hdelta]

theorem revertPlan_of_delta_error (h : RevertLoads fuel target s s₁) (hg : s₁.graph.Indexed)
    (haround : StatesAround wd target s₁ before after) {e : RepoError}
    (hdelta : stateDelta plugin after before = .error e) :
    ∃ s', revertPlan fuel wd plugin target.id s = some (.error e, s') := by
  have hafter : materializeHeads wd {target.id} s₁ = some (.ok after, s₁) :=
    materializeHeads_eq_ok_iff.mpr ⟨haround.after, rfl⟩
  obtain ⟨s', hs'⟩ := computeStateDelta_error hdelta s₁
  refine ⟨s', ?_⟩
  rw [revertPlan_run h, Program.bind_run, materializeNonempty_run hg, haround.before]
  dsimp only
  rw [Program.bind_run, hafter]
  dsimp only
  rw [Program.bind_run, hs']

def revertChange (heads : Finset Blake3Hash) (atoms : List Atom) (hash : Blake3Hash)
    (signer : Author × SigningKey) : Change :=
  Change.new heads atoms (revertIntent hash) signer.1 signer.2

theorem revertPlan_of_ne_nil (h : RevertLoads fuel target s s₁) (hg : s₁.graph.Indexed)
    (haround : StatesAround wd target s₁ before after)
    (hdelta : stateDelta plugin after before = .ok (atoms, contents)) (hne : atoms ≠ [])
    (hview : s.views.lookup s.head = some heads) (hsigner : s.identity = some signer) :
    revertPlan fuel wd plugin target.id s
      = some (.ok ⟨"revert", s.head, heads, revertChange heads atoms target.id signer⟩,
        { s₁ with blobs := putContents s₁.blobs contents }) := by
  rw [revertPlan_around h hg haround hdelta, if_neg hne]
  have hload : loadView s.head { s₁ with blobs := putContents s₁.blobs contents }
      = some (.ok heads, { s₁ with blobs := putContents s₁.blobs contents }) := by
    rw [loadView_eq_ok_iff, h.same]
    exact ⟨hview, rfl⟩
  have hsign : signingIdentity { s₁ with blobs := putContents s₁.blobs contents }
      = some (.ok signer, { s₁ with blobs := putContents s₁.blobs contents }) := by
    rw [signingIdentity, Program.bind_run, Program.get, h.same]
    dsimp only
    rw [hsigner]
    rfl
  rw [Program.bind_run, hload]
  dsimp only
  rw [Program.bind_run, hsign]
  rfl

/-! ## Carrying the plan out -/

theorem revert_of_plan_error {hash : Blake3Hash} {e : RepoError}
    (h : revertPlan fuel wd plugin hash s = some (.error e, s₁)) :
    revert fuel wd plugin hash s = some (.error e, s₁) := by
  unfold revert revertCommit
  rw [Program.bind_run, Program.bind_run, h]

/-- The repository when `revert` replays its new change. -/
def revertStaged (view : String) (heads : Finset Blake3Hash) (change : Change) (s : Repo) : Repo :=
  { s with
    store := s.store.putOnce change.id change
    graph := s.graph.addChange change
    redoStack := []
    oplog := ⟨"revert", .generic, view, heads, {change.id}, ∅⟩ :: s.oplog
    views := s.views.insert view {change.id} }

theorem revertCommit_of_plan_ok {hash : Blake3Hash} {view : String} {change : Change}
    (h : revertPlan fuel wd plugin hash s = some (.ok ⟨"revert", view, heads, change⟩, s₁)) :
    revertCommit fuel wd plugin hash s
      = some (.ok ⟨view, heads, {change.id}⟩, revertStaged view heads change s₁) := by
  unfold revertCommit
  rw [Program.bind_run, h]
  rfl

theorem revert_of_plan_ok {hash : Blake3Hash} {view : String} {change : Change}
    (h : revertPlan fuel wd plugin hash s = some (.ok ⟨"revert", view, heads, change⟩, s₁))
    {state : MaterializedState} (hwrite : wd.canWrite state = true)
    (hstate : (s₁.graph.addChange change).materializeHeads (s₁.applyEnv wd.agentIgnore)
      {change.id} = .ok state) :
    ∃ s', revert fuel wd plugin hash s = some (.ok {change.id}, s')
      ∧ s'.views.lookup view = some {change.id} ∧ s'.head = s₁.head
      ∧ s'.graph.materializeHeads (s'.applyEnv wd.agentIgnore) {change.id} = .ok state := by
  let s' := revertStaged view heads change s₁
  have hmat : materializeHeads wd {change.id} s' = some (.ok state, s') :=
    materializeHeads_eq_ok_iff.mpr ⟨hstate, rfl⟩
  refine ⟨s', ?_, ?_, rfl, hstate⟩
  · unfold revert
    refine Program.bind_eq_ok_iff.mpr ⟨_, s', revertCommit_of_plan_ok h, ?_⟩
    refine Program.bind_eq_ok_iff.mpr ⟨state, s', hmat, ?_⟩
    exact Program.bind_eq_ok_iff.mpr
      ⟨(), s', writeStateToWorkingDir_eq_ok_iff.mpr ⟨hwrite, rfl⟩, rfl⟩
  · change (s₁.views.insert view {change.id}).lookup view = _
    rw [FMap.lookup_insert_eq, if_pos rfl]

theorem revert_of_replay_error {hash : Blake3Hash} {view : String} {change : Change}
    (h : revertPlan fuel wd plugin hash s = some (.ok ⟨"revert", view, heads, change⟩, s₁))
    {e : ReplayError} (hstate : (s₁.graph.addChange change).materializeHeads
      (s₁.applyEnv wd.agentIgnore) {change.id} = .error e) :
    ∃ e' s', revert fuel wd plugin hash s = some (.error e', s') := by
  have hmat : materializeHeads wd {change.id} (revertStaged view heads change s₁)
      = some (.error (.replay e), revertStaged view heads change s₁) := by
    rw [materializeHeads, Program.bind_run, Program.get]
    dsimp only
    rw [show (revertStaged view heads change s₁).graph.materializeHeads
      ((revertStaged view heads change s₁).applyEnv wd.agentIgnore) {change.id} = .error e
      from hstate]
    rfl
  unfold revert
  rw [Program.bind_run, revertCommit_of_plan_ok h]
  dsimp only
  rw [Program.bind_run, hmat]
  exact ⟨_, _, rfl⟩

/-! ## The result -/

/-- A successful revert shows the history without the target, and a revert fails only if the
target has changed nothing. `s₁` has the history loaded. -/
structure RevertsExactly (fuel : ℕ) (wd : WorkDir) (plugin : LanguagePlugin) (target : Change)
    (heads : Finset Blake3Hash) (s s₁ : Repo) : Prop where
  restores : ∀ newHeads s', revert fuel wd plugin target.id s = some (.ok newHeads, s') →
    s'.views.lookup s'.head = some newHeads
      ∧ ∃ state, s'.graph.materializeHeads (s'.applyEnv wd.agentIgnore) newHeads = .ok state
        ∧ s₁.graph.replayWithout (s₁.applyEnv wd.agentIgnore) heads target.id = .ok state
  fails : ∀ e s', revert fuel wd plugin target.id s = some (.error e, s') →
    ∃ state, StatesAround wd target s₁ state state

/-- The texts can be parsed, some item is read differently in them, and every item that the one
loses is there to be removed. -/
structure DeltaApplies (parser : ItemParser) (sources : String → String × String)
    (current : MaterializedState) : Prop where
  parses : DeltaParses parser sources
  differs : ReadingsDiffer parser sources
  found : ∀ filepath path,
    parser.itemsOf (sources filepath).1 path ≠ parser.itemsOf (sources filepath).2 path →
    (parser.itemsOf (sources filepath).1 path).isSome → (itemAt current filepath path).isSome

/-- Every item that the target changes is read differently in the texts, and the second one has it
as it was before the target. Every other item is read alike, or in the second text as it is now. -/
def CarriesBack (parser : ItemParser) (sources : String → String × String)
    (before after current : MaterializedState) : Prop :=
  ∀ filepath, ∀ path ≠ [],
    (itemAt before filepath path ≠ itemAt after filepath path →
        parser.itemsOf (sources filepath).2 path = itemAt before filepath path
          ∧ parser.itemsOf (sources filepath).1 path ≠ parser.itemsOf (sources filepath).2 path)
      ∧ (itemAt before filepath path = itemAt after filepath path →
        parser.itemsOf (sources filepath).1 path = parser.itemsOf (sources filepath).2 path
          ∨ parser.itemsOf (sources filepath).2 path = itemAt current filepath path)

omit [Crypto] in
/-- Where the plugin reads the states back, every item is carried back. -/
theorem carriesBack_of_readsBack {parser : ItemParser}
    {unparse : MaterializedState → String → String} (hbefore : parser.ReadsBack unparse before)
    (hafter : parser.ReadsBack unparse after) (hempty : parser.items "" = .ok ∅)
    (current : MaterializedState) :
    CarriesBack parser (deltaSources unparse after before) before after current := by
  intro filepath path hpath
  obtain ⟨hold, hnew⟩ := itemsOf_deltaSources hafter hbefore hempty filepath hpath
  rw [hold, hnew]
  exact ⟨fun hne => ⟨rfl, hne.symm⟩, fun heq => .inl heq.symm⟩

section Patch

variable {parser : ItemParser} {unparse : MaterializedState → String → String}
  {store : BlobStore} {current without : MaterializedState}

theorem safe_stateDelta_iff
    (hdelta : stateDelta (parser.plugin unparse) after before = .ok (atoms, contents))
    (hread : ArcVcs.Readable store contents) (hne : atoms ≠ []) :
    (∀ key, EntryOp.Safe (current.lookup key).isSome (opsAtKey store key atoms) = true)
      ↔ DeltaApplies parser (deltaSources unparse after before) current := by
  constructor
  · intro hsafe
    refine ⟨exists_stateDelta_iff.mp ⟨_, hdelta⟩, (stateDelta_ne_nil_iff hdelta hread).mp hne,
      fun filepath path => ?_⟩
    have hkey := hsafe ("file" :: filepath :: path)
    rwa [opsAtKey_stateDelta hdelta hread, EntryOp.safe_diff_iff] at hkey
  · intro h key
    by_cases hkey : IsItem key
    · obtain ⟨filepath, path, -, rfl⟩ := hkey
      rw [opsAtKey_stateDelta hdelta hread, EntryOp.safe_diff_iff]
      exact h.found filepath path
    · rw [opsAtKey_stateDelta_of_not_isItem hdelta hread hkey]
      rfl

/-- The patch leads to the history without the target exactly when it carries every item back and
nothing else differs. -/
theorem final_stateDelta_iff (hg : s₁.graph.Indexed) (hac : s₁.graph.Acyclic)
    (hget : s₁.graph.get target.id = some target)
    (hmem : target.id ∈ s₁.graph.ancestorsInclusive heads)
    (hothers : s₁.graph.OthersDisjoint heads target)
    (hcurrent : s₁.graph.materializeHeads (s₁.applyEnv wd.agentIgnore) heads = .ok current)
    (hwithout : s₁.graph.replayWithout (s₁.applyEnv wd.agentIgnore) heads target.id = .ok without)
    (haround : StatesAround wd target s₁ before after)
    (hdelta : stateDelta (parser.plugin unparse) after before = .ok (atoms, contents))
    (hread : ArcVcs.Readable store contents) {out : MaterializedState}
    (hout : ∀ key, out.lookup key
      = EntryOp.final (current.lookup key) (opsAtKey store key atoms)) :
    out = without
      ↔ CarriesBack parser (deltaSources unparse after before) before after current
        ∧ SameOthers current without := by
  have hout' : ∀ filepath path, itemAt out filepath path = EntryOp.final
      (itemAt current filepath path)
      (EntryOp.diff (parser.itemsOf (deltaSources unparse after before filepath).1 path)
        (parser.itemsOf (deltaSources unparse after before filepath).2 path)) := by
    intro filepath path
    rw [← opsAtKey_stateDelta hdelta hread]
    exact hout _
  have hitem := fun filepath path (hpath : path ≠ []) => EntryOp.final_diff_eq_iff
    (parser.itemsOf (deltaSources unparse after before filepath).1 path)
    (parser.itemsOf (deltaSources unparse after before filepath).2 path)
    (ChangeGraph.item_cases rfl hg hac hget hmem hothers hcurrent hwithout haround.before
      haround.after filepath hpath)
  have hother : ∀ key, ¬ IsItem key → out.lookup key = current.lookup key := fun key hkey => by
    rw [hout, opsAtKey_stateDelta_of_not_isItem hdelta hread hkey]
    rfl
  constructor
  · rintro rfl
    exact ⟨fun filepath path hpath => (hitem filepath path hpath).mp (hout' filepath path).symm,
      fun key hkey => (hother key hkey).symm⟩
  · rintro ⟨hitems, hothers'⟩
    refine Finmap.ext_lookup fun key => ?_
    by_cases hkey : IsItem key
    · obtain ⟨filepath, path, hpath, rfl⟩ := hkey
      exact (hout' filepath path).trans
        ((hitem filepath path hpath).mpr (hitems filepath path hpath))
    · rw [hother key hkey, hothers' key hkey]

end Patch

/-- A revert that fails is exact only where the target has changed nothing. -/
theorem revertsExactly_of_error (haround : StatesAround wd target s₁ before after)
    {e : RepoError} {s' : Repo}
    (hrun : revert fuel wd plugin target.id s = some (.error e, s')) :
    RevertsExactly fuel wd plugin target heads s s₁ ↔ before = after := by
  constructor
  · intro h
    obtain ⟨state, hstate⟩ := h.fails _ _ hrun
    obtain ⟨rfl, rfl⟩ := haround.unique hstate
    rfl
  · rintro rfl
    refine ⟨fun newHeads s'' hok => ?_, fun _ _ _ => ⟨before, haround⟩⟩
    simp [hrun] at hok

theorem not_revertsExactly_of_not_around (h : RevertLoads fuel target s s₁) (hg : s₁.graph.Indexed)
    (hnone : ¬ ∃ before after, StatesAround wd target s₁ before after) :
    ¬ RevertsExactly fuel wd plugin target heads s s₁ := by
  intro hexact
  obtain ⟨e, s', hplan⟩ := revertPlan_of_not_around h hg hnone
  obtain ⟨state, hstate⟩ := hexact.fails e s' (revert_of_plan_error hplan)
  exact hnone ⟨state, state, hstate⟩

/-- A revert that returns is exact when it ends in the history without the target. -/
theorem revertsExactly_of_ok {newHeads : Finset Blake3Hash} {state without : MaterializedState}
    {s' : Repo} (hrun : revert fuel wd plugin target.id s = some (.ok newHeads, s'))
    (hview : s'.views.lookup s'.head = some newHeads)
    (hstate : s'.graph.materializeHeads (s'.applyEnv wd.agentIgnore) newHeads = .ok state)
    (hwithout : s₁.graph.replayWithout (s₁.applyEnv wd.agentIgnore) heads target.id
      = .ok without) :
    RevertsExactly fuel wd plugin target heads s s₁ ↔ state = without := by
  constructor
  · intro h
    obtain ⟨-, state', hsame, hequal⟩ := h.restores _ _ hrun
    obtain rfl : state = state' := Except.ok.inj (hstate.symm.trans hsame)
    exact Except.ok.inj (hequal.symm.trans hwithout)
  · rintro rfl
    refine ⟨fun newHeads' s'' hok => ?_, fun e s'' herr => ?_⟩
    · obtain ⟨rfl, rfl⟩ : newHeads = newHeads' ∧ s' = s'' := by simpa [hrun] using hok
      exact ⟨hview, state, hstate, hwithout⟩
    · simp [hrun] at herr

/-- **A revert is exact iff** the states around the target can be replayed and, where the
difference of their texts applies to the current state, it carries every item back and the target
makes no difference to the history but in items; where it does not, the states are equal. -/
theorem revert_exact_iff {parser : ItemParser} {unparse : MaterializedState → String → String}
    {current : MaterializedState} (hs : Loaded s.store s.graph)
    (hload : RevertLoads fuel target s s₁) (hac : s₁.graph.Acyclic)
    (hview : s.views.lookup s.head = some heads)
    (hmem : target.id ∈ s₁.graph.ancestorsInclusive heads)
    (hcurrent : s₁.graph.materializeHeads (s₁.applyEnv wd.agentIgnore) heads = .ok current)
    (hothers : s₁.graph.OthersDisjoint heads target)
    (hblobs : ∀ before after atoms contents, StatesAround wd target s₁ before after →
      stateDelta (parser.plugin unparse) after before = .ok (atoms, contents) →
      Storable s.blobs contents)
    (hsigner : s.identity = some signer)
    (hnew : ∀ plan s₂, revertPlan fuel wd (parser.plugin unparse) target.id s
        = some (.ok plan, s₂) →
      plan.change.violates (s₂.applyEnv wd.agentIgnore) = false
        ∧ ∀ c', s₂.graph.get plan.change.id = some c' → c'.payload = plan.change.payload)
    (hwrite : ∀ state, wd.canWrite state = true) :
    RevertsExactly fuel wd (parser.plugin unparse) target heads s s₁
      ↔ ∃ before after, StatesAround wd target s₁ before after
        ∧ (¬ DeltaApplies parser (deltaSources unparse after before) current → before = after)
        ∧ (DeltaApplies parser (deltaSources unparse after before) current →
          CarriesBack parser (deltaSources unparse after before) before after current
            ∧ ∀ without, s₁.graph.replayWithout (s₁.applyEnv wd.agentIgnore) heads target.id
                = .ok without → SameOthers current without) := by
  have hloaded := hload.loaded hs
  have hget := hload.get
  have hg := hloaded.indexed
  by_cases haround : ∃ before after, StatesAround wd target s₁ before after
  case neg =>
    exact iff_of_false (not_revertsExactly_of_not_around hload hg haround)
      fun ⟨before, after, h, _⟩ => haround ⟨before, after, h⟩
  obtain ⟨before, after, haround⟩ := haround
  rw [haround.exists_iff]
  have hfailed : ∀ {e s'}, revert fuel wd (parser.plugin unparse) target.id s
      = some (.error e, s') →
      ¬ DeltaApplies parser (deltaSources unparse after before) current → ∀ P : Prop,
      (RevertsExactly fuel wd (parser.plugin unparse) target heads s s₁
        ↔ (¬ DeltaApplies parser (deltaSources unparse after before) current → before = after)
          ∧ (DeltaApplies parser (deltaSources unparse after before) current → P)) := by
    intro e s' hrun hnot P
    rw [revertsExactly_of_error haround hrun]
    exact ⟨fun heq => ⟨fun _ => heq, fun happlies => absurd happlies hnot⟩, fun h => h.1 hnot⟩
  cases hdelta : stateDelta (parser.plugin unparse) after before with
  | error e =>
      obtain ⟨s', hplan⟩ := revertPlan_of_delta_error hload hg haround hdelta
      refine hfailed (revert_of_plan_error hplan) (fun happlies => ?_) _
      obtain ⟨out, hok⟩ := exists_stateDelta_iff.mpr happlies.parses
      simp [hdelta] at hok
  | ok out =>
      obtain ⟨atoms, contents⟩ := out
      have hread : ArcVcs.Readable (readBlob (putContents s₁.blobs contents)) contents := by
        intro content hc
        rw [hload.same]
        exact (hblobs before after atoms contents haround hdelta).readBlob hc
      by_cases hne : atoms = []
      case pos =>
        have hplan := revertPlan_around hload hg haround hdelta
        rw [if_pos hne] at hplan
        exact hfailed (revert_of_plan_error hplan) (fun happlies =>
          (stateDelta_ne_nil_iff hdelta hread).mpr happlies.differs hne) _
      obtain ⟨without, hwithout⟩ :=
        ChangeGraph.exists_replayWithout hg hac hget hmem hothers hcurrent
      have hplan := revertPlan_of_ne_nil hload hg haround hdelta hne hview hsigner
      obtain ⟨hguard, hpayload⟩ := hnew _ _ hplan
      have hcurrent' :=
        (s₁.readsMore_putContents contents wd.agentIgnore).materializeHeads hg hcurrent
      rcases ChangeGraph.materializeHeads_onTop_cases hg hac hpayload rfl hguard
        (writesOrRemoves_of_stateDelta hdelta hread) hcurrent' with
        ⟨hsafe, state, hstate, hentries⟩ | ⟨hlacks, path, herror⟩
      · have happlies := (safe_stateDelta_iff hdelta hread hne).mp hsafe
        have hexact := final_stateDelta_iff hg hac hget hmem hothers hcurrent hwithout haround
          hdelta hread hentries
        obtain ⟨s', hrun, hviews, hhead, hstate'⟩ := revert_of_plan_ok hplan (hwrite state) hstate
        rw [show s₁.head = s.head by rw [hload.same]] at hhead
        rw [← hhead] at hviews
        rw [revertsExactly_of_ok hrun hviews hstate' hwithout, hexact]
        constructor
        · rintro ⟨hitems, hrest⟩
          refine ⟨fun hnot => absurd happlies hnot, fun _ => ⟨hitems, fun other hother => ?_⟩⟩
          rwa [Except.ok.inj (hother.symm.trans hwithout)]
        · rintro ⟨-, h⟩
          obtain ⟨hitems, hrest⟩ := h happlies
          exact ⟨hitems, hrest without hwithout⟩
      · obtain ⟨e, s', hrun⟩ := revert_of_replay_error hplan herror
        exact hfailed hrun (fun happlies =>
          hlacks ((safe_stateDelta_iff hdelta hread hne).mpr happlies)) _

def addFunction : Change :=
  @Change.new Crypto.sample ∅ [putFunction "fn f(){}"] "snap" (.human "" "" 0) 0

def oneFunctionHistory : Repo := ofHistory [addFunction] {addFunction.id} [utf8 "fn f(){}"]

omit [Crypto] in
theorem revert_exact_oneFunctionHistory :
    let plugin := @ItemParser.plugin Crypto.sample oneFunction (unparseOneOf ["fn f(){}"])
    @RevertsExactly Crypto.sample 2 anyWorkDir plugin addFunction {addFunction.id}
      oneFunctionHistory
      { oneFunctionHistory with graph := oneFunctionHistory.graph.addChange addFunction } := by
  let s₁ : Repo :=
    { oneFunctionHistory with graph := oneFunctionHistory.graph.addChange addFunction }
  have hload : RevertLoads 2 addFunction oneFunctionHistory s₁ := @RevertLoads.of_loaded _ _ _
    {addFunction.id} (by decide +kernel) rfl (by decide +kernel) (by decide +kernel)
    (by decide) (by decide)
  have haround : @StatesAround Crypto.sample anyWorkDir addFunction s₁ ∅
      (Finmap.singleton functionKey (utf8 "fn f(){}")) :=
    @StatesAround.mk Crypto.sample _ _ _ _ _ (by decide +kernel) (by decide +kernel)
  have hdelta : @stateDelta (@ItemParser.plugin Crypto.sample oneFunction
      (unparseOneOf ["fn f(){}"])) (Finmap.singleton functionKey (utf8 "fn f(){}")) ∅
        = .ok ([.delete functionKey (@Crypto.hashBytes Crypto.sample (utf8 "fn f(){}"))],
          [utf8 "fn f(){}"]) := by decide +kernel
  have hitem : IsItem functionKey := ⟨"a.rs", ["source_file", "function_item[f]"], by decide, rfl⟩
  have hempty : oneFunction.ReadsBack (unparseOneOf ["fn f(){}"]) ∅ :=
    readsBack_of_no_items fun _ _ _ => rfl
  have hone := @readsBack_function ["fn f(){}"] "fn f(){}" (by decide +kernel) (by decide)
  have happlies : DeltaApplies oneFunction (deltaSources (unparseOneOf ["fn f(){}"])
      (Finmap.singleton functionKey (utf8 "fn f(){}")) ∅)
      (Finmap.singleton functionKey (utf8 "fn f(){}")) := by
    refine ⟨(@exists_stateDelta_iff Crypto.sample _ _ _ _).mp ⟨_, hdelta⟩,
      ⟨"a.rs", ["source_file", "function_item[f]"], by decide +kernel⟩, fun filepath path _ => ?_⟩
    by_cases hpath : path = []
    · simp [hpath, ItemParser.itemsOf_nil]
    · rw [(itemsOf_deltaSources hone hempty rfl filepath hpath).1]
      exact id
  refine (@revert_exact_iff oneFunctionHistory s₁ 2 anyWorkDir addFunction {addFunction.id}
    Crypto.sample (.human "" "" 0, 0) oneFunction _ (Finmap.singleton functionKey (utf8 "fn f(){}"))
    (Loaded.ofChanges (by decide)) hload ?_ ?_ ?_ ?_ ?_ ?_ ?_ ?_ ?_).mpr
    ⟨_, _, haround, fun hnot => absurd happlies hnot, fun _ =>
      ⟨carriesBack_of_readsBack hempty hone rfl _, fun without hwithout => ?_⟩⟩
  · exact ChangeGraph.acyclic_of_lt (by decide)
  · decide
  · decide
  · decide +kernel
  · exact .singleton _ _
  · intro before after atoms contents h hok
    obtain ⟨rfl, rfl⟩ := @StatesAround.unique _ _ _ Crypto.sample _ _ _ _ haround h
    obtain rfl : contents = [utf8 "fn f(){}"] :=
      congrArg Prod.snd (Except.ok.inj (hok.symm.trans hdelta))
    exact @Storable.of_all Crypto.sample _ _ (by decide +kernel) (by decide +kernel)
  · rfl
  · intro plan s₂ hplan
    have hindexed : s₁.graph.Indexed :=
      (hload.loaded (Loaded.ofChanges (by decide))).indexed
    have hknown := @revertPlan_of_ne_nil oneFunctionHistory s₁ 2 anyWorkDir addFunction
      {addFunction.id} Crypto.sample _ _ _ _ _ (.human "" "" 0, 0) hload
      hindexed haround hdelta (by decide) rfl rfl
    rw [hknown] at hplan
    cases hplan
    refine ⟨rfl, fun c' hc' => ?_⟩
    have hnone : s₁.graph.get (@revertChange Crypto.sample {addFunction.id}
        [.delete functionKey (@Crypto.hashBytes Crypto.sample (utf8 "fn f(){}"))] addFunction.id
        (.human "" "" 0, 0)).id = none := by decide
    exact absurd (hc'.symm.trans hnone) (by simp)
  · exact fun _ => rfl
  · have hknown : s₁.graph.replayWithout (@applyEnv Crypto.sample s₁ anyWorkDir.agentIgnore)
        {addFunction.id} addFunction.id = .ok ∅ := by decide
    rw [← Except.ok.inj (hknown.symm.trans hwithout)]
    intro key hkey
    rw [FMap.lookup_singleton, if_neg]
    · rfl
    · rintro rfl
      exact hkey hitem

def addAsset : Change :=
  @Change.new Crypto.sample ∅ [.blob "logo.png" 7 1] "snap" (.human "" "" 0) 0

def oneAssetHistory : Repo := ofHistory [addAsset] {addAsset.id} []

omit [Crypto] in
/-- The asset cannot be reverted. -/
theorem revert_refuses_asset :
    ¬ ∀ (fuel : ℕ) (wd : WorkDir) (parser : ItemParser)
      (unparse : MaterializedState → String → String) (target : Change)
      (heads : Finset Blake3Hash) (s s₁ : Repo) (current : MaterializedState),
      Loaded s.store s.graph → RevertLoads fuel target s s₁ → s₁.graph.Acyclic →
      s.views.lookup s.head = some heads → target.id ∈ s₁.graph.ancestorsInclusive heads →
      s₁.graph.materializeHeads (@applyEnv Crypto.sample s₁ wd.agentIgnore) heads = .ok current →
      s₁.graph.OthersDisjoint heads target → parser.items "" = .ok ∅ →
      (∀ before after, @StatesAround Crypto.sample wd target s₁ before after →
        parser.ReadsBack unparse before ∧ parser.ReadsBack unparse after) →
      (∃ signer, s.identity = some signer) → (∀ state, wd.canWrite state = true) →
      @RevertsExactly Crypto.sample fuel wd (@ItemParser.plugin Crypto.sample parser unparse) target
        heads s s₁ := by
  intro h
  let s₁ : Repo := { oneAssetHistory with graph := oneAssetHistory.graph.addChange addAsset }
  have hload : RevertLoads 2 addAsset oneAssetHistory s₁ := @RevertLoads.of_loaded _ _ _
    {addAsset.id} (by decide +kernel) rfl (by decide +kernel) (by decide +kernel)
    (by decide) (by decide)
  have haround : @StatesAround Crypto.sample anyWorkDir addAsset s₁ ∅
      (Finmap.singleton ["file", "logo.png"] (blobToken 7)) :=
    @StatesAround.mk Crypto.sample _ _ _ _ _ (by decide +kernel) (by decide +kernel)
  have hexact := h 2 anyWorkDir oneFunction (unparseOneOf []) addAsset {addAsset.id}
    oneAssetHistory s₁ (Finmap.singleton ["file", "logo.png"] (blobToken 7))
    (Loaded.ofChanges (by decide)) hload (ChangeGraph.acyclic_of_lt (by decide))
    (by decide +kernel) (by decide +kernel) (by decide +kernel) (.singleton _ _) rfl ?_
    ⟨_, rfl⟩ fun _ => rfl
  · have hfails : (@revert Crypto.sample 2 anyWorkDir (@ItemParser.plugin Crypto.sample oneFunction
        (unparseOneOf [])) addAsset.id oneAssetHistory).map Prod.fst
          = some (.error .nothingToRevert) := by decide
    obtain ⟨⟨out, s'⟩, hrun, rfl⟩ := Option.map_eq_some_iff.mp hfails
    obtain ⟨state, hstate⟩ := @RevertsExactly.fails Crypto.sample _ _ _ _ _ _ _ hexact _ s' hrun
    obtain ⟨hbefore, hafter⟩ := @StatesAround.unique _ _ _ Crypto.sample _ _ _ _ haround hstate
    have hsame := hbefore.symm.trans hafter
    revert hsame
    decide
  · intro before after haround'
    obtain ⟨rfl, rfl⟩ := @StatesAround.unique _ _ _ Crypto.sample _ _ _ _ haround haround'
    refine ⟨readsBack_of_no_items fun _ _ _ => rfl,
      readsBack_of_no_items fun filepath path hpath => ?_⟩
    rw [itemAt, FMap.lookup_singleton, if_neg]
    simp [hpath]

end Repo

end ArcVcs
