import ArcVcs.HeadMoves
import ArcVcs.Histories

/-!
# Cherry-picks and the cache

`cherry_pick` checks a stored change against the ancestors of the view that are no ancestors of the
change. Hydration loads the history of the view only, so the ancestors of a change that the view has
not are known where another command has loaded it, and are the change alone in a new process.
-/

namespace ArcVcs

variable {store : FMap Blake3Hash Change} {epochs : FMap Blake3Hash Blake3Hash}
  {heads : Finset Blake3Hash} {change : Change} {g g' : ChangeGraph} {fuel : ℕ}

/-! ## What the check accepts -/

/-- Every dependency of the change is an ancestor of the heads, and the change commutes with every
ancestor of the heads that the graph does not know as an ancestor of the change. -/
structure ChangeGraph.AcceptsPick (g : ChangeGraph) (heads : Finset Blake3Hash)
    (change : Change) : Prop where
  deps : ∀ d ∈ change.deps, d ∈ g.ancestors heads
  commute : ∀ id ∈ g.ancestors heads, id ∉ g.ancestors {change.id} →
    ∃ c, g.get id = some c ∧ commutes change c = true

namespace Repo

variable {s : Repo} {hash : Blake3Hash}

theorem checkExclusive_eq_ok_iff {ids : List Blake3Hash} {s' : Repo} :
    checkExclusive g change ids s = some (.ok (), s')
      ↔ s' = s ∧ ∀ id ∈ ids, ∃ c, g.get id = some c ∧ commutes change c = true := by
  induction ids with
  | nil =>
      rw [checkExclusive, Program.pure_run]
      simpa using eq_comm
  | cons id ids ih =>
      rw [checkExclusive]
      cases hget : g.get id with
      | none => simp [Program.throw, hget]
      | some c =>
          dsimp only
          split_ifs with hc
          · simp [ih, hget, hc]
          · simp [Program.throw, hget, hc]

/-- The pick goes through, with enough fuel for its hydration. -/
def Picks (s : Repo) (hash : Blake3Hash) : Prop :=
  ∃ fuel move s', cherryPickCommit fuel hash s = some (.ok move, s')

/-- What is left of the pick when the history of the view is loaded. -/
def pickHydrated (g : ChangeGraph) (view : String) (heads : Finset Blake3Hash) (change : Change) :
    RepoM HeadMove :=
  match change.deps.sorted.find? (· ∉ g.ancestors heads) with
  | some dep => .throw (.missingDependency dep)
  | none => do
      checkExclusive g change (g.ancestors heads \ g.ancestors {change.id}).sorted
      graphAddChange change
      saveView view (insert change.id heads)
      logOperation "cherry-pick" view heads (insert change.id heads)
      pure ⟨view, heads, insert change.id heads⟩

theorem cherryPickCommit_of_hydrateGraph (hview : s.views.lookup s.head = some heads)
    (hread : readChange s.store change.id = .ok change)
    (hg : hydrateGraph fuel s.store s.epochs s.graph heads = some (.ok g)) :
    cherryPickCommit fuel change.id s
      = pickHydrated g s.head heads change { s with graph := g } := by
  have hload (s₁ : Repo) (h : s₁.views = s.views) : loadView s.head s₁ = some (.ok heads, s₁) :=
    loadView_eq_ok_iff.mpr ⟨h ▸ hview, rfl⟩
  have hhydrate : hydrate fuel s.head s = some (.ok (), { s with graph := g }) := by
    rw [hydrate, Program.bind_run, hload s rfl]
    exact hydrateHeads_eq_ok_iff.mpr ⟨g, hg, rfl⟩
  have hname : currentViewName s = some (.ok s.head, s) := rfl
  rw [cherryPickCommit, Program.bind_run, hname]
  dsimp only
  rw [Program.bind_run, hhydrate]
  dsimp only [Program.bind_run, Program.get, Program.ofExcept]
  rw [hread]
  dsimp only
  rw [hload { s with graph := g } rfl]
  rfl

theorem pickHydrated_eq_ok_iff {view : String} :
    (∃ move s', pickHydrated g view heads change s = some (.ok move, s'))
      ↔ g.AcceptsPick heads change := by
  unfold pickHydrated
  cases hfind : change.deps.sorted.find? (· ∉ g.ancestors heads) with
  | some dep =>
      have hdep := List.find?_some hfind
      have hmem := List.mem_of_find?_eq_some hfind
      refine iff_of_false (by simp [Program.throw]) fun h => ?_
      simp [h.deps dep (Finset.mem_sorted.mp hmem)] at hdep
  | none =>
      have hdeps : ∀ d ∈ change.deps, d ∈ g.ancestors heads := by simpa using hfind
      dsimp only
      constructor
      · rintro ⟨move, s', h⟩
        obtain ⟨_, _, hcheck, -⟩ := Program.bind_eq_ok_iff.mp h
        obtain ⟨-, hall⟩ := checkExclusive_eq_ok_iff.mp hcheck
        exact ⟨hdeps, fun id hid hnot => hall id (by simp [hid, hnot])⟩
      · intro h
        have hcheck : checkExclusive g change (g.ancestors heads \ g.ancestors {change.id}).sorted s
            = some (.ok (), s) := by
          refine checkExclusive_eq_ok_iff.mpr ⟨rfl, fun id hid => ?_⟩
          obtain ⟨hid, hnot⟩ := Finset.mem_sdiff.mp (Finset.mem_sorted.mp hid)
          exact h.commute id hid hnot
        rw [Program.bind_run, hcheck]
        exact ⟨_, _, rfl⟩

theorem picks_iff (hview : s.views.lookup s.head = some heads)
    (hread : readChange s.store hash = .ok change) :
    s.Picks hash ↔ ∃ fuel g, hydrateGraph fuel s.store s.epochs s.graph heads = some (.ok g)
      ∧ g.AcceptsPick heads change := by
  obtain ⟨-, rfl⟩ := readChange_eq_ok_iff.mp hread
  constructor
  · rintro ⟨fuel, move, s', h⟩
    obtain ⟨_, _, hname, hrest⟩ := Program.bind_eq_ok_iff.mp h
    cases hname
    obtain ⟨_, _, hhydrate, -⟩ := Program.bind_eq_ok_iff.mp hrest
    obtain ⟨_, g, hlook, hg, -⟩ := hydrate_eq_ok hhydrate
    obtain rfl := Option.some_inj.mp (hview.symm.trans hlook)
    rw [cherryPickCommit_of_hydrateGraph hview hread hg] at h
    exact ⟨fuel, g, hg, pickHydrated_eq_ok_iff.mp ⟨move, s', h⟩⟩
  · rintro ⟨fuel, g, hg, haccept⟩
    refine ⟨fuel, ?_⟩
    rw [cherryPickCommit_of_hydrateGraph hview hread hg]
    exact pickHydrated_eq_ok_iff.mpr haccept

end Repo

/-! ## What the repository says -/

/-- Every dependency of the change is in the history of the heads, and the change commutes with
every change of that history that is not in its own. -/
structure Pickable (store : FMap Blake3Hash Change) (heads : Finset Blake3Hash)
    (change : Change) : Prop where
  deps : ∀ d ∈ change.deps, d ∈ History store heads
  commute : ∀ c ∈ storedChanges store, c.id ∈ History store heads →
    c.id ∉ History store {change.id} → commutes change c = true

/-- What a process may have in memory: records of the store, with every dependency of a record
that it has, or else redirected. -/
structure Cached (store : FMap Blake3Hash Change) (epochs : FMap Blake3Hash Blake3Hash)
    (g : ChangeGraph) : Prop where
  loaded : Repo.Loaded store g
  deps : ∀ x c, g.get x = some c → ∀ d ∈ c.deps, g.get d ≠ none ∨ d ∈ epochs.keys

theorem Cached.new (store : FMap Blake3Hash Change) (epochs : FMap Blake3Hash Blake3Hash) :
    Cached store epochs .new :=
  ⟨.new store, fun x c h => by simp at h⟩

/-- An id that is not loaded would have failed the check, so it is known as an ancestor of the
change, and what it leads to is in the history of the change. -/
theorem ChangeGraph.AcceptsPick.mem_ancestors_or (hg : Repo.Loaded store g)
    (h : g.AcceptsPick heads change) {id : Blake3Hash} (hid : id ∈ History store heads) :
    id ∈ g.ancestors heads ∨ id ∈ History store {change.id} := by
  obtain ⟨x, hx, hlead⟩ := hid
  induction hlead with
  | refl => exact .inl (ChangeGraph.mem_ancestorsInclusive.mpr ⟨x, hx, .refl⟩)
  | @tail y d _ hstep ih =>
      obtain ⟨c, hc, rfl, hd⟩ := hstep
      by_cases hown : c.id ∈ History store {change.id}
      · exact .inr (mem_history_of_mem_deps hown hc hd)
      · have hy := ih.resolve_right hown
        obtain ⟨c', hget, -⟩ := h.commute _ hy fun hmem => hown (hg.mem_history hmem)
        obtain ⟨z, hz, hreach⟩ := ChangeGraph.mem_ancestorsInclusive.mp hy
        have hsame := Except.ok.inj ((hg.stored _ _ hget).symm.trans hc)
        refine .inl (ChangeGraph.mem_ancestorsInclusive.mpr ⟨z, hz, hreach.tail ?_⟩)
        rwa [ChangeGraph.DependsOn, hg.indexed.deps_eq hget, hsame]

theorem Cached.of_hydrating (h : Hydrating store heads [] g) : Cached store epochs g :=
  ⟨h.loaded, fun x c hc d hd => .inl ((h.deps x c hc d hd).resolve_left List.not_mem_nil)⟩

theorem ChangeGraph.AcceptsPick.pickable (hg : Repo.Loaded store g)
    (h : g.AcceptsPick heads change) : Pickable store heads change where
  deps d hd := hg.mem_history (h.deps d hd)
  commute c hc hmem hnot := by
    have hknown := (h.mem_ancestors_or hg hmem).resolve_right hnot
    obtain ⟨c', hget, hcomm⟩ := h.commute c.id hknown fun hown => hnot (hg.mem_history hown)
    rwa [Except.ok.inj ((hg.stored _ _ hget).symm.trans hc)] at hcomm

theorem history_singleton_of_no_deps {id : Blake3Hash}
    (hread : Repo.readChange store id = .ok change) (hdeps : change.deps = ∅) :
    History store {id} = {id} := by
  refine Set.Subset.antisymm (history_subset (by simp) fun x hx c hc d hd => ?_) ?_
  · obtain rfl := Set.mem_singleton_iff.mp hx
    obtain rfl := Except.ok.inj (hread.symm.trans hc)
    simp [hdeps] at hd
  · exact Set.singleton_subset_iff.mpr (mem_history_of_mem (Finset.mem_singleton_self id))

theorem history_singleton_subset {id : Blake3Hash} (hid : id ∈ History store heads) :
    History store {id} ⊆ History store heads :=
  history_subset (by simpa using hid) fun _ hx _ hc _ hd => mem_history_of_mem_deps hx hc hd

/-- With the history of the view in memory the check accepts everything that is right, as long as
it knows the ancestors of the change. -/
theorem Pickable.acceptsPick (hg : Repo.Loaded store g)
    (hall : ∀ x ∈ History store heads, g.get x ≠ none)
    (hknown : ∀ x ∈ History store {change.id}, x ∈ g.ancestors {change.id})
    (h : Pickable store heads change) : g.AcceptsPick heads change where
  deps d hd := (hg.mem_ancestorsInclusive_iff hall).mpr (h.deps d hd)
  commute id hid hnot := by
    have hmem : id ∈ History store heads := (hg.mem_ancestorsInclusive_iff hall).mp hid
    obtain ⟨c, hget⟩ := Option.ne_none_iff_exists'.mp (hall id hmem)
    have hc := hg.stored id c hget
    obtain ⟨-, rfl⟩ := Repo.readChange_eq_ok_iff.mp hc
    exact ⟨c, hget, h.commute c hc hmem fun hown => hnot (hknown c.id hown)⟩

/-! ## Processes that have loaded different changes -/

/-- The answer to the pick is the same whatever is in memory, and is what the repository says. -/
structure Repo.PicksByRepository (s : Repo) (heads : Finset Blake3Hash) (change : Change) :
    Prop where
  same : ∀ g g', Cached s.store s.epochs g → Cached s.store s.epochs g' →
    ({ s with graph := g }.Picks change.id ↔ { s with graph := g' }.Picks change.id)
  accepted : ∀ g, Cached s.store s.epochs g →
    ({ s with graph := g }.Picks change.id ↔ Pickable s.store heads change)

/-- Either the change is to be refused, or the history of the view can be read, without redirects,
and the change is in it or depends on nothing. -/
def Repo.AncestorsKnown (s : Repo) (heads : Finset Blake3Hash) (change : Change) : Prop :=
  ¬ Pickable s.store heads change ∨ Live s.store s.epochs heads
    ∧ (change.id ∈ History s.store heads ∨ change.deps = ∅)

variable {s : Repo} {hash : Blake3Hash}

theorem Repo.Picks.pickable (hview : s.views.lookup s.head = some heads)
    (hread : Repo.readChange s.store hash = .ok change) (hg : Repo.Loaded s.store s.graph)
    (h : s.Picks hash) : Pickable s.store heads change := by
  obtain ⟨fuel, g, hrun, haccept⟩ := (Repo.picks_iff hview hread).mp h
  exact haccept.pickable (hg.hydrateGraph hrun)

theorem Pickable.picks (hview : s.views.lookup s.head = some heads)
    (hread : Repo.readChange s.store hash = .ok change) (hg : Cached s.store s.epochs s.graph)
    (hlive : Live s.store s.epochs heads)
    (hknown : hash ∈ History s.store heads ∨ change.deps = ∅
      ∨ ∀ x ∈ History s.store {hash}, s.graph.get x ≠ none)
    (h : Pickable s.store heads change) : s.Picks hash := by
  obtain ⟨-, rfl⟩ := Repo.readChange_eq_ok_iff.mp hread
  have hstart : HydratingOn (History s.store heads) s.store heads heads.sorted s.graph := by
    refine ⟨hg.loaded, fun x hx => mem_history_of_mem (Finset.mem_sorted.mp hx),
      fun x hx => .inl (Finset.mem_sorted.mpr hx), fun x hx c hc d hd => .inr ?_⟩
    have hmem := mem_history_of_mem_deps hx (hg.loaded.stored x c hc) hd
    exact (hg.deps x c hc d hd).resolve_right (hlive d hmem).1
  obtain ⟨fuel, g, hrun, hdone⟩ := hlive.exists_hydrateGraph_on hstart
  have hall (x : Blake3Hash) : x ∈ History s.store heads → g.get x ≠ none :=
    hdone.get_ne_none subset_rfl
  refine (Repo.picks_iff hview hread).mpr ⟨fuel, g, hrun, ?_⟩
  refine h.acceptsPick hdone.loaded hall fun x hx => ?_
  rcases hknown with hin | hdeps | hloaded
  · refine (hdone.loaded.mem_ancestorsInclusive_iff fun y hy => ?_).mpr hx
    exact hall y (history_singleton_subset hin hy)
  · rw [history_singleton_of_no_deps hread hdeps, Set.mem_singleton_iff] at hx
    rw [hx]
    exact ChangeGraph.mem_ancestorsInclusive.mpr ⟨change.id, Finset.mem_singleton_self _, .refl⟩
  · refine (hdone.loaded.mem_ancestorsInclusive_iff fun y hy => ?_).mpr hx
    obtain ⟨c, hc⟩ := Option.ne_none_iff_exists'.mp (hloaded y hy)
    rw [Repo.get_of_hydrateGraph hrun hc]
    exact Option.some_ne_none c

theorem get_ne_none_iff_of_hydrateGraph {fuel : ℕ}
    (hrun : Repo.hydrateGraph fuel store epochs .new heads = some (.ok g))
    (hfree : ∀ id ∈ History store heads, id ∉ epochs.keys) (id : Blake3Hash) :
    g.get id ≠ none ↔ id ∈ History store heads := by
  have hstart := hydratingOn_univ_iff.mpr (Hydrating.start store heads)
  constructor
  · have hinv := Worklist.process_ok
      (fun queue g => HydratingOn Set.univ store heads queue g
        ∧ ∀ x, g.get x ≠ none → x ∈ History store heads)
      (fun x queue g pushed g' h hstep => ?_) ⟨hstart, fun x hx => by simp at hx⟩ hrun
    · exact hinv.2 id
    · have hx := h.1.queued x List.mem_cons_self
      refine ⟨h.1.of_hydrateStep (hfree x hx) hstep, fun y hy => ?_⟩
      rcases Repo.hydrateStep_cases hstep with rfl | ⟨-, -, c, hc, rfl⟩
      · exact h.2 y hy
      · obtain ⟨-, rfl⟩ := Repo.readChange_eq_ok_iff.mp hc
        rw [ChangeGraph.get_addChange] at hy
        split_ifs at hy with hyc
        · exact hyc ▸ hx
        · exact h.2 y hy
  · exact (hstart.hydrateGraph hfree hrun).get_ne_none (Set.subset_univ _)

theorem Repo.Loaded.eq_of_mem_ancestors {id x : Blake3Hash} (hg : Repo.Loaded store g)
    (hget : g.get id = none) (hx : x ∈ g.ancestors {id}) : x = id := by
  obtain ⟨y, hy, hreach⟩ := ChangeGraph.mem_ancestorsInclusive.mp hx
  obtain rfl := Finset.mem_singleton.mp hy
  rcases Relation.ReflTransGen.cases_head hreach with heq | ⟨z, hz, -⟩
  · exact heq.symm
  · simp [ChangeGraph.DependsOn, hg.indexed.deps_ghost hget] at hz

theorem not_commutes_of_mem_deps {a b : Change} (h : b.id ∈ a.deps) : commutes a b = false := by
  simp [commutes, h]

theorem ChangeGraph.AcceptsPick.deps_eq_empty (hg : Repo.Loaded store g)
    (hget : g.get change.id = none) (hnot : change.id ∉ g.ancestors heads)
    (h : g.AcceptsPick heads change) : change.deps = ∅ := by
  refine Finset.eq_empty_of_forall_notMem fun d hd => ?_
  have hmem := h.deps d hd
  obtain ⟨c, hc, hcomm⟩ := h.commute d hmem fun hown =>
    hnot (hg.eq_of_mem_ancestors hget hown ▸ hmem)
  obtain rfl := hg.indexed.node_id d c hc
  rw [not_commutes_of_mem_deps hd] at hcomm
  exact Bool.false_ne_true hcomm

theorem Repo.Picks.fresh (hview : s.views.lookup s.head = some heads)
    (hread : Repo.readChange s.store change.id = .ok change)
    (hfree : ∀ id ∈ History s.store heads, id ∉ s.epochs.keys) (hfresh : s.graph = .new)
    (h : s.Picks change.id) :
    Live s.store s.epochs heads ∧ (change.id ∈ History s.store heads ∨ change.deps = ∅) := by
  obtain ⟨fuel, g, hrun, haccept⟩ := (Repo.picks_iff hview hread).mp h
  rw [hfresh] at hrun
  have hloaded : Repo.Loaded s.store g := (Repo.Loaded.new s.store).hydrateGraph hrun
  have hget := get_ne_none_iff_of_hydrateGraph hrun hfree
  constructor
  · intro id hid
    obtain ⟨c, hc⟩ := Option.ne_none_iff_exists'.mp ((hget id).mpr hid)
    exact ⟨hfree id hid, c, hloaded.stored id c hc⟩
  · by_cases hin : change.id ∈ History s.store heads
    · exact .inl hin
    · refine .inr (haccept.deps_eq_empty hloaded ?_ fun hmem => ?_)
      · exact not_not.mp (hin ∘ (hget change.id).mp)
      · exact hin (hloaded.mem_history hmem)

/-- **A cherry-pick depends on the repository only** when the change is to be refused, or the view
can be read and has the change already or the change has no dependencies. With no redirect in the
history of the view these are the only such changes. -/
theorem Repo.cherryPick_byRepository_iff (hview : s.views.lookup s.head = some heads)
    (hread : Repo.readChange s.store change.id = .ok change) :
    (s.AncestorsKnown heads change → s.PicksByRepository heads change)
      ∧ ((∀ id ∈ History s.store heads, id ∉ s.epochs.keys) →
        s.PicksByRepository heads change → s.AncestorsKnown heads change) := by
  constructor
  · intro hknown
    have haccepted : ∀ g, Cached s.store s.epochs g →
        ({ s with graph := g }.Picks change.id ↔ Pickable s.store heads change) := by
      intro g hg
      constructor
      · exact fun h => h.pickable (s := { s with graph := g }) hview hread hg.loaded
      · intro h
        obtain ⟨hlive, hdeps⟩ := hknown.resolve_left (not_not_intro h)
        exact h.picks (s := { s with graph := g }) hview hread hg hlive (hdeps.imp_right .inl)
    exact ⟨fun g g' hg hg' => (haccepted g hg).trans (haccepted g' hg').symm, haccepted⟩
  · intro hfree h
    by_cases hpick : Pickable s.store heads change
    · have hfresh := (h.accepted .new (Cached.new s.store s.epochs)).mpr hpick
      exact .inr (hfresh.fresh (s := { s with graph := .new }) hview hread hfree rfl)
    · exact .inl hpick

/-- Two stored changes, of which the view has the first one only. -/
def oneOfTwo (first second : Change) : Repo :=
  Repo.ofHistory [first, second] {first.id} []

theorem readChange_oneOfTwo {first second : Change} (hne : first.id ≠ second.id) :
    Repo.readChange (oneOfTwo first second).store first.id = .ok first
      ∧ Repo.readChange (oneOfTwo first second).store second.id = .ok second := by
  simp [Repo.readChange_eq_ok_iff, oneOfTwo, Repo.ofHistory, FMap.insertAll, hne]

/-- The second change is independent of the view. -/
theorem cherryPick_of_independent :
    (oneOfTwo (.sample ∅ "a.rs" "a") (.sample ∅ "b.rs" "b")).PicksByRepository
      {(Change.sample ∅ "a.rs" "a").id} (.sample ∅ "b.rs" "b") := by
  obtain ⟨ha, hb⟩ := @readChange_oneOfTwo (.sample ∅ "a.rs" "a") (.sample ∅ "b.rs" "b") (by decide)
  refine (Repo.cherryPick_byRepository_iff rfl hb).1 (.inr ⟨fun id hid => ?_, .inr rfl⟩)
  rw [history_singleton_of_no_deps ha rfl, Set.mem_singleton_iff] at hid
  rw [hid]
  exact ⟨by simp [oneOfTwo, Repo.ofHistory, Repo.init], _, ha⟩

/-- Where the second change extends the view, a process that has loaded it accepts it, and a new
process finds its own parent in conflict with it. -/
theorem oneOfTwo_depends_on_cache {first second : Change} (hne : first.id ≠ second.id)
    (hfirst : first.deps = ∅) (hsecond : second.deps = {first.id}) :
    ¬ (oneOfTwo first second).PicksByRepository {first.id} second := by
  intro h
  obtain ⟨ha, hb⟩ := readChange_oneOfTwo hne
  have hview := history_singleton_of_no_deps ha hfirst
  have hfree (id : Blake3Hash) : id ∉ (oneOfTwo first second).epochs.keys := by
    simp [oneOfTwo, Repo.ofHistory, Repo.init]
  have hlive : Live (oneOfTwo first second).store (oneOfTwo first second).epochs {second.id} := by
    refine .of_closed (T := {first.id, second.id}) (by simp) fun id hid => ⟨hfree id, ?_⟩
    rcases hid with rfl | rfl
    · exact ⟨first, ha, by simp [hfirst]⟩
    · exact ⟨second, hb, by simp [hsecond]⟩
  have hmem : first.id ∈ History (oneOfTwo first second).store {second.id} :=
    mem_history_of_mem_deps (mem_history_of_mem (Finset.mem_singleton_self _)) hb
      (by simp [hsecond])
  have hpick : Pickable (oneOfTwo first second).store {first.id} second := by
    refine ⟨fun d hd => ?_, fun c _ hc hnot => ?_⟩
    · rw [hsecond] at hd
      exact mem_history_of_mem hd
    · rw [hview, Set.mem_singleton_iff] at hc
      exact absurd (hc ▸ hmem) hnot
  obtain ⟨fuel, g, -, hg⟩ := hlive.exists_hydrateGraph
  have hloaded : { oneOfTwo first second with graph := g }.Picks second.id := by
    refine hpick.picks (s := { oneOfTwo first second with graph := g }) rfl hb
      (.of_hydrating hg) (hlive.of_mem hmem) (.inr (.inr fun x => ?_))
    exact (hydratingOn_univ_iff.mpr hg).get_ne_none (Set.subset_univ _)
  have hfresh := (h.same g .new (.of_hydrating hg) (.new _ _)).mp hloaded
  obtain ⟨-, hin | hdeps⟩ := hfresh.fresh (s := { oneOfTwo first second with graph := .new }) rfl hb
    (fun id _ => hfree id) rfl
  · rw [hview, Set.mem_singleton_iff] at hin
    exact hne hin.symm
  · simp [hsecond] at hdeps

theorem cherryPick_depends_on_cache :
    ¬ ∀ (s : Repo) (heads : Finset Blake3Hash) (change : Change),
      s.views.lookup s.head = some heads → Repo.readChange s.store change.id = .ok change →
        s.PicksByRepository heads change := by
  intro h
  have hne : (Change.sample ∅ "a.rs" "a").id
      ≠ (Change.sample {(Change.sample ∅ "a.rs" "a").id} "b.rs" "b").id := by decide
  exact oneOfTwo_depends_on_cache hne rfl rfl (h _ _ _ rfl (readChange_oneOfTwo hne).2)

end ArcVcs
