import ArcVcs.HeadMoves
import ArcVcs.Hydration
import ArcVcs.Lib.Peeling
import ArcVcs.Revisions

/-!
# Abandoned heads

`abandon_heads` takes the listed changes out of the heads one after another and puts in their
dependencies. A dependency is a head from then on, also where another head depends on it, so that
it may be abandoned and still be in the history of the view.
-/

namespace ArcVcs

namespace Repo

open Peeling

/-- The dependencies of a change that can be read. -/
def storeDeps (store : FMap Blake3Hash Change) (id : Blake3Hash) : Finset Blake3Hash :=
  match readChange store id with
  | .error _ => ∅
  | .ok change => change.deps

def history (s : Repo) (heads : Finset Blake3Hash) : Set Blake3Hash :=
  {x | Reaches (storeDeps s.store) heads x}

/-- What `abandon_heads` takes without revisions. -/
def abandonTargets (revisions : List String) : List String :=
  if revisions = [] then ["@"] else revisions

variable {s s' : Repo} {fuel : ℕ} {wd : WorkDir} {heads left : Finset Blake3Hash}
  {resolved abandoned : List Blake3Hash}

theorem abandonEach_eq_ok {store : FMap Blake3Hash Change} {acc : List Blake3Hash}
    (h : abandonEach store resolved heads acc = .ok (left, abandoned)) :
    left = (peel (storeDeps store) heads resolved).1
      ∧ abandoned = acc ++ (peel (storeDeps store) heads resolved).2 := by
  induction resolved generalizing heads acc with
  | nil =>
      obtain ⟨rfl, rfl⟩ : heads = left ∧ acc = abandoned := by simpa [abandonEach] using h
      exact ⟨rfl, (List.append_nil acc).symm⟩
  | cons id resolved ih =>
      rw [abandonEach] at h
      by_cases hid : id ∈ heads
      · rw [if_pos hid] at h
        cases hread : readChange store id with
        | error e => simp [hread] at h
        | ok change =>
            rw [hread] at h
            obtain ⟨hleft, habandoned⟩ := ih h
            have hdeps : storeDeps store id = change.deps := by rw [storeDeps, hread]
            rw [peel, if_pos hid, hdeps]
            exact ⟨hleft, by rw [habandoned, List.append_assoc, List.singleton_append]⟩
      · rw [if_neg hid] at h
        rw [peel, if_neg hid]
        exact ih h

variable [Crypto]

theorem abandonHeads_eq_ok (h : abandonHeads fuel wd resolved s = some (.ok abandoned, s'))
    (hheads : s.views.lookup s.head = some heads) :
    s'.store = s.store
      ∧ s'.views.lookup s.head = some (peel (storeDeps s.store) heads resolved).1
      ∧ abandoned = (peel (storeDeps s.store) heads resolved).2 := by
  obtain ⟨result, s₁, hcommit, hrest⟩ := Program.bind_eq_ok_iff.mp h
  obtain ⟨view, _, ⟨⟩, hcommit⟩ := Program.bind_eq_ok_iff.mp hcommit
  obtain ⟨_, s₂, hhydrate, hcommit⟩ := Program.bind_eq_ok_iff.mp hcommit
  obtain ⟨-, g, -, -, rfl⟩ := hydrate_eq_ok hhydrate
  obtain ⟨heads', s₃, hload, hcommit⟩ := Program.bind_eq_ok_iff.mp hcommit
  obtain ⟨hview, rfl⟩ := loadView_eq_ok_iff.mp hload
  obtain rfl : heads = heads' := Option.some.inj (hheads.symm.trans hview)
  obtain ⟨_, _, ⟨⟩, hcommit⟩ := Program.bind_eq_ok_iff.mp hcommit
  obtain ⟨⟨left, taken⟩, s₄, heach, hcommit⟩ := Program.bind_eq_ok_iff.mp hcommit
  obtain ⟨hpeeled, rfl⟩ : abandonEach s.store resolved heads [] = .ok (left, taken)
      ∧ { s with graph := g } = s₄ := by simpa [Program.ofExcept] using heach
  obtain ⟨rfl, rfl⟩ := abandonEach_eq_ok hpeeled
  dsimp only [List.nil_append] at hcommit
  split_ifs at hcommit with htaken
  · obtain ⟨rfl, rfl⟩ : none = result ∧ { s with graph := g } = s₁ := by simpa using hcommit
    obtain ⟨rfl, rfl⟩ : [] = abandoned ∧ { s with graph := g } = s' := by simpa using hrest
    exact ⟨rfl, hheads.trans (by rw [left_eq_of_taken_eq_nil htaken]), htaken.symm⟩
  · obtain ⟨_, s₅, ⟨⟩, ⟨⟩⟩ := Program.bind_eq_ok_iff.mp hcommit
    obtain ⟨state, s₆, hreplay, hrest⟩ := Program.bind_eq_ok_iff.mp hrest
    obtain ⟨_, s₇, hhydrate, hreplay⟩ := Program.bind_eq_ok_iff.mp hreplay
    obtain ⟨g', -, rfl⟩ := hydrateHeads_eq_ok_iff.mp hhydrate
    obtain ⟨rfl, -⟩ := materializeNonempty_eq_ok_iff.mp hreplay
    obtain ⟨_, s₈, hwrite, hrest⟩ := Program.bind_eq_ok_iff.mp hrest
    obtain ⟨-, rfl⟩ := writeStateToWorkingDir_eq_ok_iff.mp hwrite
    obtain ⟨_, s₉, ⟨⟩, ⟨⟩⟩ := Program.bind_eq_ok_iff.mp hrest
    exact ⟨rfl, Finmap.lookup_insert _, rfl⟩

/-- A call of `abandon_heads` that succeeds, with the ids that its revisions stand for. -/
structure Abandons (fuel : ℕ) (wd : WorkDir) (entries revisions : List String)
    (resolved : List Blake3Hash) (s : Repo) (abandoned : List Blake3Hash) (s' : Repo) : Prop where
  resolves : (abandonTargets revisions).mapM (s.resolveRev entries) = .ok resolved
  run : abandonHeads fuel wd resolved s = some (.ok abandoned, s')

theorem abandonHeads_of_loaded {state : MaterializedState}
    (hheads : s.views.lookup s.head = some heads)
    (hloaded : ∀ h ∈ heads ∪ left, h ∉ s.epochs.keys ∧ s.graph.get h ≠ none)
    (hfuel : (heads ∪ left).card < fuel)
    (heach : abandonEach s.store resolved heads [] = .ok (left, abandoned))
    (hne : abandoned ≠ [])
    (hstate : materializeNonempty wd left s = some (.ok state, s))
    (hwrite : wd.canWrite state = true) :
    ∃ s', abandonHeads fuel wd resolved s = some (.ok abandoned, s') := by
  have hgraph : ∀ hs ⊆ heads ∪ left,
      hydrateGraph fuel s.store s.epochs s.graph hs = some (.ok s.graph) := fun hs hsub =>
    hydrateGraph_of_loaded (fun h hh => hloaded h (hsub hh))
      ((Finset.card_le_card hsub).trans_lt hfuel)
  have hhydrate : hydrate fuel s.head s = some (.ok (), s) :=
    Program.bind_eq_ok_iff.mpr ⟨heads, s, loadView_eq_ok_iff.mpr ⟨hheads, rfl⟩,
      hydrateHeads_eq_ok_iff.mpr ⟨s.graph, hgraph _ Finset.subset_union_left, rfl⟩⟩
  let s₁ := { s with views := s.views.insert s.head left }
  have hcommit : abandonCommit fuel resolved s
      = some (.ok (some (⟨s.head, heads, left⟩, abandoned)), s₁) := by
    refine Program.bind_eq_ok_iff.mpr ⟨s.head, s, rfl, Program.bind_eq_ok_iff.mpr ⟨(), s, hhydrate,
      Program.bind_eq_ok_iff.mpr ⟨heads, s, loadView_eq_ok_iff.mpr ⟨hheads, rfl⟩,
        Program.bind_eq_ok_iff.mpr ⟨s, s, rfl, Program.bind_eq_ok_iff.mpr
          ⟨(left, abandoned), s, by rw [heach]; rfl, ?_⟩⟩⟩⟩⟩
    dsimp only
    rw [if_neg hne]
    rfl
  have hreplay : replayMove fuel wd ⟨s.head, heads, left⟩ s₁ = some (.ok state, s₁) := by
    refine Program.bind_eq_ok_iff.mpr ⟨(), s₁,
      hydrateHeads_eq_ok_iff.mpr ⟨s.graph, hgraph _ Finset.subset_union_right, rfl⟩, ?_⟩
    exact materializeNonempty_eq_ok_iff.mpr ⟨rfl, (materializeNonempty_eq_ok_iff.mp hstate).2⟩
  have hproject : writeStateToWorkingDir wd state s₁ = some (.ok (), s₁) :=
    writeStateToWorkingDir_eq_ok_iff.mpr ⟨hwrite, rfl⟩
  rw [abandonHeads, Program.bind_run, hcommit]
  dsimp only
  rw [Program.bind_run, hreplay]
  dsimp only
  rw [Program.bind_run, hproject]
  exact ⟨_, rfl⟩

/-! ## The history that is left -/

omit [Crypto] in
theorem mem_ancestors_iff_history {g : ChangeGraph} {x : Blake3Hash}
    (hg : ∀ x ∈ s.history heads, g.deps x = storeDeps s.store x) :
    x ∈ g.ancestors heads ↔ x ∈ s.history heads :=
  ChangeGraph.mem_ancestorsInclusive.trans (reaches_congr hg)

/-- With one path of dependencies from a head to a change, the list names all such paths. -/
def NamesEveryPath (s : Repo) (heads : Finset Blake3Hash) (resolved : List Blake3Hash) : Prop :=
  ∀ x p q, PathFrom (storeDeps s.store) heads x p → PathFrom (storeDeps s.store) heads x q →
    p.Sublist resolved → q.Sublist resolved

/-- **Abandoned changes.** They are what the history has lost exactly if the list names, with one
path from a head to a change, every such path. -/
theorem abandoned_exactly_iff {entries revisions : List String}
    (h : Abandons fuel wd entries revisions resolved s abandoned s')
    (hheads : s.views.lookup s.head = some heads)
    (hleft : s'.views.lookup s.head = some left) :
    (s'.history left = s.history heads \ {x | x ∈ abandoned} ↔ s.NamesEveryPath heads resolved)
      ∧ ∀ g : ChangeGraph, (∀ x ∈ s.history heads, g.deps x = storeDeps s.store x) →
        (((g.ancestors left : Finset Blake3Hash) : Set Blake3Hash)
            = (g.ancestors heads : Set Blake3Hash) \ {x | x ∈ abandoned}
          ↔ s.NamesEveryPath heads resolved) := by
  obtain ⟨hstore, hviews, rfl⟩ := abandonHeads_eq_ok h.run hheads
  obtain rfl := Option.some.inj (hviews.symm.trans hleft)
  have hhistory : s'.history = s.history := by
    unfold history
    rw [hstore]
  have hiff : s.history (peel (storeDeps s.store) heads resolved).1
      = s.history heads \ {x | x ∈ (peel (storeDeps s.store) heads resolved).2}
        ↔ s.NamesEveryPath heads resolved := reaches_left_eq_iff
  refine ⟨hhistory ▸ hiff, fun g hg => ?_⟩
  have hgraph : (g.ancestors heads : Set Blake3Hash) = s.history heads :=
    Set.ext fun x => mem_ancestors_iff_history hg
  have hgraph' : (g.ancestors (peel (storeDeps s.store) heads resolved).1 : Set Blake3Hash)
      = s.history (peel (storeDeps s.store) heads resolved).1 :=
    Set.ext fun x => mem_ancestors_iff_history fun y hy => hg y (reaches_of_reaches_left hy)
  rw [hgraph, hgraph', hiff]

def twoHeads : Repo :=
  let changes := [Change.bare 1 ∅ [], Change.bare 2 {1} [], Change.bare 3 {1} []]
  { init with
    store := changes.foldl (fun store c => store.insert c.id c) ∅
    views := (Finmap.singleton "main" {2, 3}).insert "a" {2}
    graph := .ofChanges changes }

omit [Crypto] in
theorem materialize_twoHeads {heads : Finset Blake3Hash} (h : heads = {3, 1} ∨ heads = {3}) :
    @materializeNonempty Crypto.sample anyWorkDir heads twoHeads = some (.ok ∅, twoHeads) := by
  let := Crypto.sample
  rw [materializeNonempty_eq_ok_iff]
  rcases h with rfl | rfl
  · have hsort : twoHeads.graph.topologicalSort {3, 1} = some [1, 3] := by decide
    exact ⟨rfl, ChangeGraph.materializeHeads_of_topologicalSort hsort⟩
  · have hsort : twoHeads.graph.topologicalSort {3} = some [1, 3] := by decide
    exact ⟨rfl, ChangeGraph.materializeHeads_of_topologicalSort hsort⟩

omit [Crypto] in
theorem storeDeps_twoHeads : storeDeps twoHeads.store 1 = ∅ ∧ storeDeps twoHeads.store 2 = {1}
    ∧ storeDeps twoHeads.store 3 = {1} := by
  decide

omit [Crypto] in
theorem eq_of_isPath_head {x a : Blake3Hash} {p : List Blake3Hash} (hx : x = 2 ∨ x = 3)
    (ha : a = 2 ∨ a = 3) (h : IsPath (storeDeps twoHeads.store) x a p) : a = x ∧ p = [x] := by
  obtain ⟨hone, htwo, hthree⟩ := storeDeps_twoHeads
  cases h with
  | last => exact ⟨rfl, rfl⟩
  | @step _ b _ hb hrest =>
      obtain rfl : b = 1 := by
        rcases ha with rfl | rfl
        · exact Finset.mem_singleton.mp (htwo ▸ hb)
        · exact Finset.mem_singleton.mp (hthree ▸ hb)
      cases hrest with
      | last => rcases hx with hx | hx <;> exact absurd hx (by decide)
      | step hc _ =>
          rw [hone] at hc
          exact absurd hc (Finset.notMem_empty _)

omit [Crypto] in
/-- One of two heads is abandoned. -/
theorem abandoned_exactly_one_head : ∃ s' left,
    @Abandons Crypto.sample 4 anyWorkDir [] ["a"] [2] twoHeads [2] s'
      ∧ s'.views.lookup "main" = some left
      ∧ s'.history left = twoHeads.history {2, 3} \ {x | x ∈ [2]} := by
  let := Crypto.sample
  have hresolves : (abandonTargets ["a"]).mapM (twoHeads.resolveRev []) = .ok [2] := by decide
  obtain ⟨s', hrun⟩ := @abandonHeads_of_loaded twoHeads 4 anyWorkDir {2, 3} {3, 1} [2] [2] _ _ rfl
    (by decide) (by decide) (by decide) (by decide) (materialize_twoHeads (.inl rfl)) rfl
  have habandons : Abandons 4 anyWorkDir [] ["a"] [2] twoHeads [2] s' := ⟨hresolves, hrun⟩
  obtain ⟨-, hleft, -⟩ := abandonHeads_eq_ok hrun rfl
  refine ⟨s', _, habandons, hleft, (abandoned_exactly_iff habandons rfl hleft).1.mpr ?_⟩
  rintro x p q ⟨a, ha, hp⟩ ⟨b, hb, hq⟩ hsub
  -- The only path that the list holds is the head that it names.
  obtain ⟨rest, rfl⟩ := hp.eq_cons
  obtain ⟨rfl, rfl⟩ : a = 2 ∧ rest = [] := by simpa using hsub
  cases hp with
  | last =>
      have hb' : b = 2 ∨ b = 3 := by simpa using hb
      exact (eq_of_isPath_head (.inl rfl) hb' hq).2 ▸ List.Sublist.refl _
  | step _ hrest =>
      obtain ⟨_, h⟩ := hrest.eq_cons
      cases h

omit [Crypto] in
/-- A parent that another head depends on is abandoned and stays in the history. -/
theorem abandoned_parent_stays :
    3 ∉ twoHeads.history {2} ∧ 2 ∉ twoHeads.history {3} ∧
      ∃ s' left, @Abandons Crypto.sample 4 anyWorkDir [] ["a", "a~1"] [2, 1] twoHeads [2, 1] s'
        ∧ s'.views.lookup "main" = some left ∧ 1 ∈ s'.history left := by
  let := Crypto.sample
  have hresolves : (abandonTargets ["a", "a~1"]).mapM (twoHeads.resolveRev []) = .ok [2, 1] := by
    decide
  obtain ⟨s', hrun⟩ := @abandonHeads_of_loaded twoHeads 4 anyWorkDir {2, 3} {3} [2, 1] [2, 1] _ _
    rfl (by decide) (by decide) (by decide) (by decide) (materialize_twoHeads (.inr rfl)) rfl
  obtain ⟨hstore, hleft, -⟩ := abandonHeads_eq_ok hrun rfl
  have hpeel : (peel (storeDeps twoHeads.store) {2, 3} [2, 1]).1 = {3} := by decide
  rw [hpeel] at hleft
  refine ⟨?_, ?_, s', {3}, ⟨hresolves, hrun⟩, hleft, ?_⟩
  · rintro ⟨a, ha, hreach⟩
    obtain ⟨p, hp⟩ := exists_isPath_iff.mpr hreach
    have heq := (eq_of_isPath_head (.inr rfl) (.inl (Finset.mem_singleton.mp ha)) hp).1
    exact absurd ((Finset.mem_singleton.mp ha).symm.trans heq) (by decide)
  · rintro ⟨a, ha, hreach⟩
    obtain ⟨p, hp⟩ := exists_isPath_iff.mpr hreach
    have heq := (eq_of_isPath_head (.inl rfl) (.inr (Finset.mem_singleton.mp ha)) hp).1
    exact absurd ((Finset.mem_singleton.mp ha).symm.trans heq) (by decide)
  · rw [history, hstore]
    exact ⟨3, Finset.mem_singleton_self _, .single (by decide)⟩

end Repo

end ArcVcs
