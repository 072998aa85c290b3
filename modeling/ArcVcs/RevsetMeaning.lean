import ArcVcs.MergeBases
import ArcVcs.Revset
import Mathlib.Order.Bounds.Defs
import Mathlib.Order.ConditionallyCompleteLattice.Basic
import Mathlib.Data.Set.SymmDiff

/-!
# What a revset denotes

The sets of the expressions, over the dependency relation and in the order in which the
resolvers are asked. A compiled expression yields exactly its set, each id once.
-/

namespace ArcVcs

namespace Revset

variable {σ : Type*} {g : ChangeGraph} {resolvers : Resolvers σ}

def ancestorsOf (g : ChangeGraph) (heads : Set Blake3Hash) : Set Blake3Hash :=
  {id | ∃ head ∈ heads, g.Reaches head id}

/-- The lowest common ancestors: those of which no common ancestor descends. -/
def lowestCommon (g : ChangeGraph) (left right : Set Blake3Hash) : Set Blake3Hash :=
  {id | id ∈ ancestorsOf g left ∩ ancestorsOf g right
    ∧ ∀ other ∈ ancestorsOf g left ∩ ancestorsOf g right, ¬ g.ProperAncestor other id}

def binaryOperation (g : ChangeGraph) (name : String) :
    Option (Set Blake3Hash → Set Blake3Hash → Set Blake3Hash) :=
  if name = "range" then some fun A B => ancestorsOf g B \ ancestorsOf g A
  else if name = "symmetric" then some fun A B => symmDiff (ancestorsOf g A) (ancestorsOf g B)
  else if name = "merge_base" then some fun A B => {id | IsLeast (lowestCommon g A B) id}
  else none

/-- An expression, evaluated from one state of the resolvers, denotes a set and leaves another
state. -/
inductive Denotes (g : ChangeGraph) (resolvers : Resolvers σ) :
    RevsetExpression → σ → Set Blake3Hash → σ → Prop
  | symbol {name : String} {s s' : σ} {id : Blake3Hash}
      (h : compileSymbol g resolvers name s = some (.ok id, s')) :
      Denotes g resolvers (.symbol name) s {id} s'
  | union {left right : RevsetExpression} {s s₁ s' : σ} {A B : Set Blake3Hash}
      (hl : Denotes g resolvers left s A s₁) (hr : Denotes g resolvers right s₁ B s') :
      Denotes g resolvers (.union left right) s (A ∪ B) s'
  | intersection {left right : RevsetExpression} {s s₁ s' : σ} {A B : Set Blake3Hash}
      (hl : Denotes g resolvers left s A s₁) (hr : Denotes g resolvers right s₁ B s') :
      Denotes g resolvers (.intersection left right) s (A ∩ B) s'
  | references {name : String} {s s' : σ} {heads : Finset Blake3Hash}
      (hname : name = "tags" ∨ name = "remote_branches" ∨ name = "bookmarks")
      (h : resolvers.resolveReferenceHeads name s = some (.ok heads, s')) :
      Denotes g resolvers (.function name []) s {id | id ∈ heads} s'
  | ancestors {name : String} {arg : RevsetExpression} {s s' : σ} {A : Set Blake3Hash}
      (hname : name = "ancestors") (h : Denotes g resolvers arg s A s') :
      Denotes g resolvers (.function name [arg]) s (ancestorsOf g A) s'
  | touched {name : String} (hname : name = "touched") (path : String) (s : σ) :
      Denotes g resolvers (.function name [.stringLiteral path]) s
        {id | ∃ change, g.get id = some change ∧ changeTouchesRepoPath change path = true} s
  | binary {name : String} {left right : RevsetExpression} {s s₁ s' : σ} {A B : Set Blake3Hash}
      {op : Set Blake3Hash → Set Blake3Hash → Set Blake3Hash}
      (hop : binaryOperation g name = some op) (hl : Denotes g resolvers left s A s₁)
      (hr : Denotes g resolvers right s₁ B s') :
      Denotes g resolvers (.function name [left, right]) s (op A B) s'

/-- **The denotation is determined.** -/
theorem Denotes.unique {e : RevsetExpression} {s s₁ s₂ : σ} {A B : Set Blake3Hash}
    (h : Denotes g resolvers e s A s₁) (h' : Denotes g resolvers e s B s₂) :
    A = B ∧ s₁ = s₂ := by
  induction h generalizing B s₂ with
  | symbol h =>
      cases h' with
      | symbol h' =>
          rw [h] at h'
          simp only [Option.some.injEq, Prod.mk.injEq, Except.ok.injEq] at h'
          exact ⟨by rw [h'.1], h'.2⟩
  | union _ _ ihl ihr =>
      cases h' with
      | union hl hr =>
          obtain ⟨rfl, rfl⟩ := ihl hl
          obtain ⟨rfl, rfl⟩ := ihr hr
          exact ⟨rfl, rfl⟩
  | intersection _ _ ihl ihr =>
      cases h' with
      | intersection hl hr =>
          obtain ⟨rfl, rfl⟩ := ihl hl
          obtain ⟨rfl, rfl⟩ := ihr hr
          exact ⟨rfl, rfl⟩
  | references hname h =>
      cases h' with
      | references hname' h' =>
          rw [h] at h'
          simp only [Option.some.injEq, Prod.mk.injEq, Except.ok.injEq] at h'
          exact ⟨by rw [h'.1], h'.2⟩
  | ancestors hname _ ih =>
      cases h' with
      | ancestors _ h =>
          obtain ⟨rfl, rfl⟩ := ih h
          exact ⟨rfl, rfl⟩
      | touched hname' => simp [hname] at hname'
  | touched hname path s =>
      cases h' with
      | ancestors hname' => simp [hname] at hname'
      | touched => exact ⟨rfl, rfl⟩
  | binary hop _ _ ihl ihr =>
      cases h' with
      | binary hop' hl hr =>
          obtain rfl := Option.some_inj.mp (hop.symm.trans hop')
          obtain ⟨rfl, rfl⟩ := ihl hl
          obtain ⟨rfl, rfl⟩ := ihr hr
          exact ⟨rfl, rfl⟩

/-! ## The sets that the engine computes -/

/-- The list holds exactly the set, each element once. -/
structure Lists (ids : List Blake3Hash) (A : Set Blake3Hash) : Prop where
  nodup : ids.Nodup
  mem_iff : ∀ id, id ∈ ids ↔ id ∈ A

theorem lists_sorted {ids : Finset Blake3Hash} {A : Set Blake3Hash} (h : ∀ id, id ∈ ids ↔ id ∈ A) :
    Lists ids.sorted A :=
  ⟨ids.nodup_sorted, fun id => (Finset.mem_sorted).trans (h id)⟩

variable {left right : List Blake3Hash} {A B : Set Blake3Hash}

theorem Lists.mem_ancestors (h : Lists left A) (id : Blake3Hash) :
    id ∈ g.ancestors left.toFinset ↔ id ∈ ancestorsOf g A := by
  rw [ChangeGraph.ancestors, ChangeGraph.mem_ancestorsInclusive, ancestorsOf]
  simp only [List.mem_toFinset, h.mem_iff, Set.mem_ofPred_eq]

theorem Lists.union (hl : Lists left A) (hr : Lists right B) :
    Lists (Iterators.fresh ∅ (left ++ right)) (A ∪ B) := by
  refine ⟨Iterators.nodup_fresh _ _, fun id => ?_⟩
  rw [Iterators.mem_fresh, List.mem_append, hl.mem_iff, hr.mem_iff]
  simp

theorem Lists.inter (hl : Lists left A) (hr : Lists right B) :
    Lists (left.filter (· ∈ right.toFinset)) (A ∩ B) := by
  refine ⟨hl.nodup.filter _, fun id => ?_⟩
  simp [List.mem_filter, hl.mem_iff, hr.mem_iff]

theorem Lists.range (hl : Lists left A) (hr : Lists right B) :
    Lists (g.ancestors right.toFinset \ g.ancestors left.toFinset).sorted
      (ancestorsOf g B \ ancestorsOf g A) :=
  lists_sorted fun id => by
    rw [Finset.mem_sdiff, hl.mem_ancestors, hr.mem_ancestors, Set.mem_sdiff]

theorem Lists.symmetric (hl : Lists left A) (hr : Lists right B) :
    Lists (symmDiff (g.ancestors left.toFinset) (g.ancestors right.toFinset)).sorted
      (symmDiff (ancestorsOf g A) (ancestorsOf g B)) :=
  lists_sorted fun id => by
    rw [Finset.mem_symmDiff, hl.mem_ancestors, hr.mem_ancestors, Set.mem_symmDiff]

theorem Lists.isCommon_iff (hl : Lists left A) (hr : Lists right B) (id : Blake3Hash) :
    g.IsCommon left.toFinset right.toFinset id ↔ id ∈ ancestorsOf g A ∩ ancestorsOf g B := by
  rw [← ChangeGraph.mem_common_iff, Finset.mem_inter, hl.mem_ancestors, hr.mem_ancestors,
    Set.mem_inter_iff]

theorem mem_mergeBasesOrdered (hg : g.Indexed) (hl : Lists left A) (hr : Lists right B)
    (id : Blake3Hash) : id ∈ g.mergeBasesOrdered left.toFinset right.toFinset
      ↔ id ∈ lowestCommon g A B := by
  simp only [ChangeGraph.mem_mergeBasesOrdered_iff hg, hl.isCommon_iff hr]
  rfl

theorem Lists.mergeBase (hg : g.Indexed) (hl : Lists left A) (hr : Lists right B) :
    Lists (g.mergeBaseDeterministic left.toFinset right.toFinset).toList
      {id | IsLeast (lowestCommon g A B) id} := by
  have hset : {base | base ∈ g.mergeBasesOrdered left.toFinset right.toFinset}
      = lowestCommon g A B := Set.ext (mem_mergeBasesOrdered hg hl hr)
  refine ⟨?_, fun id => ?_⟩
  · cases g.mergeBaseDeterministic left.toFinset right.toFinset with
    | none => exact List.nodup_nil
    | some base => exact List.nodup_singleton base
  · rw [Option.mem_toList, ChangeGraph.mergeBaseDeterministic_eq_some_iff, hset]
    rfl

theorem Lists.touched (hg : g.Indexed) (path : String) : Lists (touched g path).sorted
    {id | ∃ change, g.get id = some change ∧ changeTouchesRepoPath change path = true} := by
  refine lists_sorted fun id => ?_
  simp only [Revset.touched, Finset.mem_biUnion, Option.mem_toFinset, Option.mem_def,
    Option.map_eq_some_iff, Option.filter_eq_some_iff, Set.mem_ofPred_eq]
  constructor
  · rintro ⟨key, -, change, ⟨hget, htouch⟩, rfl⟩
    exact ⟨change, hg.node_id key change hget ▸ hget, htouch⟩
  · rintro ⟨change, hget, htouch⟩
    exact ⟨id, FMap.mem_keys_of_lookup hget, change, ⟨hget, htouch⟩, hg.node_id id change hget⟩

/-! ## Compilation -/

theorem two_eq_ok {p q : Program σ String RevsetIterator}
    {f : RevsetIterator → RevsetIterator → RevsetIterator} {s s' : σ} {iter : RevsetIterator}
    (h : (do
      let left ← p
      let right ← q
      pure (f left right)) s = some (.ok iter, s')) :
    ∃ left right s₁, p s = some (.ok left, s₁) ∧ q s₁ = some (.ok right, s')
      ∧ f left right = iter := by
  obtain ⟨left, s₁, hp, h⟩ := Program.bind_eq_ok_iff.mp h
  obtain ⟨right, s₂, hq, h⟩ := Program.bind_eq_ok_iff.mp h
  obtain ⟨rfl, rfl⟩ : f left right = iter ∧ s₂ = s' := by simpa using h
  exact ⟨left, right, s₁, hp, hq, rfl⟩

theorem throw_ne_ok {α : Type} {e : String} {s s' : σ} {a : α} :
    (Program.throw e : Program σ String α) s ≠ some (.ok a, s') := by
  simp [Program.throw]

theorem compile_two_denotes {name : String} {left right : RevsetExpression}
    {op : Set Blake3Hash → Set Blake3Hash → Set Blake3Hash}
    (hop : binaryOperation g name = some op)
    (ihl : ∀ s s' iter, compile g resolvers left s = some (.ok iter, s') →
      ∃ A, Denotes g resolvers left s A s' ∧ Lists (iter.toList g) A)
    (ihr : ∀ s s' iter, compile g resolvers right s = some (.ok iter, s') →
      ∃ A, Denotes g resolvers right s A s' ∧ Lists (iter.toList g) A)
    {f : RevsetIterator → RevsetIterator → RevsetIterator}
    (hf : ∀ leftIter rightIter A B, Lists (leftIter.toList g) A → Lists (rightIter.toList g) B →
      Lists ((f leftIter rightIter).toList g) (op A B)) {s s' : σ} {iter : RevsetIterator}
    (h : (do
      let leftIter ← compile g resolvers left
      let rightIter ← compile g resolvers right
      pure (f leftIter rightIter)) s = some (.ok iter, s')) :
    ∃ A, Denotes g resolvers (.function name [left, right]) s A s' ∧ Lists (iter.toList g) A := by
  obtain ⟨leftIter, rightIter, s₁, hleft, hright, rfl⟩ := two_eq_ok h
  obtain ⟨A, hA, hlistsA⟩ := ihl _ _ _ hleft
  obtain ⟨B, hB, hlistsB⟩ := ihr _ _ _ hright
  exact ⟨op A B, .binary hop hA hB, hf leftIter rightIter A B hlistsA hlistsB⟩

/-- **A compiled expression lists its denotation.** -/
theorem compile_denotes (hg : g.Indexed) : ∀ (e : RevsetExpression) (s s' : σ)
    (iter : RevsetIterator), compile g resolvers e s = some (.ok iter, s') →
    ∃ A, Denotes g resolvers e s A s' ∧ Lists (iter.toList g) A
  | .symbol name, s, s', iter, h => by
      obtain ⟨id, s₁, hid, h⟩ := Program.bind_eq_ok_iff.mp h
      obtain ⟨rfl, rfl⟩ : RevsetIterator.items [id] = iter ∧ s₁ = s' := by simpa using h
      refine ⟨{id}, .symbol hid, ?_⟩
      rw [RevsetIterator.toList_items]
      exact ⟨List.nodup_singleton _, by simp⟩
  | .stringLiteral value, s, s', iter, h => absurd h throw_ne_ok
  | .union left right, s, s', iter, h => by
      obtain ⟨leftIter, rightIter, s₁, hleft, hright, rfl⟩ := two_eq_ok h
      obtain ⟨A, hA, hlistsA⟩ := compile_denotes hg left _ _ _ hleft
      obtain ⟨B, hB, hlistsB⟩ := compile_denotes hg right _ _ _ hright
      refine ⟨A ∪ B, .union hA hB, ?_⟩
      rw [RevsetIterator.toList_union]
      exact hlistsA.union hlistsB
  | .intersection left right, s, s', iter, h => by
      obtain ⟨leftIter, rightIter, s₁, hleft, hright, rfl⟩ := two_eq_ok h
      obtain ⟨A, hA, hlistsA⟩ := compile_denotes hg left _ _ _ hleft
      obtain ⟨B, hB, hlistsB⟩ := compile_denotes hg right _ _ _ hright
      refine ⟨A ∩ B, .intersection hA hB, ?_⟩
      rw [RevsetIterator.toList_filter]
      exact hlistsA.inter hlistsB
  | .function name [], s, s', iter, h => by
      simp only [compile] at h
      split_ifs at h with _ hrefs
      on_goal 2 =>
        obtain ⟨heads, s₁, hheads, h⟩ := Program.bind_eq_ok_iff.mp h
        obtain ⟨rfl, rfl⟩ : RevsetIterator.items heads.sorted = iter ∧ s₁ = s' := by simpa using h
        refine ⟨_, .references hrefs hheads, ?_⟩
        rw [RevsetIterator.toList_items]
        exact lists_sorted fun _ => Iff.rfl
      all_goals exact absurd h throw_ne_ok
  | .function name [arg], s, s', iter, h => by
      simp only [compile] at h
      split_ifs at h with hanc _ htouched
      · obtain ⟨starts, s₁, harg, h⟩ := Program.bind_eq_ok_iff.mp h
        obtain ⟨rfl, rfl⟩ : RevsetIterator.ancestors (starts.toList g) ∅ = iter ∧ s₁ = s' := by
          simpa using h
        obtain ⟨A, hA, hlists⟩ := compile_denotes hg arg _ _ _ harg
        obtain ⟨hnodup, hmem⟩ := RevsetIterator.toList_ancestors hg (starts.toList g)
        refine ⟨_, .ancestors hanc hA, hnodup, fun id => ?_⟩
        simp only [hmem, hlists.mem_iff, ancestorsOf, Set.mem_ofPred_eq]
      · exact absurd h throw_ne_ok
      · cases arg with
        | stringLiteral path =>
            obtain ⟨rfl, rfl⟩ : RevsetIterator.items (touched g path).sorted = iter ∧ s = s' := by
              simpa using h
            refine ⟨_, .touched htouched path s, ?_⟩
            rw [RevsetIterator.toList_items]
            exact Lists.touched hg path
        | _ => exact absurd h throw_ne_ok
      all_goals exact absurd h throw_ne_ok
  | .function name [left, right], s, s', iter, h => by
      have ihl := compile_denotes hg left
      have ihr := compile_denotes hg right
      simp only [compile] at h
      split_ifs at h with _ _ _ hrange hsymmetric hbase
      · exact absurd h throw_ne_ok
      · exact absurd h throw_ne_ok
      · exact absurd h throw_ne_ok
      · have hop : binaryOperation g name = some fun A B => ancestorsOf g B \ ancestorsOf g A := by
          rw [hrange]
          rfl
        refine compile_two_denotes hop ihl ihr ?_ h
        intro leftIter rightIter A B hA hB
        rw [RevsetIterator.toList_items]
        exact hA.range hB
      · have hop : binaryOperation g name
            = some fun A B => symmDiff (ancestorsOf g A) (ancestorsOf g B) := by
          rw [hsymmetric]
          rfl
        refine compile_two_denotes hop ihl ihr ?_ h
        intro leftIter rightIter A B hA hB
        rw [RevsetIterator.toList_items]
        exact hA.symmetric hB
      · have hop : binaryOperation g name
            = some fun A B => {id | IsLeast (lowestCommon g A B) id} := by
          rw [hbase]
          rfl
        refine compile_two_denotes hop ihl ihr ?_ h
        intro leftIter rightIter A B hA hB
        rw [RevsetIterator.toList_items]
        exact hA.mergeBase hg hB
      · exact absurd h throw_ne_ok
  | .function name (_ :: _ :: _ :: _), s, s', iter, h => by
      simp only [compile] at h
      split_ifs at h <;> exact absurd h throw_ne_ok

/-- **Revset evaluation has set semantics**: an expression that evaluates has one denotation, and
its iterator yields exactly the ids in it, each once. The lazy ancestor iterator enumerates
`ChangeGraph::ancestors`. -/
theorem compile_yields_denoted (hg : g.Indexed) {e : RevsetExpression} {s s' : σ}
    {iter : RevsetIterator} (hok : compile g resolvers e s = some (.ok iter, s')) :
    (∃ A ids, Denotes g resolvers e s A s' ∧ (∀ B t, Denotes g resolvers e s B t → B = A)
        ∧ Iterators.Yields (RevsetIterator.step g) iter ids ∧ ids.Nodup ∧ ∀ id, id ∈ ids ↔ id ∈ A)
      ∧ ∀ starts : List Blake3Hash, ∃ ids,
        Iterators.Yields (RevsetIterator.step g) (.ancestors starts ∅) ids ∧ ids.Nodup
          ∧ ∀ id, id ∈ ids ↔ id ∈ g.ancestors starts.toFinset := by
  constructor
  · obtain ⟨A, hA, hlists⟩ := compile_denotes hg e s s' iter hok
    exact ⟨A, iter.toList g, hA, fun B t hB => (hB.unique hA).1,
      RevsetIterator.yields_toList iter, hlists.nodup, hlists.mem_iff⟩
  · intro starts
    obtain ⟨hnodup, hmem⟩ := RevsetIterator.toList_ancestors hg starts
    refine ⟨_, RevsetIterator.yields_toList _, hnodup, fun id => ?_⟩
    rw [hmem, ChangeGraph.ancestors, ChangeGraph.mem_ancestorsInclusive]
    simp only [List.mem_toFinset]

/-- `A | ancestors(B)` on a chain of two changes. -/
theorem compile_yields_union_of_ancestors :
    let a := Change.sample ∅ "a.rs" "b"
    let b := Change.sample {a.id} "b.rs" "c"
    let g := ChangeGraph.ofChanges [a, b]
    let resolvers : Resolvers Unit :=
      ⟨fun name => pure (if name = "A" then some a.id else if name = "B" then some b.id else none),
        fun _ => pure ∅⟩
    let e : RevsetExpression := .union (.symbol "A") (.function "ancestors" [.symbol "B"])
    let iter : RevsetIterator := .union (.items [a.id]) (.ancestors [b.id] ∅) ∅ true
    compile g resolvers e () = some (.ok iter, ())
      ∧ ∃ A ids, Denotes g resolvers e () A ()
        ∧ Iterators.Yields (RevsetIterator.step g) iter ids ∧ ids.Nodup
        ∧ ∀ id, id ∈ ids ↔ id ∈ A := by
  intro a b g resolvers e iter
  have hg : g.Indexed := ChangeGraph.indexed_ofChanges (by decide)
  have hok : compile g resolvers e () = some (.ok iter, ()) := by decide +kernel
  obtain ⟨⟨A, ids, hA, -, hyields, hnodup, hmem⟩, -⟩ :=
    @compile_yields_denoted Unit g resolvers hg e () () iter hok
  exact ⟨hok, A, ids, hA, hyields, hnodup, hmem⟩

end Revset

end ArcVcs
