import ArcVcs.Closure

/-!
# The changes that a remote misses

`compute_missing_changes` of `arc-network` searches from the local frontier and turns back at the
ids of the remote frontier. It does not turn back at their ancestors, but a path to a change that
the remote misses meets none of those either, so the search finds every such change.
-/

namespace ArcVcs

/-- `x` is in the graph and lists `y` as a dependency. -/
def DependsInMap (graph : FMap Blake3Hash Change) (x y : Blake3Hash) : Prop :=
  ∃ c, graph.lookup x = some c ∧ y ∈ c.deps

/-- The ancestors of a frontier, with the frontier. -/
def ancestry (graph : FMap Blake3Hash Change) (frontier : Finset Blake3Hash) : Set Blake3Hash :=
  {id | ∃ h ∈ frontier, Relation.ReflTransGen (DependsInMap graph) h id}

/-- A part of a change graph that is closed under dependencies and has its own frontier. -/
structure LocalPart (graph localChanges : FMap Blake3Hash Change)
    (localFrontier : Finset Blake3Hash) : Prop where
  sub : ∀ id c, localChanges.lookup id = some c → graph.lookup id = some c
  frontier : ∀ id ∈ localFrontier, id ∈ graph.keys → id ∈ localChanges.keys
  closed : ∀ id c, localChanges.lookup id = some c → ∀ d ∈ c.deps, d ∈ graph.keys →
    d ∈ localChanges.keys

section Loop

variable [Serde] (remoteFrontier : Finset Blake3Hash) (localChanges : FMap Blake3Hash Change)

/-- The loop of `compute_missing_changes`. `none` means that the fuel ran out. -/
def missingLoop : ℕ → List Blake3Hash → List Blake3Hash → List Change → Option (List Change)
  | 0, _, _, _ => none
  | _ + 1, [], _, missing => some missing
  | fuel + 1, id :: stack, seen, missing =>
      if id ∈ seen then missingLoop fuel stack seen missing
      else if id ∈ remoteFrontier then missingLoop fuel stack (seen ++ [id]) missing
      else
        match localChanges.lookup id with
        | none => missingLoop fuel stack (seen ++ [id]) missing
        | some change =>
            missingLoop fuel (ObjectStore.pushOrder change ++ stack) (seen ++ [id])
              (missing ++ [change])

/-- Every push is a member of the frontier or a dependency of a local change. -/
def missingFuel (localFrontier : Finset Blake3Hash) : ℕ :=
  localFrontier.card + ∑ id ∈ localChanges.keys, ((localChanges.lookup id).elim 0 fun c =>
    c.deps.card) + 1

def computeMissingChanges (localFrontier : Finset Blake3Hash) : Option (List Change) :=
  missingLoop remoteFrontier localChanges (missingFuel localChanges localFrontier)
    (Serde.iter localFrontier).reverse [] []

omit [Serde] in
/-- What a visit adds to the result. -/
def newChange (id : Blake3Hash) : Option Change :=
  if id ∈ remoteFrontier then none else localChanges.lookup id

def visitMissing (id : Blake3Hash) : Except Empty (List Blake3Hash) :=
  .ok ((newChange remoteFrontier localChanges id).elim [] ObjectStore.pushOrder)

theorem missingLoop_eq (fuel : ℕ) (stack seen : List Blake3Hash) :
    missingLoop remoteFrontier localChanges fuel stack seen
        (seen.filterMap (newChange remoteFrontier localChanges))
      = (DepthFirst.search (visitMissing remoteFrontier localChanges) fuel stack seen).bind
        fun out => out.toOption.map (List.filterMap (newChange remoteFrontier localChanges)) := by
  induction fuel generalizing stack seen with
  | zero => rfl
  | succ fuel ih =>
      cases stack with
      | nil => rfl
      | cons id stack =>
          rw [missingLoop, DepthFirst.search]
          by_cases hseen : id ∈ seen
          · rw [if_pos hseen, if_pos hseen, ih]
          rw [if_neg hseen, if_neg hseen, visitMissing]
          dsimp only
          rw [← ih, List.filterMap_append, newChange]
          by_cases hremote : id ∈ remoteFrontier
          · simp [hremote, newChange]
          cases hlook : localChanges.lookup id <;> simp [hremote, hlook, newChange]

variable {remoteFrontier localChanges}

theorem mem_pushed_visitMissing {x y : Blake3Hash} :
    y ∈ DepthFirst.pushed (visitMissing remoteFrontier localChanges) x
      ↔ x ∉ remoteFrontier ∧ DependsInMap localChanges x y := by
  rw [DepthFirst.pushed_of_ok rfl, newChange]
  by_cases hremote : x ∈ remoteFrontier
  · simp [hremote]
  cases hlook : localChanges.lookup x <;>
    simp [hremote, hlook, DependsInMap, ObjectStore.mem_pushOrder]

variable (remoteFrontier localChanges) in
theorem computeMissingChanges_isSome (localFrontier : Finset Blake3Hash) :
    ∃ out, DepthFirst.search (visitMissing remoteFrontier localChanges)
      (missingFuel localChanges localFrontier) (Serde.iter localFrontier).reverse []
        = some out := by
  have hpushed (id : Blake3Hash) :
      (DepthFirst.pushed (visitMissing remoteFrontier localChanges) id).length
        ≤ (localChanges.lookup id).elim 0 fun c => c.deps.card := by
    rw [DepthFirst.pushed_of_ok rfl, newChange]
    by_cases hremote : id ∈ remoteFrontier
    · simp [hremote]
    cases hlook : localChanges.lookup id <;>
      simp [hremote, ObjectStore.pushOrder, (Serde.iter_perm _).length_eq]
  have hsupp (id : Blake3Hash) (hid : id ∉ localChanges.keys) :
      DepthFirst.pushed (visitMissing remoteFrontier localChanges) id = [] := by
    have hnone : localChanges.lookup id = none := by
      simpa [FMap.mem_keys_iff, Option.eq_none_iff_forall_ne_some] using hid
    simpa [hnone] using hpushed id
  refine DepthFirst.search_isSome hsupp ?_
  · have hsum := Finset.sum_le_sum fun id (_ : id ∈ localChanges.keys) => hpushed id
    simp only [DepthFirst.potential, List.length_reverse, (Serde.iter_perm _).length_eq,
      Finset.length_sorted, missingFuel, List.toFinset_nil, Finset.sdiff_empty]
    omega

end Loop

/-! ## Paths that the search follows -/

variable {graph localChanges : FMap Blake3Hash Change}
  {localFrontier remoteFrontier : Finset Blake3Hash}

theorem LocalPart.dependsInMap (h : LocalPart graph localChanges localFrontier) {x y : Blake3Hash}
    (hxy : DependsInMap localChanges x y) : DependsInMap graph x y := by
  obtain ⟨c, hc, hy⟩ := hxy
  exact ⟨c, h.sub x c hc, hy⟩

theorem LocalPart.exists_path (h : LocalPart graph localChanges localFrontier)
    {head id : Blake3Hash} (hhead : head ∈ localFrontier)
    (hpath : Relation.ReflTransGen (DependsInMap graph) head id) (hid : id ∈ graph.keys)
    (hmissing : id ∉ ancestry graph remoteFrontier) :
    id ∈ localChanges.keys ∧ Relation.ReflTransGen
      (fun x y => x ∉ remoteFrontier ∧ DependsInMap localChanges x y) head id := by
  induction hpath with
  | refl => exact ⟨h.frontier head hhead hid, .refl⟩
  | tail _ hstep ih =>
      obtain ⟨c, hc, hdep⟩ := hstep
      obtain ⟨hlocal, hbefore⟩ := ih (FMap.mem_keys_of_lookup hc) fun ⟨r, hr, hpath⟩ =>
        hmissing ⟨r, hr, hpath.tail ⟨c, hc, hdep⟩⟩
      obtain ⟨c', hc'⟩ := FMap.mem_keys_iff.mp hlocal
      obtain rfl : c' = c := Option.some_inj.mp ((h.sub _ _ hc').symm.trans hc)
      refine ⟨h.closed _ _ hc' _ hdep hid, hbefore.tail ⟨fun hremote => hmissing ?_, c', hc', hdep⟩⟩
      exact ⟨_, hremote, .single ⟨c', hc, hdep⟩⟩

/-- **The changes that the remote misses.** Every change of the local frontier's history outside
that of the remote frontier is sent once, and nothing outside the local frontier's history. -/
theorem computeMissingChanges_spec [Serde] (h : LocalPart graph localChanges localFrontier)
    (remoteFrontier : Finset Blake3Hash) :
    ∃ (ids : List Blake3Hash) (missing : List Change),
      computeMissingChanges remoteFrontier localChanges localFrontier = some missing
      ∧ ids.Nodup ∧ missing.map some = ids.map graph.lookup
      ∧ (∀ id ∈ ids, id ∈ ancestry graph localFrontier)
      ∧ ∀ id ∈ graph.keys, id ∈ ancestry graph localFrontier → id ∉ ancestry graph remoteFrontier →
        id ∈ ids := by
  obtain ⟨out | out, hout⟩ := computeMissingChanges_isSome remoteFrontier localChanges
    localFrontier
  · exact out.elim
  obtain ⟨hnodup, -, hmem⟩ := DepthFirst.search_ok hout
  have hstart (id : Blake3Hash) : id ∈ (Serde.iter localFrontier).reverse ↔ id ∈ localFrontier := by
    rw [List.mem_reverse, (Serde.iter_perm _).mem_iff, Finset.mem_sorted]
  refine ⟨out.filter fun id => (newChange remoteFrontier localChanges id).isSome,
    out.filterMap (newChange remoteFrontier localChanges), ?_, hnodup.filter _, ?_, ?_, ?_⟩
  · have hrun := missingLoop_eq remoteFrontier localChanges
      (missingFuel localChanges localFrontier) (Serde.iter localFrontier).reverse []
    rw [hout] at hrun
    exact hrun
  · clear hout hnodup hmem
    induction out with
    | nil => rfl
    | cons id out ih =>
        cases hnew : newChange remoteFrontier localChanges id with
        | none => simpa [hnew] using ih
        | some c =>
            have hlook : localChanges.lookup id = some c := by
              rw [newChange] at hnew
              split_ifs at hnew
              exact hnew
            simpa [hnew, h.sub id c hlook] using ih
  · intro id hid
    obtain ⟨head, hhead, hpath⟩ := (hmem id).mp (List.mem_of_mem_filter hid)
    refine ⟨head, (hstart head).mp hhead, ?_⟩
    exact Relation.ReflTransGen.mono
      (fun x y hxy => h.dependsInMap (mem_pushed_visitMissing.mp hxy).2) _ _ hpath
  · rintro id hid ⟨head, hhead, hpath⟩ hmissing
    obtain ⟨hlocal, hpath⟩ := h.exists_path hhead hpath hid hmissing
    obtain ⟨c, hc⟩ := FMap.mem_keys_iff.mp hlocal
    refine List.mem_filter.mpr ⟨(hmem id).mpr ⟨head, (hstart head).mpr hhead, ?_⟩, ?_⟩
    · exact Relation.ReflTransGen.mono (fun x y hxy => mem_pushed_visitMissing.mpr hxy) _ _ hpath
    · have hremote : id ∉ remoteFrontier := fun hremote => hmissing ⟨id, hremote, .refl⟩
      simp [newChange, hremote, hc]

/-- A merge whose first parent the remote has. -/
theorem computeMissingChanges_merge :
    let _ := Serde.sample []
    let graph := [(1, Change.bare 1 ∅ []), (2, .bare 2 {1} []), (3, .bare 3 {1} []),
      (4, .bare 4 {2, 3} [])].foldl (fun g entry => g.insert entry.1 entry.2)
      (∅ : FMap Blake3Hash Change)
    ∃ (ids : List Blake3Hash) (missing : List Change),
      computeMissingChanges {2} graph {4} = some missing
      ∧ ids.Nodup ∧ missing.map some = ids.map graph.lookup
      ∧ (∀ id ∈ ids, id ∈ ancestry graph {4})
      ∧ ∀ id ∈ graph.keys, id ∈ ancestry graph {4} → id ∉ ancestry graph {2} → id ∈ ids := by
  intro serde graph
  have hpart : LocalPart graph graph {4} :=
    ⟨fun _ _ h => h, fun _ _ h => h, fun _ _ _ _ _ h => h⟩
  exact computeMissingChanges_spec hpart {2}

example :
    let _ := Serde.sample []
    (computeMissingChanges {2} ([(1, Change.bare 1 ∅ []), (2, .bare 2 {1} []),
      (3, .bare 3 {1} []), (4, .bare 4 {2, 3} [])].foldl (fun g entry => g.insert entry.1 entry.2)
      (∅ : FMap Blake3Hash Change)) {4}).map (List.map Change.id) = some [4, 3, 1] := by
  decide

end ArcVcs
