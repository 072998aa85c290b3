import ArcVcs.Hydration
import ArcVcs.Maintenance

/-!
# Safety of garbage collection

`gc` never deletes a change: what every view shares is reachable from the root set. It deletes
a blob that the history still names exactly when no loaded change that it can reach names it
in an `insert`, a `delete` or a `blob`.
-/

namespace ArcVcs

/-- Every blob that an atom refers to, the bases and sides of a conflict included. -/
def blobRefs : Atom → List Blake3Hash
  | .insert _ contentHash => [contentHash]
  | .delete _ priorHash => [priorHash]
  | .blob _ hash _ => [hash]
  | .conflict bases sides _ => bases ++ sides
  | _ => []

theorem subset_of_intersectAll {sets : List (Finset Blake3Hash)} {id : Blake3Hash}
    (h : id ∈ intersectAll sets) : ∃ set ∈ sets, id ∈ set := by
  cases sets with
  | nil => simp [intersectAll] at h
  | cons first rest =>
      refine ⟨first, List.mem_cons_self, ?_⟩
      rw [intersectAll] at h
      induction rest generalizing first with
      | nil => exact h
      | cons second rest ih =>
          exact (Finset.mem_inter.mp (ih (first ∩ second) h)).1

namespace Repo

/-! ## What the history needs -/

/-- A head of a view whose name satisfies `p`, or of a logged operation. -/
def IsHead (s : Repo) (p : String → Prop) (id : Blake3Hash) : Prop :=
  (∃ name heads, p name ∧ s.views.lookup name = some heads ∧ id ∈ heads)
    ∨ ∃ op ∈ s.oplog, id ∈ op.beforeHeads ∨ id ∈ op.afterHeads

def StoreDependsOn (s : Repo) (x y : Blake3Hash) : Prop :=
  ∃ change, s.store.lookup x = some change ∧ y ∈ change.deps

/-- The stored change is in the history of a view or of a logged operation. -/
def Needs (s : Repo) (id : Blake3Hash) (change : Change) : Prop :=
  s.store.lookup id = some change
    ∧ ∃ head, s.IsHead (fun _ => True) head ∧ Relation.ReflTransGen s.StoreDependsOn head id

/-- What `s` needs is in `s'` too. -/
structure GcSafe (s s' : Repo) : Prop where
  changes : ∀ id change, s.Needs id change → s'.store.lookup id = some change
  blobs : ∀ id change, s.Needs id change → ∀ hash ∈ change.atoms.flatMap blobRefs,
    ∀ bytes, s.blobs.lookup hash = some bytes → s'.blobs.lookup hash = some bytes

/-- An `insert`, `delete` or `blob` atom of a loaded change names the blob, and the loaded
graph reaches the change from a logged operation or from a view directly in `.arc/views`. -/
def Counts (s : Repo) (hash : Blake3Hash) : Prop :=
  ∃ id change, s.graph.get id = some change
    ∧ (∃ atom ∈ change.atoms, referencedBlob atom = some hash)
    ∧ ∃ head, s.IsHead (fun name => isTopLevel name = true) head ∧ s.graph.Reaches head id

variable {s s' : Repo}

theorem mem_headsOf {name : String} {id : Blake3Hash} :
    id ∈ s.headsOf name ↔ ∃ heads, s.views.lookup name = some heads ∧ id ∈ heads := by
  unfold headsOf
  cases s.views.lookup name <;> simp

theorem mem_operationHeads {ops : List Operation} {id : Blake3Hash} :
    id ∈ (ops.map fun op => op.beforeHeads ∪ op.afterHeads).foldr (fun heads acc => heads ∪ acc) ∅
      ↔ ∃ op ∈ ops, id ∈ op.beforeHeads ∨ id ∈ op.afterHeads := by
  induction ops with
  | nil => simp
  | cons op ops ih =>
      rw [List.map_cons, List.foldr_cons, Finset.mem_union, ih, Finset.mem_union]
      simp only [List.mem_cons, exists_eq_or_imp]

theorem mem_rootSet {id : Blake3Hash} :
    id ∈ s.rootSet ↔ s.IsHead (fun name => isTopLevel name = true) id := by
  rw [rootSet, Finset.mem_union, mem_operationHeads, IsHead]
  refine or_congr_left ?_
  simp only [Finset.mem_biUnion, Finset.mem_filter, FMap.mem_keys_iff, mem_headsOf]
  constructor
  · rintro ⟨name, ⟨-, htop⟩, heads, hheads, hid⟩
    exact ⟨name, heads, htop, hheads, hid⟩
  · rintro ⟨name, heads, htop, hheads, hid⟩
    exact ⟨name, ⟨⟨heads, hheads⟩, htop⟩, heads, hheads, hid⟩

theorem mem_reachable {id : Blake3Hash} :
    id ∈ s.reachable
      ↔ ∃ head, s.IsHead (fun name => isTopLevel name = true) head ∧ s.graph.Reaches head id := by
  rw [reachable, ChangeGraph.ancestors, ChangeGraph.mem_ancestorsInclusive]
  simp only [mem_rootSet]

theorem mem_referencedBlobs {hash : Blake3Hash} : hash ∈ s.referencedBlobs ↔ s.Counts hash := by
  simp only [referencedBlobs, Finset.mem_biUnion, mem_reachable, Counts]
  constructor
  · rintro ⟨id, hreach, hmem⟩
    cases hget : s.graph.get id with
    | none => simp [hget] at hmem
    | some change =>
        rw [hget] at hmem
        exact ⟨id, change, hget, List.mem_filterMap.mp (List.mem_toFinset.mp hmem), hreach⟩
  · rintro ⟨id, change, hget, hatom, hreach⟩
    refine ⟨id, hreach, ?_⟩
    rw [hget]
    exact List.mem_toFinset.mpr (List.mem_filterMap.mpr hatom)

/-! ## What garbage collection does -/

theorem causallyStable_subset_reachable : s.causallyStable ⊆ s.reachable := by
  intro id hid
  obtain ⟨set, hset, hmem⟩ := subset_of_intersectAll hid
  obtain ⟨name, hname, rfl⟩ := List.mem_map.mp hset
  rw [listedViews, Finset.mem_sorted, Finset.mem_filter] at hname
  obtain ⟨-, hlisted⟩ := hname
  have htop : isTopLevel name = true := by
    simp only [isListed, Bool.and_eq_true] at hlisted
    exact hlisted.1.1
  obtain ⟨head, hhead, hreach⟩ := ChangeGraph.mem_ancestorsInclusive.mp hmem
  obtain ⟨heads, hheads, hin⟩ := mem_headsOf.mp hhead
  exact mem_reachable.mpr ⟨head, .inl ⟨name, heads, htop, hheads, hin⟩, hreach⟩

theorem gc_run (s : Repo) :
    gc s = some (.ok ⟨0, (s.blobs.keys \ s.referencedBlobs).card⟩,
      { s with blobs := s.blobs.eraseAll (s.blobs.keys \ s.referencedBlobs) }) := by
  have hnone : (s.store.keys.filter fun id => id ∉ s.reachable ∧ id ∈ s.causallyStable) = ∅ := by
    refine Finset.filter_eq_empty_iff.mpr fun id _ hid => ?_
    exact hid.1 (causallyStable_subset_reachable hid.2)
  have hrun : gc s = some (.ok
      ⟨(s.store.keys.filter fun id => id ∉ s.reachable ∧ id ∈ s.causallyStable).card,
        (s.blobs.keys \ s.referencedBlobs).card⟩,
      { s with
        store := s.store.eraseAll
          (s.store.keys.filter fun id => id ∉ s.reachable ∧ id ∈ s.causallyStable)
        blobs := s.blobs.eraseAll (s.blobs.keys \ s.referencedBlobs) }) := rfl
  rw [hrun, hnone]
  rfl

theorem lookup_blobs_gc {hash : Blake3Hash} {bytes : Bytes}
    (hbytes : s.blobs.lookup hash = some bytes) :
    (s.blobs.eraseAll (s.blobs.keys \ s.referencedBlobs)).lookup hash = some bytes
      ↔ s.Counts hash := by
  rw [FMap.lookup_eraseAll, ← mem_referencedBlobs]
  by_cases hin : hash ∈ s.referencedBlobs
  · rw [if_neg fun h => (Finset.mem_sdiff.mp h).2 hin]
    exact iff_of_true hbytes hin
  · rw [if_pos (Finset.mem_sdiff.mpr ⟨FMap.mem_keys_of_lookup hbytes, hin⟩)]
    simp [hin]

/-- A process that has loaded the whole history, with every view file directly in `.arc/views`
and no recorded conflict, collects no blob of it. -/
theorem gcSafe_of_loaded (hg : s.graph.Indexed)
    (hloaded : ∀ id change, s.Needs id change → s.graph.get id = some change)
    (htop : ∀ name ∈ s.views.keys, isTopLevel name = true)
    (hplain : ∀ id change, s.Needs id change → ∀ bases sides at_,
      Atom.conflict bases sides at_ ∉ change.atoms) :
    ∃ result s', gc s = some (.ok result, s') ∧ GcSafe s s' := by
  refine ⟨_, _, gc_run s, fun id change hneeds => hneeds.1, ?_⟩
  intro id change hneeds hash hhash bytes hbytes
  refine (lookup_blobs_gc hbytes).mpr ⟨id, change, hloaded id change hneeds, ?_, ?_⟩
  · obtain ⟨atom, hatom, href⟩ := List.mem_flatMap.mp hhash
    refine ⟨atom, hatom, ?_⟩
    cases atom with
    | conflict bases sides at_ => exact absurd hatom (hplain id change hneeds bases sides at_)
    | insert at_ contentHash => rw [List.mem_singleton.mp href]; rfl
    | delete at_ priorHash => rw [List.mem_singleton.mp href]; rfl
    | blob path blobHash size => rw [List.mem_singleton.mp href]; rfl
    | _ => simp [blobRefs] at href
  · obtain ⟨-, head, hhead, hpath⟩ := hneeds
    refine ⟨head, ?_, ?_⟩
    · refine hhead.imp_left ?_
      rintro ⟨name, heads, -, hheads, hin⟩
      exact ⟨name, heads, htop name (FMap.mem_keys_of_lookup hheads), hheads, hin⟩
    · clear hhash hbytes
      induction hpath with
      | refl => exact .refl
      | tail hpath hstep ih =>
          obtain ⟨parent, hstored, hdep⟩ := hstep
          refine ih.tail ?_
          rw [ChangeGraph.DependsOn, hg.deps_eq (hloaded _ parent ⟨hstored, head, hhead, hpath⟩)]
          exact hdep

/-- **Garbage collection.** It returns, and it is safe exactly when it counts every present blob
that the stored history refers to. -/
theorem gc_safe_iff (s : Repo) :
    (∃ result s', gc s = some (.ok result, s') ∧ GcSafe s s') ↔
      ∀ id change, s.Needs id change → ∀ hash ∈ change.atoms.flatMap blobRefs,
        hash ∈ s.blobs.keys → s.Counts hash := by
  rw [gc_run]
  constructor
  · rintro ⟨result, s', hrun, hsafe⟩ id change hneeds hash hhash hkey
    obtain ⟨-, rfl⟩ := Prod.mk.inj (Option.some_inj.mp hrun)
    obtain ⟨bytes, hbytes⟩ := FMap.mem_keys_iff.mp hkey
    exact (lookup_blobs_gc hbytes).mp (hsafe.blobs id change hneeds hash hhash bytes hbytes)
  · intro h
    refine ⟨_, _, rfl, fun id change hneeds => hneeds.1, ?_⟩
    intro id change hneeds hash hhash bytes hbytes
    exact (lookup_blobs_gc hbytes).mpr
      (h id change hneeds hash hhash (FMap.mem_keys_of_lookup hbytes))

/-- A repository that a new process has just opened. -/
def reopened (s : Repo) : Repo := { s with graph := .new }

/-- `arc gc` opens the repository and loads nothing, so it deletes the content of the only
change. -/
theorem gc_deletes_unloaded_content :
    let c := Change.bare 1 ∅ [.insert ["file", "a.txt"] (@Crypto.hashBytes Crypto.sample [7])]
    let s := (Repo.ofHistory [c] {1} [[7]]).reopened
    ¬ ∃ result s', gc s = some (.ok result, s') ∧ GcSafe s s' := by
  rintro c s ⟨result, s', hrun, hsafe⟩
  have hneeds : s.Needs 1 c :=
    ⟨by decide +kernel, 1, .inl ⟨"main", {1}, trivial, by decide +kernel, by decide⟩, .refl⟩
  have hkept := hsafe.blobs 1 c hneeds (@Crypto.hashBytes Crypto.sample [7])
    (by decide) [7] (by decide)
  rw [gc_run] at hrun
  obtain ⟨-, rfl⟩ := Prod.mk.inj (Option.some_inj.mp hrun)
  rw [lookup_blobs_gc (by decide)] at hkept
  obtain ⟨id, change, hget, -⟩ := hkept
  exact Option.some_ne_none change (hget.symm.trans (ChangeGraph.get_new id))

end Repo

end ArcVcs
