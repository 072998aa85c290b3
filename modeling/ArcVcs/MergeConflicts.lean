import ArcVcs.Merge
import ArcVcs.MergeBases

/-!
# Which conflicts a merge records

`merge_heads` records the first overlapping path of each non-commuting pair of exclusive changes.
All overlaps are recorded exactly when each of them is the first one of such a pair, and the
merge goes through exactly when a clash over a tracked asset comes with an overlap of paths.
-/

namespace ArcVcs

/-! ## Overlaps -/

/-- Some paths of the two atom lists overlap, the longer one being `path`. -/
def OverlapAt (atomsA atomsB : List Atom) (path : NodePath) : Prop :=
  ∃ a ∈ atomsA, ∃ b ∈ atomsB, ∃ pa ∈ a.paths, ∃ pb ∈ b.paths,
    pathsOverlap pa pb = true ∧ path = longerPath pa pb

theorem overlapAt_of_find {atomsA atomsB : List Atom} {path : NodePath}
    (h : findOverlappingPath atomsA atomsB = some path) : OverlapAt atomsA atomsB path := by
  obtain ⟨a, ha, h⟩ := List.exists_of_findSome?_eq_some h
  obtain ⟨b, hb, h⟩ := List.exists_of_findSome?_eq_some h
  obtain ⟨pa, hpa, h⟩ := List.exists_of_findSome?_eq_some h
  obtain ⟨pb, hpb, h⟩ := List.exists_of_findSome?_eq_some h
  split_ifs at h with hover
  exact ⟨a, ha, b, hb, pa, hpa, pb, hpb, hover, (Option.some_inj.mp h).symm⟩

theorem findOverlappingPath_ne_none_iff {atomsA atomsB : List Atom} :
    findOverlappingPath atomsA atomsB ≠ none ↔ ∃ path, OverlapAt atomsA atomsB path := by
  constructor
  · intro h
    obtain ⟨path, hpath⟩ := Option.ne_none_iff_exists'.mp h
    exact ⟨path, overlapAt_of_find hpath⟩
  · rintro ⟨path, a, ha, b, hb, pa, hpa, pb, hpb, hover, -⟩ hnone
    have h := List.findSome?_eq_none_iff.mp hnone a ha
    have h := List.findSome?_eq_none_iff.mp h b hb
    have h := List.findSome?_eq_none_iff.mp h pa hpa
    have h := List.findSome?_eq_none_iff.mp h pb hpb
    rw [if_pos hover] at h
    cases h

theorem atomsDisjoint_eq_false_iff {atomsA atomsB : List Atom} :
    atomsDisjoint atomsA atomsB = false ↔
      ∃ x ∈ atomsA, ∃ y ∈ atomsB, x.isMove = false ∧ y.isMove = false ∧
        (blobConflicts x y = true ∨ ∃ pa ∈ x.paths, ∃ pb ∈ y.paths, pathsOverlap pa pb = true) := by
  have hpair : ∀ x y : Atom, atomPairDisjoint x y = false ↔
      x.isMove = false ∧ y.isMove = false ∧
        (blobConflicts x y = true ∨ ∃ pa ∈ x.paths, ∃ pb ∈ y.paths, pathsOverlap pa pb = true) := by
    intro x y
    rw [atomPairDisjoint]
    cases x.isMove <;> cases y.isMove <;> cases blobConflicts x y <;> simp
  rw [atomsDisjoint, List.all_eq_false]
  simp only [Bool.not_eq_true, List.all_eq_false, hpair]

def AssetClashAt (atomsA atomsB : List Atom) (file : String) : Prop :=
  ∃ x ∈ atomsA, ∃ y ∈ atomsB, x.isMove = false ∧ y.isMove = false ∧ blobConflicts x y = true
    ∧ ∃ hash size, x = .blob file hash size ∨ y = .blob file hash size

theorem AssetClashAt.atomsDisjoint_eq_false {atomsA atomsB : List Atom} {file : String}
    (h : AssetClashAt atomsA atomsB file) : atomsDisjoint atomsA atomsB = false := by
  obtain ⟨x, hx, y, hy, hxm, hym, hclash, -⟩ := h
  exact atomsDisjoint_eq_false_iff.mpr ⟨x, hx, y, hy, hxm, hym, .inl hclash⟩

theorem exists_assetClashAt {atomsA atomsB : List Atom} {x y : Atom} (hx : x ∈ atomsA)
    (hy : y ∈ atomsB) (hxm : x.isMove = false) (hym : y.isMove = false)
    (h : blobConflicts x y = true) : ∃ file, AssetClashAt atomsA atomsB file := by
  suffices hblob : ∃ file hash size, x = .blob file hash size ∨ y = .blob file hash size by
    obtain ⟨file, hash, size, heq⟩ := hblob
    exact ⟨file, x, hx, y, hy, hxm, hym, h, hash, size, heq⟩
  cases x with
  | blob file hash size => exact ⟨file, hash, size, .inl rfl⟩
  | _ =>
      cases y with
      | blob file hash size => exact ⟨file, hash, size, .inr rfl⟩
      | _ => simp [blobConflicts] at h

namespace ChangeGraph

variable {g : ChangeGraph}

/-! ## Exclusive changes -/

theorem mem_lcaAncestors (hg : g.Indexed) (hac : g.Acyclic) {current target : Finset Blake3Hash}
    {x : Blake3Hash} (hc : x ∈ g.ancestors current) (ht : x ∈ g.ancestors target) :
    x ∈ g.lcaAncestors current target := by
  have hcommon : g.IsCommon current target x := mem_common_iff.mp (Finset.mem_inter.mpr ⟨hc, ht⟩)
  obtain ⟨m, hm, hreach⟩ := exists_mergeBase hg hac hcommon
  rw [lcaAncestors, if_neg (Finset.ne_empty_of_mem hm)]
  exact mem_ancestorsInclusive.mpr ⟨m, hm, hreach⟩

/-- Two present changes, each exclusive to its side. -/
structure ExclusivePair (g : ChangeGraph) (current target : Finset Blake3Hash)
    (a b : Change) : Prop where
  left_mem : a.id ∈ g.delta current target current
  left_get : g.get a.id = some a
  right_mem : b.id ∈ g.delta current target target
  right_get : g.get b.id = some b

theorem ExclusivePair.commutes_eq (hg : g.Indexed) (hac : g.Acyclic)
    {current target : Finset Blake3Hash} {a b : Change} (h : g.ExclusivePair current target a b) :
    commutes a b = atomsDisjoint a.atoms b.atoms := by
  obtain ⟨ha, hna⟩ := Finset.mem_sdiff.mp h.left_mem
  obtain ⟨hb, hnb⟩ := Finset.mem_sdiff.mp h.right_mem
  have hab : a.id ∉ b.deps := fun hdep => by
    rw [← hg.deps_eq h.right_get] at hdep
    exact hna (mem_lcaAncestors hg hac ha (ancestorsInclusive_of_mem_deps hb hdep))
  have hba : b.id ∉ a.deps := fun hdep => by
    rw [← hg.deps_eq h.left_get] at hdep
    exact hnb (mem_lcaAncestors hg hac (ancestorsInclusive_of_mem_deps ha hdep) hb)
  rw [commutes, if_neg (by simp [hab, hba])]

theorem ExclusivePair.eq_of_singletons {current target : Finset Blake3Hash} {a b c d : Change}
    (h : g.ExclusivePair current target a b) (hc : g.delta current target current = {c.id})
    (hd : g.delta current target target = {d.id}) (hgc : g.get c.id = some c)
    (hgd : g.get d.id = some d) : a = c ∧ b = d := by
  have ha := h.left_mem
  have hb := h.right_mem
  rw [hc, Finset.mem_singleton] at ha
  rw [hd, Finset.mem_singleton] at hb
  exact ⟨Option.some_inj.mp (h.left_get.symm.trans (ha ▸ hgc)),
    Option.some_inj.mp (h.right_get.symm.trans (hb ▸ hgd))⟩

/-! ## The commutation check -/

theorem conflictsOf_spec {idA : Blake3Hash} {changeA : Change} {deltaB : List Blake3Hash}
    (hB : ∀ b ∈ deltaB, ∃ c, g.get b = some c) :
    ∃ pairs, g.conflictsOf idA changeA deltaB = .ok pairs ∧ ∀ a b, (a, b) ∈ pairs ↔
      a = idA ∧ b ∈ deltaB ∧ ∃ cb, g.get b = some cb ∧ commutes changeA cb = false := by
  induction deltaB with
  | nil => exact ⟨[], rfl, by simp⟩
  | cons idB deltaB ih =>
      obtain ⟨cb, hcb⟩ := hB idB List.mem_cons_self
      obtain ⟨pairs, hpairs, hmem⟩ := ih fun b hb => hB b (.tail _ hb)
      cases hcomm : commutes changeA cb with
      | true =>
          refine ⟨pairs, by simp [conflictsOf, hcb, hpairs, hcomm], fun a b => ?_⟩
          rw [hmem, List.mem_cons]
          refine and_congr_right fun _ => ⟨fun ⟨hb, h⟩ => ⟨.inr hb, h⟩, ?_⟩
          rintro ⟨rfl | hb, cb', hcb', hcomm'⟩
          · rw [hcb, Option.some_inj] at hcb'
            simp [← hcb', hcomm] at hcomm'
          · exact ⟨hb, cb', hcb', hcomm'⟩
      | false =>
          refine ⟨(idA, idB) :: pairs, by simp [conflictsOf, hcb, hpairs, hcomm], fun a b => ?_⟩
          rw [List.mem_cons, hmem, List.mem_cons, Prod.mk.injEq]
          constructor
          · rintro (⟨rfl, rfl⟩ | ⟨ha, hb, h⟩)
            · exact ⟨rfl, .inl rfl, cb, hcb, hcomm⟩
            · exact ⟨ha, .inr hb, h⟩
          · rintro ⟨rfl, rfl | hb, h⟩
            · exact .inl ⟨rfl, rfl⟩
            · exact .inr ⟨rfl, hb, h⟩

theorem present_of_conflictsOf {idA : Blake3Hash} {changeA : Change} {deltaB : List Blake3Hash}
    {pairs : List (Blake3Hash × Blake3Hash)} (h : g.conflictsOf idA changeA deltaB = .ok pairs) :
    ∀ b ∈ deltaB, ∃ c, g.get b = some c := by
  induction deltaB generalizing pairs with
  | nil => simp
  | cons idB deltaB ih =>
      cases hb : g.get idB with
      | none => simp [conflictsOf, hb] at h
      | some cb =>
          cases hrest : g.conflictsOf idA changeA deltaB with
          | error e => simp [conflictsOf, hb, hrest] at h
          | ok rest =>
              intro b hmem
              rcases List.mem_cons.mp hmem with rfl | hmem
              · exact ⟨cb, hb⟩
              · exact ih hrest b hmem

theorem conflictingPairs_spec {deltaA deltaB : List Blake3Hash}
    (hA : ∀ a ∈ deltaA, ∃ c, g.get a = some c)
    (hB : deltaA ≠ [] → ∀ b ∈ deltaB, ∃ c, g.get b = some c) :
    ∃ pairs, g.conflictingPairs deltaB deltaA = .ok pairs ∧ ∀ a b, (a, b) ∈ pairs ↔
      a ∈ deltaA ∧ b ∈ deltaB ∧ ∃ ca cb, g.get a = some ca ∧ g.get b = some cb
        ∧ commutes ca cb = false := by
  induction deltaA with
  | nil => exact ⟨[], rfl, by simp⟩
  | cons idA deltaA ih =>
      have hB' := hB (List.cons_ne_nil _ _)
      obtain ⟨ca, hca⟩ := hA idA List.mem_cons_self
      obtain ⟨rest, hrest, hmem⟩ := ih (fun a ha => hA a (.tail _ ha)) fun _ => hB'
      obtain ⟨pairs, hpairs, hmem'⟩ := @conflictsOf_spec g idA ca deltaB hB'
      refine ⟨pairs ++ rest, by simp [conflictingPairs, hca, hpairs, hrest], fun a b => ?_⟩
      rw [List.mem_append, hmem, hmem', List.mem_cons]
      constructor
      · rintro (⟨rfl, hb, cb, hcb, hcomm⟩ | ⟨ha, hb, h⟩)
        · exact ⟨.inl rfl, hb, ca, cb, hca, hcb, hcomm⟩
        · exact ⟨.inr ha, hb, h⟩
      · rintro ⟨rfl | ha, hb, ca', cb, hca', hcb, hcomm⟩
        · obtain rfl := Option.some_inj.mp (hca.symm.trans hca')
          exact .inl ⟨rfl, hb, cb, hcb, hcomm⟩
        · exact .inr ⟨ha, hb, ca', cb, hca', hcb, hcomm⟩

theorem present_of_conflictingPairs {deltaA deltaB : List Blake3Hash}
    {pairs : List (Blake3Hash × Blake3Hash)} (h : g.conflictingPairs deltaB deltaA = .ok pairs) :
    (∀ a ∈ deltaA, ∃ c, g.get a = some c)
      ∧ (deltaA ≠ [] → ∀ b ∈ deltaB, ∃ c, g.get b = some c) := by
  induction deltaA generalizing pairs with
  | nil => simp
  | cons idA deltaA ih =>
      cases ha : g.get idA with
      | none => simp [conflictingPairs, ha] at h
      | some ca =>
          cases hof : g.conflictsOf idA ca deltaB with
          | error e => simp [conflictingPairs, ha, hof] at h
          | ok pairs' =>
              cases hrest : g.conflictingPairs deltaB deltaA with
              | error e => simp [conflictingPairs, ha, hof, hrest] at h
              | ok rest =>
                  refine ⟨fun a hmem => ?_, fun _ => present_of_conflictsOf hof⟩
                  rcases List.mem_cons.mp hmem with rfl | hmem
                  · exact ⟨ca, ha⟩
                  · exact (ih hrest).1 a hmem

/-! ## The recorded paths -/

theorem conflictPaths_eq_ok {pairs : List (Blake3Hash × Blake3Hash)} {seen paths : List NodePath}
    (h : g.conflictPaths pairs seen = .ok paths) :
    (∀ a b, (a, b) ∈ pairs → ∀ ca cb, g.get a = some ca → g.get b = some cb →
        findOverlappingPath ca.atoms cb.atoms ≠ none)
      ∧ ∀ p, p ∈ paths ↔ p ∈ seen ∨ ∃ a b, (a, b) ∈ pairs ∧ ∃ ca cb, g.get a = some ca
        ∧ g.get b = some cb ∧ findOverlappingPath ca.atoms cb.atoms = some p := by
  induction pairs generalizing seen with
  | nil =>
      obtain rfl : seen = paths := by simpa [conflictPaths] using h
      simp
  | cons pair pairs ih =>
      obtain ⟨idA, idB⟩ := pair
      rw [conflictPaths] at h
      cases ha : g.get idA with
      | none => simp [ha] at h
      | some ca =>
          cases hb : g.get idB with
          | none => simp [ha, hb] at h
          | some cb =>
              cases hover : findOverlappingPath ca.atoms cb.atoms with
              | none => simp [ha, hb, hover] at h
              | some overlap =>
                  simp only [ha, hb, hover] at h
                  obtain ⟨hsome, hmem⟩ := ih h
                  have hseen : ∀ p, p ∈ (if overlap ∈ seen then seen else seen ++ [overlap])
                      ↔ p ∈ seen ∨ p = overlap := fun p => by
                    split_ifs with hin
                    · exact ⟨.inl, fun hp => hp.elim id fun heq => heq ▸ hin⟩
                    · rw [List.mem_append, List.mem_singleton]
                  constructor
                  · intro a b hpair ca' cb' hca' hcb'
                    rcases List.mem_cons.mp hpair with heq | hpair
                    · obtain ⟨rfl, rfl⟩ := Prod.mk.inj heq
                      obtain rfl := Option.some_inj.mp (ha.symm.trans hca')
                      obtain rfl := Option.some_inj.mp (hb.symm.trans hcb')
                      simp [hover]
                    · exact hsome a b hpair ca' cb' hca' hcb'
                  · intro p
                    rw [hmem, hseen]
                    constructor
                    · rintro ((hp | rfl) | ⟨a, b, hpair, hrest⟩)
                      · exact .inl hp
                      · exact .inr ⟨idA, idB, List.mem_cons_self, ca, cb, ha, hb, hover⟩
                      · exact .inr ⟨a, b, .tail _ hpair, hrest⟩
                    · rintro (hp | ⟨a, b, hpair, ca', cb', hca', hcb', hp⟩)
                      · exact .inl (.inl hp)
                      · rcases List.mem_cons.mp hpair with heq | hpair
                        · obtain ⟨rfl, rfl⟩ := Prod.mk.inj heq
                          obtain rfl := Option.some_inj.mp (ha.symm.trans hca')
                          obtain rfl := Option.some_inj.mp (hb.symm.trans hcb')
                          exact .inl (.inr (Option.some_inj.mp (hp.symm.trans hover)))
                        · exact .inr ⟨a, b, hpair, ca', cb', hca', hcb', hp⟩

theorem exists_conflictPaths {pairs : List (Blake3Hash × Blake3Hash)} (seen : List NodePath)
    (h : ∀ a b, (a, b) ∈ pairs → ∃ ca cb, g.get a = some ca ∧ g.get b = some cb
      ∧ findOverlappingPath ca.atoms cb.atoms ≠ none) :
    ∃ paths, g.conflictPaths pairs seen = .ok paths := by
  induction pairs generalizing seen with
  | nil => exact ⟨seen, rfl⟩
  | cons pair pairs ih =>
      obtain ⟨ca, cb, ha, hb, hne⟩ := h pair.1 pair.2 List.mem_cons_self
      obtain ⟨overlap, hover⟩ := Option.ne_none_iff_exists'.mp hne
      obtain ⟨paths, hpaths⟩ := ih (if overlap ∈ seen then seen else seen ++ [overlap])
        fun a b hab => h a b (.tail _ hab)
      exact ⟨paths, by rw [conflictPaths, ha, hb]; simpa [hover] using hpaths⟩

variable {env : ApplyEnv} {current target : Finset Blake3Hash}

/-! ## The outcome -/

def Conflicting (g : ChangeGraph) (current target : Finset Blake3Hash) (a b : Change) : Prop :=
  g.ExclusivePair current target a b ∧ commutes a b = false

/-- The merge reaches its end but for the search for overlapping paths. -/
structure Mergeable (g : ChangeGraph) (env : ApplyEnv) (current target : Finset Blake3Hash) :
    Prop where
  replays : ∃ s, g.materializeHeads env current = .ok s
  left : ∀ a ∈ g.delta current target current, ∃ c, g.get a = some c
  right : (g.delta current target current).Nonempty →
    ∀ b ∈ g.delta current target target, ∃ c, g.get b = some c
  conflict_replays : (∃ a b, g.Conflicting current target a b) →
    (∃ s, g.materializeHeads env target = .ok s)
      ∧ ∃ s, g.lcaState env current target = .ok s

theorem conflicting_iff_mem_pairs (hg : g.Indexed) {pairs : List (Blake3Hash × Blake3Hash)}
    (h : g.conflictingPairs (g.delta current target target).sorted
      (g.delta current target current).sorted = .ok pairs) :
    (∀ a b, g.Conflicting current target a b ↔ (a.id, b.id) ∈ pairs
        ∧ g.get a.id = some a ∧ g.get b.id = some b)
      ∧ ∀ x y, (x, y) ∈ pairs → ∃ a b, a.id = x ∧ b.id = y ∧ g.Conflicting current target a b := by
  obtain ⟨hA, hB⟩ := present_of_conflictingPairs h
  obtain ⟨pairs', hpairs, hmem⟩ := conflictingPairs_spec hA hB
  obtain rfl : pairs' = pairs := Except.ok.inj (hpairs.symm.trans h)
  simp only [Finset.mem_sorted] at hmem
  constructor
  · intro a b
    rw [hmem]
    constructor
    · rintro ⟨hex, hcomm⟩
      exact ⟨⟨hex.left_mem, hex.right_mem, a, b, hex.left_get, hex.right_get, hcomm⟩,
        hex.left_get, hex.right_get⟩
    · rintro ⟨⟨ha, hb, ca, cb, hca, hcb, hcomm⟩, hga, hgb⟩
      obtain rfl := Option.some_inj.mp (hga.symm.trans hca)
      obtain rfl := Option.some_inj.mp (hgb.symm.trans hcb)
      exact ⟨⟨ha, hga, hb, hgb⟩, hcomm⟩
  · intro x y hxy
    obtain ⟨hx, hy, ca, cb, hca, hcb, hcomm⟩ := (hmem x y).mp hxy
    obtain rfl := hg.node_id x ca hca
    obtain rfl := hg.node_id y cb hcb
    exact ⟨ca, cb, rfl, rfl, ⟨hx, hca, hy, hcb⟩, hcomm⟩

theorem overlap_iff_clash (hg : g.Indexed) (hac : g.Acyclic) :
    (∀ a b, g.Conflicting current target a b → findOverlappingPath a.atoms b.atoms ≠ none)
      ↔ ∀ a b, g.ExclusivePair current target a b → ∀ file,
        AssetClashAt a.atoms b.atoms file → ∃ p, OverlapAt a.atoms b.atoms p := by
  constructor
  · rintro h a b hab file hclash
    refine findOverlappingPath_ne_none_iff.mp (h a b ⟨hab, ?_⟩)
    rw [hab.commutes_eq hg hac]
    exact hclash.atomsDisjoint_eq_false
  · rintro h a b ⟨hab, hcomm⟩
    rw [hab.commutes_eq hg hac, atomsDisjoint_eq_false_iff] at hcomm
    obtain ⟨x, hx, y, hy, hxm, hym, hclash | ⟨pa, hpa, pb, hpb, hover⟩⟩ := hcomm
    · obtain ⟨file, hfile⟩ := exists_assetClashAt hx hy hxm hym hclash
      exact findOverlappingPath_ne_none_iff.mpr (h a b hab file hfile)
    · exact findOverlappingPath_ne_none_iff.mpr ⟨_, x, hx, y, hy, pa, hpa, pb, hpb, hover, rfl⟩

theorem mergePlan_eq_ok {currentState : MaterializedState} {plan : MergePlan}
    (h : g.mergePlan env current target currentState = .ok plan) :
    ∃ pairs, g.conflictingPairs (g.delta current target target).sorted
        (g.delta current target current).sorted = .ok pairs
      ∧ ((pairs = [] ∧ plan = .union)
        ∨ ∃ targetState lcaState paths, pairs ≠ [] ∧ paths ≠ []
          ∧ g.materializeHeads env target = .ok targetState
          ∧ g.lcaState env current target = .ok lcaState ∧ g.conflictPaths pairs [] = .ok paths
          ∧ plan = .conflict pairs.length ⟨lcaState, currentState, targetState⟩ paths) := by
  unfold mergePlan at h
  cases hpairs : g.conflictingPairs (g.delta current target target).sorted
      (g.delta current target current).sorted with
  | error e => simp [hpairs] at h
  | ok pairs =>
      simp only [hpairs] at h
      refine ⟨pairs, rfl, ?_⟩
      by_cases hnil : pairs = []
      · rw [if_pos hnil] at h
        exact .inl ⟨hnil, (Except.ok.inj h).symm⟩
      · rw [if_neg hnil] at h
        cases htgt : g.materializeHeads env target with
        | error e => simp [htgt] at h
        | ok targetState =>
            cases hlca : g.lcaState env current target with
            | error e => simp [htgt, hlca] at h
            | ok lcaState =>
                cases hpaths : g.conflictPaths pairs [] with
                | error e => simp [htgt, hlca, hpaths] at h
                | ok paths =>
                    simp only [htgt, hlca, hpaths] at h
                    by_cases hempty : paths = []
                    · simp [hempty] at h
                    · rw [if_neg hempty] at h
                      exact .inr ⟨targetState, lcaState, paths, hnil, hempty, rfl, rfl, rfl,
                        (Except.ok.inj h).symm⟩

variable [Crypto] {signer : Author × SigningKey}

theorem hasConflictAt_outcome {pairs : ℕ} {states : ConflictStates} {paths : List NodePath}
    {p : NodePath} :
    ((MergePlan.conflict pairs states paths).outcome current target signer).HasConflictAt p
      ↔ p ∈ paths := by
  have hatoms : ∀ {atom}, atom ∈ states.atoms paths ↔ ∃ q ∈ paths, states.atom q = atom := by
    intro atom
    rw [ConflictStates.atoms, List.mem_map]
    simp only [List.mem_insertionSort]
  constructor
  · rintro ⟨c, hc, bases, sides, hmem⟩
    obtain rfl := Option.some_inj.mp hc
    rw [Change.new_atoms, hatoms] at hmem
    obtain ⟨q, hq, heq⟩ := hmem
    obtain rfl : q = p := (Atom.conflict.inj heq).2.2
    exact hq
  · intro hp
    exact ⟨_, rfl, _, _, hatoms.mpr ⟨p, hp, rfl⟩⟩

theorem mergeHeads_eq_ok (hg : g.Indexed) {out : MergeOutcome}
    (h : g.mergeHeads env current target signer = .ok out) :
    g.Mergeable env current target ∧ ∀ p, out.HasConflictAt p ↔
      ∃ a b, g.Conflicting current target a b
        ∧ findOverlappingPath a.atoms b.atoms = some p := by
  obtain ⟨currentState, plan, hcur, hplan, rfl⟩ := exists_mergePlan_of_mergeHeads h
  obtain ⟨pairs, hpairs, hcases⟩ := mergePlan_eq_ok hplan
  obtain ⟨hA, hB⟩ := present_of_conflictingPairs hpairs
  simp only [Finset.mem_sorted] at hA hB
  have hB' : (g.delta current target current).Nonempty →
      ∀ b ∈ g.delta current target target, ∃ c, g.get b = some c := by
    rintro ⟨a, ha⟩
    exact hB (List.ne_nil_of_mem (Finset.mem_sorted.mpr ha))
  obtain ⟨hconf, hpair⟩ := conflicting_iff_mem_pairs hg hpairs
  rcases hcases with ⟨rfl, rfl⟩ |
    ⟨targetState, lcaState, paths, -, -, htgt, hlca, hpaths, rfl⟩
  · have hnone : ¬ ∃ a b, g.Conflicting current target a b := by
      rintro ⟨a, b, hab⟩
      exact List.not_mem_nil ((hconf a b).mp hab).1
    refine ⟨⟨⟨_, hcur⟩, hA, hB', fun hex => absurd hex hnone⟩, fun p => ?_⟩
    constructor
    · rintro ⟨c, hc, -⟩
      cases hc
    · rintro ⟨a, b, hab, -⟩
      exact absurd ⟨a, b, hab⟩ hnone
  · refine ⟨⟨⟨_, hcur⟩, hA, hB', fun _ => ⟨⟨_, htgt⟩, _, hlca⟩⟩, fun p => ?_⟩
    obtain ⟨-, hmem⟩ := conflictPaths_eq_ok hpaths
    rw [hasConflictAt_outcome, hmem]
    constructor
    · rintro (hp | ⟨x, y, hxy, ca, cb, hca, hcb, hp⟩)
      · exact absurd hp List.not_mem_nil
      · obtain ⟨a, b, rfl, rfl, hab⟩ := hpair x y hxy
        obtain rfl := Option.some_inj.mp (hab.1.left_get.symm.trans hca)
        obtain rfl := Option.some_inj.mp (hab.1.right_get.symm.trans hcb)
        exact ⟨a, b, hab, hp⟩
    · rintro ⟨a, b, hab, hp⟩
      obtain ⟨hmem', hga, hgb⟩ := (hconf a b).mp hab
      exact .inr ⟨a.id, b.id, hmem', a, b, hga, hgb, hp⟩

theorem exists_mergeHeads (hg : g.Indexed) (h : g.Mergeable env current target)
    (hover : ∀ a b, g.Conflicting current target a b →
      findOverlappingPath a.atoms b.atoms ≠ none) :
    ∃ out, g.mergeHeads env current target signer = .ok out := by
  obtain ⟨currentState, hcur⟩ := h.replays
  have hB : (g.delta current target current).sorted ≠ [] →
      ∀ b ∈ (g.delta current target target).sorted, ∃ c, g.get b = some c := by
    intro hne b hb
    obtain ⟨a, ha⟩ := List.exists_mem_of_ne_nil _ hne
    exact h.right ⟨a, Finset.mem_sorted.mp ha⟩ b (Finset.mem_sorted.mp hb)
  obtain ⟨pairs, hpairs, -⟩ :=
    conflictingPairs_spec (fun a ha => h.left a (Finset.mem_sorted.mp ha)) hB
  obtain ⟨-, hpair⟩ := conflicting_iff_mem_pairs hg hpairs
  suffices hplan : ∃ plan, g.mergePlan env current target currentState = .ok plan by
    obtain ⟨plan, hplan⟩ := hplan
    exact ⟨plan.outcome current target signer, by rw [mergeHeads, hcur]; simp only [hplan]⟩
  by_cases hnil : pairs = []
  · exact ⟨.union, by simp [mergePlan, hpairs, hnil]⟩
  · obtain ⟨⟨x, y⟩, hxy⟩ := List.exists_mem_of_ne_nil _ hnil
    obtain ⟨a₀, b₀, rfl, rfl, hab₀⟩ := hpair x y hxy
    obtain ⟨⟨targetState, htgt⟩, lcaState, hlca⟩ := h.conflict_replays ⟨a₀, b₀, hab₀⟩
    obtain ⟨paths, hpaths⟩ := exists_conflictPaths (g := g) [] fun x y hxy => by
      obtain ⟨a, b, rfl, rfl, hab⟩ := hpair x y hxy
      exact ⟨a, b, hab.1.left_get, hab.1.right_get, hover a b hab⟩
    have hne : paths ≠ [] := by
      obtain ⟨hsome, hmem⟩ := conflictPaths_eq_ok hpaths
      obtain ⟨p, hp⟩ := Option.ne_none_iff_exists'.mp
        (hsome _ _ hxy a₀ b₀ hab₀.1.left_get hab₀.1.right_get)
      exact List.ne_nil_of_mem
        ((hmem p).mpr (.inr ⟨_, _, hxy, a₀, b₀, hab₀.1.left_get, hab₀.1.right_get, hp⟩))
    refine ⟨.conflict pairs.length ⟨lcaState, currentState, targetState⟩ paths, ?_⟩
    simp only [mergePlan, hpairs, if_neg hnil, htgt, hlca, hpaths, if_neg hne]

/-! ## Recorded conflicts -/

/-- Each conflicting pair has an overlapping path, and a merge that goes through records a
conflict at every overlap of exclusive changes and in every file whose asset they clash over. -/
structure ConflictsRecorded (g : ChangeGraph) (env : ApplyEnv)
    (current target : Finset Blake3Hash) (signer : Author × SigningKey) : Prop where
  overlap : ∀ a b, g.Conflicting current target a b →
    findOverlappingPath a.atoms b.atoms ≠ none
  paths : ∀ out, g.mergeHeads env current target signer = .ok out →
    ∀ a b, g.ExclusivePair current target a b → ∀ p, OverlapAt a.atoms b.atoms p →
      out.HasConflictAt p
  assets : ∀ out, g.mergeHeads env current target signer = .ok out →
    ∀ a b, g.ExclusivePair current target a b → ∀ file, AssetClashAt a.atoms b.atoms file →
      ∃ p, out.HasConflictAt p ∧ fileOfPath p = some file

/-- When a merge records every conflict. -/
structure ConflictsCovered (g : ChangeGraph) (env : ApplyEnv)
    (current target : Finset Blake3Hash) : Prop where
  clash : ∀ a b, g.ExclusivePair current target a b → ∀ file, AssetClashAt a.atoms b.atoms file →
    ∃ p, OverlapAt a.atoms b.atoms p
  first : g.Mergeable env current target → ∀ a b, g.ExclusivePair current target a b →
    ∀ p, OverlapAt a.atoms b.atoms p → ∃ a' b', g.Conflicting current target a' b'
      ∧ findOverlappingPath a'.atoms b'.atoms = some p
  first_clash : g.Mergeable env current target → ∀ a b, g.ExclusivePair current target a b →
    ∀ file, AssetClashAt a.atoms b.atoms file → ∃ p, fileOfPath p = some file
      ∧ ∃ a' b', g.Conflicting current target a' b'
        ∧ findOverlappingPath a'.atoms b'.atoms = some p

/-- **A merge records every conflict exactly when the conflicts are covered.** -/
theorem conflictsRecorded_iff (hg : g.Indexed) (hac : g.Acyclic) (env : ApplyEnv)
    (current target : Finset Blake3Hash) (signer : Author × SigningKey) :
    g.ConflictsRecorded env current target signer ↔ g.ConflictsCovered env current target := by
  constructor
  · intro h
    have hout : g.Mergeable env current target →
        ∃ out, g.mergeHeads env current target signer = .ok out :=
      fun hm => exists_mergeHeads hg hm h.overlap
    refine ⟨(overlap_iff_clash hg hac).mp h.overlap, fun hm a b hab p hp => ?_,
      fun hm a b hab file hfile => ?_⟩
    · obtain ⟨out, hok⟩ := hout hm
      exact ((mergeHeads_eq_ok hg hok).2 p).mp (h.paths out hok a b hab p hp)
    · obtain ⟨out, hok⟩ := hout hm
      obtain ⟨p, hp, hfilep⟩ := h.assets out hok a b hab file hfile
      exact ⟨p, hfilep, ((mergeHeads_eq_ok hg hok).2 p).mp hp⟩
  · intro h
    refine ⟨(overlap_iff_clash hg hac).mpr h.clash, fun out hok a b hab p hp => ?_,
      fun out hok a b hab file hfile => ?_⟩
    · obtain ⟨hm, hrec⟩ := mergeHeads_eq_ok hg hok
      exact (hrec p).mpr (h.first hm a b hab p hp)
    · obtain ⟨hm, hrec⟩ := mergeHeads_eq_ok hg hok
      obtain ⟨p, hfilep, hp⟩ := h.first_clash hm a b hab file hfile
      exact ⟨p, (hrec p).mpr hp, hfilep⟩

omit [Crypto] in
/-- Two insertions of one item are recorded as a conflict. -/
theorem conflictsRecorded_one_item :
    let a := Change.bare 1 ∅ [.insert ["file", "a.rs"] 7]
    let b := Change.bare 2 ∅ [.insert ["file", "a.rs"] 8]
    let g := ofChanges [a, b]
    let env : ApplyEnv := ⟨fun _ => .ok [1, 2], fun _ _ => false, none⟩
    @ConflictsRecorded Crypto.sample g env {1} {2} (.human "" "" 0, 0) := by
  intro a b g env
  have hpair : ∀ a' b', g.ExclusivePair {1} {2} a' b' → a' = a ∧ b' = b := fun a' b' h =>
    h.eq_of_singletons (by decide +kernel) (by decide +kernel) (by decide +kernel)
      (by decide +kernel)
  have hex : g.Conflicting {1} {2} a b :=
    ⟨⟨by decide +kernel, by decide +kernel, by decide +kernel, by decide +kernel⟩,
      by decide⟩
  have hclash : ∀ file, ¬ AssetClashAt a.atoms b.atoms file := by
    rintro file ⟨x, hx, y, hy, -, -, hclash, -⟩
    obtain rfl := List.mem_singleton.mp hx
    obtain rfl := List.mem_singleton.mp hy
    exact absurd hclash (by decide)
  have hover : ∀ p, OverlapAt a.atoms b.atoms p → p = ["file", "a.rs"] := by
    rintro p ⟨x, hx, y, hy, pa, hpa, pb, hpb, -, rfl⟩
    obtain rfl := List.mem_singleton.mp hx
    obtain rfl := List.mem_singleton.mp hy
    obtain rfl := List.mem_singleton.mp hpa
    obtain rfl := List.mem_singleton.mp hpb
    rfl
  refine (@conflictsRecorded_iff g Crypto.sample (indexed_ofChanges (by decide))
    (acyclic_of_lt (by decide)) env {1} {2} _).mpr ⟨?_, ?_, ?_⟩
  · intro a' b' h file hc
    obtain ⟨rfl, rfl⟩ := hpair a' b' h
    exact absurd hc (hclash file)
  · intro _ a' b' h p hp
    obtain ⟨rfl, rfl⟩ := hpair a' b' h
    obtain rfl := hover p hp
    exact ⟨a, b, hex, by decide⟩
  · intro _ a' b' h file hc
    obtain ⟨rfl, rfl⟩ := hpair a' b' h
    exact absurd hc (hclash file)
omit [Crypto] in
/-- Both changes insert into `a.rs` and `b.rs`. The merge records the conflict in `a.rs` and
leaves `b.rs` to the order of the replay. -/
theorem merge_records_first_overlap_only :
    let items : List Atom := [.insert ["file", "a.rs"] 7, .insert ["file", "b.rs"] 8]
    let g := ofChanges [.bare 1 ∅ items, .bare 2 ∅ items]
    let env : ApplyEnv := ⟨fun _ => .ok [1, 2], fun _ _ => false, none⟩
    let signer : Author × SigningKey := (.human "" "" 0, 0)
    g.Indexed ∧ g.Acyclic
      ∧ (∃ out, @mergeHeads Crypto.sample g env {1} {2} signer = .ok out
        ∧ out.HasConflictAt ["file", "a.rs"] ∧ ¬ out.HasConflictAt ["file", "b.rs"])
      ∧ ¬ @ConflictsRecorded Crypto.sample g env {1} {2} signer := by
  intro items g env signer
  have hg : g.Indexed := indexed_ofChanges (by decide)
  have hac : g.Acyclic := acyclic_of_lt (by decide)
  let c := @Change.new Crypto.sample {1, 2} [.conflict [0] [517, 517] ["file", "a.rs"]]
    "merge conflict: 1 pair(s)" signer.1 signer.2
  let out : MergeOutcome := ⟨{c.id}, some c⟩
  have hok : @mergeHeads Crypto.sample g env {1} {2} signer = .ok out := by decide +kernel
  have hrec : out.HasConflictAt ["file", "a.rs"] := ⟨c, rfl, _, _, List.mem_singleton_self _⟩
  have hnot : ¬ out.HasConflictAt ["file", "b.rs"] := by
    rintro ⟨c', hc', bases, sides, hmem⟩
    obtain rfl : c = c' := Option.some_inj.mp hc'
    have hpath := (Atom.conflict.inj (List.mem_singleton.mp hmem)).2.2
    exact absurd hpath (by decide)
  refine ⟨hg, hac, ⟨out, hok, hrec, hnot⟩, fun h => hnot ?_⟩
  refine @ConflictsRecorded.paths Crypto.sample g env {1} {2} signer h out hok
    (.bare 1 ∅ items) (.bare 2 ∅ items)
    ⟨by decide +kernel, by decide +kernel, by decide +kernel, by decide +kernel⟩ _ ?_
  exact ⟨.insert ["file", "b.rs"] 8, by decide, .insert ["file", "b.rs"] 8, by decide,
    ["file", "b.rs"], by decide, ["file", "b.rs"], by decide, by decide, by decide⟩

end ChangeGraph

end ArcVcs
