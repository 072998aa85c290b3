import ArcVcs.ItemDiff
import ArcVcs.Hydration

/-!
# A difference as a patch

The atoms of `diff_atoms`, placed below a file, take the items of that file from the old map to
the new one and touch nothing else, unless the author check or a sparse boundary stops them. An
item is never inserted before the removal of what it replaces.
-/

namespace ArcVcs

variable {filepath : String} {agentIgnore : Gitignore} {sparse : Option SparseMatcher}

/-! ## Atoms below one file -/

/-- A path below a file that AI authors may not touch, or below `.agentignore`. -/
def fileRestricted (agentIgnore : Gitignore) (filepath : String) : Bool :=
  isRestricted agentIgnore ["file", filepath]

/-- No sparse boundary is active, or the file lies inside it. -/
def fileInBoundary (sparse : Option SparseMatcher) (filepath : String) : Bool :=
  sparse.all fun matcher => matcher.matchesFilePath filepath

/-- The atoms of one file, each of which writes or removes an item of it. -/
def BelowFile (filepath : String) (atoms : List Atom) : Prop :=
  ∀ atom ∈ atoms, ∃ path hash,
    atom = .insert ("file" :: filepath :: path) hash
      ∨ atom = .delete ("file" :: filepath :: path) hash

theorem BelowFile.isRestricted {atoms : List Atom} (h : BelowFile filepath atoms) {atom : Atom}
    (hatom : atom ∈ atoms) :
    atom.isRestricted agentIgnore = fileRestricted agentIgnore filepath := by
  obtain ⟨path, hash, rfl | rfl⟩ := h atom hatom <;>
    simp [Atom.isRestricted, Atom.paths, ArcVcs.isRestricted, checkedPath, fileRestricted]

theorem BelowFile.isSkipped {atoms : List Atom} (h : BelowFile filepath atoms) {atom : Atom}
    (hatom : atom ∈ atoms) : isSkipped sparse atom = !fileInBoundary sparse filepath := by
  obtain ⟨path, hash, rfl | rfl⟩ := h atom hatom <;> cases sparse <;>
    simp [ArcVcs.isSkipped, SparseMatcher.matchesAtom, SparseMatcher.matchesNodePath,
      SparseMatcher.matchesFilePath, Atom.paths, fileInBoundary]

theorem BelowFile.filterMap_plannedOp {atoms : List Atom} (h : BelowFile filepath atoms)
    {env : ApplyEnv} (hsparse : fileInBoundary env.sparse filepath = true) :
    atoms.filterMap (Atom.plannedOp env) = atoms.filterMap (Atom.entryOp env.store) := by
  refine List.filterMap_congr fun atom hatom => if_neg ?_
  simp [h.isSkipped hatom, hsparse]

theorem BelowFile.violates {env : ApplyEnv} {change : Change}
    (h : BelowFile filepath change.atoms) (hne : change.atoms ≠ []) :
    change.violates env = (change.author.isAi && fileRestricted env.agentIgnore filepath) := by
  rw [Change.violates, Change.isRestricted]
  congr 1
  obtain ⟨atom, hatom⟩ := List.exists_mem_of_ne_nil _ hne
  cases hfile : fileRestricted env.agentIgnore filepath with
  | true =>
      exact List.any_eq_true.mpr ⟨atom, hatom, (h.isRestricted hatom).trans hfile⟩
  | false =>
      refine List.any_eq_false.mpr fun other hother => ?_
      rw [h.isRestricted hother, hfile]
      exact Bool.false_ne_true

theorem BelowFile.not_violates {env : ApplyEnv} {change : Change}
    (h : BelowFile filepath change.atoms)
    (hauthor : (change.author.isAi && fileRestricted env.agentIgnore filepath) = false) :
    change.violates env = false := by
  by_cases hnil : change.atoms = []
  · simp [Change.violates, Change.isRestricted, hnil]
  · exact (h.violates hnil).trans hauthor

theorem applyChangeScoped_eq_ok_iff {env : ApplyEnv} {change : Change} {r : Replay}
    {state : MaterializedState} :
    (∃ out, applyChangeScoped env change r = (.ok (), out) ∧ out.state = state)
      ↔ (change.effect env).run r.state = some state := by
  rw [← applyChangeScoped_state]
  rcases applyChangeScoped env change r with ⟨e | u, out⟩
  · simp [Except.toOption]
  · simp [Except.toOption]

theorem exists_run_of_safe {env : ApplyEnv} {atoms : List Atom}
    (hops : ∀ atom ∈ atoms, (atom.entryOp env.store).isSome) {state : MaterializedState}
    (hsafe : ∀ key, EntryOp.Safe (state.lookup key).isSome
      (EntryOp.opsAt key (atoms.filterMap (Atom.plannedOp env))) = true) :
    ∃ out, (atoms.map (Atom.plainEffect env)).prod.run state = some out := by
  rw [prod_plainEffect hops, ← Option.isSome_iff_exists]
  exact EntryOp.isSome_runAll_iff.mpr hsafe

/-! ## A change that patches a file -/

/-- Applying the change succeeds, leaves exactly the new map under the file, and every other key
as it was. -/
def Patches (env : ApplyEnv) (change : Change) (filepath : String) (newMap : FMap NodePath Bytes)
    (r : Replay) : Prop :=
  ∃ out, applyChangeScoped env change r = (.ok (), out)
    ∧ (∀ path, itemAt out.state filepath path = newMap.lookup path)
    ∧ ∀ key, (∀ path, key ≠ "file" :: filepath :: path) →
      out.state.lookup key = r.state.lookup key

variable {env : ApplyEnv} {change : Change} {r : Replay} {oldMap newMap : FMap NodePath Bytes}

theorem patches_of_nil (hatoms : change.atoms = [])
    (hold : ∀ path, itemAt r.state filepath path = oldMap.lookup path) :
    Patches env change filepath oldMap r := by
  refine ⟨r, ?_, hold, fun _ _ => rfl⟩
  rw [applyChangeScoped, hatoms, applyAtoms]

theorem not_patches_of_violates (h : change.violates env = true) :
    ¬ Patches env change filepath newMap r := by
  rintro ⟨out, hout, -, -⟩
  have hrun := applyChangeScoped_eq_ok_iff.mp ⟨out, hout, rfl⟩
  rw [Change.effect_eq, if_pos h] at hrun
  simp at hrun

theorem eq_of_patches_outside (hbelow : BelowFile filepath change.atoms)
    (hsparse : fileInBoundary env.sparse filepath = false)
    (hold : ∀ path, itemAt r.state filepath path = oldMap.lookup path)
    (h : Patches env change filepath newMap r) : oldMap = newMap := by
  obtain ⟨out, hout, hnew, -⟩ := h
  have hrun := applyChangeScoped_eq_ok_iff.mp ⟨out, hout, rfl⟩
  have hauthor : change.violates env = false := by
    by_contra hbad
    rw [Change.effect_eq, if_pos (Bool.eq_true_of_not_eq_false hbad)] at hrun
    simp at hrun
  have hone : ∀ atom ∈ change.atoms, atom.plainEffect env = 1 := fun atom hatom =>
    if_pos (by rw [hbelow.isSkipped hatom, hsparse]; rfl)
  have hsame : change.plainEffect env = 1 := by
    rw [Change.plainEffect, List.map_congr_left hone]
    simp
  rw [Change.effect_eq, hauthor, if_neg Bool.false_ne_true, hsame, PartialAction.run_one,
    Option.some_inj] at hrun
  refine Finmap.ext_lookup fun path => ?_
  rw [← hold path, ← hnew path, hrun]

/-! ## The atoms of a difference -/

section Difference

variable [Crypto] {store : BlobStore}

theorem belowFile_diffAtoms (oldMap newMap : FMap NodePath Bytes) (filepath : String) :
    BelowFile filepath ((diffAtoms oldMap newMap).map (prefixAtomPath filepath)) := by
  intro atom hatom
  obtain ⟨item, hitem, rfl⟩ := List.mem_map.mp hatom
  obtain ⟨path, content, -, rfl | rfl⟩ := mem_diffAtoms hitem
  · exact ⟨path, _, .inl rfl⟩
  · exact ⟨path, _, .inr rfl⟩

theorem diffPairs_self (m : FMap NodePath Bytes) : diffPairs m m = [] := by
  have hdeleted : ∀ path, deletedAt m m path = [] := fun path => by
    cases h : m.lookup path <;> simp [deletedAt, h]
  have hinserted : ∀ path, insertedAt m m path = [] := fun path => by
    cases h : m.lookup path <;> simp [insertedAt, h]
  have hmodified : ∀ path, modifiedAt m m path = [] := fun path => by
    cases h : m.lookup path <;> simp [modifiedAt, h]
  simp [diffPairs, hdeleted, hinserted, hmodified]

theorem diffAtoms_self (m : FMap NodePath Bytes) : diffAtoms m m = [] := by
  rw [diffAtoms, diffPairs_self]
  rfl

theorem eq_of_diffAtoms_nil (h : Readable store (diffContents oldMap newMap))
    (hnil : diffAtoms oldMap newMap = []) : oldMap = newMap := by
  refine Finmap.ext_lookup fun path => EntryOp.diff_eq_nil_iff.mp ?_
  rw [← opsAtKey_diffAtoms h, hnil]
  rfl

theorem opsAtKey_placed (h : Readable store (diffContents oldMap newMap)) (filepath : String) :
    (∀ path, opsAtKey store ("file" :: filepath :: path)
        ((diffAtoms oldMap newMap).map (prefixAtomPath filepath))
          = EntryOp.diff (oldMap.lookup path) (newMap.lookup path))
      ∧ ∀ key, (∀ path, key ≠ "file" :: filepath :: path) →
        opsAtKey store key ((diffAtoms oldMap newMap).map (prefixAtomPath filepath)) = [] := by
  have hatoms : ∀ atom ∈ diffAtoms oldMap newMap, atom.WritesOrRemoves store :=
    fun _ => writesOrRemoves_of_mem_diffAtoms h
  obtain ⟨hfile, hother⟩ := opsAtKey_map_prefixAtomPath hatoms filepath
  exact ⟨fun path => (hfile path).trans (opsAtKey_diffAtoms h path), hother⟩

/-- **A removal comes before what replaces it.** -/
theorem pairwise_diffAtoms (h : Readable store (diffContents oldMap newMap)) :
    (diffAtoms oldMap newMap).Pairwise fun a b =>
      ∀ path hash hash', a = .insert path hash → b ≠ .delete path hash' := by
  rw [List.pairwise_iff_forall_sublist]
  rintro a b hsub path hash hash' rfl rfl
  have hinsert := writesOrRemoves_of_mem_diffAtoms h (hsub.subset List.mem_cons_self)
  obtain ⟨x, hx⟩ := Option.isSome_iff_exists.mp hinsert.isSome_entryOp
  obtain ⟨bytes, -, rfl⟩ := Option.map_eq_some_iff.mp hx
  have hops : (opsAtKey store path [.insert path hash, .delete path hash']).Sublist
      (opsAtKey store path (diffAtoms oldMap newMap)) :=
    ((hsub.filterMap _).filter _).map _
  have hpair : opsAtKey store path [.insert path hash, .delete path hash']
      = [.write bytes, .remove] := by
    rw [opsAtKey, List.filterMap_cons_some hx]
    simp [EntryOp.opsAt, Atom.entryOp]
  rw [hpair, opsAtKey_diffAtoms h] at hops
  -- an entry is written last
  cases hold : oldMap.lookup path with
  | none => cases hnew : newMap.lookup path <;> simp [hold, hnew, EntryOp.diff] at hops
  | some old =>
      cases hnew : newMap.lookup path with
      | none => simp [hold, hnew, EntryOp.diff] at hops
      | some new =>
          by_cases heq : old = new
          · simp [hold, hnew, heq, EntryOp.diff] at hops
          · simp only [hold, hnew, EntryOp.diff, if_neg heq] at hops
            simpa using hops.eq_of_length rfl

theorem isSome_entryOp_placed (h : Readable store (diffContents oldMap newMap))
    (filepath : String) :
    ∀ atom ∈ (diffAtoms oldMap newMap).map (prefixAtomPath filepath),
      (atom.entryOp store).isSome := by
  intro atom hatom
  obtain ⟨item, hitem, rfl⟩ := List.mem_map.mp hatom
  exact ((writesOrRemoves_of_mem_diffAtoms h hitem).prefixAtomPath filepath).isSome_entryOp

theorem patches_placed (h : Readable env.store (diffContents oldMap newMap))
    (hatoms : change.atoms = (diffAtoms oldMap newMap).map (prefixAtomPath filepath))
    (hauthor : change.violates env = false) (hsparse : fileInBoundary env.sparse filepath = true)
    (hold : ∀ path, itemAt r.state filepath path = oldMap.lookup path) :
    Patches env change filepath newMap r := by
  have hbelow := belowFile_diffAtoms oldMap newMap filepath
  have hopsAt : ∀ key, EntryOp.opsAt key (change.atoms.filterMap (Atom.plannedOp env))
      = opsAtKey env.store key ((diffAtoms oldMap newMap).map (prefixAtomPath filepath)) := by
    intro key
    rw [hatoms, hbelow.filterMap_plannedOp hsparse, opsAtKey]
  have hsome : ∀ atom ∈ change.atoms, (atom.entryOp env.store).isSome := by
    rw [hatoms]
    exact isSome_entryOp_placed h filepath
  obtain ⟨hfile, hother⟩ := opsAtKey_placed h filepath
  have hsafe : ∀ key, EntryOp.Safe (r.state.lookup key).isSome
      (EntryOp.opsAt key (change.atoms.filterMap (Atom.plannedOp env))) = true := by
    intro key
    rw [hopsAt]
    by_cases hkey : ∃ path, key = "file" :: filepath :: path
    · obtain ⟨path, rfl⟩ := hkey
      rw [hfile, ← hold path]
      exact (EntryOp.safe_diff_iff _ _ _).mpr fun _ hpresent => hpresent
    · rw [hother key fun path hpath => hkey ⟨path, hpath⟩]
      rfl
  obtain ⟨state, hrun⟩ := exists_run_of_safe hsome hsafe
  have hfinal := (run_plainEffect_iff hsome).mp hrun
  obtain ⟨out, hout, rfl⟩ := applyChangeScoped_eq_ok_iff.mpr (show
    (change.effect env).run r.state = some state by
      rw [Change.effect_eq, hauthor, if_neg Bool.false_ne_true]
      exact hrun)
  refine ⟨out, hout, fun path => ?_, fun key hkey => ?_⟩
  · rw [itemAt, (hfinal _).2, hopsAt, hfile]
    change EntryOp.final (itemAt r.state filepath path) _ = _
    rw [hold path, EntryOp.final_diff]
    split_ifs with heq
    · exact heq
    · rfl
  · rw [(hfinal key).2, hopsAt, hother key hkey, EntryOp.final_nil]

/-- **A difference is a correct patch** exactly when the maps are equal, or the author check lets
the author write the file and the file is not outside a sparse boundary. -/
theorem diffAtoms_patches_iff {blobs : FMap Blake3Hash Bytes} (filepath : String)
    (hblobs : Repo.Storable blobs (diffContents oldMap newMap)) {agentIgnore : Gitignore}
    {sparse : Option SparseMatcher} {change : Change} {r : Replay}
    (hatoms : change.atoms = (diffAtoms oldMap newMap).map (prefixAtomPath filepath))
    (hold : ∀ path, itemAt r.state filepath path = oldMap.lookup path) :
    (Patches ⟨Repo.readBlob (Repo.putContents blobs (diffContents oldMap newMap)), agentIgnore,
        sparse⟩ change filepath newMap r
      ↔ oldMap = newMap ∨ (change.author.isAi && fileRestricted agentIgnore filepath) = false
          ∧ fileInBoundary sparse filepath = true)
      ∧ (diffAtoms oldMap newMap).Pairwise fun a b =>
          ∀ path hash hash', a = .insert path hash → b ≠ .delete path hash' := by
  set store := Repo.readBlob (Repo.putContents blobs (diffContents oldMap newMap))
  have hread : Readable store (diffContents oldMap newMap) := fun content hc => hblobs.readBlob hc
  refine ⟨⟨fun h => ?_, ?_⟩, pairwise_diffAtoms hread⟩
  · by_contra hnot
    obtain ⟨hne, hstop⟩ := not_or.mp hnot
    have hbelow : BelowFile filepath change.atoms :=
      hatoms ▸ belowFile_diffAtoms oldMap newMap filepath
    cases hsparse : fileInBoundary sparse filepath with
    | false => exact hne (eq_of_patches_outside hbelow hsparse hold h)
    | true =>
        have hauthor : (change.author.isAi && fileRestricted agentIgnore filepath) = true := by
          simpa [hsparse] using hstop
        have hnonempty : change.atoms ≠ [] := fun hnil =>
          hne (eq_of_diffAtoms_nil hread (List.map_eq_nil_iff.mp (hatoms.symm.trans hnil)))
        exact not_patches_of_violates ((hbelow.violates hnonempty).trans hauthor) h
  · rintro (rfl | ⟨hauthor, hsparse⟩)
    · exact patches_of_nil (by rw [hatoms, diffAtoms_self]; rfl) hold
    · have hbelow : BelowFile filepath change.atoms :=
        hatoms ▸ belowFile_diffAtoms oldMap newMap filepath
      exact patches_placed hread hatoms (hbelow.not_violates hauthor) hsparse hold

end Difference

/-- A function whose body changes. -/
theorem diffAtoms_patches_function :
    let oldMap : FMap NodePath Bytes := Finmap.singleton ["f"] [1]
    let newMap : FMap NodePath Bytes := Finmap.singleton ["f"] [2]
    let contents := @diffContents Crypto.sample oldMap newMap
    let env : ApplyEnv :=
      ⟨@Repo.readBlob Crypto.sample (@Repo.putContents Crypto.sample ∅ contents), fun _ _ => false,
        none⟩
    let change := Change.bare 1 ∅
      ((@diffAtoms Crypto.sample oldMap newMap).map (prefixAtomPath "a.rs"))
    Patches env change "a.rs" newMap ⟨Finmap.singleton ["file", "a.rs", "f"] [1], none⟩ := by
  intro oldMap newMap contents env change
  have hblobs : @Repo.Storable Crypto.sample ∅ contents :=
    @Repo.Storable.of_all Crypto.sample ∅ contents (by decide) (by decide)
  have hold : ∀ path, itemAt (Finmap.singleton ["file", "a.rs", "f"] [1]) "a.rs" path
      = oldMap.lookup path := by
    intro path
    rw [itemAt, FMap.lookup_singleton, FMap.lookup_singleton]
    simp
  exact (@diffAtoms_patches_iff oldMap newMap Crypto.sample ∅ "a.rs" hblobs (fun _ _ => false) none
    change ⟨_, none⟩ rfl hold).1.mpr (.inr ⟨rfl, rfl⟩)

/-- An AI author cannot add an item to `.agentignore`. -/
theorem diffAtoms_stopped_by_agentignore :
    ¬ ∀ (blobs : FMap Blake3Hash Bytes) (oldMap newMap : FMap NodePath Bytes) (filepath : String)
      (agentIgnore : Gitignore) (change : Change) (r : Replay),
      @Repo.Storable Crypto.sample blobs (@diffContents Crypto.sample oldMap newMap) →
      change.atoms = (@diffAtoms Crypto.sample oldMap newMap).map (prefixAtomPath filepath) →
      (∀ path, itemAt r.state filepath path = oldMap.lookup path) →
      Patches ⟨@Repo.readBlob Crypto.sample (@Repo.putContents Crypto.sample blobs
          (@diffContents Crypto.sample oldMap newMap)), agentIgnore, none⟩
        change filepath newMap r := by
  intro h
  let newMap : FMap NodePath Bytes := Finmap.singleton ["f"] [1]
  let change := { Change.bare 1 ∅
    ((@diffAtoms Crypto.sample ∅ newMap).map (prefixAtomPath ".agentignore")) with
    author := .ai "model" 0 }
  have hblobs : @Repo.Storable Crypto.sample ∅ (@diffContents Crypto.sample ∅ newMap) :=
    @Repo.Storable.of_all Crypto.sample ∅ _ (by decide) (by decide)
  refine not_patches_of_violates ?_ (h ∅ ∅ newMap ".agentignore" (fun _ _ => false) change ⟨∅, none⟩
    hblobs rfl fun _ => rfl)
  decide

end ArcVcs
