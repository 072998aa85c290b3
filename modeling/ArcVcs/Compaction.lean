import ArcVcs.ConflictSides
import ArcVcs.Maintenance

/-!
# What a Genesis Change restores

The atoms of a Genesis Change write every entry that is not shadowed at its own path, unless the
entry is a token elsewhere than at a file, or longer than one. They leave directories empty.
-/

namespace ArcVcs

namespace Repo

open EntryOp

/-- What the Genesis Change of a state restores. -/
structure Restorable (state : MaterializedState) : Prop where
  unshadowed : ∀ path content, state.lookup path = some content →
    isShadowedRoot state path = false
  directory : ∀ path content, state.lookup path = some content → path.head? = some "dir" →
    content = []
  token : ∀ path content, state.lookup path = some content → path.head? ≠ some "dir" →
    isBlobToken content = true → ∃ p, path = ["file", p] ∧ content.length = 45

/-- What the atom of an entry does, and at which key. -/
def genesisOp (entry : NodePath × Bytes) : NodePath × EntryOp Bytes :=
  if entry.1.head? = some "dir" then (entry.1, .ensure [])
  else if isBlobToken entry.2 then
    (["file", entry.1[1]?.getD ("/".intercalate entry.1)],
      .write (blobToken (.ofBytes ((entry.2.drop 13).take 32))))
  else (entry.1, .write entry.2)

/-- Where the atom of a token writes, the token stands. -/
def TokensAtFiles (state : MaterializedState) : Prop :=
  ∀ path content, state.lookup path = some content → path.head? ≠ some "dir" →
    isBlobToken content = true → ∃ p, path = ["file", p]

variable {state : MaterializedState}

theorem mem_genesisEntries {path : NodePath} {content : Bytes} :
    (path, content) ∈ genesisEntries state
      ↔ state.lookup path = some content ∧ isShadowedRoot state path = false := by
  simp only [genesisEntries, List.mem_filterMap, List.mem_filter, Finset.mem_sorted,
    Option.map_eq_some_iff, Prod.mk.injEq]
  constructor
  · rintro ⟨_, ⟨-, hroot⟩, _, hlook, rfl, rfl⟩
    exact ⟨hlook, by simpa using hroot⟩
  · rintro ⟨hlook, hroot⟩
    exact ⟨path, ⟨FMap.mem_keys_iff.mpr ⟨content, hlook⟩, by simp [hroot]⟩, content, hlook,
      rfl, rfl⟩

theorem nodup_genesisEntries (state : MaterializedState) :
    ((genesisEntries state).map Prod.fst).Nodup := by
  have hsublist : ∀ paths : List NodePath, ((paths.filterMap fun path =>
      (state.lookup path).map fun content => (path, content)).map Prod.fst).Sublist paths := by
    intro paths
    induction paths with
    | nil => exact .slnil
    | cons path paths ih =>
        cases hlook : state.lookup path with
        | none => simpa [hlook] using ih.cons path
        | some content => simpa [hlook] using ih.cons_cons path
  exact ((Finset.nodup_sorted state.keys).filter _).sublist (hsublist _)

theorem asBytes_ofBytes {bytes : Bytes} (h : bytes.length = 32) :
    (Blake3Hash.ofBytes bytes).asBytes = bytes := by
  have hlt := Nat.ofBigEndian_lt bytes
  rw [h] at hlt
  have hval : (Blake3Hash.ofBytes bytes).toNat = Nat.ofBigEndian bytes := Nat.mod_eq_of_lt hlt
  have hround := Nat.toBigEndian_ofBigEndian h
  rw [← hval] at hround
  exact hround

theorem blobToken_ofBytes_iff {content : Bytes} (h : isBlobToken content = true) :
    blobToken (.ofBytes ((content.drop 13).take 32)) = content ↔ content.length = 45 := by
  obtain ⟨hpath, hlength⟩ := Bool.and_eq_true_iff.mp h
  obtain ⟨rest, rfl⟩ := List.isPrefixOf_iff_prefix.mp hpath
  have htext : (utf8 "ARC_BLOB_REF:").length = 13 := by
    rw [utf8_eq]
    rfl
  have hdrop : (utf8 "ARC_BLOB_REF:" ++ rest).drop 13 = rest := by rw [← htext, List.drop_left]
  rw [List.length_append, htext, decide_eq_true_eq] at hlength
  rw [hdrop, blobToken, List.append_cancel_left_eq, List.length_append, htext,
    asBytes_ofBytes (by rw [List.length_take]; omega), List.take_eq_self_iff]
  omega

variable [Crypto]

def ReadsContents (env : ApplyEnv) (state : MaterializedState) : Prop :=
  ∀ content ∈ genesisContents state, env.store (Crypto.hashBytes content) = .ok content

theorem entryOp_genesisAtom {env : ApplyEnv} (hstore : ReadsContents env state)
    {entry : NodePath × Bytes} (hentry : entry ∈ genesisEntries state) :
    (genesisAtom entry.1 entry.2).entryOp env.store = some (genesisOp entry) := by
  rw [genesisAtom, genesisOp]
  split_ifs with hdir htoken
  · rfl
  · rfl
  · have hcontent : entry.2 ∈ genesisContents state :=
      List.mem_map_of_mem (List.mem_filter.mpr ⟨hentry, by simp [hdir, htoken]⟩)
    rw [Atom.entryOp, hstore _ hcontent]
    rfl

theorem filterMap_genesisAtoms {env : ApplyEnv} (hsparse : env.sparse = none)
    (hstore : ReadsContents env state) :
    (genesisAtoms state).filterMap (Atom.plannedOp env) = (genesisEntries state).map genesisOp := by
  rw [genesisAtoms, List.filterMap_map, Atom.plannedOp_of_full hsparse, ← List.filterMap_eq_map]
  exact List.filterMap_congr fun entry hentry => entryOp_genesisAtom hstore hentry

omit [Crypto] in
theorem eq_of_genesisOp {entry : NodePath × Bytes} (hentry : entry ∈ genesisEntries state)
    (htoken : TokensAtFiles state) : (genesisOp entry).1 = entry.1 := by
  obtain ⟨path, content⟩ := entry
  rw [genesisOp]
  split_ifs with hdir hblob
  · rfl
  · obtain ⟨p, rfl⟩ := htoken path content (mem_genesisEntries.mp hentry).1 hdir hblob
    rfl
  · rfl

omit [Crypto] in
theorem final_genesisOp_iff {path : NodePath} {content : Bytes} :
    EntryOp.final none [(genesisOp (path, content)).2] = some content
      ↔ (path.head? = some "dir" → content = [])
        ∧ (path.head? ≠ some "dir" → isBlobToken content = true → content.length = 45) := by
  rw [genesisOp]
  split_ifs with hdir hblob
  · rw [eq_comm]
    simp [EntryOp.final, EntryOp.next, hdir]
  · simpa [EntryOp.final, EntryOp.next, hdir, hblob] using blobToken_ofBytes_iff hblob
  · simp [EntryOp.final, EntryOp.next, hdir, hblob]

omit [Crypto] in
/-- With every token at its file, an entry is left by its own operation alone. -/
theorem opsAt_genesisOps (htoken : TokensAtFiles state) {path : NodePath} {content : Bytes}
    (hentry : (path, content) ∈ genesisEntries state) :
    opsAt path ((genesisEntries state).map genesisOp) = [(genesisOp (path, content)).2] := by
  have hkeys : ((genesisEntries state).map genesisOp).map Prod.fst
      = (genesisEntries state).map Prod.fst := by
    rw [List.map_map]
    exact List.map_congr_left fun entry h => eq_of_genesisOp h htoken
  refine opsAt_eq_singleton (by rw [hkeys]; exact nodup_genesisEntries state) ?_
  exact List.mem_map.mpr ⟨_, hentry, Prod.ext (eq_of_genesisOp hentry htoken) rfl⟩

omit [Crypto] in
theorem opsAt_genesisOps_eq_nil {path : NodePath}
    (h : ∀ entry ∈ genesisEntries state, (genesisOp entry).1 ≠ path) :
    opsAt path ((genesisEntries state).map genesisOp) = [] := by
  refine opsAt_eq_nil fun op hop => ?_
  obtain ⟨entry, hentry, heq⟩ := List.mem_map.mp hop
  exact h entry hentry (congrArg Prod.fst heq)

omit [Crypto] in
/-- An operation at a path that is not the entry's own writes what is no token elsewhere. -/
theorem tokensAtFiles_of_named (hnamed : ∀ path content, state.lookup path = some content →
    ∃ entry ∈ genesisEntries state, (genesisOp entry).1 = path) : TokensAtFiles state := by
  intro path content hlook hdir hblob
  obtain ⟨⟨path', content'⟩, hentry, hkey⟩ := hnamed path content hlook
  rw [genesisOp] at hkey
  split_ifs at hkey with hdir' hblob'
  · exact absurd (hkey ▸ hdir') hdir
  · exact ⟨_, hkey.symm⟩
  · obtain rfl : path' = path := hkey
    rw [(mem_genesisEntries.mp hentry).1] at hlook
    exact absurd hblob (Option.some.inj hlook ▸ hblob')

/-- The operations of the Genesis Change decide what is restored, path by path. -/
theorem genesis_restores_iff_ops {env : ApplyEnv} (hsparse : env.sparse = none)
    (hstore : ReadsContents env state) {genesis : Change}
    (hatoms : genesis.atoms = genesisAtoms state) (hauthor : genesis.violates env = false) :
    applySequence env [genesis] ∅ = .ok state ↔ ∀ path,
      Safe false (opsAt path ((genesisEntries state).map genesisOp)) = true
        ∧ state.lookup path = final none (opsAt path ((genesisEntries state).map genesisOp)) := by
  have hops : ∀ atom ∈ [genesis].flatMap Change.atoms, (atom.entryOp env.store).isSome := by
    intro atom hatom
    rw [List.flatMap_singleton, hatoms] at hatom
    obtain ⟨entry, hentry, rfl⟩ := List.mem_map.mp hatom
    rw [entryOp_genesisAtom hstore hentry, Option.isSome_some]
  have hopsOf : ∀ key, opsOf env [genesis] key
      = opsAt key ((genesisEntries state).map genesisOp) := by
    intro key
    rw [opsOf, List.flatMap_singleton, hatoms, filterMap_genesisAtoms hsparse hstore]
  rw [applySequence_eq_ok_iff_entries env (by simpa using hauthor) hops]
  simp only [hopsOf, Finmap.lookup_empty, Option.isSome_none]

/-- **A Genesis Change restores exactly the states whose entries it can name.** -/
theorem genesis_restores_iff {env : ApplyEnv} (hsparse : env.sparse = none)
    (hstore : ReadsContents env state) {genesis : Change}
    (hatoms : genesis.atoms = genesisAtoms state)
    (hauthor : genesis.violates env = false) :
    applySequence env [genesis] ∅ = .ok state ↔ Restorable state := by
  rw [genesis_restores_iff_ops hsparse hstore hatoms hauthor]
  constructor
  · intro hout
    have hnamed : ∀ path content, state.lookup path = some content →
        ∃ entry ∈ genesisEntries state, (genesisOp entry).1 = path := by
      intro path content hlook
      by_contra! hnone
      have hfinal := (hout path).2
      rw [opsAt_genesisOps_eq_nil hnone, hlook] at hfinal
      cases hfinal
    have htoken := tokensAtFiles_of_named hnamed
    have hown : ∀ {path content}, state.lookup path = some content →
        (path, content) ∈ genesisEntries state := by
      intro path content hlook
      obtain ⟨⟨path', content'⟩, hentry, hkey⟩ := hnamed path content hlook
      rw [eq_of_genesisOp hentry htoken] at hkey
      obtain rfl : path' = path := hkey
      rw [(mem_genesisEntries.mp hentry).1] at hlook
      exact Option.some.inj hlook ▸ hentry
    have hleft : ∀ {path content}, state.lookup path = some content →
        (path.head? = some "dir" → content = [])
          ∧ (path.head? ≠ some "dir" → isBlobToken content = true → content.length = 45) := by
      intro path content hlook
      rw [← final_genesisOp_iff, ← opsAt_genesisOps htoken (hown hlook), ← hlook]
      exact (hout path).2.symm
    refine ⟨fun path content hlook => (mem_genesisEntries.mp (hown hlook)).2,
      fun path content hlook => (hleft hlook).1, fun path content hlook hdir hblob => ?_⟩
    obtain ⟨p, hp⟩ := htoken path content hlook hdir hblob
    exact ⟨p, hp, (hleft hlook).2 hdir hblob⟩
  · rintro ⟨hroot, hdirectory, htoken⟩ path
    have hfiles : TokensAtFiles state := fun path content hlook hdir hblob =>
      (htoken path content hlook hdir hblob).imp fun _ h => h.1
    cases hlook : state.lookup path with
    | some content =>
        rw [opsAt_genesisOps hfiles (mem_genesisEntries.mpr ⟨hlook, hroot path content hlook⟩)]
        refine ⟨?_, (final_genesisOp_iff.mpr
          ⟨hdirectory path content hlook, fun hdir hblob => ?_⟩).symm⟩
        · rw [genesisOp]
          split_ifs <;> rfl
        · exact (htoken path content hlook hdir hblob).choose_spec.2
    | none =>
        rw [opsAt_genesisOps_eq_nil fun entry hentry hkey => ?_]
        · exact ⟨rfl, rfl⟩
        · rw [eq_of_genesisOp hentry hfiles] at hkey
          obtain rfl := hkey
          rw [(mem_genesisEntries.mp hentry).1] at hlook
          cases hlook

omit [Crypto] in
theorem genesis_restores_file :
    letI := Crypto.sample
    let state : MaterializedState := FMap.insertAll ∅ [(["file", "a"], [7]), (["dir", "d"], [])]
    let genesis := Change.new ∅ (genesisAtoms state) "Compacted Base State" (.human "" "" 0) 0
    applySequence ⟨fun _ => .ok [7], default, none⟩ [genesis] ∅ = .ok state := by
  let _ := Crypto.sample
  intro state genesis
  have hlook : ∀ path content, state.lookup path = some content →
      path = ["file", "a"] ∧ content = [7] ∨ path = ["dir", "d"] ∧ content = [] := by
    intro path content h
    simp only [state, FMap.insertAll, List.foldl_cons, List.foldl_nil, FMap.lookup_insert_eq,
      Finmap.lookup_empty] at h
    split_ifs at h <;> simp_all
  have hstore : ReadsContents ⟨fun _ => .ok [7], default, none⟩ state := by
    change ∀ content ∈ genesisContents state, (.ok [7] : Except String Bytes) = .ok content
    decide +kernel
  refine (genesis_restores_iff rfl hstore rfl rfl).mpr ⟨?_, ?_, ?_⟩
  · intro path content h
    rcases hlook path content h with ⟨rfl, rfl⟩ | ⟨rfl, rfl⟩ <;> decide +kernel
  · intro path content h hdir
    rcases hlook path content h with ⟨rfl, rfl⟩ | ⟨rfl, rfl⟩
    · exact absurd hdir (by decide)
    · rfl
  · intro path content h hdir hblob
    rcases hlook path content h with ⟨rfl, rfl⟩ | ⟨rfl, rfl⟩
    · exact absurd hblob (by decide +kernel)
    · exact absurd rfl hdir

end Repo

end ArcVcs
