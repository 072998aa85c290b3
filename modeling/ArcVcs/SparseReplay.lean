import ArcVcs.Entries
import ArcVcs.Identity

/-!
# Sparse replay and full replay

The sparse filter skips an atom when none of its paths is matched, and a `blob` atom has no
path. So a sparse replay is the projection of the full one exactly when the assets at matched
files make no difference.
-/

namespace ArcVcs

/-- The part of a full state at the keys that the matcher matches. -/
def Projects (matcher : SparseMatcher) (full sparse : MaterializedState) : Prop :=
  ∀ key, sparse.lookup key = if matcher.matchesNodePath key then full.lookup key else none

/-- What the atoms do at a key, with the `blob` atoms marked as hidden. -/
def entryOps (store : BlobStore) (key : NodePath) (atoms : List Atom) :
    List (Bool × EntryOp Bytes) :=
  atoms.filterMap (Atom.entryAt store key)

def itemOps (store : BlobStore) (key : NodePath) (atoms : List Atom) : List (EntryOp Bytes) :=
  EntryOp.visible (entryOps store key atoms)

/-- Tracking assets at a file makes no difference: every other removal there finds an entry that
is no asset, and every asset is replaced later or is what the other atoms leave. -/
def AssetsImmaterial (store : BlobStore) (path : String) (atoms : List Atom) : Prop :=
  EntryOp.Safe false (itemOps store ["file", path] atoms) = true
    ∧ ∀ l₁ hash size l₂, atoms = l₁ ++ .blob path hash size :: l₂ →
        (∃ b ∈ l₂, b.replacedKey = some ["file", path])
          ∨ EntryOp.final none (itemOps store ["file", path] atoms) = some (blobToken hash)

namespace Atom

theorem paths_of_entryOp {store : BlobStore} {atom : Atom} {key : NodePath} {op : EntryOp Bytes}
    (h : atom.entryOp store = some (key, op)) :
    if atom.isBlob then atom.paths = [] else atom.paths = [key] := by
  cases atom with
  | insert at_ contentHash =>
      obtain ⟨bytes, -, hx⟩ := Option.map_eq_some_iff.mp h
      obtain ⟨rfl, -⟩ := Prod.mk.inj hx
      rfl
  | move from_ to_ => simp [entryOp] at h
  | semanticsPreserving at_ description => simp [entryOp] at h
  | _ =>
      obtain ⟨rfl, -⟩ := Prod.mk.inj (Option.some_inj.mp h)
      rfl

theorem isSkipped_of_entryOp {matcher : SparseMatcher} (hfull : matcher.isFull = false)
    {store : BlobStore} {atom : Atom} {key : NodePath} {op : EntryOp Bytes}
    (h : atom.entryOp store = some (key, op)) :
    isSkipped (some matcher) atom = (atom.isBlob || !matcher.matchesNodePath key) := by
  have hpaths := paths_of_entryOp h
  cases hblob : atom.isBlob with
  | true =>
      rw [hblob, if_pos rfl] at hpaths
      simp [isSkipped, SparseMatcher.matchesAtom, hfull, hpaths]
  | false =>
      rw [hblob, if_neg Bool.false_ne_true] at hpaths
      simp [isSkipped, SparseMatcher.matchesAtom, hfull, hpaths]

theorem entryAt_eq_some_iff {store : BlobStore} {key : NodePath} {atom : Atom}
    {x : Bool × EntryOp Bytes} :
    atom.entryAt store key = some x
      ↔ atom.entryOp store = some (key, x.2) ∧ x.1 = !atom.isBlob := by
  unfold entryAt
  cases hop : atom.entryOp store with
  | none => simp
  | some y =>
      obtain ⟨key', op⟩ := y
      obtain ⟨shown, op'⟩ := x
      by_cases hkey : key' = key
      · subst hkey
        simp [and_comm, eq_comm]
      · simp [hkey]

theorem replaces_iff_of_entryOp {store : BlobStore} {key : NodePath} {atom : Atom}
    {op : EntryOp Bytes} (h : atom.entryOp store = some (key, op)) :
    op.Replaces ↔ atom.replacedKey = some key := by
  cases atom with
  | insert at_ contentHash =>
      obtain ⟨bytes, -, hx⟩ := Option.map_eq_some_iff.mp h
      obtain ⟨rfl, rfl⟩ := Prod.mk.inj hx
      simp [EntryOp.Replaces, replacedKey]
  | move from_ to_ => simp [entryOp] at h
  | semanticsPreserving at_ description => simp [entryOp] at h
  | _ =>
      obtain ⟨rfl, rfl⟩ := Prod.mk.inj (Option.some_inj.mp h)
      simp [EntryOp.Replaces, replacedKey]

theorem key_eq_replacedKey {store : BlobStore} {key j : NodePath} {atom : Atom} {op : EntryOp Bytes}
    (h : atom.entryOp store = some (j, op)) (hkey : atom.replacedKey = some key) : j = key := by
  cases atom with
  | insert at_ contentHash =>
      obtain ⟨bytes, -, hx⟩ := Option.map_eq_some_iff.mp h
      exact (Prod.mk.inj hx).1.symm.trans (Option.some_inj.mp hkey)
  | move from_ to_ => simp [entryOp] at h
  | semanticsPreserving at_ description => simp [entryOp] at h
  | directory path => simp [replacedKey] at hkey
  | _ => exact (Prod.mk.inj (Option.some_inj.mp h)).1.symm.trans (Option.some_inj.mp hkey)

theorem exists_blob_of_entryAt {store : BlobStore} {key : NodePath} {atom : Atom}
    {op : EntryOp Bytes} (h : atom.entryAt store key = some (false, op)) :
    ∃ path hash size, atom = .blob path hash size ∧ key = ["file", path]
      ∧ op = .write (blobToken hash) := by
  obtain ⟨hop, hblob⟩ := entryAt_eq_some_iff.mp h
  cases atom with
  | blob path hash size =>
      obtain ⟨rfl, rfl⟩ := Prod.mk.inj (Option.some_inj.mp hop)
      exact ⟨path, hash, size, rfl, rfl, rfl⟩
  | _ => simp [isBlob] at hblob

end Atom

section EntryOps

variable {store : BlobStore} {key : NodePath} {atom : Atom} (atoms : List Atom)

theorem entryOps_cons_of_none (h : atom.entryAt store key = none) :
    entryOps store key (atom :: atoms) = entryOps store key atoms := List.filterMap_cons_none h

theorem entryOps_cons_of_some {x : Bool × EntryOp Bytes} (h : atom.entryAt store key = some x) :
    entryOps store key (atom :: atoms) = x :: entryOps store key atoms := List.filterMap_cons_some h

end EntryOps

theorem opsAt_full (store : BlobStore) (agentIgnore : Gitignore) (key : NodePath)
    (atoms : List Atom) :
    EntryOp.opsAt key (atoms.filterMap (Atom.plannedOp ⟨store, agentIgnore, none⟩))
      = (entryOps store key atoms).map Prod.snd := by
  induction atoms with
  | nil => rfl
  | cons atom atoms ih =>
      have hplan : atom.plannedOp ⟨store, agentIgnore, none⟩ = atom.entryOp store := rfl
      cases hop : atom.entryOp store with
      | none =>
          rw [List.filterMap_cons_none (hplan.trans hop), entryOps_cons_of_none _ (by
            simp [Atom.entryAt, hop]), ih]
      | some x =>
          obtain ⟨j, op⟩ := x
          rw [List.filterMap_cons_some (hplan.trans hop)]
          by_cases hj : j = key
          · subst hj
            have hat := Atom.entryAt_eq_some_iff (x := (!atom.isBlob, op)).mpr ⟨hop, rfl⟩
            rw [EntryOp.opsAt_cons_self, ih, entryOps_cons_of_some _ hat]
            rfl
          · rw [EntryOp.opsAt_cons_of_ne hj, ih,
              entryOps_cons_of_none _ (by simp [Atom.entryAt, hop, hj])]

theorem opsAt_sparse (store : BlobStore) (agentIgnore : Gitignore) {matcher : SparseMatcher}
    (hfull : matcher.isFull = false) (key : NodePath) (atoms : List Atom) :
    EntryOp.opsAt key (atoms.filterMap (Atom.plannedOp ⟨store, agentIgnore, some matcher⟩))
      = if matcher.matchesNodePath key then itemOps store key atoms else [] := by
  induction atoms with
  | nil => simp [itemOps, entryOps]
  | cons atom atoms ih =>
      cases hop : atom.entryOp store with
      | none =>
          have hplan : atom.plannedOp ⟨store, agentIgnore, some matcher⟩ = none := by
            simp [Atom.plannedOp, hop]
          rw [List.filterMap_cons_none hplan, ih, itemOps, itemOps,
            entryOps_cons_of_none _ (by simp [Atom.entryAt, hop])]
      | some x =>
          obtain ⟨j, op⟩ := x
          have hplan : atom.plannedOp ⟨store, agentIgnore, some matcher⟩
              = if atom.isBlob || !matcher.matchesNodePath j then none else some (j, op) := by
            rw [Atom.plannedOp, Atom.isSkipped_of_entryOp hfull hop, hop]
          by_cases hj : j = key
          · subst hj
            have hat := Atom.entryAt_eq_some_iff (x := (!atom.isBlob, op)).mpr ⟨hop, rfl⟩
            rw [itemOps, entryOps_cons_of_some _ hat]
            cases hmatch : matcher.matchesNodePath j with
            | false =>
                rw [List.filterMap_cons_none (by simp [hplan, hmatch]), ih]
                simp [hmatch]
            | true =>
                cases hblob : atom.isBlob with
                | true =>
                    rw [List.filterMap_cons_none (by simp [hplan, hblob]), ih]
                    simp [hmatch, itemOps]
                | false =>
                    rw [List.filterMap_cons_some (b := (j, op)) (by simp [hplan, hblob, hmatch]),
                      EntryOp.opsAt_cons_self, ih]
                    simp [hmatch, itemOps]
          · rw [itemOps, entryOps_cons_of_none _ (by simp [Atom.entryAt, hop, hj])]
            by_cases hskip : (atom.isBlob || !matcher.matchesNodePath j) = true
            · rw [List.filterMap_cons_none (hplan.trans (if_pos hskip)), ih, itemOps]
            · rw [List.filterMap_cons_some (hplan.trans (if_neg hskip)),
                EntryOp.opsAt_cons_of_ne hj, ih, itemOps]

theorem final_itemOps_iff {store : BlobStore} {atoms : List Atom}
    (hops : ∀ atom ∈ atoms, (atom.entryOp store).isSome) (path : String) :
    EntryOp.final none (itemOps store ["file", path] atoms)
        = EntryOp.final none ((entryOps store ["file", path] atoms).map Prod.snd)
      ↔ ∀ l₁ hash size l₂, atoms = l₁ ++ .blob path hash size :: l₂ →
          (∃ b ∈ l₂, b.replacedKey = some ["file", path])
            ∨ EntryOp.final none (itemOps store ["file", path] atoms) = some (blobToken hash) := by
  have hhidden : ∀ x ∈ entryOps store ["file", path] atoms, x.1 = false →
      ∃ v, x.2 = EntryOp.write v := by
    rintro ⟨shown, op⟩ hx rfl
    obtain ⟨atom, -, hat⟩ := List.mem_filterMap.mp hx
    obtain ⟨-, hash, -, -, -, hop⟩ := Atom.exists_blob_of_entryAt hat
    exact ⟨_, hop⟩
  rw [itemOps, EntryOp.final_visible_iff hhidden]
  constructor
  · rintro h l₁ hash size l₂ rfl
    have hat : (Atom.blob path hash size).entryAt store ["file", path]
        = some (false, .write (blobToken hash)) := by simp [Atom.entryAt, Atom.entryOp, Atom.isBlob]
    have hsplit : entryOps store ["file", path] (l₁ ++ .blob path hash size :: l₂)
        = entryOps store ["file", path] l₁
          ++ (false, .write (blobToken hash)) :: entryOps store ["file", path] l₂ := by
      rw [entryOps, List.filterMap_append, List.filterMap_cons_some hat]
      rfl
    refine (h _ _ _ hsplit).imp_left ?_
    rintro ⟨x, hx, hrep⟩
    obtain ⟨b, hb, hbat⟩ := List.mem_filterMap.mp hx
    exact ⟨b, hb, (Atom.replaces_iff_of_entryOp (Atom.entryAt_eq_some_iff.mp hbat).1).mp hrep⟩
  · intro h m₁ v m₂ hsplit
    obtain ⟨l₁, l', rfl, hl₁, hl'⟩ := List.filterMap_eq_append_iff.mp hsplit
    obtain ⟨k₁, atom, l₂, rfl, hk₁, hat, hl₂⟩ := List.filterMap_eq_cons_iff.mp hl'
    obtain ⟨file, hash, size, rfl, hfile, hv⟩ := Atom.exists_blob_of_entryAt hat
    obtain rfl : path = file := by simpa using hfile
    obtain rfl : v = blobToken hash := by simpa using hv
    refine (h (l₁ ++ k₁) hash size l₂ (List.append_assoc ..).symm).imp_left ?_
    rintro ⟨b, hb, hkey⟩
    obtain ⟨⟨j, op⟩, hop⟩ := Option.isSome_iff_exists.mp (hops b (by simp [hb]))
    obtain rfl : j = ["file", path] := Atom.key_eq_replacedKey hop hkey
    have hbat := Atom.entryAt_eq_some_iff (x := (!b.isBlob, op)).mpr ⟨hop, rfl⟩
    have hmem : (!b.isBlob, op) ∈ m₂ := by
      rw [← hl₂]
      exact List.mem_filterMap.mpr ⟨b, hb, hbat⟩
    exact ⟨_, hmem, (Atom.replaces_iff_of_entryOp hop).mpr hkey⟩

theorem itemOps_of_no_asset {store : BlobStore} {key : NodePath} {atoms : List Atom}
    (h : ∀ path, key ≠ ["file", path]) :
    itemOps store key atoms = (entryOps store key atoms).map Prod.snd := by
  refine congrArg (List.map Prod.snd) (List.filter_eq_self.mpr ?_)
  rintro ⟨shown, op⟩ hx
  obtain ⟨atom, -, hat⟩ := List.mem_filterMap.mp hx
  by_contra hshown
  obtain rfl : shown = false := Bool.eq_false_of_not_eq_true hshown
  obtain ⟨path, -, -, -, hkey, -⟩ := Atom.exists_blob_of_entryAt hat
  exact h path hkey

/-- A matched key is safe from the empty state, and keeps its full entry, iff assets there are
immaterial. -/
theorem matched_iff {store : BlobStore} {atoms : List Atom}
    (hops : ∀ atom ∈ atoms, (atom.entryOp store).isSome)
    (hsafe : ∀ key, EntryOp.Safe false ((entryOps store key atoms).map Prod.snd) = true)
    (matcher : SparseMatcher) :
    (∀ key, matcher.matchesNodePath key = true → EntryOp.Safe false (itemOps store key atoms) = true
        ∧ EntryOp.final none (itemOps store key atoms)
          = EntryOp.final none ((entryOps store key atoms).map Prod.snd))
      ↔ ∀ path, matcher.matchesFilePath path = true → AssetsImmaterial store path atoms := by
  have hfile (path : String) :
      matcher.matchesNodePath ["file", path] = matcher.matchesFilePath path := by
    simp [SparseMatcher.matchesNodePath, SparseMatcher.matchesFilePath]
  constructor
  · intro h path hpath
    obtain ⟨hitems, hfinal⟩ := h ["file", path] ((hfile path).trans hpath)
    exact ⟨hitems, (final_itemOps_iff hops path).mp hfinal⟩
  · intro h key hkey
    by_cases hasset : ∃ path, key = ["file", path]
    · obtain ⟨path, rfl⟩ := hasset
      obtain ⟨hitems, hassets⟩ := h path ((hfile path).symm.trans hkey)
      exact ⟨hitems, (final_itemOps_iff hops path).mpr hassets⟩
    · rw [itemOps_of_no_asset fun path hpath => hasset ⟨path, hpath⟩]
      exact ⟨hsafe key, rfl⟩

/-- **Sparse replay.** When the full replay of changes from the empty state succeeds, the sparse
replay is its projection iff the matcher is full or assets at matched files are immaterial. -/
theorem projects_iff {store : BlobStore} {agentIgnore : Gitignore} (matcher : SparseMatcher)
    {changes : List Change} {full : MaterializedState}
    (hrun : applySequence ⟨store, agentIgnore, none⟩ changes ∅ = .ok full) :
    (∃ sparse, applySequence ⟨store, agentIgnore, some matcher⟩ changes ∅ = .ok sparse
        ∧ Projects matcher full sparse)
      ↔ matcher.isFull = true ∨ ∀ path, matcher.matchesFilePath path = true →
          AssetsImmaterial store path (changes.flatMap Change.atoms) := by
  have hfullrun := applySequence_eq_ok_iff.mp hrun
  have hviolates (change) (hchange : change ∈ changes) := not_violates_of_run hfullrun hchange
  rw [prod_effect_of_not_violates hviolates] at hfullrun
  have hops (atom) (hatom : atom ∈ changes.flatMap Change.atoms) :=
    isSome_entryOp_of_run rfl hfullrun hatom
  have hentries :=
    (applySequence_eq_ok_iff_entries ⟨store, agentIgnore, none⟩ hviolates hops).mp hrun
  simp only [opsOf, opsAt_full, Finmap.lookup_empty, Option.isSome_none] at hentries
  have hsparse (state : MaterializedState) :
      applySequence ⟨store, agentIgnore, some matcher⟩ changes ∅ = .ok state ↔ _ :=
    applySequence_eq_ok_iff_entries ⟨store, agentIgnore, some matcher⟩ hviolates hops
  cases hfull : matcher.isFull with
  | true =>
      have hplan : Atom.plannedOp ⟨store, agentIgnore, some matcher⟩ = Atom.entryOp store := by
        funext atom
        simp [Atom.plannedOp, isSkipped, SparseMatcher.matchesAtom, hfull]
      refine iff_of_true ⟨full, (hsparse full).mpr ?_, fun key => ?_⟩ (.inl rfl)
      · simp only [opsOf, hplan]
        exact (applySequence_eq_ok_iff_entries ⟨store, agentIgnore, none⟩ hviolates hops).mp hrun
      · simp [SparseMatcher.matchesNodePath, hfull]
  | false =>
      simp only [opsOf, opsAt_sparse store agentIgnore hfull, Finmap.lookup_empty,
        Option.isSome_none] at hsparse
      rw [← matched_iff hops (fun key => (hentries key).1) matcher]
      simp only [Bool.false_eq_true, false_or]
      constructor
      · rintro ⟨state, hstate, hproj⟩ key hkey
        have hentry := (hsparse state).mp hstate key
        rw [if_pos hkey] at hentry
        refine ⟨hentry.1, ?_⟩
        rw [← hentry.2, hproj key, if_pos hkey, (hentries key).2]
      · intro h
        have hsafe : ∀ key, EntryOp.Safe ((∅ : MaterializedState).lookup key).isSome
            (opsOf ⟨store, agentIgnore, some matcher⟩ changes key) = true := by
          intro key
          rw [opsOf, opsAt_sparse store agentIgnore hfull]
          split_ifs with hkey
          · exact (h key hkey).1
          · rfl
        obtain ⟨state, hstate⟩ := (exists_applySequence_iff_safe
          ⟨store, agentIgnore, some matcher⟩ hviolates hops).mpr hsafe
        refine ⟨state, hstate, fun key => ?_⟩
        rw [((hsparse state).mp hstate key).2]
        split_ifs with hkey
        · rw [(h key hkey).2, (hentries key).2]
        · rfl

/-- Two files, and a boundary around the one that holds an item. -/
theorem projects_item :
    let store : BlobStore := fun _ => .ok [1]
    let matcher := SparseMatcher.fromPatterns ["src"]
    let changes := [Change.bare 1 ∅ [.insert ["file", "src/a.rs", "fn_x"] 7, .blob "logo.png" 8 3]]
    ∃ full, applySequence ⟨store, fun _ _ => false, none⟩ changes ∅ = .ok full
      ∧ ((∃ sparse, applySequence ⟨store, fun _ _ => false, some matcher⟩ changes ∅ = .ok sparse
            ∧ Projects matcher full sparse)
          ↔ matcher.isFull = true ∨ ∀ path, matcher.matchesFilePath path = true →
              AssetsImmaterial store path (changes.flatMap Change.atoms)) :=
  ⟨_, rfl, projects_iff _ rfl⟩

/-- The sparse replay of a matched asset leaves nothing. -/
theorem sparse_replay_drops_asset :
    ¬ ∀ (store : BlobStore) (agentIgnore : Gitignore) (matcher : SparseMatcher)
      (changes : List Change) (full : MaterializedState),
      applySequence ⟨store, agentIgnore, none⟩ changes ∅ = .ok full →
      ∃ sparse, applySequence ⟨store, agentIgnore, some matcher⟩ changes ∅ = .ok sparse
        ∧ Projects matcher full sparse := by
  intro h
  obtain ⟨sparse, hrun, hproj⟩ := h (fun _ => .ok [1]) (fun _ _ => false)
    (SparseMatcher.fromPatterns ["assets"]) [Change.bare 1 ∅ [.blob "assets/logo.png" 8 3]] _ rfl
  have hempty : applySequence ⟨fun _ => .ok [1], fun _ _ => false,
      some (SparseMatcher.fromPatterns ["assets"])⟩
      [Change.bare 1 ∅ [.blob "assets/logo.png" 8 3]] ∅ = .ok ∅ := by decide
  obtain rfl : ∅ = sparse := by rw [hempty] at hrun; exact Except.ok.inj hrun
  have hentry := hproj ["file", "assets/logo.png"]
  revert hentry
  decide

end ArcVcs
