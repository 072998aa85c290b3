import ArcVcs.Lib.OpenCalls
import ArcVcs.PackIndex
import Mathlib.Data.Set.Finite.Lattice

/-!
# Resolving deltas

An object is read from its own file or from a pack. An entry of a pack that is a delta is read after
its base, which stands before it in the pack or is named by its id, and nothing bounds the
recursion. Reading ends exactly where no entry that is read is its own base and no object that is
read is needed to read itself.
-/

namespace ArcVcs.GitIngress

open Git (GitObjectKind GitOid)

inductive PackLookupBackend
  | mmapChunkIndex
  | legacyIndexScan
deriving DecidableEq

/-- The file of each loose object, and the index and the pack in each pair of files in the directory
of the packs, as a backend reads them. -/
structure GitDir where
  looseObject : GitOid → Except String Bytes
  packs : PackLookupBackend → Except String (List (Except String (Bytes × Bytes)))

/-- The calls that are resolved by other calls. -/
inductive Call
  | readObject (oid : GitOid)
  | lookupInPack (idx pack : Bytes) (oid : GitOid)
  | readPackEntry (pack : Bytes) (offset : ℕ)
deriving DecidableEq

abbrev Reading := CallTree Call (Except GitFault RawObj) (Except GitFault RawObj)

def parseObjKind (s : String) : Except GitFault GitObjectKind :=
  if s = "commit" then .ok .commit
  else if s = "tree" then .ok .tree
  else if s = "blob" then .ok .blob
  else if s = "tag" then .ok .tag
  else .error (.error ("unknown object kind '" ++ s ++ "'"))

def PackLookupBackend.label : PackLookupBackend → String
  | mmapChunkIndex => "mmap backend"
  | legacyIndexScan => "legacy backend"

/-- The search through the packs. Where the lookup in a pack fails, the next one is tried. -/
def tryPacks (oid : GitOid) : List (Except String (Bytes × Bytes)) → Reading
  | [] => .done (.error (.error "object not in any pack"))
  | .error text :: _ => .done (.error (.error text))
  | .ok (idx, pack) :: files => .call (.lookupInPack idx pack oid) fun found =>
      match found with
      | .error (.error _) => tryPacks oid files
      | found => .done found

/-! ## The bases of an entry -/

theorem lt_length_of_parsePackHeader {pack : Bytes} {offset : ℕ} {header : UInt8 × ℕ × ℕ}
    (h : parsePackHeader pack offset = .ok header) : offset < pack.length := by
  by_contra hlt
  rw [parsePackHeader, List.drop_eq_nil_of_le (not_lt.mp hlt)] at h
  cases h

/-- An entry is a delta with this base, and its instructions are in this stream. -/
inductive HasBase (pack : Bytes) (offset : ℕ) : Call → Bytes → Prop
  | ofsDelta {size dataPos negOff deltaPos : ℕ}
      (hheader : parsePackHeader pack offset = .ok (6, size, dataPos))
      (hbase : parseOfsDeltaHeader pack dataPos = .ok (negOff, deltaPos)) (hle : negOff ≤ offset) :
      HasBase pack offset (.readPackEntry pack (offset - negOff)) (pack.drop deltaPos)
  | refDelta {size dataPos : ℕ} {baseOid : GitOid}
      (hheader : parsePackHeader pack offset = .ok (7, size, dataPos))
      (hbase : GitOid.ofBytes? ((pack.drop dataPos).take 20) = some baseOid) :
      HasBase pack offset (.readObject baseOid) (pack.drop (dataPos + 20))

def ZeroOffset (pack : Bytes) (offset : ℕ) : Prop :=
  ∃ size dataPos deltaPos, parsePackHeader pack offset = .ok (6, size, dataPos)
    ∧ parseOfsDeltaHeader pack dataPos = .ok (0, deltaPos)

theorem HasBase.call_eq {pack stream stream' : Bytes} {offset : ℕ} {m m' : Call}
    (h : HasBase pack offset m stream) (h' : HasBase pack offset m' stream') : m = m' := by
  cases h with
  | ofsDelta hheader hbase =>
      cases h' with
      | ofsDelta hheader' hbase' =>
          rw [hheader] at hheader'
          cases hheader'
          rw [hbase] at hbase'
          cases hbase'
          rfl
      | refDelta hheader' =>
          rw [hheader] at hheader'
          cases hheader'
  | refDelta hheader hbase =>
      cases h' with
      | ofsDelta hheader' =>
          rw [hheader] at hheader'
          cases hheader'
      | refDelta hheader' hbase' =>
          rw [hheader] at hheader'
          cases hheader'
          rw [hbase] at hbase'
          cases hbase'
          rfl

/-! ## Reading -/

variable [Zlib]

namespace GitDir

variable (dir : GitDir)

def readLooseObject (oid : GitOid) : Except GitFault RawObj :=
  match dir.looseObject oid with
  | .error text => .error (.error text)
  | .ok compressed => do
      let buf ← Zlib.decompress compressed
      if 0 ∉ buf then .error (.error "malformed loose object: no NUL separator")
      else
        match String.fromUTF8? (buf.takeWhile (· ≠ 0)).toByteArray with
        | none => .error (.error "invalid utf-8 sequence")
        | some header => do
            let kind ← parseObjKind (String.ofList (header.toList.takeWhile (· ≠ ' ')))
            .ok ⟨kind, (buf.dropWhile (· ≠ 0)).tail⟩

def readPackedFrom (oid : GitOid) (backend : PackLookupBackend) : Reading :=
  match dir.packs backend with
  | .error text => .done (.error (.error text))
  | .ok files => tryPacks oid files

/-- The loop over the backends, with the errors so far. -/
def tryBackends (oid : GitOid) : List PackLookupBackend → List String → Reading
  | [], errors =>
      .done (.error (.error ("all pack backends failed:\n" ++ String.intercalate "\n" errors)))
  | backend :: backends, errors => (dir.readPackedFrom oid backend).bind fun attempt =>
      match attempt with
      | .error (.error text) =>
          tryBackends oid backends (errors ++ [backend.label ++ " failed: " ++ text])
      | attempt => .done attempt

def readPackedObject (oid : GitOid) : Reading :=
  dir.tryBackends oid [.mmapChunkIndex, .legacyIndexScan] []

def readObject (oid : GitOid) : Reading :=
  match dir.readLooseObject oid with
  | .error (.error _) => (dir.readPackedObject oid).bind fun found =>
      match found with
      | .error (.error _) => .done (.error (.error ("object " ++ oid.display ++ " not found")))
      | found => .done found
  | found => .done found

omit [Zlib] in
def lookupInPack (idx pack : Bytes) (oid : GitOid) : Reading :=
  match packOffset idx oid with
  | .error fault => .done (.error fault)
  | .ok offset => .call (.readPackEntry pack offset) .done

def readPackEntry (pack : Bytes) (offset : ℕ) : Reading :=
  match parsePackHeader pack offset with
  | .error fault => .done (.error fault)
  | .ok (objType, _, dataPos) =>
      if 1 ≤ objType ∧ objType ≤ 4 then .done (readWhole objType (pack.drop dataPos))
      else if objType = 6 then
        match parseOfsDeltaHeader pack dataPos with
        | .error fault => .done (.error fault)
        | .ok (negOff, deltaPos) =>
            if offset < negOff then .done (.error (.error "OFS_DELTA: base offset underflow"))
            else .call (.readPackEntry pack (offset - negOff)) fun base =>
              .done (base.bind (resolveDelta (pack.drop deltaPos)))
      else if objType = 7 then
        match GitOid.ofBytes? ((pack.drop dataPos).take 20) with
        | none => .done (.error (.error "REF_DELTA: truncated base OID"))
        | some baseOid => .call (.readObject baseOid) fun base =>
            .done (base.bind (resolveDelta (pack.drop (dataPos + 20))))
      else .done (.error (.error ("unknown pack object type " ++ toString objType.toNat)))

def body : Call → Reading
  | .readObject oid => dir.readObject oid
  | .lookupInPack idx pack oid => lookupInPack idx pack oid
  | .readPackEntry pack offset => readPackEntry pack offset

abbrev Ends (n : Call) (r : Except GitFault RawObj) : Prop := CallTree.Ends dir.body n r

abbrev Calls (n m : Call) : Prop := CallTree.Calls dir.body n m

/-- A call leads to another one. -/
abbrev Reaches (n m : Call) : Prop := Relation.ReflTransGen dir.Calls n m

end GitDir

theorem GitDir.readPackEntry_cases (pack : Bytes) (offset : ℕ) :
    (∃ r, readPackEntry pack offset = .done r ∧ ∀ m stream, ¬ HasBase pack offset m stream)
      ∨ ∃ m stream, HasBase pack offset m stream ∧ readPackEntry pack offset
        = .call m fun base => .done (base.bind (resolveDelta stream)) := by
  unfold GitDir.readPackEntry
  cases hheader : parsePackHeader pack offset with
  | error fault =>
      refine .inl ⟨_, rfl, fun m stream hbase => ?_⟩
      cases hbase with
      | ofsDelta h | refDelta h => simp [hheader] at h
  | ok header =>
      obtain ⟨objType, size, dataPos⟩ := header
      dsimp only
      by_cases hwhole : 1 ≤ objType ∧ objType ≤ 4
      · rw [if_pos hwhole]
        refine .inl ⟨_, rfl, fun m stream hbase => ?_⟩
        cases hbase with
        | ofsDelta h | refDelta h =>
            rw [hheader] at h
            cases h
            exact absurd hwhole (by decide)
      rw [if_neg hwhole]
      by_cases hofs : objType = 6
      · subst hofs
        rw [if_pos rfl]
        cases hneg : parseOfsDeltaHeader pack dataPos with
        | error fault =>
            refine .inl ⟨_, rfl, fun m stream hbase => ?_⟩
            cases hbase with
            | ofsDelta h h' =>
                rw [hheader] at h
                cases h
                simp [hneg] at h'
            | refDelta h =>
                rw [hheader] at h
                cases h
        | ok header =>
            obtain ⟨negOff, deltaPos⟩ := header
            dsimp only
            by_cases hlt : offset < negOff
            · rw [if_pos hlt]
              refine .inl ⟨_, rfl, fun m stream hbase => ?_⟩
              cases hbase with
              | ofsDelta h h' hle =>
                  rw [hheader] at h
                  cases h
                  rw [hneg] at h'
                  cases h'
                  omega
              | refDelta h =>
                  rw [hheader] at h
                  cases h
            · rw [if_neg hlt]
              exact .inr ⟨_, _, .ofsDelta hheader hneg (not_lt.mp hlt), rfl⟩
      rw [if_neg hofs]
      by_cases href : objType = 7
      · subst href
        rw [if_pos rfl]
        cases hoid : GitOid.ofBytes? ((pack.drop dataPos).take 20) with
        | none =>
            refine .inl ⟨_, rfl, fun m stream hbase => ?_⟩
            cases hbase with
            | ofsDelta h =>
                rw [hheader] at h
                cases h
            | refDelta h h' =>
                rw [hheader] at h
                cases h
                simp [hoid] at h'
        | some baseOid => exact .inr ⟨_, _, .refDelta hheader hoid, rfl⟩
      rw [if_neg href]
      refine .inl ⟨_, rfl, fun m stream hbase => ?_⟩
      cases hbase with
      | ofsDelta h =>
          rw [hheader] at h
          cases h
          exact hofs rfl
      | refDelta h =>
          rw [hheader] at h
          cases h
          exact href rfl

namespace GitDir

variable {dir : GitDir} {n m : Call} {idx pack stream : Bytes} {oid : GitOid} {offset : ℕ}

/-! ## What a call can call -/

theorem calls_readPackEntry_iff :
    dir.Calls (.readPackEntry pack offset) m ↔ ∃ stream, HasBase pack offset m stream := by
  change (readPackEntry pack offset).Asks dir.Ends m ↔ _
  rcases readPackEntry_cases pack offset with ⟨r, hdone, hnone⟩ | ⟨base, stream, hbase, hcall⟩
  · rw [hdone]
    exact iff_of_false id fun ⟨stream, hbase⟩ => hnone m stream hbase
  · rw [hcall]
    simp only [CallTree.Asks, and_false, exists_false, or_false]
    constructor
    · rintro rfl
      exact ⟨stream, hbase⟩
    · rintro ⟨stream', hbase'⟩
      exact hbase'.call_eq hbase

theorem calls_lookupInPack_iff : dir.Calls (.lookupInPack idx pack oid) m
    ↔ ∃ offset, packOffset idx oid = .ok offset ∧ m = .readPackEntry pack offset := by
  change (lookupInPack idx pack oid).Asks dir.Ends m ↔ _
  rw [lookupInPack]
  cases packOffset idx oid with
  | error fault => simp [CallTree.Asks]
  | ok offset => simp [CallTree.Asks]

omit [Zlib] in
theorem asks_tryPacks {ends : Call → Except GitFault RawObj → Prop}
    {files : List (Except String (Bytes × Bytes))} (h : (tryPacks oid files).Asks ends m) :
    ∃ idx pack, .ok (idx, pack) ∈ files ∧ m = .lookupInPack idx pack oid := by
  induction files with
  | nil => exact h.elim
  | cons file files ih =>
      match file with
      | .error text => exact h.elim
      | .ok (idx, pack) =>
          rcases h with rfl | ⟨r, -, h⟩
          · exact ⟨idx, pack, List.mem_cons_self, rfl⟩
          · dsimp only at h
            split at h
            · obtain ⟨idx', pack', hmem, hm⟩ := ih h
              exact ⟨idx', pack', .tail _ hmem, hm⟩
            · exact h.elim

theorem asks_tryBackends {backends : List PackLookupBackend} {errors : List String}
    (h : (dir.tryBackends oid backends errors).Asks dir.Ends m) :
    ∃ backend files idx pack, dir.packs backend = .ok files ∧ .ok (idx, pack) ∈ files
      ∧ m = .lookupInPack idx pack oid := by
  induction backends generalizing errors with
  | nil => exact h.elim
  | cons backend backends ih =>
      rcases CallTree.asks_bind_iff.mp h with h | ⟨attempt, -, h⟩
      · unfold readPackedFrom at h
        cases hfiles : dir.packs backend with
        | error text =>
            rw [hfiles] at h
            exact h.elim
        | ok files =>
            rw [hfiles] at h
            obtain ⟨idx, pack, hmem, hm⟩ := asks_tryPacks h
            exact ⟨backend, files, idx, pack, hfiles, hmem, hm⟩
      · split at h
        · exact ih h
        · exact h.elim

/-- The pairs of files that some backend can read. -/
def packFiles (dir : GitDir) : Set (Bytes × Bytes) :=
  {pair | ∃ backend files, dir.packs backend = .ok files ∧ .ok pair ∈ files}

theorem calls_readObject (h : dir.Calls (.readObject oid) m) :
    ∃ idx pack, (idx, pack) ∈ dir.packFiles ∧ m = .lookupInPack idx pack oid := by
  change (dir.readObject oid).Asks dir.Ends m at h
  unfold readObject at h
  split at h
  · rcases CallTree.asks_bind_iff.mp h with h | ⟨found, -, h⟩
    · obtain ⟨backend, files, idx, pack, hfiles, hmem, hm⟩ := asks_tryBackends h
      exact ⟨idx, pack, ⟨backend, files, hfiles, hmem⟩, hm⟩
    · split at h
      · exact h.elim
      · exact h.elim
  · exact h.elim

theorem calls_readObject_of_head {text : String} {files : List (Except String (Bytes × Bytes))}
    (hloose : dir.looseObject oid = .error text)
    (hpacks : dir.packs .mmapChunkIndex = .ok (.ok (idx, pack) :: files)) :
    dir.Calls (.readObject oid) (.lookupInPack idx pack oid) := by
  have hread : dir.readLooseObject oid = .error (.error text) := by
    rw [readLooseObject, hloose]
  change (dir.readObject oid).Asks dir.Ends _
  rw [readObject, hread]
  refine CallTree.asks_bind_iff.mpr (.inl (CallTree.asks_bind_iff.mpr (.inl ?_)))
  rw [readPackedFrom, hpacks]
  exact .inl rfl

theorem reaches_of_packOffset (hoffset : packOffset idx oid = .ok offset) :
    dir.Reaches (.lookupInPack idx pack oid) (.readPackEntry pack offset) :=
  .single (calls_lookupInPack_iff.mpr ⟨offset, hoffset, rfl⟩)

/-! ## Finitely many calls -/

omit [Zlib] in
theorem finite_packFiles (dir : GitDir) : dir.packFiles.Finite := by
  have hsubset : dir.packFiles ⊆ ⋃ backend ∈ ({.mmapChunkIndex, .legacyIndexScan} : Set _),
      {pair | ∃ files, dir.packs backend = .ok files ∧ .ok pair ∈ files} := by
    rintro pair ⟨backend, files, hfiles, hmem⟩
    simp only [Set.mem_iUnion, Set.mem_ofPred_eq]
    refine ⟨backend, ?_, files, hfiles, hmem⟩
    cases backend <;> simp
  refine Set.Finite.subset (Set.Finite.biUnion (Set.toFinite _) fun backend _ => ?_) hsubset
  cases hfiles : dir.packs backend with
  | error text => simp
  | ok files =>
      have himage : {pair | ∃ files', Except.ok files = (.ok files' : Except String _)
          ∧ .ok pair ∈ files'} ⊆ {pair | pair ∈ files.filterMap Except.toOption} := by
        rintro pair ⟨files', hfiles', hmem⟩
        obtain rfl := Except.ok.inj hfiles'
        exact List.mem_filterMap.mpr ⟨_, hmem, rfl⟩
      exact (List.finite_toSet _).subset himage

def filesFrom (dir : GitDir) : Call → Set (Bytes × Bytes)
  | .readObject _ => dir.packFiles
  | .lookupInPack idx pack _ => insert (idx, pack) dir.packFiles
  | .readPackEntry pack _ => insert ([], pack) dir.packFiles

/-- The ids that stand in the packs, and the one that the first call has. -/
def oidsFrom (dir : GitDir) (n : Call) : Set GitOid :=
  {oid | (∃ file ∈ dir.filesFrom n, ∃ p < file.2.length,
      GitOid.ofBytes? ((file.2.drop p).take 20) = some oid)
    ∨ n = .readObject oid ∨ ∃ idx pack, n = .lookupInPack idx pack oid}

/-- The calls about these files and ids. -/
inductive Within (dir : GitDir) (n : Call) : Call → Prop
  | start : Within dir n n
  | object {oid : GitOid} (hoid : oid ∈ dir.oidsFrom n) : Within dir n (.readObject oid)
  | lookup {file : Bytes × Bytes} {oid : GitOid} (hfile : file ∈ dir.filesFrom n)
      (hoid : oid ∈ dir.oidsFrom n) : Within dir n (.lookupInPack file.1 file.2 oid)
  | indexed {file : Bytes × Bytes} {oid : GitOid} {offset : ℕ} (hfile : file ∈ dir.filesFrom n)
      (hoid : oid ∈ dir.oidsFrom n) (hoffset : packOffset file.1 oid = .ok offset) :
      Within dir n (.readPackEntry file.2 offset)
  | entry {file : Bytes × Bytes} {offset : ℕ} (hfile : file ∈ dir.filesFrom n)
      (hlt : offset < file.2.length) : Within dir n (.readPackEntry file.2 offset)

omit [Zlib] in
theorem packFiles_subset (dir : GitDir) (n : Call) : dir.packFiles ⊆ dir.filesFrom n := by
  cases n with
  | readObject oid => exact subset_rfl
  | lookupInPack idx pack oid => exact Set.subset_insert _ _
  | readPackEntry pack offset => exact Set.subset_insert _ _

omit [Zlib] in
theorem finite_filesFrom (dir : GitDir) (n : Call) : (dir.filesFrom n).Finite := by
  cases n with
  | readObject oid => exact dir.finite_packFiles
  | lookupInPack idx pack oid => exact dir.finite_packFiles.insert _
  | readPackEntry pack offset => exact dir.finite_packFiles.insert _

omit [Zlib] in
theorem finite_oidsFrom (dir : GitDir) (n : Call) : (dir.oidsFrom n).Finite := by
  have hnamed : {oid | ∃ file ∈ dir.filesFrom n, ∃ p < file.2.length,
      GitOid.ofBytes? ((file.2.drop p).take 20) = some oid}.Finite := by
    have hsubset : {oid | ∃ file ∈ dir.filesFrom n, ∃ p < file.2.length,
        GitOid.ofBytes? ((file.2.drop p).take 20) = some oid}
          ⊆ ⋃ file ∈ dir.filesFrom n, ⋃ p ∈ {p | p < file.2.length},
            {oid | GitOid.ofBytes? ((file.2.drop p).take 20) = some oid} := by
      rintro oid ⟨file, hfile, p, hp, hoid⟩
      simp only [Set.mem_iUnion]
      exact ⟨file, hfile, p, hp, hoid⟩
    refine ((dir.finite_filesFrom n).biUnion fun file _ => ?_).subset hsubset
    refine (Set.finite_lt_nat _).biUnion fun p _ => Set.Subsingleton.finite ?_
    exact fun oid hoid oid' hoid' => Option.some_inj.mp (hoid.symm.trans hoid')
  have hstart :
      {oid | n = .readObject oid ∨ ∃ idx pack, n = .lookupInPack idx pack oid}.Finite := by
    refine Set.Subsingleton.finite fun oid hoid oid' hoid' => ?_
    rcases hoid with rfl | ⟨idx, pack, rfl⟩
    · rcases hoid' with h | ⟨_, _, h⟩
      · exact Call.readObject.inj h
      · cases h
    · rcases hoid' with h | ⟨_, _, h⟩
      · cases h
      · exact (Call.lookupInPack.inj h).2.2
  exact hnamed.union hstart

omit [Zlib] in
theorem finite_within (dir : GitDir) (n : Call) : {m | dir.Within n m}.Finite := by
  have hfiles := dir.finite_filesFrom n
  have hoids := dir.finite_oidsFrom n
  have hsubset : {m | dir.Within n m} ⊆ {n} ∪ Call.readObject '' dir.oidsFrom n
      ∪ (⋃ file ∈ dir.filesFrom n, Call.lookupInPack file.1 file.2 '' dir.oidsFrom n)
      ∪ (⋃ file ∈ dir.filesFrom n, ⋃ oid ∈ dir.oidsFrom n,
        Call.readPackEntry file.2 '' {offset | packOffset file.1 oid = .ok offset})
      ∪ ⋃ file ∈ dir.filesFrom n, Call.readPackEntry file.2 '' {p | p < file.2.length} := by
    intro m hm
    simp only [Set.mem_union, Set.mem_iUnion]
    cases hm with
    | start => exact .inl (.inl (.inl (.inl rfl)))
    | @object oid hoid => exact .inl (.inl (.inl (.inr ⟨oid, hoid, rfl⟩)))
    | @lookup file oid hfile hoid => exact .inl (.inl (.inr ⟨file, hfile, oid, hoid, rfl⟩))
    | @indexed file oid offset hfile hoid hoffset =>
        exact .inl (.inr ⟨file, hfile, oid, hoid, offset, hoffset, rfl⟩)
    | @entry file offset hfile hlt => exact .inr ⟨file, hfile, offset, hlt, rfl⟩
  refine Set.Finite.subset ?_ hsubset
  refine ((((Set.finite_singleton n).union (hoids.image _)).union ?_).union ?_).union ?_
  · exact hfiles.biUnion fun file _ => hoids.image _
  · refine hfiles.biUnion fun file _ => hoids.biUnion fun oid _ => Set.Finite.image _ ?_
    exact Set.Subsingleton.finite fun offset h offset' h' => Except.ok.inj (h.symm.trans h')
  · exact hfiles.biUnion fun file _ => (Set.finite_lt_nat _).image _

omit [Zlib] in
theorem Within.of_hasBase {start : Call} {file : Bytes × Bytes} (hfile : file ∈ dir.filesFrom start)
    (h : HasBase file.2 offset m stream) : dir.Within start m := by
  cases h with
  | ofsDelta hheader hbase hle =>
      have hlt := lt_length_of_parsePackHeader hheader
      exact .entry hfile (by omega)
  | @refDelta size dataPos baseOid hheader hbase =>
      refine .object (.inl ⟨file, hfile, dataPos, ?_, hbase⟩)
      by_contra hlt
      rw [List.drop_eq_nil_of_le (not_lt.mp hlt)] at hbase
      cases hbase

theorem Within.calls {start : Call} (h : dir.Within start n) (hcalls : dir.Calls n m) :
    dir.Within start m := by
  have hobject {oid : GitOid} (hoid : oid ∈ dir.oidsFrom start)
      (hcalls : dir.Calls (.readObject oid) m) : dir.Within start m := by
    obtain ⟨idx, pack, hfile, rfl⟩ := calls_readObject hcalls
    exact .lookup (dir.packFiles_subset start hfile) hoid
  have hlookup {file : Bytes × Bytes} {oid : GitOid} (hfile : file ∈ dir.filesFrom start)
      (hoid : oid ∈ dir.oidsFrom start) (hcalls : dir.Calls (.lookupInPack file.1 file.2 oid) m) :
      dir.Within start m := by
    obtain ⟨offset, hoffset, rfl⟩ := calls_lookupInPack_iff.mp hcalls
    exact .indexed hfile hoid hoffset
  have hentry {file : Bytes × Bytes} {offset : ℕ} (hfile : file ∈ dir.filesFrom start)
      (hcalls : dir.Calls (.readPackEntry file.2 offset) m) : dir.Within start m := by
    obtain ⟨stream, hbase⟩ := calls_readPackEntry_iff.mp hcalls
    exact .of_hasBase hfile hbase
  cases h with
  | start =>
      cases n with
      | readObject oid => exact hobject (.inr (.inl rfl)) hcalls
      | lookupInPack idx pack oid =>
          exact @hlookup (idx, pack) oid (Set.mem_insert _ _) (.inr (.inr ⟨idx, pack, rfl⟩)) hcalls
      | readPackEntry pack offset => exact @hentry ([], pack) offset (Set.mem_insert _ _) hcalls
  | object hoid => exact hobject hoid hcalls
  | lookup hfile hoid => exact hlookup hfile hoid hcalls
  | indexed hfile => exact hentry hfile hcalls
  | entry hfile => exact hentry hfile hcalls

/-- **A call leads to finitely many others.** -/
theorem finite_reaches (dir : GitDir) (n : Call) : {m | dir.Reaches n m}.Finite := by
  refine (dir.finite_within n).subset fun m hreach => ?_
  induction hreach with
  | refl => exact .start
  | tail _ hcalls ih => exact ih.calls hcalls

/-! ## Chains that return -/

theorem readPackEntry_of_transGen
    (h : Relation.TransGen dir.Calls (.readPackEntry pack offset) m) :
    (∃ oid, dir.Reaches (.readPackEntry pack offset) (.readObject oid)
        ∧ dir.Reaches (.readObject oid) m)
      ∨ ∃ offset' ≤ offset, m = .readPackEntry pack offset'
        ∧ (offset' = offset → ZeroOffset pack offset) := by
  induction h with
  | single hcalls =>
      obtain ⟨stream, hbase⟩ := calls_readPackEntry_iff.mp hcalls
      cases hbase with
      | @ofsDelta size dataPos negOff deltaPos hheader hneg hle =>
          refine .inr ⟨_, Nat.sub_le _ _, rfl, fun heq => ?_⟩
          obtain rfl : negOff = 0 := by omega
          exact ⟨size, dataPos, deltaPos, hheader, hneg⟩
      | refDelta => exact .inl ⟨_, .single hcalls, .refl⟩
  | tail hchain hcalls ih =>
      rcases ih with ⟨oid, hto, hfrom⟩ | ⟨offset', hle, rfl, hzero⟩
      · exact .inl ⟨oid, hto, hfrom.tail hcalls⟩
      · obtain ⟨stream, hbase⟩ := calls_readPackEntry_iff.mp hcalls
        cases hbase with
        | ofsDelta => exact .inr ⟨_, (Nat.sub_le _ _).trans hle, rfl, fun heq => hzero (by omega)⟩
        | refDelta => exact .inl ⟨_, hchain.to_reflTransGen.tail hcalls, .refl⟩

theorem readObject_of_calls_lookupInPack (h : dir.Calls n (.lookupInPack idx pack oid)) :
    ∃ oid', n = .readObject oid' := by
  cases n with
  | readObject oid' => exact ⟨oid', rfl⟩
  | lookupInPack idx' pack' oid' =>
      obtain ⟨_, -, h⟩ := calls_lookupInPack_iff.mp h
      cases h
  | readPackEntry pack' offset =>
      obtain ⟨_, h⟩ := calls_readPackEntry_iff.mp h
      cases h

/-- A chain that returns comes to an object that is needed to read itself, or to an entry with the
offset zero. -/
theorem exists_of_cycle (h : Relation.TransGen dir.Calls n n) :
    (∃ oid, dir.Reaches n (.readObject oid)
        ∧ Relation.TransGen dir.Calls (.readObject oid) (.readObject oid))
      ∨ ∃ pack offset, n = .readPackEntry pack offset ∧ ZeroOffset pack offset := by
  cases n with
  | readObject oid => exact .inl ⟨oid, .refl, h⟩
  | lookupInPack idx pack oid =>
      obtain ⟨n, hchain, hcalls⟩ := Relation.TransGen.tail'_iff.mp h
      obtain ⟨oid', rfl⟩ := readObject_of_calls_lookupInPack hcalls
      exact .inl ⟨oid', hchain, .head' hcalls hchain⟩
  | readPackEntry pack offset =>
      rcases readPackEntry_of_transGen h with ⟨oid, hto, hfrom⟩ | ⟨offset', -, heq, hzero⟩
      · refine .inl ⟨oid, hto, ?_⟩
        rcases Relation.reflTransGen_iff_eq_or_transGen.mp hfrom with heq | hfrom
        · cases heq
        · exact hfrom.trans_left hto
      · obtain rfl : offset = offset' := (Call.readPackEntry.inj heq).2
        exact .inr ⟨pack, offset, rfl, hzero rfl⟩

theorem ZeroOffset.calls (h : ZeroOffset pack offset) :
    dir.Calls (.readPackEntry pack offset) (.readPackEntry pack offset) := by
  obtain ⟨size, dataPos, deltaPos, hheader, hneg⟩ := h
  exact calls_readPackEntry_iff.mpr ⟨_, .ofsDelta hheader hneg (Nat.zero_le offset)⟩

/-- No entry that is read has the offset zero, and no object that is read is needed to read
itself. -/
def NoReturn (dir : GitDir) (n : Call) : Prop :=
  (∀ pack offset, dir.Reaches n (.readPackEntry pack offset) → ¬ ZeroOffset pack offset)
    ∧ ∀ oid, dir.Reaches n (.readObject oid) →
      ¬ Relation.TransGen dir.Calls (.readObject oid) (.readObject oid)

theorem noReturn_iff_no_cycle (dir : GitDir) (n : Call) : dir.NoReturn n
    ↔ ∀ m, dir.Reaches n m → ¬ Relation.TransGen dir.Calls m m := by
  constructor
  · rintro ⟨hzero, hobject⟩ m hreach h
    rcases exists_of_cycle h with ⟨oid, hto, hself⟩ | ⟨pack, offset, rfl, hself⟩
    · exact hobject oid (hreach.trans hto) hself
    · exact hzero pack offset hreach hself
  · intro hcycle
    exact ⟨fun pack offset hreach hzero => hcycle _ hreach (.single (ZeroOffset.calls hzero)),
      fun oid hreach => hcycle _ hreach⟩

theorem ends_iff_noReturn (dir : GitDir) (n : Call) : (∃ r, dir.Ends n r) ↔ dir.NoReturn n := by
  rw [noReturn_iff_no_cycle]
  exact CallTree.ends_iff_no_cycle (dir.finite_reaches n)

/-- The call ends with a result or an error, and no chain of bases returns to an entry that it has
come from. -/
def Terminates (dir : GitDir) (n : Call) : Prop :=
  (∃ r, dir.Ends n r) ∧ ∀ pack offset, dir.Reaches n (.readPackEntry pack offset) →
    ¬ Relation.TransGen dir.Calls (.readPackEntry pack offset) (.readPackEntry pack offset)

/-- **Reading ends exactly where no chain of bases returns.** -/
theorem terminates_iff (dir : GitDir) (n : Call) : dir.Terminates n ↔ dir.NoReturn n := by
  constructor
  · rintro ⟨hend, -⟩
    exact (dir.ends_iff_noReturn n).mp hend
  · intro h
    exact ⟨(dir.ends_iff_noReturn n).mpr h, fun pack offset hreach =>
      (dir.noReturn_iff_no_cycle n).mp h _ hreach⟩

theorem not_terminates_of_cycle (hreach : dir.Reaches n m)
    (hcycle : Relation.TransGen dir.Calls m m) : ¬ dir.Terminates n := by
  rintro ⟨hend, -⟩
  exact (CallTree.ends_iff_no_cycle (dir.finite_reaches n)).mp hend m hreach hcycle

/-! ## The result of a call that ends -/

theorem readPackEntry_of_zeroOffset (objects : ObjectDir) (h : ZeroOffset pack offset) :
    GitIngress.readPackEntry objects pack offset = .error .panic := by
  obtain ⟨size, dataPos, deltaPos, hheader, hneg⟩ := h
  rw [GitIngress.readPackEntry, hheader]
  dsimp only
  rw [if_neg (by decide), if_pos rfl, hneg]
  dsimp only
  rw [if_neg (Nat.not_lt_zero _), if_pos rfl]

/-- What a call gives where the objects are read elsewhere. -/
def resultOf (objects : ObjectDir) : Call → Except GitFault RawObj
  | .readObject oid => objects.readObject oid
  | .lookupInPack idx pack oid => GitIngress.lookupInPack objects idx pack oid
  | .readPackEntry pack offset => GitIngress.readPackEntry objects pack offset

theorem lookupInPack_of_returns {objects : ObjectDir} {idx : Bytes} {oid : GitOid}
    {r : Except GitFault RawObj}
    (h : (lookupInPack idx pack oid).Returns (fun m r => resultOf objects m = r) r) :
    GitIngress.lookupInPack objects idx pack oid = r := by
  rw [GitIngress.lookupInPack]
  unfold lookupInPack at h
  cases hoffset : packOffset idx oid with
  | error fault =>
      rw [hoffset] at h
      exact h.symm
  | ok offset =>
      rw [hoffset] at h
      obtain ⟨entry, hentry, rfl⟩ := h
      exact hentry

theorem readPackEntry_of_returns {objects : ObjectDir} {r : Except GitFault RawObj}
    (h : (readPackEntry pack offset).Returns (fun m r => resultOf objects m = r) r) :
    GitIngress.readPackEntry objects pack offset = r := by
  rw [GitIngress.readPackEntry]
  unfold readPackEntry at h
  cases hheader : parsePackHeader pack offset with
  | error fault =>
      rw [hheader] at h
      exact h.symm
  | ok header =>
      obtain ⟨objType, size, dataPos⟩ := header
      rw [hheader] at h
      dsimp only at h ⊢
      split_ifs at h ⊢
      · exact h.symm
      · rename_i hofs
        subst hofs
        cases hneg : parseOfsDeltaHeader pack dataPos with
        | error fault =>
            rw [hneg] at h
            exact h.symm
        | ok header =>
            obtain ⟨negOff, deltaPos⟩ := header
            rw [hneg] at h
            dsimp only at h ⊢
            split_ifs at h ⊢ with hlt hzero
            · exact h.symm
            · subst hzero
              obtain ⟨base, hbase, rfl⟩ := h
              have hpanic := readPackEntry_of_zeroOffset objects
                ⟨size, dataPos, deltaPos, hheader, hneg⟩
              obtain rfl : .error .panic = base := hpanic.symm.trans hbase
              rfl
            · obtain ⟨base, hbase, rfl⟩ := h
              have hread : GitIngress.readPackEntry objects pack (offset - negOff) = base :=
                hbase
              rw [hread]
      · cases hoid : GitOid.ofBytes? ((pack.drop dataPos).take 20) with
        | none =>
            rw [hoid] at h
            exact h.symm
        | some baseOid =>
            rw [hoid] at h
            obtain ⟨base, hbase, rfl⟩ := h
            obtain rfl : objects.readObject baseOid = base := hbase
            rfl
      · exact h.symm

/-- **A call that ends gives what `readPackEntry` and `lookupInPack` read**, where the objects are
what their calls end with. -/
theorem resultOf_eq_of_ends {objects : ObjectDir} {r : Except GitFault RawObj}
    (hobjects : ∀ oid r, dir.Ends (.readObject oid) r → objects.readObject oid = r)
    (h : dir.Ends n r) : resultOf objects n = r := by
  refine CallTree.Ends.rec_on_body (P := fun n r => resultOf objects n = r) (fun n r h => ?_) h
  cases n with
  | readObject oid => exact hobjects oid r (CallTree.ends_iff_returns.mpr (h.mono fun _ _ h => h.1))
  | lookupInPack idx pack oid => exact lookupInPack_of_returns (h.mono fun _ _ h => h.2)
  | readPackEntry pack offset => exact readPackEntry_of_returns (h.mono fun _ _ h => h.2)

/-! ## A pack that is read without end -/

omit [Zlib]

def zeroOid : GitOid := oidWith 0

def onePack (entry : Bytes) : Bytes := [80, 65, 67, 75, 0, 0, 0, 2, 0, 0, 0, 1] ++ entry

/-- The directory of the packs has the pack, with an index that has the entry. -/
def onePackDir (entry : Bytes) : GitDir where
  looseObject _ := .error "No such file or directory"
  packs _ := .ok [.ok (twoObjects, onePack entry)]

theorem reaches_onePack [Zlib] (entry : Bytes) :
    (onePackDir entry).Reaches (.readObject zeroOid) (.readPackEntry (onePack entry) 12) :=
  (reaches_of_packOffset (listsObjects_twoObjects.packOffset_of_mem (i := 0) rfl rfl)).head
    (calls_readObject_of_head rfl rfl)

/-- An `OFS_DELTA` entry with the offset zero, and a `REF_DELTA` entry on itself. -/
theorem not_terminates_onePack :
    let _ := GitPack.helloZlib
    ¬ (onePackDir [0x60, 0]).Terminates (.readObject zeroOid)
      ∧ ¬ (onePackDir (0x70 :: List.replicate 20 0)).Terminates (.readObject zeroOid) := by
  intro zlib
  constructor
  · refine not_terminates_of_cycle (reaches_onePack [0x60, 0]) (.single (ZeroOffset.calls ?_))
    exact ⟨0, 13, 14, rfl, rfl⟩
  · have hentry := reaches_onePack (0x70 :: List.replicate 20 0)
    have hbase : (onePackDir (0x70 :: List.replicate 20 0)).Calls
        (.readPackEntry (onePack (0x70 :: List.replicate 20 0)) 12) (.readObject zeroOid) :=
      calls_readPackEntry_iff.mpr ⟨_, @HasBase.refDelta _ 12 0 13 zeroOid rfl rfl⟩
    exact not_terminates_of_cycle .refl (.tail' hentry hbase)

end GitDir

end ArcVcs.GitIngress
