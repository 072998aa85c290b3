import ArcVcs.Change
import ArcVcs.Lib.Interleaving

/-!
# Publishing objects

`write_once_atomic` and `write_blob_stream` as threads on one disk, where each action may fail or
be interleaved with those of other writers. The power may go at any time, which leaves the synced
data of files and, of every directory entry, the one on disk or a later one. The entries of new
directories are never synced, and some platforms cannot sync a directory at all.
-/

namespace ArcVcs

inductive IoError where
  | interrupted
  | notFound
  | permissionDenied
  | other
deriving DecidableEq

inductive CasPath where
  | object (id : Blake3Hash)
  | blob (hash : Blake3Hash)
deriving DecidableEq

/-- The directory of a path. Objects lie in one for each first byte of their ids. -/
def CasPath.parent : CasPath → Option ℕ
  | .object id => some (id.val / 256 ^ 31)
  | .blob _ => none

structure CasFile where
  content : Bytes
  synced : Bool

structure CasPlatform where
  /-- A rename replaces what is at the target. -/
  replaces : Bool
  /-- The `unix` branch of `sync_directory_if_supported`. -/
  syncsDirectories : Bool

/-- The entries that processes see, those that the disk has, and the temporary file of each call,
with the directories that processes see and those that the disk has. -/
structure CasDisk (ι : Type) where
  entries : CasPath → Option CasFile
  durable : CasPath → Option CasFile
  temps : ι → Option CasFile
  dirs : Option ℕ → Bool
  durableDirs : Option ℕ → Bool

abbrev CasThread (ι α : Type) := Thread (CasDisk ι) IoError α

section Calls

open Thread (perform attempt)

variable {ι : Type} [DecidableEq ι] (i : ι) (path : CasPath) (platform : CasPlatform)

/-! ## Actions -/

/-- `create_dir_all`, which does not sync what it has made. -/
def CasDisk.createDirAll (dir : Option ℕ) : Program (CasDisk ι) IoError Unit := fun s =>
  some (.ok (), { s with dirs := fun d => if d = dir then true else s.dirs d })

def onTemp (f : Option CasFile → Except IoError (Option CasFile)) :
    Program (CasDisk ι) IoError Unit := fun s =>
  match f (s.temps i) with
  | .error e => some (.error e, s)
  | .ok file => some (.ok (), { s with temps := Function.update s.temps i file })

/-- The name is the call's own, from `create_unique_temp_path`. -/
def createNew (dir : Option ℕ) : Program (CasDisk ι) IoError Unit := fun s =>
  if s.dirs dir = false then some (.error .notFound, s)
  else onTemp i (fun | none => .ok (some ⟨[], false⟩) | some _ => .error .other) s

def append (byte : UInt8) : Program (CasDisk ι) IoError Unit :=
  onTemp i fun
    | none => .error .notFound
    | some file => .ok (some ⟨file.content ++ [byte], false⟩)

def syncData : Program (CasDisk ι) IoError Unit :=
  onTemp i fun | none => .error .notFound | some file => .ok (some ⟨file.content, true⟩)

def removeFile : Program (CasDisk ι) IoError Unit :=
  onTemp i fun | none => .error .notFound | some _ => .ok none

/-- A file system replaces the target, or reports that it exists (`false`). -/
def rename : Program (CasDisk ι) IoError Bool := fun s =>
  match s.temps i with
  | none => some (.error .notFound, s)
  | some file =>
      if platform.replaces = false ∧ (s.entries path).isSome then some (.ok false, s)
      else some (.ok true, { s with
        entries := Function.update s.entries path (some file)
        temps := Function.update s.temps i none })

/-- `sync_directory_if_supported`. The entry of the directory itself is one of its parent. -/
def syncDirectory : Program (CasDisk ι) IoError Unit := fun s =>
  if platform.syncsDirectories = false then some (.ok (), s)
  else some (.ok (), { s with
    durable := fun p => if p.parent = path.parent then s.entries p else s.durable p })

def hasEntry : Program (CasDisk ι) IoError Bool := fun s => some (.ok (s.entries path).isSome, s)

/-! ## Calls -/

/-- `Path::exists`, which is `false` on an error. -/
def pathExists : CasThread ι Bool := do
  match ← attempt (perform (hasEntry path)) with
  | .ok found => pure found
  | .error _ => pure false

def createDirAllRetry (dir : Option ℕ) : ℕ → CasThread ι Unit
  | 0 => Thread.throw .other
  | attempts + 1 => do
      match ← attempt (perform (CasDisk.createDirAll dir)) with
      | .ok _ => pure ()
      | .error e =>
          if (e = .interrupted ∨ e = .notFound) ∧ 0 < attempts then createDirAllRetry dir attempts
          else Thread.throw e

def createDirRetryLimit : ℕ := 6

/-- `write_all`. A prefix of the bytes may be all that gets written. -/
def writeAll : Bytes → CasThread ι Unit
  | [] => pure ()
  | byte :: bytes => do
      perform (append i byte)
      writeAll bytes

def discard : CasThread ι Unit := do
  let _ ← attempt (perform (removeFile i))
  pure ()

/-- The end of both calls: whether this call has made the entry. -/
def publish : CasThread ι Bool := do
  match ← attempt (perform (rename i path platform)) with
  | .ok true =>
      perform (syncDirectory path platform)
      pure true
  | .ok false =>
      discard i
      pure false
  | .error e =>
      let found ← (if e = .permissionDenied then pathExists path else pure false : CasThread ι Bool)
      discard i
      if found then pure false else Thread.throw e

def writeOnceAtomic (bytes : Bytes) : CasThread ι Bool := do
  if ← pathExists path then pure false
  else
    createDirAllRetry path.parent createDirRetryLimit
    perform (createNew i path.parent)
    writeAll i bytes
    perform (syncData i)
    publish i path platform

/-- What `read` returns. At the end of the list it returns `0`. -/
inductive ReadEvent where
  | chunk (bytes : Bytes)
  | interrupted
  | failed (e : IoError)

/-- The loop of `write_blob_stream`, with the bytes that the hasher has seen. -/
def copyStream : List ReadEvent → Bytes → CasThread ι Bytes
  | [], seen => pure seen
  | .chunk [] :: _, seen => pure seen
  | .chunk bytes :: reads, seen => do
      writeAll i bytes
      copyStream reads (seen ++ bytes)
  | .interrupted :: reads, seen => copyStream reads seen
  | .failed e :: _, _ => do
      discard i
      Thread.throw e

variable [Crypto]

def writeBlobStream (reads : List ReadEvent) : CasThread ι (Blake3Hash × ℕ) := do
  createDirAllRetry none createDirRetryLimit
  perform (createNew i none)
  let bytes ← copyStream i reads []
  perform (syncData i)
  let hash := Crypto.hashBytes bytes
  let totalBytes := min bytes.length (2 ^ 64 - 1)
  if ← pathExists (.blob hash) then
    discard i
    pure (hash, totalBytes)
  else
    let _ ← publish i (.blob hash) platform
    pure (hash, totalBytes)

/-- A call with its path: `write_blob`, `write_object` and `write_change_bytes` find theirs before
anything is written. -/
inductive CasCall where
  | once (path : CasPath) (bytes : Bytes)
  | stream (reads : List ReadEvent)

inductive CasReturn where
  | once (published : Bool)
  | stream (hash : Blake3Hash) (totalBytes : ℕ)
deriving DecidableEq

def CasCall.writeBlob (bytes : Bytes) : CasCall := .once (.blob (Crypto.hashBytes bytes)) bytes

def CasCall.thread : CasCall → CasThread ι CasReturn
  | .once path bytes => do
      let published ← writeOnceAtomic i path platform bytes
      pure (.once published)
  | .stream reads => do
      let (hash, totalBytes) ← writeBlobStream i platform reads
      pure (.stream hash totalBytes)

end Calls

/-! ## What holds of the disk -/

variable {ι : Type} [Crypto]

/-- A blob has the name of its content, and what an object may hold is up to its writers. -/
def ValidEntry (V : Blake3Hash → Bytes → Prop) : CasPath → Bytes → Prop
  | .object id, bytes => V id bytes
  | .blob hash, bytes => Crypto.hashBytes bytes = hash

namespace CasDisk

structure Complete (V : Blake3Hash → Bytes → Prop) (s : CasDisk ι) : Prop where
  entry : ∀ path file, s.entries path = some file ∨ s.durable path = some file →
    file.synced = true ∧ ValidEntry V path file.content
  visible : ∀ path, (s.durable path).isSome → (s.entries path).isSome

/-- No files, in directories that are on disk or not. -/
def empty (onDisk : Option ℕ → Bool) : CasDisk ι :=
  ⟨fun _ => none, fun _ => none, fun _ => none, onDisk, onDisk⟩

theorem complete_empty (V : Blake3Hash → Bytes → Prop) (onDisk : Option ℕ → Bool) :
    (empty onDisk : CasDisk ι).Complete V :=
  ⟨fun _ _ h => by simp [empty] at h, fun _ h => h⟩

/-- No entry goes, and no directory gets to the disk. -/
structure Keeps (s t : CasDisk ι) : Prop where
  entries : ∀ path, (s.entries path).isSome → (t.entries path).isSome
  durable : ∀ path, (s.durable path).isSome → (t.durable path).isSome
  durableDirs : t.durableDirs = s.durableDirs

/-- What a process may read at a path once the power is back. A directory that the disk does not
have takes its entries with it. -/
def AfterPowerLoss (s : CasDisk ι) (path : CasPath) (found : Option Bytes) : Prop :=
  (found = none
      ∧ (s.entries path = none ∨ s.durable path = none ∨ s.durableDirs path.parent = false))
    ∨ ∃ file bytes, (s.entries path = some file ∨ s.durable path = some file)
      ∧ found = some bytes ∧ (file.synced = true → bytes = file.content)

variable {V : Blake3Hash → Bytes → Prop} {s t u : CasDisk ι}

omit [Crypto] in
theorem Keeps.refl (s : CasDisk ι) : s.Keeps s := ⟨fun _ h => h, fun _ h => h, rfl⟩

omit [Crypto] in
theorem Keeps.trans (h : s.Keeps t) (h' : t.Keeps u) : s.Keeps u :=
  ⟨fun path hs => h'.entries path (h.entries path hs),
    fun path hs => h'.durable path (h.durable path hs), h'.durableDirs.trans h.durableDirs⟩

/-- Complete entries, which stay, and temporary files that are their call's own. -/
def contract (ι : Type) (V : Blake3Hash → Bytes → Prop) : Contract (CasDisk ι) ι where
  Inv := Complete V
  Rely i s t := s.Keeps t ∧ t.temps i = s.temps i
  Guard _ _ _ := True
  rely_refl _ s := ⟨.refl s, rfl⟩
  rely_trans h h' := ⟨h.1.trans h'.1, h'.2.trans h.2⟩

/-- The thread is safe, no entry goes, and `R` holds from its return on. -/
def Ends {α : Type} (V : Blake3Hash → Bytes → Prop) (i : ι) (R : α → CasDisk ι → Prop)
    (thread : CasThread ι α) (s : CasDisk ι) : Prop :=
  (contract ι V).Safe i (fun r t => s.Keeps t ∧ ∀ a, r = .ok a → R a t) thread s

variable {i : ι} {α β : Type} {R : α → CasDisk ι → Prop} {thread : CasThread ι α}

theorem Ends.bind {R' : β → CasDisk ι → Prop} {f : α → CasThread ι β} (h : Ends V i R thread s)
    (hs : s.Complete V)
    (hf : ∀ a t, t.Complete V → s.Keeps t → R a t → Ends V i R' (f a) t) :
    Ends V i R' (thread >>= f) s := by
  refine Contract.Safe.bind h hs (fun a t ht hR => ?_) fun e t _ hR =>
    ⟨hR.1, fun b hb => by cases hb⟩
  exact (hf a t ht hR.1 (hR.2 a rfl)).mono fun r u _ hu => ⟨hR.1.trans hu.1, hu.2⟩

theorem Ends.mono {R' : α → CasDisk ι → Prop} (h : Ends V i R thread s)
    (hR : ∀ a t, R a t → R' a t) : Ends V i R' thread s :=
  Contract.Safe.mono h fun _ t _ ht => ⟨ht.1, fun a ha => hR a t (ht.2 a ha)⟩

theorem Ends.pure {a : α} (h : ∀ t, s.Keeps t → t.temps i = s.temps i → R a t) :
    Ends V i R (Pure.pure a) s := by
  rintro t ⟨hkeeps, htemp⟩ -
  exact ⟨hkeeps, fun b hb => Except.ok.inj hb ▸ h t hkeeps htemp⟩

theorem Ends.throw {e : IoError} : Ends V i R (Thread.throw e) s :=
  fun _ h _ => ⟨h.1, fun _ ha => by cases ha⟩

theorem Ends.attempt (h : Ends V i R thread s) :
    Ends V i (fun r t => ∀ a, r = .ok a → R a t) thread.attempt s :=
  Contract.Safe.attempt h fun _ _ _ ht => ⟨ht.1, fun _ hr => Except.ok.inj hr ▸ ht.2⟩

theorem ends_perform {action : Program (CasDisk ι) IoError α}
    (h : ∀ t r u, s.Keeps t → t.temps i = s.temps i → t.Complete V → action t = some (r, u) →
      u.Complete V ∧ t.Keeps u ∧ (∀ j, j ≠ i → u.temps j = t.temps j)
        ∧ ∀ a, r = .ok a → ∀ v, u.Keeps v → v.temps i = u.temps i → R a v) :
    Ends V i R (Thread.perform action) s := by
  refine .perform_of_run (fun t hst ht r u hrun _ => ?_)
    fun e t hst _ => ⟨hst.1, fun a ha => by cases ha⟩
  obtain ⟨hu, hkeeps, hothers, hR⟩ := h t r u hst.1 hst.2 ht hrun
  refine ⟨⟨hu, fun j hj => ⟨hkeeps, hothers j hj⟩⟩, fun v huv _ => ?_⟩
  have hall := (hst.1.trans hkeeps).trans huv.1
  exact ⟨⟨hall, fun a ha => hR a ha v huv.1 huv.2⟩, fun e => ⟨hall, fun a ha => by cases ha⟩⟩

variable [DecidableEq ι] {platform : CasPlatform}

theorem onTemp_run {f : Option CasFile → Except IoError (Option CasFile)} {r : Except IoError Unit}
    (ht : t.Complete V) (hrun : onTemp i f t = some (r, u)) :
    u.Complete V ∧ t.Keeps u ∧ (∀ j, j ≠ i → u.temps j = t.temps j)
      ∧ ∀ a, r = .ok a → f (t.temps i) = .ok (u.temps i) := by
  rw [onTemp] at hrun
  cases hf : f (t.temps i) with
  | error e =>
      rw [hf] at hrun
      cases hrun
      exact ⟨ht, .refl t, fun _ _ => rfl, fun a ha => by cases ha⟩
  | ok file =>
      rw [hf] at hrun
      cases hrun
      refine ⟨⟨ht.entry, ht.visible⟩, ⟨fun _ h => h, fun _ h => h, rfl⟩,
        fun j hj => Function.update_of_ne hj _ _, fun _ _ => ?_⟩
      exact congrArg Except.ok (Function.update_self i file t.temps).symm

theorem ends_onTemp {f : Option CasFile → Except IoError (Option CasFile)} :
    Ends V i (fun _ t => f (s.temps i) = .ok (t.temps i)) (Thread.perform (onTemp i f)) s := by
  refine ends_perform fun t r u _ htemp ht hrun => ?_
  obtain ⟨hu, hkeeps, hothers, hfile⟩ := onTemp_run ht hrun
  refine ⟨hu, hkeeps, hothers, fun a ha v _ hv => ?_⟩
  rw [← htemp, hv]
  exact hfile a ha

omit [DecidableEq ι] in
theorem ends_pathExists (hs : s.Complete V) (path : CasPath) :
    Ends V i (fun found t => t.temps i = s.temps i ∧ (found = true → (t.entries path).isSome))
      (pathExists path) s := by
  have hlook : (contract ι V).Safe i (fun r t => s.Keeps t ∧ t.temps i = s.temps i
      ∧ (r = .ok true → (t.entries path).isSome))
      (Thread.perform (hasEntry path)) s := by
    refine .perform_of_run (fun t hst ht r u hrun _ => ?_)
      fun e t hst _ => ⟨hst.1, hst.2, fun h => by cases h⟩
    cases hrun
    refine ⟨⟨ht, fun j _ => (contract ι V).rely_refl j t⟩, fun v hv _ => ?_⟩
    have hkeeps := hst.1.trans hv.1
    have htemp := hv.2.trans hst.2
    exact ⟨⟨hkeeps, htemp, fun h => hv.1.entries path (Except.ok.inj h)⟩,
      fun e => ⟨hkeeps, htemp, fun h => by cases h⟩⟩
  have hattempt : Ends V i
      (fun (r : Except IoError Bool) t =>
        t.temps i = s.temps i ∧ (r = .ok true → (t.entries path).isSome))
      (Thread.attempt (Thread.perform (hasEntry path))) s :=
    Contract.Safe.attempt hlook fun _ _ _ h => ⟨h.1, fun _ hr => Except.ok.inj hr ▸ h.2⟩
  refine hattempt.bind hs fun r t _ _ hR => ?_
  cases r with
  | error e => exact .pure fun u _ htemp => ⟨htemp.trans hR.1, fun h => by cases h⟩
  | ok found =>
      refine .pure fun u hkeeps htemp => ⟨htemp.trans hR.1, fun h => ?_⟩
      exact hkeeps.entries path (hR.2 (congrArg Except.ok h))

omit [DecidableEq ι] in
theorem ends_createDirAllRetry (hs : s.Complete V) (dir : Option ℕ) (attempts : ℕ) :
    Ends V i (fun _ _ => True) (createDirAllRetry dir attempts) s := by
  induction attempts generalizing s with
  | zero => exact .throw
  | succ attempts ih =>
      have hstep : Ends V i (fun _ _ => True) (Thread.perform (createDirAll dir)) s := by
        refine ends_perform fun t r u _ _ ht hrun => ?_
        cases hrun
        exact ⟨⟨ht.entry, ht.visible⟩, ⟨fun _ h => h, fun _ h => h, rfl⟩, fun _ _ => rfl,
          fun _ _ _ _ _ => trivial⟩
      refine hstep.attempt.bind hs fun r t ht _ _ => ?_
      cases r with
      | ok a => exact .pure fun _ _ _ => trivial
      | error e =>
          dsimp only
          split_ifs
          · exact ih ht
          · exact .throw

/-- The temporary file of the call has this content. -/
def Holds (s : CasDisk ι) (i : ι) (bytes : Bytes) : Prop :=
  ∃ synced, s.temps i = some ⟨bytes, synced⟩

theorem ends_createNew (dir : Option ℕ) :
    Ends V i (fun _ t => t.Holds i []) (Thread.perform (createNew i dir)) s := by
  refine ends_perform fun t r u _ _ ht hrun => ?_
  rw [createNew] at hrun
  split_ifs at hrun
  · cases hrun
    exact ⟨ht, .refl t, fun _ _ => rfl, fun a ha => by cases ha⟩
  · obtain ⟨hu, hkeeps, hothers, hfile⟩ := onTemp_run ht hrun
    refine ⟨hu, hkeeps, hothers, fun a ha v _ hv => ?_⟩
    have hnew := hfile a ha
    rw [Holds, hv]
    cases htemp : t.temps i with
    | some file => simp [htemp] at hnew
    | none => exact ⟨false, by simpa [htemp] using hnew.symm⟩

theorem ends_writeAll (hs : s.Complete V) {seen : Bytes} (hseen : s.Holds i seen) (bytes : Bytes) :
    Ends V i (fun _ t => t.Holds i (seen ++ bytes)) (writeAll i bytes) s := by
  induction bytes generalizing s seen with
  | nil =>
      refine .pure fun t _ htemp => ?_
      rw [Holds, htemp, List.append_nil]
      exact hseen
  | cons byte bytes ih =>
      refine ends_onTemp.bind hs fun _ t ht _ h => ?_
      obtain ⟨synced, htemp⟩ := hseen
      have hnext : t.Holds i (seen ++ [byte]) := ⟨false, by simpa [htemp] using h.symm⟩
      exact (ih ht hnext).mono fun _ u hu => by rwa [List.append_assoc] at hu

theorem ends_syncData {bytes : Bytes} (hbytes : s.Holds i bytes) :
    Ends V i (fun _ t => t.temps i = some ⟨bytes, true⟩) (Thread.perform (syncData i)) s := by
  obtain ⟨synced, htemp⟩ := hbytes
  exact ends_onTemp.mono fun _ t h => by simpa [htemp] using h.symm

theorem ends_discard (hs : s.Complete V) : Ends V i (fun _ _ => True) (discard i) s :=
  ends_onTemp.attempt.bind hs fun _ _ _ _ _ => .pure fun _ _ _ => trivial

/-- The rename makes an entry that is complete, and otherwise there is one. -/
theorem ends_rename {path : CasPath} {bytes : Bytes} (htemp : s.temps i = some ⟨bytes, true⟩)
    (hvalid : ValidEntry V path bytes) :
    Ends V i (fun _ t => (t.entries path).isSome) (Thread.perform (rename i path platform)) s := by
  refine ends_perform fun t r u _ hown ht hrun => ?_
  rw [rename, hown, htemp] at hrun
  dsimp only at hrun
  split_ifs at hrun with hexists
  · cases hrun
    exact ⟨ht, .refl t, fun _ _ => rfl, fun _ _ v hv _ => hv.entries path hexists.2⟩
  · cases hrun
    have hentries : ∀ p, (t.entries p).isSome →
        (Function.update t.entries path (some ⟨bytes, true⟩) p).isSome := by
      intro p hp
      by_cases h : p = path
      · simp [h]
      · rwa [Function.update_of_ne h]
    refine ⟨⟨fun p file hfile => ?_, fun p hp => hentries p (ht.visible p hp)⟩,
      ⟨hentries, fun _ h => h, rfl⟩, fun j hj => Function.update_of_ne hj _ _, fun _ _ v hv _ => ?_⟩
    · dsimp only at hfile
      rcases hfile with hfile | hfile
      · by_cases h : p = path
        · subst h
          rw [Function.update_self] at hfile
          cases hfile
          exact ⟨rfl, hvalid⟩
        · rw [Function.update_of_ne h] at hfile
          exact ht.entry p file (.inl hfile)
      · exact ht.entry p file (.inr hfile)
    · exact hv.entries path (by simp)

/-- Whoever returns has an entry, and whoever made it has synced it where that is possible. -/
def Published (platform : CasPlatform) (path : CasPath) (published : Bool) (t : CasDisk ι) :
    Prop :=
  (t.entries path).isSome
    ∧ (published = true → platform.syncsDirectories = true → (t.durable path).isSome)

omit [DecidableEq ι] in
theorem ends_syncDirectory {path : CasPath} (hentry : (s.entries path).isSome) :
    Ends V i (fun _ t => Published platform path true t)
      (Thread.perform (syncDirectory path platform)) s := by
  refine ends_perform fun t r u hst _ ht hrun => ?_
  have hpath := hst.entries path hentry
  rw [syncDirectory] at hrun
  split_ifs at hrun with hsyncs
  · cases hrun
    exact ⟨ht, .refl t, fun _ _ => rfl, fun _ _ v hv _ =>
      ⟨hv.entries path hpath, fun _ h => by simp [h] at hsyncs⟩⟩
  · cases hrun
    refine ⟨⟨fun p file hfile => ht.entry p file ?_, fun p hp => ?_⟩,
      ⟨fun _ h => h, fun p hp => ?_, rfl⟩, fun _ _ => rfl, fun _ _ v hv _ => ?_⟩
    · dsimp only at hfile
      split_ifs at hfile
      · exact .inl (hfile.elim id id)
      · exact hfile
    · dsimp only at hp
      split_ifs at hp
      · exact hp
      · exact ht.visible p hp
    · dsimp only
      split_ifs
      · exact ht.visible p hp
      · exact hp
    · exact ⟨hv.entries path hpath, fun _ _ => hv.durable path (by simpa using hpath)⟩

theorem ends_publish (hs : s.Complete V) {path : CasPath} {bytes : Bytes}
    (htemp : s.temps i = some ⟨bytes, true⟩) (hvalid : ValidEntry V path bytes) :
    Ends V i (Published platform path) (publish i path platform) s := by
  refine (ends_rename htemp hvalid).attempt.bind hs fun r t ht _ hR => ?_
  have hdiscard : ∀ {u : CasDisk ι}, u.Complete V → (u.entries path).isSome →
      Ends V i (Published platform path) (discard i >>= fun _ => pure false) u := fun hu hentry =>
    (ends_discard hu).bind hu fun _ v _ huv _ =>
      .pure fun w hvw _ => ⟨hvw.entries path (huv.entries path hentry), fun h => by cases h⟩
  rcases r with e | ⟨_ | _⟩
  · have hfound : Ends V i (fun found t => found = true → (t.entries path).isSome)
        (if e = .permissionDenied then pathExists path else pure false) t := by
      split_ifs
      · exact (ends_pathExists ht path).mono fun _ _ h => h.2
      · exact .pure fun _ _ _ h => by cases h
    refine hfound.bind ht fun found u hu _ hentry => ?_
    cases found with
    | true => exact hdiscard hu (hentry rfl)
    | false => exact (ends_discard hu).bind hu fun _ _ _ _ _ => .throw
  · exact hdiscard ht (hR false rfl)
  · refine (ends_syncDirectory (hR true rfl)).bind ht fun _ u _ _ hu => ?_
    exact .pure fun v huv _ =>
      ⟨huv.entries path hu.1, fun h hsyncs => huv.durable path (hu.2 h hsyncs)⟩

theorem ends_writeOnceAtomic (hs : s.Complete V) {path : CasPath} {bytes : Bytes}
    (hvalid : ValidEntry V path bytes) :
    Ends V i (Published platform path) (writeOnceAtomic i path platform bytes) s := by
  refine (ends_pathExists hs path).bind hs fun found t ht _ hfound => ?_
  split_ifs with hentry
  · exact .pure fun u hkeeps _ => ⟨hkeeps.entries path (hfound.2 hentry), fun h => by cases h⟩
  · refine (ends_createDirAllRetry ht _ _).bind ht fun _ u hu _ _ => ?_
    refine (ends_createNew _).bind hu fun _ v hv _ hnew => ?_
    refine (ends_writeAll hv hnew bytes).bind hv fun _ w hw _ hwritten => ?_
    exact (ends_syncData hwritten).bind hw fun _ x hx _ hsynced =>
      ends_publish hx hsynced hvalid

theorem ends_copyStream (hs : s.Complete V) (reads : List ReadEvent) {seen : Bytes}
    (hseen : s.Holds i seen) :
    Ends V i (fun bytes t => t.Holds i bytes) (copyStream i reads seen) s := by
  induction reads generalizing s seen with
  | nil => exact .pure fun t _ htemp => by rwa [Holds, htemp]
  | cons read reads ih =>
      cases read with
      | interrupted => exact ih hs hseen
      | failed e => exact (ends_discard hs).bind hs fun _ _ _ _ _ => .throw
      | chunk bytes =>
          cases bytes with
          | nil => exact .pure fun t _ htemp => by rwa [Holds, htemp]
          | cons byte bytes =>
              exact (ends_writeAll hs hseen _).bind hs fun _ t ht _ hnext => ih ht hnext

theorem ends_writeBlobStream (hs : s.Complete V) (reads : List ReadEvent) :
    Ends V i (fun r t => (t.entries (.blob r.1)).isSome) (writeBlobStream i platform reads) s := by
  refine (ends_createDirAllRetry hs _ _).bind hs fun _ t ht _ _ => ?_
  refine (ends_createNew _).bind ht fun _ u hu _ hnew => ?_
  refine (ends_copyStream hu reads hnew).bind hu fun bytes v hv _ hwritten => ?_
  refine (ends_syncData hwritten).bind hv fun _ w hw _ hsynced => ?_
  refine (ends_pathExists hw _).bind hw fun found x hx _ hfound => ?_
  split_ifs with hentry
  · exact (ends_discard hx).bind hx fun _ y _ hkeeps _ => .pure fun z hz _ =>
      hz.entries _ (hkeeps.entries _ (hfound.2 hentry))
  · have hvalid : ValidEntry V (.blob (Crypto.hashBytes bytes)) bytes := rfl
    refine (ends_publish hx (hfound.1.trans hsynced) hvalid).bind hx fun _ y _ _ hy => ?_
    exact .pure fun z hz _ => hz.entries _ hy.1

end CasDisk

/-- What a call promises when it returns. -/
def CasCall.Done (platform : CasPlatform) (s : CasDisk ι) : CasCall → CasReturn → Prop
  | .once path _, .once published => CasDisk.Published platform path published s
  | .stream _, .stream hash _ => (s.entries (.blob hash)).isSome
  | _, _ => False

/-- What the call writes may stand at its path. -/
def CasCall.Valid (V : Blake3Hash → Bytes → Prop) : CasCall → Prop
  | .once path bytes => ValidEntry V path bytes
  | .stream _ => True

open CasDisk in
theorem ends_thread [DecidableEq ι] {V : Blake3Hash → Bytes → Prop} {s : CasDisk ι} {i : ι}
    (hs : s.Complete V) {call : CasCall} (hcall : call.Valid V) (platform : CasPlatform) :
    Ends V i (fun a t => call.Done platform t a) (call.thread i platform) s := by
  cases call with
  | once path bytes =>
      exact (ends_writeOnceAtomic hs hcall).bind hs fun published t _ _ hR =>
        .pure fun u hu _ =>
          ⟨hu.entries path hR.1, fun h hsyncs => hu.durable path (hR.2 h hsyncs)⟩
  | stream reads =>
      exact (ends_writeBlobStream hs reads).bind hs fun r t _ _ hR =>
        .pure fun u hu _ => hu.entries _ hR

/-- **No reader finds part of an object.** Whatever writers run in whatever order, whichever of
their actions fail, and wherever the power goes, what stands at a path is complete. A call that
returns leaves an entry. One that made it itself, where directories are synced, leaves an entry
that outlives a power loss exactly when its directory was on disk before. -/
theorem entries_complete [DecidableEq ι] {V : Blake3Hash → Bytes → Prop} {disk : CasDisk ι}
    (hdisk : disk.Complete V) {calls : ι → CasCall} (hcalls : ∀ i, (calls i).Valid V)
    {platform : CasPlatform} {events : List (ThreadSystem.Event ι IoError)}
    {t : ThreadSystem (CasDisk ι) IoError ι CasReturn}
    (htrace : Trace ThreadSystem.Step ⟨disk, fun i => (calls i).thread i platform⟩ events t) :
    (∀ path file, t.shared.entries path = some file → ValidEntry V path file.content)
      ∧ (∀ path bytes, t.shared.AfterPowerLoss path (some bytes) → ValidEntry V path bytes)
      ∧ ∀ i a, (t.threads i).result = some (.ok a) → (calls i).Done platform t.shared a
        ∧ ∀ path bytes, calls i = .once path bytes → a = .once true →
          platform.syncsDirectories = true →
            (t.shared.AfterPowerLoss path none ↔ disk.durableDirs path.parent = false) := by
  have hsafe : (CasDisk.contract ι V).AllSafe
      (fun i r t => disk.Keeps t ∧ ∀ a, r = .ok a → (calls i).Done platform t a)
      ⟨disk, fun i => (calls i).thread i platform⟩ :=
    ⟨hdisk, fun i => ends_thread hdisk (hcalls i) platform⟩
  have hend := hsafe.run (htrace.mono fun _ _ _ h => ⟨h, trivial⟩)
  refine ⟨fun path file h => (hend.1.entry path file (.inl h)).2, fun path bytes h => ?_,
    fun i a h => ?_⟩
  · obtain ⟨⟨⟩, -⟩ | ⟨file, bytes', hfile, hbytes, hcontent⟩ := h
    obtain rfl := Option.some.inj hbytes
    obtain ⟨hsynced, hvalid⟩ := hend.1.entry path file hfile
    rwa [hcontent hsynced]
  · obtain ⟨hkeeps, hreturned⟩ := hend.result h
    have hdone := hreturned a rfl
    refine ⟨hdone, fun path bytes hcall ha hsyncs => ?_⟩
    rw [hcall, ha] at hdone
    obtain ⟨hentry, hdurable⟩ := hdone
    rw [← hkeeps.durableDirs]
    constructor
    · rintro (⟨-, hnone | hnone | hdir⟩ | ⟨_, _, -, ⟨⟩, -⟩)
      · simp [hnone] at hentry
      · simpa [hnone] using hdurable rfl hsyncs
      · exact hdir
    · exact fun hdir => .inl ⟨rfl, .inr (.inr hdir)⟩

omit [Crypto] in
/-- Two writers of one blob take turns, and both make its entry, in a directory that is on disk
or in a new one. -/
theorem two_writers_survive_power_loss :
    letI := Crypto.sample
    let calls : Fin 2 → CasCall := fun _ => .writeBlob [7]
    let events : List (ThreadSystem.Event (Fin 2) IoError) :=
      (List.replicate 7 [.step 0, .step 1]).flatten
    ∀ onDisk : Bool, ∃ t, Trace ThreadSystem.Step
        ⟨.empty fun _ => onDisk, fun i => (calls i).thread i ⟨true, true⟩⟩ events t
      ∧ ∀ i, (t.threads i).result = some (.ok (.once true))
        ∧ (t.shared.AfterPowerLoss (.blob (Crypto.hashBytes [7])) none ↔ onDisk = false) := by
  let _ := Crypto.sample
  intro calls events onDisk
  have hrun : ∀ onDisk : Bool, (events.foldlM ThreadSystem.next
        ⟨.empty fun _ => onDisk, fun i => (calls i).thread i ⟨true, true⟩⟩).any
      (fun t => decide (∀ i, (t.threads i).result = some (.ok (.once true)))) = true := by
    decide
  obtain ⟨t, ht, hdone⟩ := (Option.any_eq_true _ _).mp (hrun onDisk)
  have hdone' := of_decide_eq_true hdone
  have htrace := Trace.of_foldlM ht
  have hcalls : ∀ i, (calls i).Valid fun _ _ => False := fun _ => rfl
  obtain ⟨-, -, hreturns⟩ := entries_complete (CasDisk.complete_empty _ _) hcalls htrace
  exact ⟨t, htrace, fun i => ⟨hdone' i, (hreturns i _ (hdone' i)).2 _ _ rfl rfl rfl⟩⟩

end ArcVcs
