import ArcVcs.Lib.ExclusiveFile
import ArcVcs.Lib.Trace

/-!
# Lock files

`LockMarker` and `LockFile`: processes that create a lock file, look at the age and the owner of one
that is in their way, and remove it when the owner is dead. Looking and removing are separate
steps, so a process may remove another file than the one it has looked at. As long as this does not
happen, at most one live process holds the lock.
-/

namespace ArcVcs

/-- `LockMarker` writes the pid into the lock file, `LockFile` into an owner file next to it. -/
inductive LockKind where
  | marker
  | file
deriving DecidableEq

/-- Milliseconds. -/
def staleLockTtl : ℕ := 30000

variable {ι : Type}

/-- A lock file. Every file that is created has another inode. -/
structure LockEntry (ι : Type) where
  inode : ℕ
  creator : ι
  modified : ℕ
  pid : Option ι

structure OwnerEntry (ι : Type) where
  writer : ι
  pid : Option ι

/-- Where a process is in `acquire`, in `commit` or in dropping its guard. -/
inductive LockControl (ι : Type) where
  | idle
  | attempting
  | blocked
  | aged (inode : ℕ)
  | pidRead (inode : ℕ) (pid : ι)
  | reaping (inode : ℕ) (pid : ι)
  | reapingOwner
  | created (inode : ℕ)
  | ownerCreated (inode : ℕ)
  | ownerFailed (inode : ℕ)
  | holding (inode : ℕ)
  | published
  | unsynced
  | dropping (inode : Option ℕ)
  | droppingOwner

namespace LockControl

/-- The lock file that the process has created and not yet given up. -/
def owned : LockControl ι → Option ℕ
  | created n | ownerCreated n | ownerFailed n | holding n => some n
  | dropping inode => inode
  | _ => none

/-- The process has the guard of a lock that is not released. -/
def Holds : LockControl ι → Prop
  | holding _ | dropping (some _) => True
  | _ => False

/-- The lock file that the process has looked at. -/
def seen : LockControl ι → Option ℕ
  | aged n | pidRead n _ | reaping n _ => some n
  | _ => none

/-- The lock file with the pid that the process has read for it. -/
def judged : LockControl ι → Option (ℕ × ι)
  | pidRead n pid | reaping n pid => some (n, pid)
  | _ => none

theorem seen_of_judged {c : LockControl ι} {n : ℕ} {pid : ι} (h : c.judged = some (n, pid)) :
    c.seen = some n := by
  cases c with
  | pidRead m p =>
      cases h
      rfl
  | reaping m p =>
      cases h
      rfl
  | _ => cases h

end LockControl

/-- The directory of one lock and the processes. -/
structure LockState (ι : Type) where
  now : ℕ
  inodes : ℕ
  file : Option (LockEntry ι)
  owner : Option (OwnerEntry ι)
  alive : ι → Bool
  control : ι → LockControl ι

inductive LockAction where
  | enter
  | createNew
  | fail
  | metadata
  | readPid
  | isPidAlive
  | createOwner
  | writePid (ok : Bool)
  | writeAll
  | publish
  | syncDirectory
  | drop
  | removeLock (ok : Bool)
  | removeOwner (ok : Bool)

inductive LockEvent (ι : Type) where
  | clock (now : ℕ)
  | die (i : ι)
  | act (i : ι) (action : LockAction)

def LockEvent.process : LockEvent ι → Option ι
  | .act i _ => some i
  | _ => none

namespace LockState

/-- Nobody has called `acquire` yet. -/
def init (ι : Type) (now : ℕ) : LockState ι where
  now := now
  inodes := 0
  file := none
  owner := none
  alive _ := true
  control _ := .idle

def goto [DecidableEq ι] (s : LockState ι) (i : ι) (c : LockControl ι) : LockState ι :=
  { s with control := Function.update s.control i c }

def putLock (s : LockState ι) (i : ι) : LockState ι :=
  { s with file := some ⟨s.inodes, i, s.now, none⟩, inodes := s.inodes + 1 }

/-- Writing through a handle reaches the file only if it still is the one at the path. -/
def editLock (s : LockState ι) (inode : ℕ) (edit : LockEntry ι → LockEntry ι) : LockState ι :=
  { s with file := s.file.map fun f => if f.inode = inode then edit f else f }

def writeLock (s : LockState ι) (inode : ℕ) : LockState ι :=
  s.editLock inode fun f => { f with modified := s.now }

def writeLockPid (s : LockState ι) (i : ι) (inode : ℕ) : LockState ι :=
  s.editLock inode fun f => { f with modified := s.now, pid := some i }

def removeLock (s : LockState ι) (ok : Bool) : LockState ι :=
  if ok then { s with file := none } else s

def putOwner (s : LockState ι) (i : ι) : LockState ι := { s with owner := some ⟨i, none⟩ }

def writeOwnerPid [DecidableEq ι] (s : LockState ι) (i : ι) : LockState ι :=
  { s with owner := s.owner.map fun o => if o.writer = i then { o with pid := some i } else o }

def removeOwner (s : LockState ι) (ok : Bool) : LockState ι :=
  if ok then { s with owner := none } else s

/-- The file older than the limit, if there is one. -/
def stale (s : LockState ι) : Option (LockEntry ι) :=
  s.file.filter fun f => staleLockTtl < s.now - f.modified

/-- The pid that is read for the lock file `inode`. A marker has it in the file at its path, which
may be another one by now. -/
def pidFor (kind : LockKind) (s : LockState ι) (inode : ℕ) : Option (ℕ × ι) :=
  match kind with
  | .marker => s.file.bind fun f => f.pid.map fun pid => (f.inode, pid)
  | .file => s.owner.bind fun o => o.pid.map fun pid => (inode, pid)

/-- After a lock file its owner file is removed, if there is one. -/
def afterReap : LockKind → LockControl ι
  | .marker => .attempting
  | .file => .reapingOwner

def afterDrop : LockKind → LockControl ι
  | .marker => .idle
  | .file => .droppingOwner

/-- What a live process may do next. -/
inductive Act [DecidableEq ι] (kind : LockKind) (s : LockState ι) (i : ι) :
    LockAction → LockState ι → Prop
  | enter (h : s.control i = .idle) : Act kind s i .enter (s.goto i .attempting)
  | createNew (h : s.control i = .attempting) (hfree : s.file = none) :
      Act kind s i .createNew ((s.putLock i).goto i (.created s.inodes))
  -- `AlreadyExists`, or `PermissionDenied` whether there is a file or not
  | alreadyExists (h : s.control i = .attempting) :
      Act kind s i .createNew (s.goto i .blocked)
  | fail (h : s.control i = .attempting ∨ s.control i = .blocked
        ∨ ∃ n, s.control i = .aged n) :
      Act kind s i .fail (s.goto i .idle)
  -- `can_reap_marker` and `can_reap_lock`
  | fresh (h : s.control i = .blocked) (hfresh : s.stale = none) :
      Act kind s i .metadata (s.goto i .attempting)
  | stale {f : LockEntry ι} (h : s.control i = .blocked) (hstale : s.stale = some f) :
      Act kind s i .metadata (s.goto i (.aged f.inode))
  | noPid {n : ℕ} (h : s.control i = .aged n) (hpid : s.pidFor kind n = none) :
      Act kind s i .readPid (s.goto i .attempting)
  | readPid {n m : ℕ} {pid : ι} (h : s.control i = .aged n)
      (hpid : s.pidFor kind n = some (m, pid)) : Act kind s i .readPid (s.goto i (.pidRead m pid))
  -- when asking fails, the pid counts as alive
  | isAlive {n : ℕ} {pid : ι} (h : s.control i = .pidRead n pid) :
      Act kind s i .isPidAlive (s.goto i .attempting)
  | isDead {n : ℕ} {pid : ι} (h : s.control i = .pidRead n pid) (hdead : s.alive pid = false) :
      Act kind s i .isPidAlive (s.goto i (.reaping n pid))
  | reap {n : ℕ} {pid : ι} (h : s.control i = .reaping n pid) (ok : Bool) :
      Act kind s i (.removeLock ok) ((s.removeLock ok).goto i (afterReap kind))
  | reapOwner (h : s.control i = .reapingOwner) (ok : Bool) :
      Act kind s i (.removeOwner ok) ((s.removeOwner ok).goto i .attempting)
  -- the rest of `acquire`, and the guard that it returns
  | writePid {n : ℕ} (hkind : kind = .marker) (h : s.control i = .created n) :
      Act kind s i (.writePid true) ((s.writeLockPid i n).goto i (.holding n))
  | writePidFails {n : ℕ} (hkind : kind = .marker) (h : s.control i = .created n) :
      Act kind s i (.writePid false) (s.goto i (.holding n))
  | createOwner {n : ℕ} (hkind : kind = .file) (h : s.control i = .created n)
      (hfree : s.owner = none) :
      Act kind s i .createOwner ((s.putOwner i).goto i (.ownerCreated n))
  | createOwnerFails {n : ℕ} (hkind : kind = .file) (h : s.control i = .created n) :
      Act kind s i .createOwner (s.goto i (.ownerFailed n))
  | writeOwner {n : ℕ} (h : s.control i = .ownerCreated n) :
      Act kind s i (.writePid true) ((s.writeOwnerPid i).goto i (.holding n))
  | writeOwnerFails {n : ℕ} (h : s.control i = .ownerCreated n) :
      Act kind s i (.writePid false) (s.goto i (.ownerFailed n))
  | syncOwnerFails {n : ℕ} (h : s.control i = .ownerCreated n) :
      Act kind s i (.writePid false) ((s.writeOwnerPid i).goto i (.ownerFailed n))
  | undo {n : ℕ} (h : s.control i = .ownerFailed n) (ok : Bool) :
      Act kind s i (.removeLock ok) ((s.removeLock ok).goto i .idle)
  | writeAll {n : ℕ} (hkind : kind = .file) (h : s.control i = .holding n) :
      Act kind s i .writeAll ((s.writeLock n).goto i (.holding n))
  | publish {n : ℕ} (hkind : kind = .file) (h : s.control i = .holding n)
      (hfile : s.file ≠ none) :
      Act kind s i .publish ((s.removeLock true).goto i .published)
  | publishedOwner (h : s.control i = .published) (ok : Bool) :
      Act kind s i (.removeOwner ok) ((s.removeOwner ok).goto i .unsynced)
  | syncDirectory (h : s.control i = .unsynced) :
      Act kind s i .syncDirectory (s.goto i .idle)
  -- the guard is dropped as not committed although its file has been published
  | dropUnsynced (h : s.control i = .unsynced) :
      Act kind s i .drop (s.goto i (.dropping none))
  | drop {n : ℕ} (h : s.control i = .holding n) :
      Act kind s i .drop (s.goto i (.dropping (some n)))
  | dropLock {inode : Option ℕ} (h : s.control i = .dropping inode) (ok : Bool) :
      Act kind s i (.removeLock ok) ((s.removeLock ok).goto i (afterDrop kind))
  | dropOwner (h : s.control i = .droppingOwner) (ok : Bool) :
      Act kind s i (.removeOwner ok) ((s.removeOwner ok).goto i .idle)

/-- Processes die at any time, and the clock may be set. -/
inductive Step [DecidableEq ι] (kind : LockKind) (s : LockState ι) :
    LockEvent ι → LockState ι → Prop
  | clock (now : ℕ) : Step kind s (.clock now) { s with now := now }
  | die (i : ι) : Step kind s (.die i) { s with alive := Function.update s.alive i false }
  | act {i : ι} {action : LockAction} {t : LockState ι} (halive : s.alive i = true)
      (h : Act kind s i action t) : Step kind s (.act i action) t

/-! ## What is to hold, and when it does -/

/-- No two live processes hold the lock. -/
def OneHolder (s : LockState ι) : Prop :=
  ∀ i j, s.alive i = true → s.alive j = true → (s.control i).Holds → (s.control j).Holds → i = j

/-- A lock file disappears by an act of its creator or after the death of its creator. -/
def RemovesOwn (s : LockState ι) (e : LockEvent ι) (t : LockState ι) : Prop :=
  ∀ f, s.file = some f → (∀ g, t.file = some g → g.inode ≠ f.inode) →
    e.process = some f.creator ∨ s.alive f.creator = false

/-- Nothing has been put in the place of what a process has looked at: an owner file that is read
is that of the lock file in question, a lock file that is reaped is the one that was judged, and a
guard that is dropped after it was published finds no new lock file. -/
def Undisturbed (kind : LockKind) (s : LockState ι) : LockEvent ι → Prop
  | .act i .readPid => kind = .file → ∀ n f o, s.control i = .aged n → s.file = some f →
      f.inode = n → s.owner = some o → o.writer = f.creator
  | .act i (.removeLock true) =>
      match s.control i with
      | .reaping n _ => ∀ f, s.file = some f → f.inode = n
      | .dropping none => s.file = none
      | _ => True
  | _ => True

/-! ## What the processes know -/

/-- Files that carry their creators' pids, and processes whose judgement of a file is right as long
as it is there. -/
structure Known (s : LockState ι) : Prop where
  inode_lt : ∀ f, s.file = some f → f.inode < s.inodes
  seen_lt : ∀ i n, (s.control i).seen = some n → n < s.inodes
  pid_eq : ∀ f pid, s.file = some f → f.pid = some pid → pid = f.creator
  owner_eq : ∀ o pid, s.owner = some o → o.pid = some pid → pid = o.writer
  judged_eq : ∀ i n pid, (s.control i).judged = some (n, pid) → ∀ f, s.file = some f →
    f.inode = n → f.creator = pid
  dead : ∀ i n pid, s.control i = .reaping n pid → s.alive pid = false

variable {kind : LockKind} {s t : LockState ι} {i : ι} {c : LockControl ι}

theorem known_init (now : ℕ) : (init ι now).Known where
  inode_lt f hf := by cases hf
  seen_lt i n h := by cases h
  pid_eq f pid hf := by cases hf
  owner_eq o pid ho := by cases ho
  judged_eq i n pid h := by cases h
  dead i n pid h := by cases h

theorem Known.putLock (h : s.Known) (i : ι) : (s.putLock i).Known where
  inode_lt f hf := by
    cases hf
    exact Nat.lt_succ_self _
  seen_lt j n hj := Nat.lt_succ_of_lt (h.seen_lt j n hj)
  pid_eq f pid hf hpid := by
    cases hf
    cases hpid
  owner_eq := h.owner_eq
  judged_eq j n pid hj f hf hn := by
    cases hf
    -- nobody has looked at the new inode
    have hlt : n < s.inodes := h.seen_lt j n (LockControl.seen_of_judged hj)
    exact absurd hn (Nat.ne_of_gt hlt)
  dead := h.dead

theorem Known.editLock (h : s.Known) {n : ℕ} {edit : LockEntry ι → LockEntry ι}
    (hinode : ∀ f, (edit f).inode = f.inode) (hcreator : ∀ f, (edit f).creator = f.creator)
    (hpid : ∀ f pid, s.file = some f → f.inode = n → (edit f).pid = some pid → pid = f.creator) :
    (s.editLock n edit).Known := by
  have hfile : ∀ g, (s.editLock n edit).file = some g → ∃ f, s.file = some f
      ∧ g.inode = f.inode ∧ g.creator = f.creator
      ∧ ∀ pid, g.pid = some pid → pid = f.creator := by
    intro g hg
    obtain ⟨f, hf, rfl⟩ := Option.map_eq_some_iff.mp hg
    split_ifs with hn
    · exact ⟨f, hf, hinode f, hcreator f, fun pid => hpid f pid hf hn⟩
    · exact ⟨f, hf, rfl, rfl, fun pid => h.pid_eq f pid hf⟩
  constructor
  · intro g hg
    obtain ⟨f, hf, hin, -, -⟩ := hfile g hg
    rw [hin]
    exact h.inode_lt f hf
  · exact h.seen_lt
  · intro g pid hg hgpid
    obtain ⟨f, -, -, hcr, hp⟩ := hfile g hg
    rw [hcr]
    exact hp pid hgpid
  · exact h.owner_eq
  · intro j m pid hj g hg hm
    obtain ⟨f, hf, hin, hcr, -⟩ := hfile g hg
    rw [hcr]
    exact h.judged_eq j m pid hj f hf (hin.symm.trans hm)
  · exact h.dead

theorem Known.writeLock (h : s.Known) (n : ℕ) : (s.writeLock n).Known :=
  h.editLock (fun _ => rfl) (fun _ => rfl) fun f pid hf _ hpid => h.pid_eq f pid hf hpid

theorem Known.writeLockPid (h : s.Known) {n : ℕ}
    (hown : ∀ f, s.file = some f → f.inode = n → f.creator = i) : (s.writeLockPid i n).Known := by
  refine h.editLock (fun _ => rfl) (fun _ => rfl) fun f pid hf hn hpid => ?_
  rw [hown f hf hn]
  exact (Option.some_inj.mp hpid).symm

theorem Known.removeLock (h : s.Known) (ok : Bool) : (s.removeLock ok).Known := by
  cases ok with
  | false => exact h
  | true =>
      exact ⟨nofun, h.seen_lt, nofun, h.owner_eq, nofun, h.dead⟩

theorem Known.removeOwner (h : s.Known) (ok : Bool) : (s.removeOwner ok).Known := by
  cases ok with
  | false => exact h
  | true => exact ⟨h.inode_lt, h.seen_lt, h.pid_eq, nofun, h.judged_eq, h.dead⟩

theorem Known.putOwner (h : s.Known) (i : ι) : (s.putOwner i).Known := by
  refine ⟨h.inode_lt, h.seen_lt, h.pid_eq, ?_, h.judged_eq, h.dead⟩
  intro o pid ho hpid
  cases ho
  cases hpid

variable [DecidableEq ι]

theorem control_goto (s : LockState ι) (i j : ι) (c : LockControl ι) :
    (s.goto i c).control j = if j = i then c else s.control j :=
  Function.update_apply s.control i c j

theorem Known.goto (h : s.Known) (hseen : ∀ n, c.seen = some n → n < s.inodes)
    (hjudged : ∀ n pid, c.judged = some (n, pid) → ∀ f, s.file = some f → f.inode = n →
      f.creator = pid)
    (hdead : ∀ n pid, c = .reaping n pid → s.alive pid = false) : (s.goto i c).Known where
  inode_lt := h.inode_lt
  pid_eq := h.pid_eq
  owner_eq := h.owner_eq
  seen_lt j n hj := by
    rw [control_goto] at hj
    split_ifs at hj
    · exact hseen n hj
    · exact h.seen_lt j n hj
  judged_eq j n pid hj := by
    rw [control_goto] at hj
    split_ifs at hj
    · exact hjudged n pid hj
    · exact h.judged_eq j n pid hj
  dead j n pid hj := by
    rw [control_goto] at hj
    split_ifs at hj
    · exact hdead n pid hj
    · exact h.dead j n pid hj

theorem Known.goto_unseen (h : s.Known) (hseen : c.seen = none) : (s.goto i c).Known := by
  refine h.goto (fun n hn => ?_) (fun n pid hc => ?_) fun n pid hc => ?_
  · rw [hseen] at hn
    cases hn
  · rw [LockControl.seen_of_judged hc] at hseen
    cases hseen
  · subst hc
    cases hseen

theorem Known.writeOwnerPid (h : s.Known) (i : ι) : (s.writeOwnerPid i).Known := by
  refine ⟨h.inode_lt, h.seen_lt, h.pid_eq, ?_, h.judged_eq, h.dead⟩
  intro o pid ho hpid
  obtain ⟨o', ho', rfl⟩ := Option.map_eq_some_iff.mp ho
  split_ifs at hpid ⊢ with hwriter
  · exact (Option.some_inj.mp hpid).symm.trans hwriter.symm
  · exact h.owner_eq o' pid ho' hpid

theorem Known.die (h : s.Known) (i : ι) :
    ({ s with alive := Function.update s.alive i false } : LockState ι).Known := by
  refine ⟨h.inode_lt, h.seen_lt, h.pid_eq, h.owner_eq, h.judged_eq, ?_⟩
  intro j n pid hj
  have hdead := h.dead j n pid hj
  by_cases hp : pid = i <;> simp [hp, hdead]

omit [DecidableEq ι] in
theorem file_of_stale {f : LockEntry ι} (h : s.stale = some f) : s.file = some f :=
  (Option.filter_eq_some_iff.mp h).1

omit [DecidableEq ι] in
theorem Known.pidFor (h : s.Known) {n m : ℕ} {pid : ι} (hcontrol : s.control i = .aged n)
    (hpid : s.pidFor kind n = some (m, pid)) (hquiet : s.Undisturbed kind (.act i .readPid)) :
    m < s.inodes ∧ ∀ f, s.file = some f → f.inode = m → f.creator = pid := by
  cases kind with
  | marker =>
      obtain ⟨g, hg, hread⟩ := Option.bind_eq_some_iff.mp hpid
      obtain ⟨p, hp, heq⟩ := Option.map_eq_some_iff.mp hread
      cases heq
      refine ⟨h.inode_lt g hg, fun f hf _ => ?_⟩
      obtain rfl : g = f := Option.some_inj.mp (hg.symm.trans hf)
      exact (h.pid_eq g pid hg hp).symm
  | file =>
      obtain ⟨o, ho, hread⟩ := Option.bind_eq_some_iff.mp hpid
      obtain ⟨p, hp, heq⟩ := Option.map_eq_some_iff.mp hread
      cases heq
      refine ⟨h.seen_lt i n (by rw [hcontrol]; rfl), fun f hf hn => ?_⟩
      rw [← hquiet rfl n f o hcontrol hf hn ho]
      exact (h.owner_eq o pid ho hp).symm

/-! ## The lock file as an exclusive file -/

/-- The lock file and its owners. -/
def view (s : LockState ι) : ExclusiveFile ι where
  file := s.file.map fun f => (f.inode, f.creator)
  owned i := (s.control i).owned
  alive := s.alive

theorem view_goto (s : LockState ι) (i : ι) (c : LockControl ι) :
    (s.goto i c).view = { s.view with owned := Function.update s.view.owned i c.owned } := by
  have howned : (fun j => ((s.goto i c).control j).owned)
      = Function.update (fun j => (s.control j).owned) i c.owned := by
    funext j
    rw [control_goto, Function.update_apply]
    split_ifs <;> rfl
  exact congrArg (fun owned => ExclusiveFile.mk _ owned _) howned

theorem view_goto_of_owned {u : LockState ι} (hu : u.view = s.view)
    (h : c.owned = (s.control i).owned) : (u.goto i c).view = s.view := by
  rw [view_goto, hu, h]
  exact congrArg (fun owned => ExclusiveFile.mk _ owned _)
    (Function.update_eq_self i fun j => (s.control j).owned)

omit [DecidableEq ι] in
theorem view_editLock (s : LockState ι) (n : ℕ) {edit : LockEntry ι → LockEntry ι}
    (hinode : ∀ f, (edit f).inode = f.inode) (hcreator : ∀ f, (edit f).creator = f.creator) :
    (s.editLock n edit).view = s.view := by
  have hfile : (s.editLock n edit).file.map (fun f => (f.inode, f.creator))
      = s.file.map fun f => (f.inode, f.creator) := by
    rw [editLock, Option.map_map]
    congr 1
    funext f
    by_cases hn : f.inode = n <;> simp [hn, hinode, hcreator]
  exact congrArg (fun file => ExclusiveFile.mk file _ _) hfile

omit [DecidableEq ι] in
theorem view_file_eq_none_iff : s.view.file = none ↔ s.file = none := Option.map_eq_none_iff

/-- **What the processes know stays right.** -/
theorem Known.act (h : s.Known) (hexclusive : s.view.Exclusive) (halive : s.alive i = true)
    {action : LockAction} (hact : Act kind s i action t)
    (hquiet : s.Undisturbed kind (.act i action)) : t.Known := by
  have hreap : (afterReap kind : LockControl ι).seen = none := by cases kind <;> rfl
  have hdrop : (afterDrop kind : LockControl ι).seen = none := by cases kind <;> rfl
  cases hact with
  | stale hc hstale =>
      refine h.goto (fun n hn => ?_) nofun nofun
      obtain rfl := Option.some_inj.mp hn
      exact h.inode_lt _ (file_of_stale hstale)
  | readPid hc hpid =>
      obtain ⟨hlt, hcreator⟩ := h.pidFor hc hpid hquiet
      refine h.goto (fun n hn => ?_) (fun n p hj => ?_) nofun
      · obtain rfl := Option.some_inj.mp hn
        exact hlt
      · cases hj
        exact hcreator
  | @isDead n pid hc hdead =>
      have hjudged : (s.control i).judged = some (n, pid) := by rw [hc]; rfl
      refine h.goto (fun m hm => ?_) (fun m p hj => ?_) fun m p hr => ?_
      · obtain rfl := Option.some_inj.mp hm
        exact h.seen_lt i n (LockControl.seen_of_judged hjudged)
      · cases hj
        exact h.judged_eq i n pid hjudged
      · cases hr
        exact hdead
  | createNew => exact (h.putLock i).goto_unseen rfl
  | reap hc ok => exact (h.removeLock ok).goto_unseen hreap
  | reapOwner hc ok => exact (h.removeOwner ok).goto_unseen rfl
  | @writePid n hkind hc =>
      have hfile := hexclusive i n halive (congrArg LockControl.owned hc)
      refine (h.writeLockPid fun f hf _ => ?_).goto_unseen rfl
      rw [view, hf] at hfile
      exact congrArg Prod.snd (Option.some_inj.mp hfile)
  | createOwner => exact (h.putOwner i).goto_unseen rfl
  | writeOwner => exact (h.writeOwnerPid i).goto_unseen rfl
  | syncOwnerFails => exact (h.writeOwnerPid i).goto_unseen rfl
  | undo hc ok => exact (h.removeLock ok).goto_unseen rfl
  | @writeAll n => exact (h.writeLock n).goto_unseen rfl
  | publish => exact (h.removeLock true).goto_unseen rfl
  | publishedOwner hc ok => exact (h.removeOwner ok).goto_unseen rfl
  | dropLock hc ok => exact (h.removeLock ok).goto_unseen hdrop
  | dropOwner hc ok => exact (h.removeOwner ok).goto_unseen rfl
  | _ => exact h.goto_unseen rfl

theorem step_stay {u : LockState ι} (hu : u.view = s.view) (h : c.owned = (s.control i).owned) :
    ExclusiveFile.Step s.view (some i) (u.goto i c).view := by
  rw [view_goto_of_owned hu h]
  exact .stay _

theorem step_removeLock (ok : Bool) (hc : c.owned = none)
    (h : ok = true → ExclusiveFile.Step s.view (some i)
      { s.view with file := none, owned := Function.update s.view.owned i none }) :
    ExclusiveFile.Step s.view (some i) ((s.removeLock ok).goto i c).view := by
  rw [view_goto, hc]
  cases ok with
  | false => exact .forget i
  | true => exact h rfl

/-- **Undisturbed processes treat the lock file as an exclusive one.** -/
theorem view_act (h : s.Known) (halive : s.alive i = true) {action : LockAction}
    (hact : Act kind s i action t) (hquiet : s.Undisturbed kind (.act i action)) :
    ExclusiveFile.Step s.view (some i) t.view := by
  have hreap : (afterReap kind : LockControl ι).owned = none := by cases kind <;> rfl
  have hdrop : (afterDrop kind : LockControl ι).owned = none := by cases kind <;> rfl
  have hremove : ∀ {n}, (s.control i).owned = some n → ExclusiveFile.Step s.view (some i)
      { s.view with file := none, owned := Function.update s.view.owned i none } :=
    fun hown => .remove halive hown
  have howner : ∀ ok, (s.removeOwner ok).view = s.view := fun ok => by cases ok <;> rfl
  cases hact with
  | createNew hc hfree =>
      rw [view_goto]
      exact .create (view_file_eq_none_iff.mpr hfree)
  | @reap n pid hc ok =>
      refine step_removeLock ok hreap fun htrue => .reap fun f hf => ?_
      subst htrue
      obtain ⟨g, hg, rfl⟩ := Option.map_eq_some_iff.mp hf
      have hinode : g.inode = n := by
        have hall := hquiet
        simp only [Undisturbed, hc] at hall
        exact hall g hg
      have hcreator : g.creator = pid :=
        h.judged_eq i n pid (congrArg LockControl.judged hc) g hg hinode
      exact (congrArg s.alive hcreator).trans (h.dead i n pid hc)
  | @undo n hc ok =>
      exact step_removeLock ok rfl fun _ => hremove (congrArg LockControl.owned hc)
  | @publish n hkind hc hfile =>
      exact step_removeLock true rfl fun _ => hremove (congrArg LockControl.owned hc)
  | @dropLock inode hc ok =>
      refine step_removeLock ok hdrop fun htrue => ?_
      subst htrue
      cases inode with
      | some n => exact hremove (congrArg LockControl.owned hc)
      | none =>
          have hfree : s.file = none := by simpa only [Undisturbed, hc] using hquiet
          refine .reap fun f hf => ?_
          rw [view_file_eq_none_iff.mpr hfree] at hf
          cases hf
  | reapOwner hc ok => exact step_stay (howner ok) (congrArg LockControl.owned hc).symm
  | publishedOwner hc ok => exact step_stay (howner ok) (congrArg LockControl.owned hc).symm
  | dropOwner hc ok => exact step_stay (howner ok) (congrArg LockControl.owned hc).symm
  | @writePid n hkind hc =>
      refine step_stay ?_ (congrArg LockControl.owned hc).symm
      exact view_editLock s n (fun _ => rfl) fun _ => rfl
  | @writeAll n hkind hc =>
      refine step_stay ?_ (congrArg LockControl.owned hc).symm
      exact view_editLock s n (fun _ => rfl) fun _ => rfl
  | fail hc =>
      refine step_stay rfl ?_
      obtain hc | hc | ⟨n, hc⟩ := hc <;> exact (congrArg LockControl.owned hc).symm
  | fresh hc hseen | stale hc hseen | noPid hc hseen | readPid hc hseen | isDead hc hseen =>
      exact step_stay rfl (congrArg LockControl.owned hc).symm
  | createOwner hkind hc | createOwnerFails hkind hc | writePidFails hkind hc =>
      exact step_stay rfl (congrArg LockControl.owned hc).symm
  | enter hc | alreadyExists hc | isAlive hc | writeOwner hc | writeOwnerFails hc
  | syncOwnerFails hc | syncDirectory hc | dropUnsynced hc | drop hc =>
      exact step_stay rfl (congrArg LockControl.owned hc).symm

/-! ## Runs -/

omit [DecidableEq ι] in
theorem oneHolder_of_exclusive (h : s.view.Exclusive) : s.OneHolder := by
  have howned : ∀ j, (s.control j).Holds → ∃ n, (s.control j).owned = some n := by
    intro j hj
    cases hc : s.control j with
    | holding n => exact ⟨n, rfl⟩
    | dropping inode =>
        rw [hc] at hj
        cases inode with
        | none => exact hj.elim
        | some n => exact ⟨n, rfl⟩
    | _ =>
        rw [hc] at hj
        exact hj.elim
  intro i j hi hj hholds hholds'
  obtain ⟨n, hn⟩ := howned i hholds
  obtain ⟨m, hm⟩ := howned j hholds'
  exact h.eq_of_owned hi hj hn hm

variable {e : LockEvent ι}

theorem step_view (h : s.Known) (hstep : Step kind s e t) (hquiet : s.Undisturbed kind e) :
    ExclusiveFile.Step s.view e.process t.view := by
  cases hstep with
  | clock now => exact .stay _
  | die i => exact .die i
  | act halive hact => exact view_act h halive hact hquiet

theorem Known.step (h : s.Known) (hexclusive : s.view.Exclusive) (hstep : Step kind s e t)
    (hquiet : s.Undisturbed kind e) : t.Known := by
  cases hstep with
  | clock now => exact ⟨h.inode_lt, h.seen_lt, h.pid_eq, h.owner_eq, h.judged_eq, h.dead⟩
  | die i => exact h.die i
  | act halive hact => exact h.act hexclusive halive hact hquiet

theorem removesOwn_of_view (hexclusive : s.view.Exclusive)
    (hview : ExclusiveFile.Step s.view e.process t.view) : s.RemovesOwn e t := by
  intro f hf hgone
  have hfile : s.view.file = some (f.inode, f.creator) := congrArg (Option.map _) hf
  refine hexclusive.removes_own hview hfile fun hkept => ?_
  obtain ⟨g, hg, heq⟩ := Option.map_eq_some_iff.mp hkept
  exact hgone g hg (congrArg Prod.fst heq)

/-- **Mutual exclusion.** In every run in which the processes are not disturbed between looking at a
lock file and removing it, at most one live process holds the lock, and no process removes a lock
file that another live one has created. -/
theorem lock_exclusive {now : ℕ} {events : List (LockEvent ι)}
    (h : Trace (fun s e t => Step kind s e t ∧ s.Undisturbed kind e) (init ι now) events s) :
    Trace (fun s e t => Step kind s e t ∧ t.OneHolder ∧ s.RemovesOwn e t)
      (init ι now) events s := by
  refine h.mono_of_keeps (P := fun s => s.Known ∧ s.view.Exclusive) ⟨known_init now, nofun⟩ ?_
  rintro s e t ⟨hknown, hexclusive⟩ ⟨hstep, hquiet⟩
  have hview := step_view hknown hstep hquiet
  have hnext := hexclusive.step hview
  exact ⟨⟨hknown.step hexclusive hstep hquiet, hnext⟩, hstep, oneHolder_of_exclusive hnext,
    removesOwn_of_view hexclusive hview⟩

/-- A process dies while it writes a file, and another one reaps its lock and publishes. -/
theorem lock_exclusive_reaped :
    ∃ events s, events.length = 17 ∧ s.control 1 = .published
      ∧ Trace (fun s e t => Step .file s e t ∧ t.OneHolder ∧ s.RemovesOwn e t) (init ℕ 0)
        events s := by
  have run : Trace (fun s e t => Step .file s e t ∧ s.Undisturbed .file e) (init ℕ 0) [] _ := .nil _
  have run := run.snoc ⟨.act rfl (.enter (i := 0) rfl), trivial⟩
  have run := run.snoc ⟨.act rfl (.createNew (i := 0) rfl rfl), trivial⟩
  have run := run.snoc ⟨.act rfl (.createOwner (i := 0) rfl rfl rfl), trivial⟩
  have run := run.snoc ⟨.act rfl (.writeOwner (i := 0) rfl), trivial⟩
  have run := run.snoc ⟨.die 0, trivial⟩
  have run := run.snoc ⟨.clock 30001, trivial⟩
  have run := run.snoc ⟨.act rfl (.enter (i := 1) rfl), trivial⟩
  have run := run.snoc ⟨.act rfl (.alreadyExists (i := 1) rfl), trivial⟩
  have run := run.snoc ⟨.act rfl (.stale (i := 1) rfl rfl), trivial⟩
  have run := run.snoc ⟨.act rfl (.readPid (i := 1) rfl rfl), by rintro - n f o - ⟨⟩ - ⟨⟩; rfl⟩
  have run := run.snoc ⟨.act rfl (.isDead (i := 1) rfl rfl), trivial⟩
  have run := run.snoc ⟨.act rfl (.reap (i := 1) rfl true), by rintro f ⟨⟩; rfl⟩
  have run := run.snoc ⟨.act rfl (.reapOwner (i := 1) rfl true), trivial⟩
  have run := run.snoc ⟨.act rfl (.createNew (i := 1) rfl rfl), trivial⟩
  have run := run.snoc ⟨.act rfl (.createOwner (i := 1) rfl rfl rfl), trivial⟩
  have run := run.snoc ⟨.act rfl (.writeOwner (i := 1) rfl), trivial⟩
  have run := run.snoc ⟨.act rfl (.publish (i := 1) rfl rfl nofun), trivial⟩
  exact ⟨_, _, rfl, rfl, lock_exclusive run⟩

/-- Two processes find the lock of a dead one. The second of them removes the file that the first
has created after the first removal, and both hold the lock. -/
theorem two_reapers_hold :
    ¬ ∀ (kind : LockKind) (events : List (LockEvent ℕ)) (s : LockState ℕ),
      Trace (Step kind) (init ℕ 0) events s →
      Trace (fun s e t => Step kind s e t ∧ t.OneHolder ∧ s.RemovesOwn e t)
        (init ℕ 0) events s := by
  intro h
  have run : Trace (Step .marker) (init ℕ 0) [] _ := .nil _
  have run := run.snoc (.act rfl (.enter (i := 0) rfl))
  have run := run.snoc (.act rfl (.createNew (i := 0) rfl rfl))
  have run := run.snoc (.act rfl (.writePid (i := 0) rfl rfl))
  have run := run.snoc (.die 0)
  have run := run.snoc (.clock 30001)
  have run := run.snoc (.act rfl (.enter (i := 1) rfl))
  have run := run.snoc (.act rfl (.alreadyExists (i := 1) rfl))
  have run := run.snoc (.act rfl (.stale (i := 1) rfl rfl))
  have run := run.snoc (.act rfl (.readPid (i := 1) rfl rfl))
  have run := run.snoc (.act rfl (.isDead (i := 1) rfl rfl))
  have run := run.snoc (.act rfl (.enter (i := 2) rfl))
  have run := run.snoc (.act rfl (.alreadyExists (i := 2) rfl))
  have run := run.snoc (.act rfl (.stale (i := 2) rfl rfl))
  have run := run.snoc (.act rfl (.readPid (i := 2) rfl rfl))
  have run := run.snoc (.act rfl (.isDead (i := 2) rfl rfl))
  have run := run.snoc (.act rfl (.reap (i := 1) rfl true))
  have run := run.snoc (.act rfl (.createNew (i := 1) rfl rfl))
  have run := run.snoc (.act rfl (.writePid (i := 1) rfl rfl))
  have run := run.snoc (.act rfl (.reap (i := 2) rfl true))
  have run := run.snoc (.act rfl (.createNew (i := 2) rfl rfl))
  have run := run.snoc (.act rfl (.writePid (i := 2) rfl rfl))
  have hone := ((h .marker _ _ run).mono fun s e t hst => ⟨hst.1, hst.2.1⟩).last
    (P := OneHolder) fun _ _ _ _ hholds => hholds.elim
  exact absurd (hone 1 2 rfl rfl trivial trivial) (by decide)

end LockState

end ArcVcs
