import ArcVcs.FileLock

/-!
# Lock files under contention

A `LockFile` is two files. `commit` and dropping the guard give up the lock file first and remove
the owner file later, and `acquire_for_update` creates both with `create_new`. A process that comes
to its owner file while another one is between these two steps finds the old one, and its
`AlreadyExists` is returned.
-/

namespace ArcVcs

/-- What `acquire_for_update` returns. -/
inductive AcquireResult where
  | ok
  | timedOut
  | error
deriving DecidableEq

namespace LockControl

variable {ι : Type}

/-- The process has created the owner file and has not come to its removal. -/
def ownsOwner : LockControl ι → Bool
  | ownerCreated _ | holding _ | dropping _ | published | droppingOwner => true
  | _ => false

/-- The lock is given up and the owner file is not removed yet. -/
def Between : LockControl ι → Prop
  | published | droppingOwner => True
  | _ => False

/-- A place that is left only by way of `Ok`, of a timeout or of the end of a guard. -/
def regular : LockControl ι → Bool
  | reaping _ _ | reapingOwner | ownerFailed _ | dropping none => false
  | _ => true

theorem Between.ownsOwner {c : LockControl ι} (h : c.Between) : c.ownsOwner = true := by
  cases c with
  | published | droppingOwner => rfl
  | _ => exact h.elim

theorem between_or_owned {c : LockControl ι} (h : c.ownsOwner = true)
    (hregular : c.regular = true) : c.Between ∨ ∃ n, c.owned = some n := by
  cases c with
  | published | droppingOwner => exact .inl trivial
  | ownerCreated n | holding n => exact .inr ⟨n, rfl⟩
  | dropping inode =>
      cases inode with
      | none => cases hregular
      | some n => exact .inr ⟨n, rfl⟩
  | _ => cases h

end LockControl

namespace LockState

variable {ι : Type} {s t : LockState ι} {i j : ι} {c : LockControl ι} {e : LockEvent ι}

/-- What an act of `acquire_for_update` returns, when it is the last one. An error of `metadata` or
of reading the pid is passed on from where the lock file is looked at. -/
def returned (s : LockState ι) (t : LockState ι) : LockEvent ι → Option AcquireResult
  | .act i _ =>
      match s.control i, t.control i with
      | .created _, .holding _ | .ownerCreated _, .holding _ => some .ok
      | .attempting, .idle => some .timedOut
      | .blocked, .idle | .aged _, .idle | .ownerFailed _, .idle => some .error
      | _, _ => none
  | _ => none

/-- Live processes whose file operations fail only for what is in their way: nobody dies, looking
at a lock file succeeds, the owner file is created when there is none, its pid is written, the
directory is synced after a publication, and an owner file that is to be removed is removed. -/
def Faultless (s t : LockState ι) : LockEvent ι → Prop
  | .die _ => False
  | .act i .fail => s.control i = .attempting
  | .act i .createOwner => s.owner = none → ∃ n, t.control i = .ownerCreated n
  | .act _ (.writePid ok) => ok = true
  | .act i .drop => s.control i ≠ .unsynced
  | .act _ (.removeOwner ok) => ok = true
  | _ => True

/-- No process is between giving up the lock and removing its owner file when another one, which
has created the lock file, comes to create its own owner file. -/
def NoneBetween (s : LockState ι) : LockEvent ι → Prop
  | .act _ .createOwner => ∀ j, ¬ (s.control j).Between
  | _ => True

/-- An acquisition that returns is successful or timed out, and none is about to return an
error. -/
def AcquiresCleanly (s : LockState ι) (e : LockEvent ι) (t : LockState ι) : Prop :=
  (∀ r, s.returned t e = some r → r = .ok ∨ r = .timedOut)
    ∧ ∀ i n, t.control i ≠ .ownerFailed n

/-! ## Who owns the two files -/

/-- All processes live and contend regularly, and each file is that of the process that owns it. -/
structure Orderly (s : LockState ι) : Prop where
  alive : ∀ i, s.alive i = true
  regular : ∀ i, (s.control i).regular = true
  creator_eq : ∀ i n, (s.control i).owned = some n → s.file.map LockEntry.creator = some i
  writer_eq : ∀ i, (s.control i).ownsOwner = true → s.owner.map OwnerEntry.writer = some i
  writer_owns : ∀ i, s.owner.map OwnerEntry.writer = some i → (s.control i).ownsOwner = true

theorem orderly_init (now : ℕ) : (init ι now).Orderly where
  alive _ := rfl
  regular _ := rfl
  creator_eq i n h := by cases h
  writer_eq i h := by cases h
  writer_owns i h := by cases h

theorem Orderly.owned_eq_none (h : s.Orderly) (hi : s.file.map LockEntry.creator ≠ some i) :
    (s.control i).owned = none := by
  by_contra hne
  obtain ⟨n, hn⟩ := Option.ne_none_iff_exists'.mp hne
  exact hi (h.creator_eq i n hn)

theorem Orderly.eq_of_owned (h : s.Orderly) {n m : ℕ} (hi : (s.control i).owned = some n)
    (hj : (s.control j).owned = some m) : i = j :=
  Option.some_inj.mp ((h.creator_eq i n hi).symm.trans (h.creator_eq j m hj))

theorem Orderly.eq_of_ownsOwner (h : s.Orderly) (hi : (s.control i).ownsOwner = true)
    (hj : (s.control j).ownsOwner = true) : i = j :=
  Option.some_inj.mp ((h.writer_eq i hi).symm.trans (h.writer_eq j hj))

variable [DecidableEq ι]

theorem Orderly.update (h : s.Orderly) (halive : t.alive = s.alive)
    (hcontrol : t.control = Function.update s.control i c) (hregular : c.regular = true)
    (hfile : ∀ j n, j ≠ i → (s.control j).owned = some n →
      t.file.map LockEntry.creator = some j)
    (howned : ∀ n, c.owned = some n → t.file.map LockEntry.creator = some i)
    (howner : ∀ j, j ≠ i → (t.owner.map OwnerEntry.writer = some j
      ↔ s.owner.map OwnerEntry.writer = some j))
    (howns : t.owner.map OwnerEntry.writer = some i ↔ c.ownsOwner = true) : t.Orderly where
  alive j := by rw [halive, h.alive]
  regular j := by
    rw [hcontrol, Function.update_apply]
    split_ifs with hji
    · exact hregular
    · exact h.regular j
  creator_eq j n hj := by
    rw [hcontrol, Function.update_apply] at hj
    split_ifs at hj with hji
    · rw [hji]
      exact howned n hj
    · exact hfile j n hji hj
  writer_eq j hj := by
    rw [hcontrol, Function.update_apply] at hj
    split_ifs at hj with hji
    · rw [hji]
      exact howns.mpr hj
    · exact (howner j hji).mpr (h.writer_eq j hj)
  writer_owns j hj := by
    rw [hcontrol, Function.update_apply]
    split_ifs with hji
    · rw [hji] at hj
      exact howns.mp hj
    · exact h.writer_owns j ((howner j hji).mp hj)

theorem Orderly.stay (h : s.Orderly) (halive : t.alive = s.alive)
    (hcontrol : t.control = Function.update s.control i c) (hregular : c.regular = true)
    (hfile : t.file.map LockEntry.creator = s.file.map LockEntry.creator)
    (howner : t.owner.map OwnerEntry.writer = s.owner.map OwnerEntry.writer)
    (howned : c.owned = (s.control i).owned) (howns : c.ownsOwner = (s.control i).ownsOwner) :
    t.Orderly := by
  refine h.update halive hcontrol hregular (fun j n _ hj => ?_) (fun n hn => ?_) (fun j _ => ?_) ?_
  · rw [hfile]
    exact h.creator_eq j n hj
  · rw [hfile]
    exact h.creator_eq i n (howned ▸ hn)
  · rw [howner]
  · rw [howner, howns]
    exact ⟨h.writer_owns i, h.writer_eq i⟩

theorem Orderly.goto (h : s.Orderly) (hregular : c.regular = true)
    (howned : c.owned = (s.control i).owned) (howns : c.ownsOwner = (s.control i).ownsOwner) :
    (s.goto i c).Orderly :=
  h.stay rfl rfl hregular rfl rfl howned howns

theorem Orderly.leaveLock (h : s.Orderly) {n : ℕ} (hi : (s.control i).owned = some n)
    (halive : t.alive = s.alive) (hcontrol : t.control = Function.update s.control i c)
    (hregular : c.regular = true) (howned : c.owned = none)
    (howner : t.owner.map OwnerEntry.writer = s.owner.map OwnerEntry.writer)
    (howns : c.ownsOwner = (s.control i).ownsOwner) : t.Orderly := by
  refine h.update halive hcontrol hregular (fun j m hji hj => ?_) (fun n hn => ?_)
    (fun j _ => ?_) ?_
  · exact absurd (h.eq_of_owned hj hi) hji
  · rw [howned] at hn
    cases hn
  · rw [howner]
  · rw [howner, howns]
    exact ⟨h.writer_owns i, h.writer_eq i⟩

theorem Orderly.removeOwner (h : s.Orderly) (hi : (s.control i).ownsOwner = true)
    (hregular : c.regular = true) (howned : c.owned = (s.control i).owned)
    (howns : c.ownsOwner = false) : ((s.removeOwner true).goto i c).Orderly := by
  refine h.update rfl rfl hregular (fun j n _ hj => h.creator_eq j n hj) (fun n hn => ?_)
    (fun j hji => ?_) ?_
  · exact h.creator_eq i n (howned ▸ hn)
  · refine iff_of_false nofun fun hj => hji ?_
    exact h.eq_of_ownsOwner (h.writer_owns j hj) hi
  · rw [howns]
    exact iff_of_false nofun nofun

theorem Orderly.createNew (h : s.Orderly) (hi : s.control i = .attempting) (hfree : s.file = none) :
    ((s.putLock i).goto i (.created s.inodes)).Orderly := by
  refine h.update rfl rfl rfl (fun j n _ hj => ?_) (fun n _ => rfl) (fun j _ => Iff.rfl) ?_
  · have hnone := h.owned_eq_none (i := j) (by rw [hfree]; nofun)
    rw [hnone] at hj
    cases hj
  · refine iff_of_false (fun hwriter => ?_) nofun
    have howns := h.writer_owns i hwriter
    rw [hi] at howns
    cases howns

theorem Orderly.createOwner (h : s.Orderly) {n : ℕ} (hi : s.control i = .created n)
    (hfree : s.owner = none) : ((s.putOwner i).goto i (.ownerCreated n)).Orderly := by
  refine h.update rfl rfl rfl (fun j m _ hj => h.creator_eq j m hj) (fun m _ => ?_)
    (fun j hji => ?_) (iff_of_true rfl rfl)
  · exact h.creator_eq i n (by rw [hi]; rfl)
  · rw [hfree]
    exact iff_of_false (fun hj => hji (Option.some_inj.mp hj).symm) nofun

omit [DecidableEq ι] in
theorem map_creator_editLock (s : LockState ι) (n : ℕ) {edit : LockEntry ι → LockEntry ι}
    (hedit : ∀ f, (edit f).creator = f.creator) :
    (s.editLock n edit).file.map LockEntry.creator = s.file.map LockEntry.creator := by
  rw [editLock, Option.map_map]
  refine congrArg (Option.map · s.file) (funext fun f => ?_)
  rw [Function.comp_apply]
  split_ifs
  · exact hedit f
  · rfl

theorem map_writer_writeOwnerPid (s : LockState ι) (i : ι) :
    (s.writeOwnerPid i).owner.map OwnerEntry.writer = s.owner.map OwnerEntry.writer := by
  rw [writeOwnerPid, Option.map_map]
  refine congrArg (Option.map · s.owner) (funext fun o => ?_)
  rw [Function.comp_apply]
  split_ifs <;> rfl

omit [DecidableEq ι] in
/-- An owner file that is in the way of the creator of the lock file is that of a process between
its two steps. -/
theorem Orderly.between_of_owner (h : s.Orderly) {n : ℕ} (hi : s.control i = .created n)
    (howner : s.owner ≠ none) : ∃ j, (s.control j).Between := by
  obtain ⟨o, ho⟩ := Option.ne_none_iff_exists'.mp howner
  have howns := h.writer_owns o.writer (by rw [ho]; rfl)
  obtain hbetween | ⟨m, hm⟩ := LockControl.between_or_owned howns (h.regular _)
  · exact ⟨_, hbetween⟩
  · -- it would have created the lock file as well
    have heq := h.eq_of_owned hm (j := i) (m := n) (by rw [hi]; rfl)
    rw [heq, hi] at howns
    cases howns

/-- **A step under contention.** It keeps the files with their owners unless an owner file is in
the way. -/
theorem Orderly.act (h : s.Orderly) {action : LockAction} (hact : Act .file s i action t)
    (hfaultless : s.Faultless t (.act i action)) (hnone : s.NoneBetween (.act i action)) :
    t.Orderly := by
  cases hact with
  | enter hc | alreadyExists hc | isAlive hc | fresh hc _ | stale hc _ | noPid hc _ | readPid hc _
  | syncDirectory hc | drop hc =>
      refine h.goto rfl ?_ ?_ <;> rw [hc] <;> rfl
  | fail =>
      have hc : s.control i = .attempting := hfaultless
      refine h.goto rfl ?_ ?_ <;> rw [hc] <;> rfl
  | createNew hc hfree => exact h.createNew hc hfree
  | createOwner _ hc hfree => exact h.createOwner hc hfree
  | createOwnerFails _ hc =>
      -- nothing is in the way, so it would not have failed
      by_cases howner : s.owner = none
      · obtain ⟨m, hm⟩ := hfaultless howner
        rw [control_goto, if_pos rfl] at hm
        cases hm
      · obtain ⟨j, hj⟩ := h.between_of_owner hc howner
        exact absurd hj (hnone j)
  | @isDead n pid hc hdead =>
      rw [h.alive pid] at hdead
      cases hdead
  | reap hc | reapOwner hc | undo hc =>
      have hregular := h.regular i
      rw [hc] at hregular
      cases hregular
  | writePid hkind | writePidFails hkind => cases hkind
  | @writeOwner n hc =>
      exact h.stay rfl rfl rfl rfl (map_writer_writeOwnerPid s i)
        (congrArg LockControl.owned hc).symm (congrArg LockControl.ownsOwner hc).symm
  | writeOwnerFails hc | syncOwnerFails hc => cases hfaultless
  | @writeAll n _ hc =>
      exact h.stay rfl rfl rfl (map_creator_editLock s n fun _ => rfl) rfl
        (congrArg LockControl.owned hc).symm (congrArg LockControl.ownsOwner hc).symm
  | @publish n _ hc _ =>
      exact h.leaveLock (congrArg LockControl.owned hc) rfl rfl rfl rfl rfl
        (congrArg LockControl.ownsOwner hc).symm
  | publishedOwner hc ok | dropOwner hc ok =>
      obtain rfl : ok = true := hfaultless
      exact h.removeOwner (congrArg LockControl.ownsOwner hc) rfl
        (congrArg LockControl.owned hc).symm rfl
  | dropUnsynced hc => exact absurd hc hfaultless
  | @dropLock inode hc ok =>
      cases inode with
      | none =>
          have hregular := h.regular i
          rw [hc] at hregular
          cases hregular
      | some n =>
          have hcontrol : ((s.removeLock ok).goto i (afterDrop .file)).control
              = Function.update s.control i .droppingOwner := by cases ok <;> rfl
          refine h.leaveLock (congrArg LockControl.owned hc) ?_ hcontrol rfl rfl ?_
            (congrArg LockControl.ownsOwner hc).symm <;> cases ok <;> rfl

/-! ## Runs -/

/-- Steps of live processes whose file operations do not fail by themselves. -/
def ContentionStep (s : LockState ι) (e : LockEvent ι) (t : LockState ι) : Prop :=
  Step .file s e t ∧ s.Faultless t e

theorem Orderly.step (h : s.Orderly) (hstep : ContentionStep s e t) (hnone : s.NoneBetween e) :
    t.Orderly := by
  obtain ⟨hstep, hfaultless⟩ := hstep
  cases hstep with
  | clock now => exact ⟨h.alive, h.regular, h.creator_eq, h.writer_eq, h.writer_owns⟩
  | die i => exact hfaultless.elim
  | act _ hact => exact h.act hact hfaultless hnone

/-- Only a place that is not regular, or an error while looking at the lock file, leads to an
error. -/
theorem Orderly.returned_ok (h : s.Orderly) (hstep : ContentionStep s e t) {r : AcquireResult}
    (hr : s.returned t e = some r) : r = .ok ∨ r = .timedOut := by
  obtain ⟨hstep, hfaultless⟩ := hstep
  cases hstep with
  | clock now => cases hr
  | die i => cases hr
  | @act i action _ _ hact =>
      have hregular := h.regular i
      cases hact with
      | fail =>
          have hc : s.control i = .attempting := hfaultless
          simp only [returned, hc, control_goto, if_true, Option.some.injEq] at hr
          exact .inr hr.symm
      | writePid hkind | writePidFails hkind => cases hkind
      | writeOwner hc =>
          simp only [returned, hc, control_goto, if_true, Option.some.injEq] at hr
          exact .inl hr.symm
      | reap hc | reapOwner hc | undo hc =>
          rw [hc] at hregular
          cases hregular
      | @dropLock inode hc ok =>
          simp only [returned, hc, control_goto, if_true, afterDrop] at hr
          cases hr
      | enter hc | alreadyExists hc | isAlive hc | fresh hc _ | stale hc _ | noPid hc _
      | readPid hc _ | isDead hc _ | syncDirectory hc | drop hc | dropUnsynced hc
      | createNew hc _ | createOwner _ hc _ | createOwnerFails _ hc | writeOwnerFails hc
      | syncOwnerFails hc | writeAll _ hc | publish _ hc _ | publishedOwner hc | dropOwner hc =>
          simp only [returned, hc, control_goto, if_true] at hr
          cases hr

theorem Orderly.cleanly_iff (h : s.Orderly) (hstep : ContentionStep s e t) :
    s.AcquiresCleanly e t ↔ s.NoneBetween e := by
  constructor
  · rintro ⟨-, hclean⟩
    obtain ⟨hstep, hfaultless⟩ := hstep
    cases hstep with
    | clock now => trivial
    | die i => trivial
    | @act i action _ _ hact =>
        cases hact with
        | createOwner _ hc hfree =>
            intro j hj
            have hwriter := h.writer_eq j hj.ownsOwner
            rw [hfree] at hwriter
            cases hwriter
        | @createOwnerFails n _ hc =>
            exact absurd (by rw [control_goto, if_pos rfl]) (hclean i n)
        | _ => trivial
  · intro hnone
    refine ⟨fun r => h.returned_ok hstep, fun i n hi => ?_⟩
    have hregular := (h.step hstep hnone).regular i
    rw [hi] at hregular
    cases hregular

/-- **Lock files under contention.** In a run of live processes whose file operations fail only for
what is in their way, every acquisition succeeds or times out exactly when no process comes to its
owner file while another one has given up the lock and not removed its own. -/
theorem acquires_cleanly_iff {now : ℕ} {events : List (LockEvent ι)} :
    Trace (fun s e t => ContentionStep s e t ∧ s.AcquiresCleanly e t) (init ι now) events s
      ↔ Trace (fun s e t => ContentionStep s e t ∧ s.NoneBetween e) (init ι now) events s := by
  constructor
  · intro h
    refine h.mono_of_keeps (orderly_init now) ?_
    rintro s e t hs ⟨hstep, hclean⟩
    have hnone := (hs.cleanly_iff hstep).mp hclean
    exact ⟨hs.step hstep hnone, hstep, hnone⟩
  · intro h
    refine h.mono_of_keeps (orderly_init now) ?_
    rintro s e t hs ⟨hstep, hnone⟩
    exact ⟨hs.step hstep hnone, hstep, (hs.cleanly_iff hstep).mpr hnone⟩

/-- A process has published, and another one creates the lock file before the first removes its
owner file. The other one returns an error. -/
theorem acquire_fails_between :
    ¬ ∀ (events : List (LockEvent ℕ)) (s : LockState ℕ) (e : LockEvent ℕ) (t : LockState ℕ),
      Trace ContentionStep (init ℕ 0) events s → ContentionStep s e t →
      ∀ r, s.returned t e = some r → r = .ok ∨ r = .timedOut := by
  intro h
  have run : Trace (ContentionStep (ι := ℕ)) (init ℕ 0) [] _ := .nil _
  have run := run.snoc ⟨.act rfl (.enter (i := 0) rfl), trivial⟩
  have run := run.snoc ⟨.act rfl (.createNew (i := 0) rfl rfl), trivial⟩
  have run := run.snoc ⟨.act rfl (.createOwner (i := 0) rfl rfl rfl), fun _ => ⟨_, rfl⟩⟩
  have run := run.snoc ⟨.act rfl (.writeOwner (i := 0) rfl), rfl⟩
  have run := run.snoc ⟨.act rfl (.publish (i := 0) rfl rfl nofun), trivial⟩
  have run := run.snoc ⟨.act rfl (.enter (i := 1) rfl), trivial⟩
  have run := run.snoc ⟨.act rfl (.createNew (i := 1) rfl rfl), trivial⟩
  have run := run.snoc ⟨.act rfl (.createOwnerFails (i := 1) rfl rfl), nofun⟩
  have hclean := h _ _ _ _ run ⟨.act rfl (.undo (i := 1) rfl true), trivial⟩ .error rfl
  exact absurd hclean (by decide)

end LockState

end ArcVcs
