import ArcVcs.HeadMoves
import ArcVcs.Loading

/-!
# Atomicity of head moves

A command that moves heads saves them before it replays them. When the replay or the projection
then fails, the saved view, the operation log and the epoch map are those from before the
command only if the command logs at its end, and restores the view or has not changed it.
-/

namespace ArcVcs

open Repo

/-- The heads of a merge, and those before. -/
def Repo.MergeCommit.move : MergeCommit → HeadMove
  | .union view current target => ⟨view, current, current ∪ target⟩
  | .conflict plan => ⟨plan.view, plan.beforeHeads, {plan.change.id}⟩

inductive HeadCommand where
  | mergeHeads (target : Finset Blake3Hash)
  | cherryPick (hash : Blake3Hash)
  | revert (plugin : LanguagePlugin) (hash : Blake3Hash)
  | abandonHeads (resolved : List Blake3Hash)
  | undo
  | redo
  | opRestore (opId : ℕ)
  | opRevert (opId : ℕ)

/-- The saved heads, the operation log and the epoch map are the same. -/
structure SameMetadata (s s' : Repo) : Prop where
  views : s'.views = s.views
  oplog : s'.oplog = s.oplog
  epochs : s'.epochs = s.epochs

theorem SameMetadata.refl (s : Repo) : SameMetadata s s := ⟨rfl, rfl, rfl⟩

theorem SameMetadata.trans {s₁ s₂ s₃ : Repo} (h : SameMetadata s₁ s₂) (h' : SameMetadata s₂ s₃) :
    SameMetadata s₁ s₃ :=
  ⟨h'.views.trans h.views, h'.oplog.trans h.oplog, h'.epochs.trans h.epochs⟩

theorem ignoresCaches_sameMetadata (ref : Repo) : IgnoresCaches (SameMetadata ref) :=
  fun _ _ _ h => ⟨h.views, h.oplog, h.epochs⟩

namespace HeadCommand

/-- The command logs only after the projection. -/
def logsLast : HeadCommand → Bool
  | abandonHeads _ => true
  | redo => true
  | opRestore _ => true
  | opRevert _ => true
  | _ => false

/-- The command saves the old heads again when the projection fails. -/
def restores : HeadCommand → Bool
  | redo => true
  | opRestore _ => true
  | opRevert _ => true
  | _ => false

variable [Crypto] (fuel : ℕ) (wd : WorkDir)

def program : HeadCommand → RepoM Unit
  | mergeHeads target => Repo.mergeHeads fuel wd target
  | cherryPick hash => Repo.cherryPick fuel wd hash
  | revert plugin hash => do let _ ← Repo.revert fuel wd plugin hash
  | abandonHeads resolved => do let _ ← Repo.abandonHeads fuel wd resolved
  | undo => do let _ ← Repo.undo fuel wd
  | redo => do let _ ← Repo.redo fuel wd
  | opRestore opId => do let _ ← Repo.opRestore fuel wd opId
  | opRevert opId => do let _ ← Repo.opRevert fuel wd opId

/-- The command until it has saved the new heads, with what is left to do after the projection. -/
def commit : HeadCommand → RepoM (Option (HeadMove × RepoM Unit))
  | mergeHeads target => do
      let plan ← mergePlan fuel wd target
      let _ ← commitMerge plan
      pure (some (plan.move, pure ()))
  | cherryPick hash => do
      let move ← cherryPickCommit fuel hash
      pure (some (move, pure ()))
  | revert plugin hash => do
      let move ← revertCommit fuel wd plugin hash
      pure (some (move, pure ()))
  | abandonHeads resolved => do
      let result ← abandonCommit fuel resolved
      pure (result.map fun r => (r.1, logOperation "abandon" r.1.view r.1.before r.1.heads))
  | undo => do
      let result ← undoCommit fuel wd
      pure (result.map fun r => (r.1, .modify fun s => { s with redoStack := r.2 :: s.redoStack }))
  | redo => do
      let result ← redoCommit fuel wd
      pure (result.map fun r => (r.1, do
        appendOperation r.2
        .modify fun s => { s with redoStack := s.redoStack.tail }))
  | opRestore opId => do
      let target ← resolveOperationById opId
      let move ← operationCommit fuel wd target target.afterHeads
      pure (some (move, logOperation ("op restore " ++ toString opId) move.view move.before
        move.heads))
  | opRevert opId => do
      let target ← resolveOperationById opId
      let move ← operationCommit fuel wd target target.beforeHeads
      pure (some (move, logOperation ("op revert " ++ toString opId) move.view move.before
        move.heads))

/-- The replay of the new heads, with their hydration where it comes after the save. -/
def replay (command : HeadCommand) (move : HeadMove) : RepoM MaterializedState :=
  match command with
  | abandonHeads _ => replayMove fuel wd move
  | undo => replayMove fuel wd move
  | redo => replayMove fuel wd move
  | opRestore _ => materializeNonempty wd move.heads
  | opRevert _ => materializeNonempty wd move.heads
  | _ => materializeHeads wd move.heads

/-- The projection of the new state, with the rollback of the commands that have one. -/
def project (command : HeadCommand) (move : HeadMove) (state : MaterializedState) : RepoM Unit :=
  if command.restores then projectOrRestore wd move state else writeStateToWorkingDir wd state

theorem program_eq (command : HeadCommand) :
    command.program fuel wd = (do
      match ← command.commit fuel wd with
      | none => pure ()
      | some (move, rest) => do
          let state ← command.replay fuel wd move
          command.project wd move state
          rest) := by
  cases command with
  | mergeHeads target =>
      simp only [program, commit, Repo.mergeHeads, bind_assoc, pure_bind]
      refine congrArg _ (funext fun plan => ?_)
      cases plan <;> simp [commitMerge, MergeCommit.move, replay, project, restores]
  | cherryPick hash =>
      simp [program, commit, Repo.cherryPick, replay, project, restores]
  | revert plugin hash =>
      simp [program, commit, Repo.revert, replay, project, restores]
  | abandonHeads resolved =>
      simp only [program, commit, Repo.abandonHeads, bind_assoc, pure_bind]
      refine congrArg _ (funext fun result => ?_)
      rcases result with _ | ⟨move, abandoned⟩ <;> simp [replay, project, restores]
  | undo =>
      simp only [program, commit, Repo.undo, undoCommit, bind_assoc, pure_bind]
      refine congrArg _ (funext fun result => ?_)
      rcases result with _ | op
      · simp
      · by_cases hkind : op.kind = .rewrite <;>
          simp [hkind, replay, replayMove, project, restores, bind_pure_unit, -bind_pure_comp]
  | redo =>
      simp only [program, commit, Repo.redo, bind_assoc, pure_bind]
      refine congrArg _ (funext fun result => ?_)
      rcases result with _ | ⟨move, op⟩ <;> simp [replay, project, restores]
  | opRestore opId =>
      simp [program, commit, Repo.opRestore, applyOperationHeads, replay, project, restores]
  | opRevert opId =>
      simp [program, commit, Repo.opRevert, applyOperationHeads, replay, project, restores]

end HeadCommand

/-- What made a command fail after it had saved the new heads. -/
inductive LateCause where
  | replay
  | projection
deriving DecidableEq

variable [Crypto] (fuel : ℕ) (wd : WorkDir)

/-- The command fails because the replay of its new heads or the projection of their state does,
and leaves `s'`. -/
inductive FailsLate (command : HeadCommand) (s : Repo) : HeadMove → LateCause → Repo → Prop
  | replay {move : HeadMove} {rest : RepoM Unit} {s₁ s' : Repo} {e : RepoError}
      (hcommit : command.commit fuel wd s = some (.ok (some (move, rest)), s₁))
      (hreplay : command.replay fuel wd move s₁ = some (.error e, s')) :
      FailsLate command s move .replay s'
  | projection {move : HeadMove} {rest : RepoM Unit} {s₁ s₂ s' : Repo} {e : RepoError}
      {state : MaterializedState}
      (hcommit : command.commit fuel wd s = some (.ok (some (move, rest)), s₁))
      (hreplay : command.replay fuel wd move s₁ = some (.ok state, s₂))
      (hproject : command.project wd move state s₂ = some (.error e, s')) :
      FailsLate command s move .projection s'

/-- Every such failure leaves the saved heads, the log and the epoch map as they were. -/
def Atomic (command : HeadCommand) (s : Repo) : Prop :=
  ∀ move cause s', FailsLate fuel wd command s move cause s' → SameMetadata s s'

/-- The command has not logged yet, and it saved the old heads or saves them again. -/
def HeadCommand.Protected (command : HeadCommand) (move : HeadMove) (cause : LateCause) : Prop :=
  command.logsLast = true
    ∧ (move.heads = move.before ∨ command.restores = true ∧ cause = .projection)

variable {fuel wd} {command : HeadCommand} {s : Repo} {move : HeadMove} {cause : LateCause}
  {s' : Repo}

theorem FailsLate.program_eq (h : FailsLate fuel wd command s move cause s') :
    ∃ e, command.program fuel wd s = some (.error e, s') := by
  rw [HeadCommand.program_eq]
  cases h with
  | @replay rest s₁ _ e hcommit hreplay =>
      refine ⟨e, ?_⟩
      rw [Program.bind_run, hcommit]
      dsimp only
      rw [Program.bind_run, hreplay]
  | @projection rest s₁ s₂ _ e state hcommit hreplay hproject =>
      refine ⟨e, ?_⟩
      rw [Program.bind_run, hcommit]
      dsimp only
      rw [Program.bind_run, hreplay]
      dsimp only
      rw [Program.bind_run, hproject]

/-! ## What the stages do to the metadata -/

theorem replayMove_keeps (ref : Repo) (move : HeadMove) :
    (replayMove fuel wd move).Keeps (SameMetadata ref) :=
  .bind (hydrateHeads_keeps (ignoresCaches_sameMetadata ref) fuel move.heads) fun _ =>
    materializeNonempty_keeps wd move.heads

theorem HeadCommand.replay_keeps (ref : Repo) (command : HeadCommand) (move : HeadMove) :
    (command.replay fuel wd move).Keeps (SameMetadata ref) := by
  cases command with
  | abandonHeads resolved => exact replayMove_keeps ref move
  | undo => exact replayMove_keeps ref move
  | redo => exact replayMove_keeps ref move
  | opRestore opId => exact materializeNonempty_keeps wd move.heads
  | opRevert opId => exact materializeNonempty_keeps wd move.heads
  | _ => exact materializeHeads_keeps wd move.heads

omit [Crypto] in
theorem HeadCommand.project_error {state : MaterializedState} {e : RepoError}
    (h : command.project wd move state s = some (.error e, s')) :
    SameMetadata (if command.restores then
      { s with views := s.views.insert move.view move.before } else s) s' := by
  unfold project at h
  by_cases hwrite : wd.canWrite state = true
  · split_ifs at h <;> simp [projectOrRestore, Program.onError, writeStateToWorkingDir, hwrite] at h
  · split_ifs at h with hrestores
    · obtain ⟨-, rfl⟩ : _ ∧ { s with views := s.views.insert move.view move.before } = s' := by
        simpa [projectOrRestore, Program.onError, writeStateToWorkingDir, hwrite, Program.throw]
          using h
      rw [if_pos hrestores]
      exact .refl _
    · obtain ⟨-, rfl⟩ : _ ∧ s = s' := by
        simpa [writeStateToWorkingDir, hwrite, Program.throw] using h
      rw [if_neg hrestores]
      exact .refl _

/-- The saved heads are those of the move, and nothing else of the metadata has changed. -/
structure Saved (s : Repo) (move : HeadMove) (s₁ : Repo) : Prop where
  before : s.views.lookup move.view = some move.before
  views : s₁.views = s.views.insert move.view move.heads
  oplog : s₁.oplog = s.oplog
  epochs : s₁.epochs = s.epochs

omit [Crypto] in
theorem saved_of_saveView {s₁ : Repo} (h : SameMetadata s s₁) {view : String}
    {before heads : Finset Blake3Hash} (hview : s.views.lookup view = some before) :
    (saveView view heads).Ensures s₁ (fun _ => Saved s ⟨view, before, heads⟩) fun _ => True := by
  refine Program.ensures_modify.mpr ⟨hview, ?_, h.oplog, h.epochs⟩
  exact congrArg (Finmap.insert view heads) h.views

omit [Crypto] in
theorem abandonCommit_ensures (resolved : List Blake3Hash) :
    (abandonCommit fuel resolved).Ensures s (fun r s₁ => ∀ x, r = some x → Saved s x.1 s₁)
      fun _ => True := by
  have hI := ignoresCaches_sameMetadata s
  refine .bind (currentViewName_keeps.ensures (SameMetadata.refl s)) fun view s₁ h₁ => ?_
  refine .bind ((hydrate_keeps hI fuel view).ensures h₁) fun _ s₂ h₂ => ?_
  refine .bind (loadView_ensures trivial) ?_
  rintro heads s₃ ⟨rfl, hview⟩
  refine .get_bind (.bind (Program.ensures_ofExcept (Q := fun _ s' => s' = s₃)
    (fun _ _ => rfl) trivial) ?_)
  rintro ⟨newHeads, abandoned⟩ _ rfl
  dsimp only
  split_ifs
  · simp
  · refine .bind (saved_of_saveView h₂ (h₂.views ▸ hview)) fun _ s₄ h₄ => ?_
    simpa using h₄

theorem redoCommit_ensures :
    (redoCommit fuel wd).Ensures s (fun r s₁ => ∀ x, r = some x → Saved s x.1 s₁)
      fun _ => True := by
  have hI := ignoresCaches_sameMetadata s
  refine .get_bind ?_
  rcases s.redoStack with _ | ⟨op, ops⟩
  · simp
  dsimp only
  split_ifs
  · exact Program.ensures_throw.mpr trivial
  · refine .bind (loadView_ensures trivial) ?_
    rintro heads _ ⟨rfl, hview⟩
    split_ifs with hheads
    · exact Program.ensures_throw.mpr trivial
    · obtain rfl : heads = op.beforeHeads := not_not.mp hheads
      refine .bind ((hydrateHeads_keeps hI fuel _).ensures (SameMetadata.refl _)) fun _ s₁ h₁ => ?_
      refine .bind ((materializeNonempty_keeps wd _).ensures h₁) fun _ s₂ h₂ => ?_
      refine .bind (saved_of_saveView h₂ hview) fun _ s₃ h₃ => ?_
      simpa using h₃

theorem operationCommit_ensures (target : Operation) (nextHeads : Finset Blake3Hash) :
    (operationCommit fuel wd target nextHeads).Ensures s (Saved s) fun _ => True := by
  have hI := ignoresCaches_sameMetadata s
  refine .bind (currentViewName_keeps.ensures (SameMetadata.refl s)) fun view s₁ h₁ => ?_
  split_ifs
  · exact Program.ensures_throw.mpr trivial
  · refine .bind ((hydrate_keeps hI fuel view).ensures h₁) fun _ s₂ h₂ => ?_
    refine .bind (loadView_ensures trivial) ?_
    rintro heads _ ⟨rfl, hview⟩
    refine .bind ((hydrateHeads_keeps hI fuel _).ensures h₂) fun _ s₃ h₃ => ?_
    refine .bind ((materializeNonempty_keeps wd _).ensures h₃) fun _ s₄ h₄ => ?_
    refine .bind (saved_of_saveView h₄ (h₂.views ▸ hview)) fun _ s₅ h₅ => ?_
    exact Program.ensures_pure.mpr h₅

omit [Crypto] in
theorem resolveOperationById_ensures (opId : ℕ) :
    (resolveOperationById opId).Ensures s (fun _ s₁ => s₁ = s) fun _ => True := by
  refine .get_bind ?_
  cases s.oplog[opId]? with
  | none => exact Program.ensures_throw.mpr trivial
  | some op => exact Program.ensures_pure.mpr rfl

theorem HeadCommand.commit_of_logsLast (hlogs : command.logsLast = true) :
    (command.commit fuel wd).Ensures s (fun r s₁ => ∀ x, r = some x → Saved s x.1 s₁)
      fun _ => True := by
  cases command with
  | abandonHeads resolved =>
      refine .bind (abandonCommit_ensures resolved) fun r s₁ h => ?_
      cases r with
      | none => simp
      | some x => simpa using h
  | redo =>
      refine .bind redoCommit_ensures fun r s₁ h => ?_
      cases r with
      | none => simp
      | some x => simpa using h
  | opRestore opId =>
      refine .bind (resolveOperationById_ensures opId) ?_
      rintro target _ rfl
      refine .bind (operationCommit_ensures target _) fun move s₁ h => ?_
      simpa using h
  | opRevert opId =>
      refine .bind (resolveOperationById_ensures opId) ?_
      rintro target _ rfl
      refine .bind (operationCommit_ensures target _) fun move s₁ h => ?_
      simpa using h
  | _ => exact absurd hlogs Bool.false_ne_true

def HasLog (ops : List Operation) (s : Repo) : Prop := s.oplog = ops

omit [Crypto] in
theorem ignoresCaches_hasLog (ops : List Operation) : IgnoresCaches (HasLog ops) :=
  fun _ _ _ h => h

omit [Crypto] in
theorem checkExclusive_keeps {I : Repo → Prop} (g : ChangeGraph) (change : Change)
    (exclusive : List Blake3Hash) : (checkExclusive g change exclusive).Keeps I := by
  induction exclusive with
  | nil => exact .pure _
  | cons excId exclusive ih =>
      rw [checkExclusive]
      cases g.get excId with
      | none => exact .throw _
      | some excChange => exact .ite ih (.throw _)

theorem diffFiles_keeps {I : Repo → Prop} (hI : IgnoresCaches I) (plugin : LanguagePlugin)
    (srcOld srcNew : String → String) (files : List String) :
    (diffFiles plugin srcOld srcNew files).Keeps I := by
  induction files with
  | nil => exact .pure _
  | cons filepath files ih =>
      refine .ite ih (.bind (.ofExcept _) fun out => ?_)
      exact .bind (writeBlobs_keeps hI.ignoresBlobs _) fun _ => .bind ih fun _ => .pure _

theorem computeStateDelta_keeps {I : Repo → Prop} (hI : IgnoresCaches I) (plugin : LanguagePlugin)
    (stateAfter stateBefore : MaterializedState) :
    (computeStateDelta plugin stateAfter stateBefore).Keeps I :=
  .bind (diffFiles_keeps hI plugin _ _ _) fun _ =>
    .bind (diffFiles_keeps hI plugin _ _ _) fun _ => .pure _

omit [Crypto] in
theorem graphAddChange_keeps {I : Repo → Prop} (hI : IgnoresCaches I) (change : Change) :
    (graphAddChange change).Keeps I := .modify fun s hs => hI s _ s.blobs hs

theorem revertPlan_keeps {I : Repo → Prop} (hI : IgnoresCaches I) (plugin : LanguagePlugin)
    (hash : Blake3Hash) : (revertPlan fuel wd plugin hash).Keeps I := by
  refine .bind currentViewName_keeps fun view => ?_
  refine .bind (hydrate_keeps hI fuel view) fun _ => .bind .get fun s => ?_
  refine .bind (.ofExcept _) fun target => ?_
  refine .bind (graphAddChange_keeps hI target) fun _ => ?_
  refine .bind (hydrateHeads_keeps hI fuel target.deps) fun _ => ?_
  refine .bind (materializeNonempty_keeps wd target.deps) fun stateA => ?_
  refine .bind (materializeHeads_keeps wd {hash}) fun stateB => ?_
  refine .bind (computeStateDelta_keeps hI plugin stateB stateA) fun atoms => .ite (.throw _) ?_
  refine .bind (loadView_keeps view) fun heads => ?_
  exact .bind signingIdentity_keeps fun signer => .pure _

omit [Crypto] in
theorem popOperation_ensures :
    popOperation.Ensures s (fun r s₁ => (r = none ∧ s.oplog = [])
      ∨ ∃ op, r = some op ∧ s.oplog = op :: s₁.oplog) fun _ => True := by
  refine .get_bind ?_
  cases s.oplog with
  | nil => exact Program.ensures_pure.mpr (.inl ⟨rfl, rfl⟩)
  | cons op ops => exact .of_run rfl (.inr ⟨op, rfl, rfl⟩)

theorem HeadCommand.commit_of_not_logsLast (hlogs : command.logsLast = false) :
    (command.commit fuel wd).Ensures s
      (fun r s₁ => r.isSome = true → s₁.oplog.length ≠ s.oplog.length) fun _ => True := by
  have hI := ignoresCaches_hasLog s.oplog
  have hs : HasLog s.oplog s := rfl
  cases command with
  | mergeHeads target =>
      refine .bind ((mergePlan_keeps hI fuel wd target).ensures hs) fun plan s₁ h₁ => ?_
      cases plan with
      | union view current target => exact .of_run rfl fun _ => by simp [h₁.symm]
      | conflict plan => exact .of_run rfl fun _ => by simp [h₁.symm]
  | cherryPick hash =>
      refine .bind (Q := fun _ s₁ => s₁.oplog.length = s.oplog.length + 1) ?_
        fun move s₁ h₁ => by simp [h₁]
      refine .bind (currentViewName_keeps.ensures hs) fun view s₁ h₁ => ?_
      refine .bind ((hydrate_keeps hI fuel view).ensures h₁) fun _ s₂ h₂ => .get_bind ?_
      refine .bind ((Program.Keeps.ofExcept _).ensures h₂) fun change s₃ h₃ => ?_
      refine .bind ((loadView_keeps view).ensures h₃) fun heads s₄ h₄ => .get_bind ?_
      cases change.deps.sorted.find? (· ∉ s₄.graph.ancestors heads) with
      | some dep => exact Program.ensures_throw.mpr trivial
      | none =>
          refine .bind ((checkExclusive_keeps s₄.graph change _).ensures h₄) fun _ s₅ h₅ => ?_
          exact .of_run rfl (by simp [h₅.symm])
  | revert plugin hash =>
      refine .bind (Q := fun _ s₁ => s₁.oplog.length = s.oplog.length + 1) ?_
        fun move s₁ h₁ => by simp [h₁]
      refine .bind ((revertPlan_keeps hI plugin hash).ensures hs) fun plan s₁ h₁ => ?_
      exact .of_run rfl (by simp [h₁.symm])
  | undo =>
      refine .bind (Q := fun r s₁ => r.isSome = true → s₁.oplog.length ≠ s.oplog.length) ?_
        fun r s₁ h₁ => by simpa using h₁
      refine .bind popOperation_ensures fun popped s₁ h₁ => ?_
      cases popped with
      | none => simp
      | some op =>
          obtain hnone | ⟨_, hop, hlog⟩ := h₁
          · simp at hnone
          obtain rfl : op = _ := Option.some_inj.mp hop
          have hkeep := ignoresCaches_hasLog s₁.oplog
          have hrest (s₂ : Repo) (h₂ : HasLog s₁.oplog s₂) : Program.Ensures (do
              let currentHeads ← loadView op.view
              hydrateHeads fuel currentHeads
              let _ ← materializeNonempty wd currentHeads
              saveView op.view op.beforeHeads
              pure (some ((⟨op.view, currentHeads, op.beforeHeads⟩ : HeadMove), op)) :
                RepoM (Option (HeadMove × Operation))) s₂
              (fun r s₃ => r.isSome = true → s₃.oplog.length ≠ s.oplog.length) fun _ => True := by
            refine .bind ((loadView_keeps op.view).ensures h₂) fun current s₃ h₃ => ?_
            refine .bind ((hydrateHeads_keeps hkeep fuel current).ensures h₃) fun _ s₄ h₄ => ?_
            refine .bind ((materializeNonempty_keeps wd current).ensures h₄) fun _ s₅ h₅ => ?_
            refine .of_run rfl fun _ => ?_
            simp [hlog, h₅.symm]
          dsimp only
          split_ifs
          · exact .bind (Program.ensures_modify (Q := fun _ => HasLog s₁.oplog) |>.mpr rfl)
              fun _ s₂ h₂ => hrest s₂ h₂
          · exact hrest s₁ rfl
  | _ => exact absurd hlogs.symm Bool.false_ne_true

/-! ## Atomicity -/

theorem FailsLate.exists_commit (h : FailsLate fuel wd command s move cause s') :
    ∃ rest s₁, command.commit fuel wd s = some (.ok (some (move, rest)), s₁)
      ∧ SameMetadata (if command.restores = true ∧ cause = .projection then
          { s₁ with views := s₁.views.insert move.view move.before } else s₁) s' := by
  cases h with
  | @replay rest s₁ _ e hcommit hreplay =>
      refine ⟨rest, s₁, hcommit, ?_⟩
      simpa using (command.replay_keeps s₁ move s₁ (.refl s₁)).error hreplay
  | @projection rest s₁ s₂ _ e state hcommit hreplay hproject =>
      refine ⟨rest, s₁, hcommit, ?_⟩
      have hsame := (command.replay_keeps s₁ move s₁ (.refl s₁)).ok hreplay
      have herror := HeadCommand.project_error hproject
      by_cases hrestores : command.restores = true
      · rw [if_pos hrestores] at herror
        rw [if_pos ⟨hrestores, rfl⟩]
        have hrestored : SameMetadata { s₁ with views := s₁.views.insert move.view move.before }
            { s₂ with views := s₂.views.insert move.view move.before } :=
          ⟨congrArg (Finmap.insert move.view move.before) hsame.views, hsame.oplog, hsame.epochs⟩
        exact hrestored.trans herror
      · rw [if_neg hrestores] at herror
        rw [if_neg fun hc => hrestores hc.1]
        exact hsame.trans herror

omit [Crypto] in
theorem Saved.sameMetadata_iff {s₁ : Repo} (h : Saved s move s₁) :
    SameMetadata s s₁ ↔ move.heads = move.before := by
  constructor
  · intro hsame
    have hlookup := congrArg (Finmap.lookup move.view) (h.views.symm.trans hsame.views)
    rw [Finmap.lookup_insert, h.before] at hlookup
    exact Option.some_inj.mp hlookup
  · intro hheads
    refine ⟨h.views.trans (Finmap.ext_lookup fun view => ?_), h.oplog, h.epochs⟩
    by_cases hview : view = move.view
    · subst hview
      rw [Finmap.lookup_insert, h.before, hheads]
    · rw [Finmap.lookup_insert_of_ne _ hview]

omit [Crypto] in
theorem Saved.restored {s₁ : Repo} (h : Saved s move s₁) :
    SameMetadata s { s₁ with views := s₁.views.insert move.view move.before } := by
  refine ⟨Finmap.ext_lookup fun view => ?_, h.oplog, h.epochs⟩
  dsimp only
  by_cases hview : view = move.view
  · subst hview
    rw [Finmap.lookup_insert, h.before]
  · rw [Finmap.lookup_insert_of_ne _ hview, h.views, Finmap.lookup_insert_of_ne _ hview]

/-- **A late failure** leaves the metadata as it was iff the command is protected from it. -/
theorem sameMetadata_iff (h : FailsLate fuel wd command s move cause s') :
    SameMetadata s s' ↔ command.Protected move cause := by
  obtain ⟨rest, s₁, hcommit, hafter⟩ := h.exists_commit
  cases hlogs : command.logsLast with
  | false =>
      have hlength := (command.commit_of_not_logsLast hlogs).ok hcommit rfl
      have hoplog : s'.oplog = s₁.oplog := by
        split_ifs at hafter <;> exact hafter.oplog
      refine iff_of_false (fun hsame => hlength ?_) fun hprotected => ?_
      · rw [← hoplog, hsame.oplog]
      · exact Bool.false_ne_true (hlogs.symm.trans hprotected.1)
  | true =>
      have hsaved : Saved s move s₁ := (command.commit_of_logsLast hlogs).ok hcommit _ rfl
      unfold HeadCommand.Protected
      by_cases hrestored : command.restores = true ∧ cause = .projection
      · rw [if_pos hrestored] at hafter
        exact iff_of_true (hsaved.restored.trans hafter) ⟨hlogs, .inr hrestored⟩
      · rw [if_neg hrestored] at hafter
        simp only [hlogs, hrestored, or_false, true_and]
        rw [← hsaved.sameMetadata_iff]
        refine ⟨fun hsame => ⟨?_, ?_, ?_⟩, fun hsame => hsame.trans hafter⟩
        · rw [← hafter.views, hsame.views]
        · rw [← hafter.oplog, hsame.oplog]
        · rw [← hafter.epochs, hsame.epochs]

/-- **Atomicity of head moves.** A command is atomic at a repository iff it is protected from every
late failure there. -/
theorem atomic_iff (fuel : ℕ) (wd : WorkDir) (command : HeadCommand) (s : Repo) :
    Atomic fuel wd command s
      ↔ ∀ move cause s', FailsLate fuel wd command s move cause s' →
          command.Protected move cause :=
  forall₃_congr fun _ _ _ => forall_congr' sameMetadata_iff

omit [Crypto] in
/-- Picking a change that cannot be replayed leaves it as the head of the view. -/
theorem cherryPick_not_atomic :
    ¬ ∀ (fuel : ℕ) (wd : WorkDir) (command : HeadCommand) (s : Repo),
      @Atomic Crypto.sample fuel wd command s := by
  intro h
  let change := Change.bare 1 ∅ [.delete ["file", "a.rs", "fn_x"] 5]
  let s : Repo := { Repo.init with store := Finmap.singleton 1 change }
  let wd : WorkDir := ⟨fun _ _ => false, fun _ => .ok ([], []), fun _ => true, fun _ => none,
    fun _ => true⟩
  have hfails : @FailsLate Crypto.sample 5 wd (.cherryPick 1) s ⟨"main", ∅, {1}⟩ .replay _ :=
    @FailsLate.replay Crypto.sample 5 wd _ s _ _ _ _ _ rfl rfl
  have hviews := (h 5 wd (.cherryPick 1) s _ _ _ hfails).oplog
  revert hviews
  decide

end ArcVcs
