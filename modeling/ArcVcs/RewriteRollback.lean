import ArcVcs.OpLogAlone
import ArcVcs.Readable
import ArcVcs.RestackRecovery

/-!
# Rolling a rewrite back

The commands that rewrite history change the epoch map, the operation log and the view one after
the other, each in files of its own. A failure after that takes the three changes back. When
the view is published and only the sync of its directory fails, the command takes it for unsaved
and leaves the new head.
-/

namespace ArcVcs

open OpLog (ChangeId MutationId)

/-! ## The files -/

/-- The epoch map with the files that `load_epoch_map_raw` falls back to. -/
structure EpochFiles where
  canonical : Option (FMap Blake3Hash Blake3Hash)
  stagedBackup : Option (FMap Blake3Hash Blake3Hash)
  backup : Option (FMap Blake3Hash Blake3Hash)
  legacy : Option (FMap Blake3Hash Blake3Hash)

namespace EpochFiles

/-- `load_epoch_map_raw`. -/
def load (files : EpochFiles) : FMap Blake3Hash Blake3Hash :=
  (files.canonical <|> files.stagedBackup <|> files.backup <|> files.legacy).getD ∅

/-- `persist_epoch_map_raw`, which keeps the map that it replaces as the backup. -/
def persist (map : FMap Blake3Hash Blake3Hash) (files : EpochFiles) : EpochFiles where
  canonical := some map
  stagedBackup := none
  backup := files.canonical <|> files.backup
  legacy := none

def persistRewriteMap (rewriteMap : FMap Blake3Hash Blake3Hash) (files : EpochFiles) :
    EpochFiles :=
  files.persist (rewriteMap ∪ files.load)

end EpochFiles

/-- The repository with the epoch map and the operation log as they lie in their files. The fields
of `repo` for these two are not used here. -/
structure RewriteFiles where
  repo : Repo
  epochs : EpochFiles
  log : OpLog.Disk Unit

inductive RewriteError where
  | repo (e : RepoError)
  | oplog (e : OpLog.OpLogError)

/-- How `View::save` can fail: before the lock file is renamed to the view, or in the sync of the
directory after that. -/
inductive SaveFault where
  | unpublished (e : RepoError)
  | unsynced (e : RepoError)

/-- What an operation gets from the clock and from the hashes of the moment. -/
structure OperationStamp where
  id : String
  timestamp : ℕ
  txId : MutationId

abbrev RewriteM (ε α : Type) := Program RewriteFiles ε α

namespace RewriteFiles

def withViews (views : FMap String (Finset Blake3Hash)) (f : RewriteFiles) : RewriteFiles :=
  { f with repo := { f.repo with views } }

def onRepo {α : Type} (p : RepoM α) : RewriteM RepoError α := fun f =>
  (p f.repo).map fun out => (out.1, { f with repo := out.2 })

/-- Undo something when a part fails, and fail the same way. -/
def handling {α : Type} (p : RewriteM RepoError α)
    (undo : RepoError → RewriteFiles → Option RewriteFiles) : RewriteM RewriteError α := fun f =>
  match p f with
  | none => none
  | some (.ok a, f') => some (.ok a, f')
  | some (.error e, f') => (undo e f').map fun f'' => (.error (.repo e), f'')

def lift {α : Type} (p : RepoM α) : RewriteM RewriteError α := handling (onRepo p) fun _ => some

/-- `View::save`. -/
def saveView (fault : Option SaveFault) (name : String) (heads : Finset Blake3Hash) :
    RewriteM RepoError Unit := do
  match fault with
  | none => onRepo (Repo.saveView name heads)
  | some (.unpublished e) => .throw e
  | some (.unsynced e) => do
      onRepo (Repo.saveView name heads)
      .throw e

def operation (stamp : OperationStamp) (plan : RewritePlan) : OpLog.Operation where
  timestamp := stamp.timestamp
  command := plan.command
  kind := .rewrite
  view := plan.view
  agent := .human
  beforeHeads := plan.beforeHeads
  afterHeads := {plan.newHead}
  txId := some stamp.txId
  rewriteMap := plan.rewriteMap
  id := stamp.id
  parents := ∅
  snapshot := none

variable [OpLog.OpLogHash]

def stageRewriteMetadata (stamp : OperationStamp) (plan : RewritePlan) :
    RewriteM RewriteError (FMap Blake3Hash Blake3Hash) := fun f =>
  let previousEpoch := f.epochs.load
  let epochs := f.epochs.persistRewriteMap plan.rewriteMap
  match (OpLog.append () (operation stamp plan) 2).run f.log with
  | none => none
  | some (.ok _, log) => some (.ok previousEpoch, { f with epochs, log })
  | some (.error e, log) =>
      some (.error (.oplog e), { f with epochs := epochs.persist previousEpoch, log })

/-- `rollback_rewrite_metadata`. Whatever becomes of the log, the epoch map is written. -/
def rollbackRewriteMetadata (previousEpoch : FMap Blake3Hash Blake3Hash) (f : RewriteFiles) :
    Option RewriteFiles :=
  ((OpLog.pop () 2).run f.log).map fun out =>
    { f with epochs := f.epochs.persist previousEpoch, log := out.2 }

end RewriteFiles

/-! ## The calls -/

inductive RewriteCall where
  | squashInto (targetId : Blake3Hash)
  | reorder (desired : List Blake3Hash)
  | restack (desired : List Blake3Hash)
  | restackContinue
  | diffeditApply (message : Option String)

/-- The plan of a rewrite, with the checkpoint of a restack. -/
structure PreparedRewrite where
  plan : RewritePlan
  pending : Option PendingRewrite

namespace PreparedRewrite

/-- The checkpoint once the metadata is staged. -/
def stage (p : PreparedRewrite) (s : Repo) : Repo :=
  match p.pending with
  | none => s
  | some pending => Repo.savePendingRestack (pending.withRewriteMap p.plan.rewriteMap) s

/-- The checkpoint after a failure. -/
def pause (p : PreparedRewrite) (e : RepoError) (s : Repo) : Repo :=
  match p.pending with
  | none => s
  | some pending =>
      Repo.savePendingRestack ((pending.withRewriteMap p.plan.rewriteMap).withConflict e) s

@[simp] theorem stage_views (p : PreparedRewrite) (s : Repo) : (p.stage s).views = s.views := by
  unfold stage
  cases p.pending <;> rfl

@[simp] theorem pause_views (p : PreparedRewrite) (e : RepoError) (s : Repo) :
    (p.pause e s).views = s.views := by
  unfold pause
  cases p.pending <;> rfl

end PreparedRewrite

variable [Crypto]

namespace RewriteCall

open Repo

/-- The call until the metadata is staged. -/
def prepare (wd : WorkDir) : RewriteCall → RepoM PreparedRewrite
  | squashInto targetId => do
      let plan ← squashPlan targetId
      pure ⟨plan, none⟩
  | reorder desired => do
      let plan ← reorderPlan desired
      pure ⟨plan, none⟩
  | restack desired => do
      let pending ← newPendingRestack desired
      let (plan, pending) ← restackPlan pending
      pure ⟨plan, some pending⟩
  | restackContinue => do
      let pending ← loadPendingRestack
      validatePendingRestack pending
      let (plan, pending) ← restackPlan pending
      pure ⟨plan, some pending⟩
  | diffeditApply message => do
      let (targetId, newChange) ← diffeditChange wd message
      writeRewritten [newChange]
      let viewName ← currentViewName
      let heads ← loadView viewName
      pure ⟨⟨"diffedit", viewName, heads, [], Finmap.singleton targetId newChange.id,
        newChange.id⟩, none⟩

/-- What is left to do after a success. -/
def finish : RewriteCall → RepoM Unit
  | restack _ => clearPendingRestack
  | restackContinue => clearPendingRestack
  | diffeditApply _ => .modify fun s => { s with diffeditTarget := none }
  | _ => pure ()

def program (wd : WorkDir) : RewriteCall → RepoM Blake3Hash
  | squashInto targetId => Repo.squashInto wd targetId
  | reorder desired => Repo.reorder wd desired
  | restack desired => Repo.restack wd desired
  | restackContinue => Repo.restackContinue wd
  | diffeditApply message => Repo.diffeditApply wd message

theorem program_eq (wd : WorkDir) (call : RewriteCall) :
    call.program wd = (do
      let p ← call.prepare wd
      let newHead ← commitRewrite wd p.plan p.stage p.pause
      call.finish
      pure newHead) := by
  cases call with
  | squashInto targetId =>
      simp [program, prepare, Repo.squashInto, finish]
      rfl
  | reorder desired =>
      simp [program, prepare, Repo.reorder, finish]
      rfl
  | restack desired =>
      simp [program, prepare, Repo.restack, executePendingRestack, finish]
      rfl
  | restackContinue =>
      simp [program, prepare, Repo.restackContinue, executePendingRestack, finish]
      rfl
  | diffeditApply message =>
      simp [program, prepare, Repo.diffeditApply, finish]
      rfl

end RewriteCall

namespace RewriteFiles

variable [OpLog.OpLogHash]

def rollBack (p : PreparedRewrite) (previousEpoch : FMap Blake3Hash Blake3Hash) (e : RepoError)
    (f : RewriteFiles) : Option RewriteFiles :=
  (rollbackRewriteMetadata previousEpoch f).map fun f' => { f' with repo := p.pause e f'.repo }

/-- Save the view and check it out. A failure of the save leaves the view alone, a later one
saves the old heads again. -/
def publishRewrite (fault : Option SaveFault) (wd : WorkDir) (p : PreparedRewrite)
    (previousEpoch : FMap Blake3Hash Blake3Hash) : RewriteM RewriteError Unit := do
  handling (saveView fault p.plan.view {p.plan.newHead}) (rollBack p previousEpoch)
  handling (onRepo (Repo.checkoutView wd p.plan.view)) fun e f =>
    rollBack p previousEpoch e
      (f.withViews (f.repo.views.insert p.plan.view p.plan.beforeHeads))

/-- Write the new changes, stage the metadata and publish the new head. -/
def commitRewrite (fault : Option SaveFault) (stamp : OperationStamp) (wd : WorkDir)
    (p : PreparedRewrite) : RewriteM RewriteError Blake3Hash := do
  lift (Repo.writeRewritten p.plan.rewritten)
  let previousEpoch ← stageRewriteMetadata stamp p.plan
  lift (.modify p.stage)
  publishRewrite fault wd p previousEpoch
  pure p.plan.newHead

def runCall (fault : Option SaveFault) (stamp : OperationStamp) (wd : WorkDir)
    (call : RewriteCall) : RewriteM RewriteError Blake3Hash := do
  let p ← lift (call.prepare wd)
  let newHead ← commitRewrite fault stamp wd p
  lift call.finish
  pure newHead

/-! ## What a failure leaves -/

/-- The views, the listed operations and the epoch map are those from before. -/
structure MetadataRestored (f f' : RewriteFiles) : Prop where
  views : f'.repo.views = f.repo.views
  log : OpLog.listing () f'.log = OpLog.listing () f.log
  epochs : f'.epochs.load = f.epochs.load

variable {wd : WorkDir} {call : RewriteCall} {f f' : RewriteFiles} {stamp : OperationStamp}
  {fault : Option SaveFault} {p : PreparedRewrite} {r : Repo} {e : RewriteError}

omit [OpLog.OpLogHash] in
theorem restackPlan_prepared (pending : PendingRewrite) (s : Repo) :
    (Repo.restackPlan pending).Ensures s (fun out s' => s'.views = s.views
      ∧ s.views.lookup out.1.view = some out.1.beforeHeads) fun _ => True := by
  refine ⟨fun ⟨plan, attempted⟩ s' h => ?_, fun _ _ _ => trivial⟩
  obtain ⟨-, rfl, hview, -, -, -, -, rfl⟩ := Repo.restackPlan_eq_ok h
  exact ⟨rfl, hview⟩

omit [OpLog.OpLogHash] in
theorem prepare_ensures (wd : WorkDir) (call : RewriteCall) (s : Repo) :
    (call.prepare wd).Ensures s (fun p s' => s'.views = s.views
      ∧ s.views.lookup p.plan.view = some p.plan.beforeHeads) fun _ => True := by
  cases call with
  | squashInto targetId =>
      refine .bind ((Repo.squashPlan_ensures targetId s).mono (fun _ _ h => h) fun _ _ => trivial)
        fun plan s₁ h => Program.ensures_pure.mpr ⟨h.1.views, h.2.heads⟩
  | reorder desired =>
      refine .bind ((Repo.reorderPlan_ensures desired s).mono (fun _ _ h => h) fun _ _ => trivial)
        fun plan s₁ h => Program.ensures_pure.mpr ⟨h.1.views, h.2.heads⟩
  | restack desired =>
      refine .bind ⟨fun pending s₁ h => ?_, fun _ _ _ => trivial⟩ fun pending s₁
          (h : s₁.views = s.views) => .bind (restackPlan_prepared pending s₁)
            fun out s₂ h' => Program.ensures_pure.mpr ?_
      · obtain ⟨-, -, -, -, rfl⟩ := Repo.newPendingRestack_eq_ok h
        rfl
      · rw [h] at h'
        exact h'
  | restackContinue =>
      have hload : Repo.loadPendingRestack.Keeps fun t => t.views = s.views :=
        Repo.loadPendingRestack_keeps
      refine .bind (hload.ensures rfl) fun pending s₁ h => ?_
      have hvalid : (Repo.validatePendingRestack pending).Keeps fun t => t.views = s.views :=
        .ite (.pure _) (.throw _)
      refine .bind (hvalid.ensures h) fun _ s₂ h => ?_
      refine .bind (restackPlan_prepared pending s₂) fun out s₃ h' => Program.ensures_pure.mpr ?_
      rw [h] at h'
      exact h'
  | diffeditApply message =>
      have hchange : (Repo.diffeditChange wd message).Keeps fun t => t.views = s.views :=
        Repo.diffeditChange_keeps (fun _ _ _ h => h) wd message
      refine .bind (hchange.ensures rfl) fun out s₁ h => ?_
      refine .bind_of_run (Repo.writeRewritten_run _ _) ?_
      rw [Repo.applyWrites_storeChange]
      have hview : (Repo.currentViewName).Keeps fun t => t.views = s.views :=
        Repo.currentViewName_keeps
      refine .bind (hview.ensures h) fun view s₂ h => ?_
      refine .bind (Repo.loadView_ensures trivial) ?_
      rintro heads _ ⟨rfl, hview⟩
      exact Program.ensures_pure.mpr ⟨h, h ▸ hview⟩

omit [Crypto] [OpLog.OpLogHash] in
theorem lift_of_ok {α : Type} {q : RepoM α} {a : α} {s : Repo}
    (h : q f.repo = some (.ok a, s)) : lift q f = some (.ok a, { f with repo := s }) := by
  rw [lift, handling, onRepo, h]
  rfl

omit [Crypto] in
theorem stageRewriteMetadata_run {ops : List OpLog.Operation} {plan : RewritePlan}
    (hlock : f.log.lock = none) (hfresh : OpLog.FreshNext () f.log (operation stamp plan))
    (hread : OpLog.listing () f.log = some (.ok ops)) :
    ∃ t u popped, stageRewriteMetadata stamp plan f = some (.ok f.epochs.load,
        { f with epochs := f.epochs.persistRewriteMap plan.rewriteMap, log := t })
      ∧ (OpLog.pop () 2).run t = some (popped, u) ∧ OpLog.listing () u = some (.ok ops) := by
  obtain ⟨t, u, popped, happend, hpop, hlisting⟩ :=
    OpLog.append_pop_listing hlock hfresh hread
  exact ⟨t, u, _, by rw [stageRewriteMetadata, happend], hpop, hlisting⟩

def viewsAfter (fault : Option SaveFault) (plan : RewritePlan)
    (views : FMap String (Finset Blake3Hash)) : FMap String (Finset Blake3Hash) :=
  match fault with
  | none => (views.insert plan.view {plan.newHead}).insert plan.view plan.beforeHeads
  | some (.unpublished _) => views
  | some (.unsynced _) => views.insert plan.view {plan.newHead}

omit [Crypto] [OpLog.OpLogHash] in
theorem insert_of_lookup {views : FMap String (Finset Blake3Hash)} {view : String}
    {heads : Finset Blake3Hash} (h : views.lookup view = some heads) :
    views.insert view heads = views := by
  rw [← FMap.set_some, ← h, FMap.set_lookup_self]

omit [Crypto] [OpLog.OpLogHash] in
theorem viewsAfter_eq_iff {plan : RewritePlan} {views : FMap String (Finset Blake3Hash)}
    (hview : views.lookup plan.view = some plan.beforeHeads) :
    viewsAfter fault plan views = views
      ↔ (∀ e, fault ≠ some (.unsynced e)) ∨ views.lookup plan.view = some {plan.newHead} := by
  match fault with
  | none =>
      refine iff_of_true ?_ (.inl fun _ h => by cases h)
      rw [viewsAfter, Finmap.insert_insert]
      exact insert_of_lookup hview
  | some (.unpublished _) => exact iff_of_true rfl (.inl fun _ h => by cases h)
  | some (.unsynced reason) =>
      constructor
      · intro h
        rw [← h]
        exact .inr (Finmap.lookup_insert _)
      · rintro (h | h)
        · exact absurd rfl (h reason)
        · exact insert_of_lookup h

omit [Crypto] in
theorem rollBack_eq_some {previousEpoch : FMap Blake3Hash Blake3Hash} {reason : RepoError}
    {popped : Except OpLog.OpLogError (Option OpLog.Operation)} {u : OpLog.Disk Unit}
    (h : rollBack p previousEpoch reason f = some f')
    (hpop : (OpLog.pop () 2).run f.log = some (popped, u)) :
    f'.log = u ∧ f'.epochs.load = previousEpoch ∧ f'.repo.views = f.repo.views := by
  rw [rollBack, rollbackRewriteMetadata, hpop] at h
  cases h
  exact ⟨rfl, rfl, p.pause_views _ _⟩

omit [Crypto] [OpLog.OpLogHash] in
theorem handling_eq_error {α : Type} {q : RewriteM RepoError α}
    {undo : RepoError → RewriteFiles → Option RewriteFiles}
    (h : handling q undo f = some (.error e, f')) :
    ∃ reason f₁, q f = some (.error reason, f₁) ∧ undo reason f₁ = some f' := by
  unfold handling at h
  rcases hq : q f with _ | ⟨reason | a, f₁⟩
  · simp [hq] at h
  · rw [hq] at h
    obtain ⟨f₂, hundo, hout⟩ := Option.map_eq_some_iff.mp h
    cases hout
    exact ⟨reason, f₁, rfl, hundo⟩
  · simp [hq] at h

omit [Crypto] [OpLog.OpLogHash] in
theorem handling_eq_ok {α : Type} {q : RewriteM RepoError α} {a : α}
    {undo : RepoError → RewriteFiles → Option RewriteFiles}
    (h : handling q undo f = some (.ok a, f')) : q f = some (.ok a, f') := by
  unfold handling at h
  rcases hq : q f with _ | ⟨reason | b, f₁⟩
  · simp [hq] at h
  · rw [hq] at h
    obtain ⟨f₂, -, hout⟩ := Option.map_eq_some_iff.mp h
    cases hout
  · rw [hq] at h
    cases h
    rfl

omit [OpLog.OpLogHash] in
theorem checkoutView_error {reason : RepoError} {view : String}
    (h : onRepo (Repo.checkoutView wd view) f = some (.error reason, f')) : f' = f := by
  obtain ⟨⟨out, s⟩, hrun, hout⟩ := Option.map_eq_some_iff.mp h
  cases hout
  have hkeeps : (Repo.checkoutView wd view).Keeps fun s => s = f.repo :=
    Repo.checkoutView_keeps wd view
  rw [(hkeeps f.repo rfl).error hrun]

theorem publishRewrite_error {previousEpoch : FMap Blake3Hash Blake3Hash}
    {popped : Except OpLog.OpLogError (Option OpLog.Operation)} {u : OpLog.Disk Unit}
    (hpop : (OpLog.pop () 2).run f.log = some (popped, u))
    (hrun : publishRewrite fault wd p previousEpoch f = some (.error e, f')) :
    f'.log = u ∧ f'.epochs.load = previousEpoch
      ∧ f'.repo.views = viewsAfter fault p.plan f.repo.views := by
  rcases Program.bind_eq_error_iff.mp hrun with hsave | ⟨_, f₁, hsave, hcheckout⟩
  · obtain ⟨reason, f₁, hsave, hundo⟩ := handling_eq_error hsave
    match fault, hsave with
    | some (.unpublished _), hsave =>
        cases hsave
        exact rollBack_eq_some hundo hpop
    | some (.unsynced _), hsave =>
        cases hsave
        exact rollBack_eq_some hundo hpop
    | none, hsave => cases hsave
  · obtain ⟨reason, f₂, hcheckout, hundo⟩ := handling_eq_error hcheckout
    obtain rfl := checkoutView_error hcheckout
    have hsave := handling_eq_ok hsave
    match fault, hsave with
    | none, hsave =>
        cases hsave
        exact rollBack_eq_some hundo hpop
    | some (.unpublished _), hsave => cases hsave
    | some (.unsynced _), hsave => cases hsave

theorem exists_publishRewrite {ops : List OpLog.Operation} (hlock : f.log.lock = none)
    (hfresh : OpLog.FreshNext () f.log (operation stamp p.plan))
    (hread : OpLog.listing () f.log = some (.ok ops)) :
    ∃ f₁ popped u, commitRewrite fault stamp wd p f
        = (do
          publishRewrite fault wd p f.epochs.load
          pure p.plan.newHead : RewriteM RewriteError Blake3Hash) f₁
      ∧ f₁.repo.views = f.repo.views ∧ (OpLog.pop () 2).run f₁.log = some (popped, u)
      ∧ OpLog.listing () u = some (.ok ops) := by
  let f₁ : RewriteFiles := { f with repo := { f.repo with
    store := p.plan.rewritten.foldl (fun store c => store.putOnce c.id c) f.repo.store
    graph := f.repo.graph.addAll p.plan.rewritten } }
  have hwrite : lift (Repo.writeRewritten p.plan.rewritten) f = some (.ok (), f₁) := by
    refine lift_of_ok ?_
    rw [Repo.writeRewritten_run, Repo.applyWrites_storeChange]
  obtain ⟨t, u, popped, hstage, hpop, hlisting⟩ :=
    @stageRewriteMetadata_run _ f₁ stamp ops p.plan hlock hfresh hread
  refine ⟨⟨p.stage f₁.repo, f.epochs.persistRewriteMap p.plan.rewriteMap, t⟩, popped, u, ?_,
    p.stage_views _, hpop, hlisting⟩
  rw [commitRewrite, Program.bind_run, hwrite]
  dsimp only
  rw [Program.bind_run, hstage]
  dsimp only
  rw [Program.bind_run, lift_of_ok (s := p.stage f₁.repo) rfl]

omit [Crypto] [OpLog.OpLogHash] in
theorem saveView_of_fault (fault : SaveFault) (name : String) (heads : Finset Blake3Hash)
    (f : RewriteFiles) : ∃ reason f₁,
      saveView (some fault) name heads f = some (.error reason, f₁) ∧ f₁.log = f.log := by
  cases fault with
  | unpublished reason => exact ⟨reason, f, rfl, rfl⟩
  | unsynced reason => exact ⟨reason, _, rfl, rfl⟩

theorem publishRewrite_of_fault {previousEpoch : FMap Blake3Hash Blake3Hash} {fault : SaveFault}
    {popped : Except OpLog.OpLogError (Option OpLog.Operation)} {u : OpLog.Disk Unit}
    (hpop : (OpLog.pop () 2).run f.log = some (popped, u)) :
    ∃ e f', publishRewrite (some fault) wd p previousEpoch f = some (.error e, f') := by
  obtain ⟨reason, f₁, hsave, hlog⟩ :=
    saveView_of_fault fault p.plan.view {p.plan.newHead} f
  rw [← hlog] at hpop
  refine ⟨.repo reason, ⟨p.pause reason f₁.repo, f₁.epochs.persist previousEpoch, u⟩,
    Program.bind_eq_error_iff.mpr (.inl ?_)⟩
  rw [handling, hsave]
  dsimp only
  rw [rollBack, rollbackRewriteMetadata, hpop]
  rfl

omit [Crypto] [OpLog.OpLogHash] in
theorem finish_run (call : RewriteCall) (s : Repo) :
    ∃ s', call.finish s = some (.ok (), s') := by
  cases call <;> exact ⟨_, rfl⟩

/-- A call that fails after the rewrite was computed takes the log and the epoch map back, and
the views are those that the failure leaves. -/
theorem runCall_error {ops : List OpLog.Operation}
    (hprepare : call.prepare wd f.repo = some (.ok p, r)) (hlock : f.log.lock = none)
    (hfresh : OpLog.FreshNext () f.log (operation stamp p.plan))
    (hread : OpLog.listing () f.log = some (.ok ops))
    (hrun : runCall fault stamp wd call f = some (.error e, f')) :
    OpLog.listing () f'.log = some (.ok ops) ∧ f'.epochs.load = f.epochs.load
      ∧ f'.repo.views = viewsAfter fault p.plan f.repo.views := by
  obtain ⟨hviews, -⟩ := (prepare_ensures wd call f.repo).ok hprepare
  rw [runCall, Program.bind_run, lift_of_ok hprepare] at hrun
  rcases Program.bind_eq_error_iff.mp hrun with hcommit | ⟨newHead, f₁, -, hrest⟩
  · obtain ⟨f₁, popped, u, heq, hviews₁, hpop, hlisting⟩ := @exists_publishRewrite _ _ wd
      { f with repo := r } stamp fault p ops hlock hfresh hread
    rw [heq] at hcommit
    rcases Program.bind_eq_error_iff.mp hcommit with hcommit | ⟨_, _, _, hpure⟩
    · obtain ⟨rfl, hepochs, hafter⟩ := publishRewrite_error hpop hcommit
      exact ⟨hlisting, hepochs, by rw [hafter, hviews₁, hviews]⟩
    · cases hpure
  · obtain ⟨s', hfinish⟩ := finish_run call f₁.repo
    rw [Program.bind_run, lift_of_ok hfinish] at hrest
    cases hrest

theorem runCall_of_fault {ops : List OpLog.Operation} {fault : SaveFault}
    (hprepare : call.prepare wd f.repo = some (.ok p, r)) (hlock : f.log.lock = none)
    (hfresh : OpLog.FreshNext () f.log (operation stamp p.plan))
    (hread : OpLog.listing () f.log = some (.ok ops)) :
    ∃ e f', runCall (some fault) stamp wd call f = some (.error e, f') := by
  obtain ⟨f₁, popped, u, heq, -, hpop, -⟩ := @exists_publishRewrite _ _ wd
    { f with repo := r } stamp (some fault) p ops hlock hfresh hread
  obtain ⟨e, f', hpublish⟩ := publishRewrite_of_fault hpop
  refine ⟨e, f', ?_⟩
  rw [runCall, Program.bind_run, lift_of_ok hprepare]
  refine Program.bind_eq_error_iff.mpr (.inl ?_)
  rw [heq]
  exact Program.bind_eq_error_iff.mpr (.inl hpublish)

/-- **A rewrite that fails after it was computed leaves the views, the log and the epoch map as
they were** exactly when the save of the view did not fail in the sync after its publication, or
the rewrite leads back to the head of the view. -/
theorem runCall_restored_iff {ops : List OpLog.Operation}
    (hprepare : call.prepare wd f.repo = some (.ok p, r)) (hlock : f.log.lock = none)
    (hfresh : OpLog.FreshNext () f.log (operation stamp p.plan))
    (hread : OpLog.listing () f.log = some (.ok ops))
    (hrun : runCall fault stamp wd call f = some (.error e, f')) :
    MetadataRestored f f' ↔ (∀ e, fault ≠ some (.unsynced e))
      ∨ f.repo.views.lookup p.plan.view = some {p.plan.newHead} := by
  obtain ⟨-, hview⟩ := (prepare_ensures wd call f.repo).ok hprepare
  obtain ⟨hlisting, hepochs, hviews⟩ := runCall_error hprepare hlock hfresh hread hrun
  rw [← viewsAfter_eq_iff hview]
  exact ⟨fun h => hviews.symm.trans h.views, fun h =>
    ⟨hviews.trans h, hlisting.trans hread.symm, hepochs⟩⟩

/-! ## A squash -/

/-- A repository whose metadata has not been written yet. -/
def ofRepo (s : Repo) : RewriteFiles := ⟨s, ⟨none, none, none, none⟩, .fresh none⟩

omit [Crypto] in
theorem listing_ofRepo (s : Repo) : OpLog.listing () (ofRepo s).log = some (.ok []) := by
  rw [OpLog.listing_eq (.inr rfl)]
  exact OpLog.operationsFrom_of_empty rfl

omit [Crypto] in
theorem freshNext_ofRepo (s : Repo) (op : OpLog.Operation) :
    OpLog.FreshNext () (ofRepo s).log op := by
  intro t ht
  rw [OpLog.migrate_run (.inr rfl)] at ht
  cases ht
  intro node hnode
  cases hnode

omit [OpLog.OpLogHash] in
theorem prepare_squashInto {s : Repo} {head targetId : Blake3Hash} {signer : Author × SigningKey}
    {out : SquashOutcome} (hview : s.views.lookup s.head = some {head})
    (hsigner : s.identity = some signer)
    (hout : Mutator.squashInto s.graph {head} targetId signer = .ok out) :
    (RewriteCall.squashInto targetId).prepare wd s = some (.ok ⟨⟨"squash", s.head, {head},
      [out.squashed], out.rewriteMap, out.squashed.id⟩, none⟩, s) := by
  have hload : Repo.loadView s.head s = some (.ok {head}, s) :=
    Repo.loadView_eq_ok_iff.mpr ⟨hview, rfl⟩
  have hsole : Repo.soleHead s.head {head} s = some (.ok head, s) := by
    rw [Repo.soleHead, Finset.sorted_eq_sort, Finset.sort_singleton]
    rfl
  have hidentity : Repo.signingIdentity s = some (.ok signer, s) := by
    rw [Repo.signingIdentity, Program.bind_run, Program.get]
    dsimp only
    rw [hsigner]
    rfl
  refine Program.bind_eq_ok_iff.mpr ⟨_, s, Program.bind_eq_ok_iff.mpr ⟨_, s, rfl, ?_⟩, rfl⟩
  refine Program.bind_eq_ok_iff.mpr ⟨_, s, hload, Program.bind_eq_ok_iff.mpr ⟨_, s, hsole, ?_⟩⟩
  refine Program.bind_eq_ok_iff.mpr ⟨_, s, hidentity, Program.bind_eq_ok_iff.mpr ⟨s, s, rfl, ?_⟩⟩
  rw [hout]
  rfl


/-- A head that inserts a file, on top of a change that inserts another. -/
def twoInsertions : RewriteFiles :=
  let a := Change.sample ∅ "a.rs" "b"
  let b := Change.sample {a.id} "b.rs" "c"
  ofRepo (Repo.ofHistory [a, b] {b.id} [])

def squashStamp : OperationStamp := ⟨"0", 0, 0⟩

set_option maxRecDepth 2000 in
omit [Crypto] [OpLog.OpLogHash] in
theorem prepare_twoInsertions : ∃ p,
    @RewriteCall.prepare Crypto.sample Repo.anyWorkDir (.squashInto (Change.sample ∅ "a.rs" "b").id)
      twoInsertions.repo = some (.ok p, twoInsertions.repo)
      ∧ twoInsertions.repo.views.lookup p.plan.view ≠ some {p.plan.newHead} := by
  let a := Change.sample ∅ "a.rs" "b"
  let b := Change.sample {a.id} "b.rs" "c"
  let squashed := @Change.rewrittenOrResigned Crypto.sample a ∅ (a.atoms ++ b.atoms)
    (Mutator.squashIntent 2 "b") (.human "" "" 0) 0
  have hview : twoInsertions.repo.views.lookup twoInsertions.repo.head = some {b.id} :=
    Finmap.lookup_singleton_eq
  have hout : @Mutator.squashInto Crypto.sample twoInsertions.repo.graph {b.id} a.id
      (.human "" "" 0, 0)
        = .ok ⟨squashed, FMap.insertAll ∅ [(a.id, squashed.id), (b.id, squashed.id)]⟩ := by
    decide
  refine ⟨_, @prepare_squashInto Crypto.sample _ _ _ _ _ _ hview rfl hout, ?_⟩
  dsimp only
  rw [hview]
  decide

omit [Crypto] [OpLog.OpLogHash] in
/-- A squash whose view cannot be saved is rolled back. -/
theorem runCall_restored_unpublished :
    ∃ e f', @runCall Crypto.sample OpLog.OpLogHash.sample (some (.unpublished .workingDir))
        squashStamp Repo.anyWorkDir (.squashInto (Change.sample ∅ "a.rs" "b").id) twoInsertions
          = some (.error e, f')
      ∧ @MetadataRestored OpLog.OpLogHash.sample twoInsertions f' := by
  obtain ⟨p, hprepare, -⟩ := prepare_twoInsertions
  obtain ⟨e, f', hrun⟩ := @runCall_of_fault Crypto.sample OpLog.OpLogHash.sample Repo.anyWorkDir _
    twoInsertions squashStamp p _ [] (.unpublished .workingDir) hprepare rfl
    (@freshNext_ofRepo OpLog.OpLogHash.sample _ _) (@listing_ofRepo OpLog.OpLogHash.sample _)
  exact ⟨e, f', hrun, (@runCall_restored_iff Crypto.sample OpLog.OpLogHash.sample Repo.anyWorkDir _
    twoInsertions f' squashStamp _ p _ e [] hprepare rfl
    (@freshNext_ofRepo OpLog.OpLogHash.sample _ _) (@listing_ofRepo OpLog.OpLogHash.sample _)
    hrun).mpr (.inl fun _ h => by cases h)⟩

omit [Crypto] [OpLog.OpLogHash] in
/-- A squash whose view is published before the save fails leaves its new head. -/
theorem unsynced_squash_keeps_head :
    ∃ e f', @runCall Crypto.sample OpLog.OpLogHash.sample (some (.unsynced .workingDir))
        squashStamp Repo.anyWorkDir (.squashInto (Change.sample ∅ "a.rs" "b").id) twoInsertions
          = some (.error e, f')
      ∧ ¬ @MetadataRestored OpLog.OpLogHash.sample twoInsertions f' := by
  obtain ⟨p, hprepare, hmoved⟩ := prepare_twoInsertions
  obtain ⟨e, f', hrun⟩ := @runCall_of_fault Crypto.sample OpLog.OpLogHash.sample Repo.anyWorkDir _
    twoInsertions squashStamp p _ [] (.unsynced .workingDir) hprepare rfl
    (@freshNext_ofRepo OpLog.OpLogHash.sample _ _) (@listing_ofRepo OpLog.OpLogHash.sample _)
  obtain ⟨-, -, hviews⟩ := @runCall_error Crypto.sample OpLog.OpLogHash.sample Repo.anyWorkDir _
    twoInsertions f' squashStamp _ p _ e [] hprepare rfl
    (@freshNext_ofRepo OpLog.OpLogHash.sample _ _) (@listing_ofRepo OpLog.OpLogHash.sample _) hrun
  refine ⟨e, f', hrun, fun hrestored => hmoved ?_⟩
  rw [← @MetadataRestored.views OpLog.OpLogHash.sample _ _ hrestored, hviews]
  exact Finmap.lookup_insert _

end RewriteFiles

end ArcVcs
