import ArcVcs.Rehydration
import ArcVcs.WorkingCopy

/-!
# Undo and redo

`undo` pops an operation from the log and puts it on the redo stack, and `redo` takes it back from
there. `redo` refuses when the view has other heads than before the operation, so a run of calls
returns to the start if the operations on each view follow one another, with no change of the view
between them that the log does not have.
-/

namespace ArcVcs

open Repo

/-- On every view the last operation ends in the heads of the view, and each one starts where the
one before it ends. The list has the last operation first. -/
def Chained : FMap String (Finset Blake3Hash) → List Operation → Prop
  | _, [] => True
  | views, op :: ops => views.lookup op.view = some op.afterHeads
      ∧ Chained (views.insert op.view op.beforeHeads) ops

variable [Crypto]

/-- The heads can be loaded, replayed and projected. -/
def RestorableIn (fuel : ℕ) (wd : WorkDir) (s : Repo) (heads : Finset Blake3Hash) : Prop :=
  ∃ g state, hydrateGraph fuel s.store s.epochs s.graph heads = some (.ok g)
    ∧ materializeNonempty wd heads { s with graph := g } = some (.ok state, { s with graph := g })
    ∧ wd.canWrite state = true

def Restorable (wd : WorkDir) (s : Repo) (heads : Finset Blake3Hash) : Prop :=
  ∃ fuel, RestorableIn fuel wd s heads

/-- Calls of `undo` that take back the operations, each on its own view. -/
def UndoRun (fuel : ℕ) (wd : WorkDir) : List Operation → Repo → Repo → Prop
  | [], s, t => t = s
  | op :: ops, s, t => ∃ s₁, undo fuel wd s = some (.ok (some op), s₁)
      ∧ s₁.views = s.views.insert op.view op.beforeHeads ∧ UndoRun fuel wd ops s₁ t

/-- Calls of `redo` that apply the operations again, each on its own view. -/
def RedoRun (fuel : ℕ) (wd : WorkDir) : List Operation → Repo → Repo → Prop
  | [], s, t => t = s
  | op :: ops, s, t => ∃ s₁, redo fuel wd s = some (.ok (some op), s₁)
      ∧ s₁.views = s.views.insert op.view op.afterHeads ∧ RedoRun fuel wd ops s₁ t

variable {fuel : ℕ} {wd : WorkDir} {s t : Repo} {heads : Finset Blake3Hash} {op : Operation}
  {ops : List Operation}

/-! ## One call -/

/-- The process has hydrated, and its views, log and redo stack may have changed. -/
structure Reloaded (s t : Repo) : Prop where
  store : t.store = s.store
  blobs : t.blobs = s.blobs
  epochs : t.epochs = s.epochs
  graph : Grown s.store s.epochs s.graph t.graph

omit [Crypto] in
theorem Reloaded.refl (hg : s.graph.Indexed) : Reloaded s s := ⟨rfl, rfl, rfl, .refl hg⟩

theorem RestorableIn.mono {more : ℕ} (hle : fuel ≤ more) (h : RestorableIn fuel wd s heads) :
    RestorableIn more wd s heads := by
  obtain ⟨g, state, hrun, hrest⟩ := h
  exact ⟨g, state, Worklist.process_mono hle hrun, hrest⟩

theorem RestorableIn.again (h : RestorableIn fuel wd s heads) (hg : s.graph.Indexed)
    (ht : Reloaded s t) : ∃ g, hydrateHeads fuel heads t = some (.ok (), { t with graph := g })
      ∧ Reloaded s { t with graph := g }
      ∧ ∃ state, (∀ u : Repo, u.graph = g → u.blobs = t.blobs →
          materializeNonempty wd heads u = some (.ok state, u)) ∧ wd.canWrite state = true := by
  obtain ⟨g₁, state, hrun, hstate, hwrite⟩ := h
  obtain ⟨g, hg', hgrown⟩ := ht.graph.hydrateGraph_again hrun
  rw [← ht.store, ← ht.epochs] at hg'
  refine ⟨g, hydrateHeads_eq_ok_iff.mpr ⟨g, hg', rfl⟩, ⟨ht.store, ht.blobs, ht.epochs, ?_⟩, state,
    fun u hu hblobs => ?_, hwrite⟩
  · rw [ht.store, ht.epochs] at hg'
    exact ht.graph.hydrateGraph hg'
  · obtain ⟨-, hreplay⟩ := materializeNonempty_eq_ok_iff.mp hstate
    refine materializeNonempty_eq_ok_iff.mpr ⟨rfl, ?_⟩
    split_ifs at hreplay ⊢
    · exact hreplay
    · have hindexed : g₁.Indexed := ((Grown.refl hg).hydrateGraph hrun).indexed
      have henv : u.applyEnv wd.agentIgnore = s.applyEnv wd.agentIgnore := by
        rw [applyEnv, applyEnv, hblobs, ht.blobs]
      rw [henv, hu]
      exact hgrown.materializeHeads hindexed hreplay

/-- What `undo` leaves, up to the graph. -/
def Undone (op : Operation) (rest : List Operation) (t : Repo) : Repo :=
  { t with
    oplog := rest
    views := t.views.insert op.view op.beforeHeads
    redoStack := op :: t.redoStack }

/-- What `redo` leaves, up to the graph. -/
def Redone (op : Operation) (rest : List Operation) (t : Repo) : Repo :=
  { t with
    oplog := op :: t.oplog
    views := t.views.insert op.view op.afterHeads
    redoStack := rest }

theorem undo_run (hg : s.graph.Indexed) (ht : Reloaded s t) {rest : List Operation}
    (hlog : t.oplog = op :: rest) (hkind : op.kind = .generic)
    (hview : t.views.lookup op.view = some op.afterHeads)
    (hafter : RestorableIn fuel wd s op.afterHeads)
    (hbefore : RestorableIn fuel wd s op.beforeHeads) :
    ∃ g, undo fuel wd t = some (.ok (some op), Undone op rest { t with graph := g })
      ∧ Reloaded s (Undone op rest { t with graph := g }) := by
  have ht₁ : Reloaded s { t with oplog := rest } := ⟨ht.store, ht.blobs, ht.epochs, ht.graph⟩
  obtain ⟨g₁, hrun₁, hr₁, state₁, hstate₁, -⟩ := hafter.again hg ht₁
  have ht₂ : Reloaded s { t with
      oplog := rest, graph := g₁, views := t.views.insert op.view op.beforeHeads } :=
    ⟨ht.store, ht.blobs, ht.epochs, hr₁.graph⟩
  obtain ⟨g₂, hrun₂, hr₂, state₂, hstate₂, hwrite⟩ := hbefore.again hg ht₂
  refine ⟨g₂, ?_, ⟨ht.store, ht.blobs, ht.epochs, hr₂.graph⟩⟩
  have hpop : popOperation t = some (.ok (some op), { t with oplog := rest }) := by
    refine Program.bind_eq_ok_iff.mpr ⟨t, t, rfl, ?_⟩
    rw [hlog]
    rfl
  unfold undo
  refine Program.bind_eq_ok_iff.mpr ⟨_, _, hpop, ?_⟩
  dsimp only
  rw [if_neg (by simp [hkind])]
  refine Program.bind_eq_ok_iff.mpr ⟨_, _, loadView_eq_ok_iff.mpr ⟨hview, rfl⟩, ?_⟩
  refine Program.bind_eq_ok_iff.mpr ⟨_, _, hrun₁, ?_⟩
  refine Program.bind_eq_ok_iff.mpr ⟨_, _, hstate₁ _ rfl rfl, ?_⟩
  refine Program.bind_eq_ok_iff.mpr ⟨(), _, rfl, ?_⟩
  refine Program.bind_eq_ok_iff.mpr ⟨_, _, hrun₂, ?_⟩
  refine Program.bind_eq_ok_iff.mpr ⟨_, _, hstate₂ _ rfl rfl, ?_⟩
  refine Program.bind_eq_ok_iff.mpr ⟨_, _, writeStateToWorkingDir_eq_ok_iff.mpr ⟨hwrite, rfl⟩, ?_⟩
  rfl

theorem redo_run (hg : s.graph.Indexed) (ht : Reloaded s t) {rest : List Operation}
    (hstack : t.redoStack = op :: rest) (hkind : op.kind = .generic)
    (hview : t.views.lookup op.view = some op.beforeHeads)
    (hafter : RestorableIn fuel wd s op.afterHeads)
    (hbefore : RestorableIn fuel wd s op.beforeHeads) :
    ∃ g, redo fuel wd t = some (.ok (some op), Redone op rest { t with graph := g })
      ∧ Reloaded s (Redone op rest { t with graph := g }) := by
  obtain ⟨g₁, hrun₁, hr₁, state₁, hstate₁, -⟩ := hbefore.again hg ht
  have ht₂ : Reloaded s { t with graph := g₁, views := t.views.insert op.view op.afterHeads } :=
    ⟨ht.store, ht.blobs, ht.epochs, hr₁.graph⟩
  obtain ⟨g₂, hrun₂, hr₂, state₂, hstate₂, hwrite⟩ := hafter.again hg ht₂
  refine ⟨g₂, ?_, ⟨ht.store, ht.blobs, ht.epochs, hr₂.graph⟩⟩
  have hcommit : redoCommit fuel wd t = some
      (.ok (some (⟨op.view, op.beforeHeads, op.afterHeads⟩, op)),
        { t with graph := g₁, views := t.views.insert op.view op.afterHeads }) := by
    refine Program.bind_eq_ok_iff.mpr ⟨t, t, rfl, ?_⟩
    rw [hstack]
    dsimp only
    rw [if_neg (by simp [hkind])]
    refine Program.bind_eq_ok_iff.mpr ⟨_, _, loadView_eq_ok_iff.mpr ⟨hview, rfl⟩, ?_⟩
    rw [if_neg (not_not.mpr rfl)]
    refine Program.bind_eq_ok_iff.mpr ⟨_, _, hrun₁, ?_⟩
    refine Program.bind_eq_ok_iff.mpr ⟨_, _, hstate₁ _ rfl rfl, ?_⟩
    rw [← hstack]
    rfl
  unfold redo
  refine Program.bind_eq_ok_iff.mpr ⟨_, _, hcommit, ?_⟩
  refine Program.bind_eq_ok_iff.mpr ⟨_, _,
    Program.bind_eq_ok_iff.mpr ⟨_, _, hrun₂, hstate₂ _ rfl rfl⟩, ?_⟩
  refine Program.bind_eq_ok_iff.mpr ⟨_, _,
    Program.onError_eq_ok_iff.mpr (writeStateToWorkingDir_eq_ok_iff.mpr ⟨hwrite, rfl⟩), ?_⟩
  refine Program.bind_eq_ok_iff.mpr ⟨(), _, rfl, ?_⟩
  refine Program.bind_eq_ok_iff.mpr ⟨(), _, rfl, ?_⟩
  rw [hstack]
  rfl

/-! ## Runs -/

def rewindViews (ops : List Operation) (views : FMap String (Finset Blake3Hash)) :
    FMap String (Finset Blake3Hash) :=
  ops.foldl (fun views op => views.insert op.view op.beforeHeads) views

theorem RedoRun.append {ops₁ ops₂ : List Operation} {u : Repo} (h₁ : RedoRun fuel wd ops₁ s t)
    (h₂ : RedoRun fuel wd ops₂ t u) : RedoRun fuel wd (ops₁ ++ ops₂) s u := by
  induction ops₁ generalizing s with
  | nil =>
      obtain rfl : t = s := h₁
      exact h₂
  | cons op ops ih =>
      obtain ⟨s₁, hrun, hviews, hrest⟩ := h₁
      exact ⟨s₁, hrun, hviews, ih hrest⟩

/-- All heads of the operations materialize. -/
def AllRestorableIn (fuel : ℕ) (wd : WorkDir) (s : Repo) (ops : List Operation) : Prop :=
  ∀ op ∈ ops, RestorableIn fuel wd s op.beforeHeads ∧ RestorableIn fuel wd s op.afterHeads

theorem exists_undoRun (hg : s.graph.Indexed) (ht : Reloaded s t) {older : List Operation}
    (hlog : t.oplog = ops ++ older) (hkind : ∀ op ∈ ops, op.kind = .generic)
    (hmat : AllRestorableIn fuel wd s ops) (hchain : Chained t.views ops) :
    ∃ u, UndoRun fuel wd ops t u ∧ Reloaded s u ∧ u.oplog = older
      ∧ u.redoStack = ops.reverse ++ t.redoStack ∧ u.views = rewindViews ops t.views := by
  induction ops generalizing t with
  | nil => exact ⟨t, rfl, ht, hlog, rfl, rfl⟩
  | cons op ops ih =>
      obtain ⟨hbefore, hafter⟩ := hmat op List.mem_cons_self
      obtain ⟨g, hrun, ht'⟩ :=
        undo_run hg ht hlog (hkind op List.mem_cons_self) hchain.1 hafter hbefore
      obtain ⟨u, hu, hr, holder, hstack, hviews⟩ := ih ht' rfl (fun x hx => hkind x (.tail _ hx))
        (fun x hx => hmat x (.tail _ hx)) hchain.2
      refine ⟨u, ⟨_, hrun, rfl, hu⟩, hr, holder, ?_, hviews⟩
      rw [hstack, List.reverse_cons, List.append_assoc]
      rfl

theorem exists_redoRun (hg : s.graph.Indexed) (ht : Reloaded s t) {rest : List Operation}
    {views : FMap String (Finset Blake3Hash)} (hstack : t.redoStack = ops.reverse ++ rest)
    (hkind : ∀ op ∈ ops, op.kind = .generic) (hmat : AllRestorableIn fuel wd s ops)
    (hchain : Chained views ops) (hviews : t.views = rewindViews ops views) :
    ∃ u, RedoRun fuel wd ops.reverse t u ∧ Reloaded s u ∧ u.oplog = ops ++ t.oplog
      ∧ u.redoStack = rest ∧ u.views = views := by
  induction ops generalizing rest views with
  | nil => exact ⟨t, rfl, ht, rfl, hstack, hviews⟩
  | cons op ops ih =>
      rw [List.reverse_cons, List.append_assoc] at hstack
      obtain ⟨u, hu, hr, hlog, hrest, hback⟩ := ih hstack (fun x hx => hkind x (.tail _ hx))
        (fun x hx => hmat x (.tail _ hx)) hchain.2 hviews
      obtain ⟨hbefore, hafter⟩ := hmat op List.mem_cons_self
      have hview : u.views.lookup op.view = some op.beforeHeads := by
        rw [hback, Finmap.lookup_insert]
      obtain ⟨g, hrun, hr'⟩ :=
        redo_run hg hr hrest (hkind op List.mem_cons_self) hview hafter hbefore
      refine ⟨Redone op rest { u with graph := g }, ?_, hr', ?_, rfl, ?_⟩
      · rw [List.reverse_cons]
        exact hu.append ⟨_, hrun, rfl, rfl⟩
      · exact congrArg (op :: ·) hlog
      · change u.views.insert op.view op.afterHeads = views
        rw [hback, Finmap.insert_insert]
        refine Finmap.ext_lookup fun name => ?_
        rw [FMap.lookup_insert_eq]
        split_ifs with hname
        · rw [hname, hchain.1]
        · rfl

/-! ## Other operations -/

/-- The commands that log with `log_operation` what they did. -/
inductive LogsOperation (fuel : ℕ) (wd : WorkDir) : RepoM Unit → Prop where
  | snap (message : String) (stage : List Atom → List Atom) :
      LogsOperation fuel wd (do let _ ← snap fuel wd message stage)
  | move (command : HeadCommand) (hundo : command ≠ .undo) (hredo : command ≠ .redo) :
      LogsOperation fuel wd (command.program fuel wd)
  | amend (message : Option String) : LogsOperation fuel wd (do let _ ← amend fuel wd message)
  | snapshot : LogsOperation fuel wd (do let _ ← snapshot fuel wd)
  | finalizeSnapshot (message : String) :
      LogsOperation fuel wd (do let _ ← finalizeSnapshot fuel message)
  | forkEmptySnapshot : LogsOperation fuel wd (do let _ ← forkEmptySnapshot fuel)
  | mountAdd (path : String) (coordinate : SpacetimeCoordinate) :
      LogsOperation fuel wd (do let _ ← mountAdd fuel path coordinate)
  | restore (filepath : String) (write : MaterializedState → Except RepoError Unit) :
      LogsOperation fuel wd (restore fuel wd filepath write)
  | approvePendingAi (verifyingKey : SigningKey → PublicKeyBytes)
      (pending : Option PendingAiChange) (humanAuthor : Author) (signingKey : SigningKey)
      (expectedHash : Option String) : LogsOperation fuel wd (do
        let _ ← approvePendingAi fuel wd verifyingKey pending humanAuthor signingKey expectedHash)

/-- Nothing has been logged, or nothing can be redone. -/
def LogsFresh (s t : Repo) : Prop := t.oplog = s.oplog ∨ t.redoStack = []

omit [Crypto] in
theorem ignoresCaches_logsFresh (s : Repo) : IgnoresCaches (LogsFresh s) := fun _ _ _ h => h

omit [Crypto] in
theorem logOperation_keeps_logsFresh (command view : String) (before after : Finset Blake3Hash) :
    (logOperation command view before after).Keeps (LogsFresh s) :=
  fun _ _ => .of_run rfl (.inr rfl)

omit [Crypto] in
theorem saveView_keeps_logsFresh (view : String) (heads : Finset Blake3Hash) :
    (saveView view heads).Keeps (LogsFresh s) := .modify fun _ h => h

omit [Crypto] in
theorem advanceView_keeps_logsFresh (plan : Advance) : (advanceView plan).Keeps (LogsFresh s) :=
  .bind (.modify fun _ h => h) fun _ => .bind (.modify fun _ h => h) fun _ =>
    .bind (saveView_keeps_logsFresh _ _) fun _ => logOperation_keeps_logsFresh _ _ _ _

theorem operationCommit_keeps_logsFresh (target : Operation) (nextHeads : Finset Blake3Hash) :
    (operationCommit fuel wd target nextHeads).Keeps (LogsFresh s) := by
  have hI := ignoresCaches_logsFresh s
  refine .bind currentViewName_keeps fun view => .ite (.throw _) ?_
  refine .bind (hydrate_keeps hI fuel view) fun _ => .bind (loadView_keeps view) fun before => ?_
  refine .bind (hydrateHeads_keeps hI fuel _) fun _ => ?_
  refine .bind (materializeNonempty_keeps wd _) fun _ => ?_
  exact .bind (saveView_keeps_logsFresh _ _) fun _ => .pure _

omit [Crypto] in
theorem projectOrRestore_keeps_logsFresh (move : HeadMove) (state : MaterializedState) :
    (projectOrRestore wd move state).Keeps (LogsFresh s) :=
  .onError (writeStateToWorkingDir_keeps wd state) fun _ _ h => h

theorem applyOperationHeads_keeps_logsFresh (target : Operation) (nextHeads : Finset Blake3Hash)
    (label : String) : (applyOperationHeads fuel wd target nextHeads label).Keeps (LogsFresh s) :=
  .bind (operationCommit_keeps_logsFresh target nextHeads) fun move =>
    .bind (materializeNonempty_keeps wd _) fun state =>
      .bind (projectOrRestore_keeps_logsFresh move state) fun _ =>
        logOperation_keeps_logsFresh _ _ _ _

omit [Crypto] in
theorem resolveOperationById_keeps {I : Repo → Prop} (opId : ℕ) :
    (resolveOperationById opId).Keeps I := by
  refine .bind .get fun s => ?_
  cases s.oplog[opId]? with
  | none => exact .throw _
  | some op => exact .pure _

theorem HeadCommand.keeps_logsFresh (command : HeadCommand) (hundo : command ≠ .undo)
    (hredo : command ≠ .redo) : (command.program fuel wd).Keeps (LogsFresh s) := by
  have hI := ignoresCaches_logsFresh s
  cases command with
  | undo => exact absurd rfl hundo
  | redo => exact absurd rfl hredo
  | mergeHeads target =>
      refine .bind (mergePlan_keeps hI fuel wd target) fun plan => .bind ?_ fun merged => ?_
      · cases plan with
        | union view current target =>
            exact .bind (saveView_keeps_logsFresh _ _) fun _ =>
              .bind (logOperation_keeps_logsFresh _ _ _ _) fun _ => .pure _
        | conflict plan => exact .bind (advanceView_keeps_logsFresh plan) fun _ => .pure _
      · exact .bind (materializeHeads_keeps wd merged) fun state =>
          writeStateToWorkingDir_keeps wd state
  | cherryPick hash =>
      refine .bind ?_ fun move => .bind (materializeHeads_keeps wd _) fun state =>
        writeStateToWorkingDir_keeps wd state
      refine .bind currentViewName_keeps fun view => .bind (hydrate_keeps hI fuel view) fun _ => ?_
      refine .bind .get fun stored => .bind (.ofExcept _) fun change => ?_
      refine .bind (loadView_keeps view) fun heads => .bind .get fun s₁ => ?_
      cases change.deps.sorted.find? (· ∉ s₁.graph.ancestors heads) with
      | some dep => exact .throw _
      | none =>
          exact .bind (checkExclusive_keeps _ _ _) fun _ =>
            .bind (graphAddChange_keeps hI change) fun _ =>
              .bind (saveView_keeps_logsFresh _ _) fun _ =>
                .bind (logOperation_keeps_logsFresh _ _ _ _) fun _ => .pure _
  | revert plugin hash =>
      refine .bind (.bind ?_ fun move => .bind (materializeHeads_keeps wd _) fun state =>
        .bind (writeStateToWorkingDir_keeps wd state) fun _ => .pure _) fun _ => .pure _
      refine .bind (revertPlan_keeps hI plugin hash) fun plan => ?_
      refine .bind (.modify fun _ h => h) fun _ => ?_
      exact .bind (graphAddChange_keeps hI _) fun _ =>
        .bind (logOperation_keeps_logsFresh _ _ _ _) fun _ =>
          .bind (saveView_keeps_logsFresh _ _) fun _ => .pure _
  | abandonHeads resolved =>
      refine .bind (.bind ?_ fun result => ?_) fun _ => .pure _
      · refine .bind currentViewName_keeps fun view =>
          .bind (hydrate_keeps hI fuel view) fun _ => ?_
        refine .bind (loadView_keeps view) fun heads => .bind .get fun s₁ => ?_
        refine .bind (.ofExcept _) fun out => .ite (.pure _) ?_
        exact .bind (saveView_keeps_logsFresh _ _) fun _ => .pure _
      · rcases result with _ | ⟨move, abandoned⟩
        · exact .pure _
        · refine .bind (.bind (hydrateHeads_keeps hI fuel _) fun _ =>
            materializeNonempty_keeps wd _) fun state => ?_
          exact .bind (writeStateToWorkingDir_keeps wd state) fun _ =>
            .bind (logOperation_keeps_logsFresh _ _ _ _) fun _ => .pure _
  | opRestore opId =>
      exact .bind (.bind (resolveOperationById_keeps opId) fun target =>
        .bind (applyOperationHeads_keeps_logsFresh target _ _) fun _ => .pure _) fun _ => .pure _
  | opRevert opId =>
      exact .bind (.bind (resolveOperationById_keeps opId) fun target =>
        .bind (applyOperationHeads_keeps_logsFresh target _ _) fun _ => .pure _) fun _ => .pure _

theorem snap_keeps_logsFresh (message : String) (stage : List Atom → List Atom) :
    (snap fuel wd message stage).Keeps (LogsFresh s) := by
  refine .bind (snapPlan_keeps (ignoresCaches_logsFresh s) fuel wd message stage) fun plan => ?_
  cases plan with
  | none => exact .pure _
  | some plan => exact .bind (advanceView_keeps_logsFresh plan) fun _ => .pure _

theorem amend_keeps_logsFresh (message : Option String) :
    (amend fuel wd message).Keeps (LogsFresh s) := by
  have hrewritten : ∀ changes, (writeRewritten changes).Keeps (LogsFresh s) := by
    intro changes
    induction changes with
    | nil => exact .pure _
    | cons change changes ih =>
        exact .bind (.modify fun _ h => h) fun _ => .bind (.modify fun _ h => h) fun _ => ih
  refine .bind (amendPlan_keeps (ignoresCaches_logsFresh s) fuel wd message) fun plan => ?_
  refine .bind (hrewritten _) fun _ => .bind (.modify fun _ h => h) fun _ => ?_
  refine .bind (logOperation_keeps_logsFresh _ _ _ _) fun _ => ?_
  exact .bind (saveView_keeps_logsFresh _ _) fun _ =>
    .bind (checkoutView_keeps wd plan.view) fun _ => .pure _

/-- The working directory against the current view, as the snapshots compute it. -/
theorem workingDelta_keeps_logsFresh {α : Type} {rest : String → List Atom → RepoM α}
    (hrest : ∀ view atoms, (rest view atoms).Keeps (LogsFresh s)) :
    (do
      let viewName ← currentViewName
      hydrate fuel viewName
      let state ← materialize wd viewName
      let atoms ← Repo.computeWorkingDirectoryDelta wd state
      rest viewName atoms).Keeps (LogsFresh s) := by
  have hI := ignoresCaches_logsFresh s
  refine .bind currentViewName_keeps fun view => .bind (hydrate_keeps hI fuel view) fun _ => ?_
  refine .bind (materialize_keeps wd view) fun state => ?_
  exact .bind (Repo.computeWorkingDirectoryDelta_keeps hI.ignoresBlobs wd state) fun atoms =>
    hrest view atoms

theorem snapshot_keeps_logsFresh : (snapshot fuel wd).Keeps (LogsFresh s) := by
  refine workingDelta_keeps_logsFresh fun view atoms => .ite (.pure _) ?_
  refine .bind (loadView_keeps view) fun heads => .bind signingIdentity_keeps fun signer => ?_
  refine .bind (writeBlobAtoms_keeps (ignoresCaches_logsFresh s).ignoresBlobs wd atoms) fun _ => ?_
  exact .bind (advanceView_keeps_logsFresh _) fun _ => .pure _

theorem snapAi_keeps_logsFresh (message : String) (author : Author) (signingKey : SigningKey) :
    (snapAi fuel wd message author signingKey).Keeps (LogsFresh s) := by
  refine workingDelta_keeps_logsFresh fun view atoms => .ite (.pure _) ?_
  refine .bind (loadView_keeps view) fun heads => ?_
  refine .bind (writeBlobAtoms_keeps (ignoresCaches_logsFresh s).ignoresBlobs wd atoms) fun _ => ?_
  exact .bind (advanceView_keeps_logsFresh _) fun _ => .pure _

theorem finalizeSnapshot_keeps_logsFresh (message : String) :
    (finalizeSnapshot fuel message).Keeps (LogsFresh s) := by
  refine .bind currentViewName_keeps fun view => ?_
  refine .bind (hydrate_keeps (ignoresCaches_logsFresh s) fuel view) fun _ => ?_
  refine .bind (loadView_keeps view) fun heads =>
    .bind (soleHead_keeps view heads) fun oldHead => ?_
  refine .bind .get fun s₁ => ?_
  cases s₁.graph.get oldHead with
  | none => exact .throw _
  | some oldChange =>
      exact .bind signingIdentity_keeps fun signer =>
        .bind (advanceView_keeps_logsFresh _) fun _ => .pure _

theorem forkEmptySnapshot_keeps_logsFresh : (forkEmptySnapshot fuel).Keeps (LogsFresh s) := by
  refine .bind currentViewName_keeps fun view => ?_
  refine .bind (hydrate_keeps (ignoresCaches_logsFresh s) fuel view) fun _ => ?_
  refine .bind (loadView_keeps view) fun heads => .bind signingIdentity_keeps fun signer => ?_
  exact .bind (advanceView_keeps_logsFresh _) fun _ => .pure _

theorem mountAdd_keeps_logsFresh (path : String) (coordinate : SpacetimeCoordinate) :
    (mountAdd fuel path coordinate).Keeps (LogsFresh s) := by
  refine .bind currentViewName_keeps fun view => ?_
  refine .bind (hydrate_keeps (ignoresCaches_logsFresh s) fuel view) fun _ => ?_
  refine .bind (loadView_keeps view) fun heads => .bind signingIdentity_keeps fun signer => ?_
  refine .bind (.modify fun _ h => h) fun _ => .bind (.modify fun _ h => h) fun _ => ?_
  exact .bind (logOperation_keeps_logsFresh _ _ _ _) fun _ =>
    .bind (saveView_keeps_logsFresh _ _) fun _ => .pure _

theorem restore_keeps_logsFresh (filepath : String)
    (write : MaterializedState → Except RepoError Unit) :
    (restore fuel wd filepath write).Keeps (LogsFresh s) := by
  refine .bind currentViewName_keeps fun view => ?_
  refine .bind (hydrate_keeps (ignoresCaches_logsFresh s) fuel view) fun _ => ?_
  refine .bind (materialize_keeps wd view) fun state => .ite (.throw _) (.bind .get fun s₁ => ?_)
  exact .bind (logOperation_keeps_logsFresh _ _ _ _) fun _ => .ofExcept _

theorem approvePendingAi_keeps_logsFresh (verifyingKey : SigningKey → PublicKeyBytes)
    (pending : Option PendingAiChange) (humanAuthor : Author) (signingKey : SigningKey)
    (expectedHash : Option String) :
    (approvePendingAi fuel wd verifyingKey pending humanAuthor signingKey expectedHash).Keeps
      (LogsFresh s) := by
  cases pending with
  | none => exact .throw _
  | some pending =>
      cases humanAuthor with
      | human name email humanKey =>
          refine .ite (.throw _) ?_
          cases pending.kind with
          | resolve =>
              refine .ite (.throw _) (.bind (.modify fun _ h => h) fun _ => ?_)
              refine .bind (.modify fun _ h => h) fun _ =>
                .bind currentViewName_keeps fun view => ?_
              refine .bind (loadView_keeps view) fun _ => ?_
              exact .bind (saveView_keeps_logsFresh _ _) fun _ =>
                .bind (logOperation_keeps_logsFresh _ _ _ _) fun _ => .pure _
          | generate =>
              refine .ite (.throw _) (.bind (snapAi_keeps_logsFresh _ _ _) fun found => ?_)
              cases found with
              | none => exact .throw _
              | some id => exact .pure _
      | ai => exact .throw _
      | server => exact .throw _
      | transient => exact .throw _

theorem LogsOperation.keeps_logsFresh {p : RepoM Unit} (h : LogsOperation fuel wd p) :
    p.Keeps (LogsFresh s) := by
  cases h with
  | snap message stage => exact .bind (snap_keeps_logsFresh message stage) fun _ => .pure _
  | move command hundo hredo => exact command.keeps_logsFresh hundo hredo
  | amend message => exact .bind (amend_keeps_logsFresh message) fun _ => .pure _
  | snapshot => exact .bind snapshot_keeps_logsFresh fun _ => .pure _
  | finalizeSnapshot message =>
      exact .bind (finalizeSnapshot_keeps_logsFresh message) fun _ => .pure _
  | forkEmptySnapshot => exact .bind forkEmptySnapshot_keeps_logsFresh fun _ => .pure _
  | mountAdd path coordinate =>
      exact .bind (mountAdd_keeps_logsFresh path coordinate) fun _ => .pure _
  | restore filepath write => exact restore_keeps_logsFresh filepath write
  | approvePendingAi verifyingKey pending humanAuthor signingKey expectedHash =>
      exact .bind (approvePendingAi_keeps_logsFresh verifyingKey pending humanAuthor signingKey
        expectedHash) fun _ => .pure _

theorem redo_of_empty (h : s.redoStack = []) (fuel : ℕ) (wd : WorkDir) :
    redo fuel wd s = some (.ok none, s) := by
  refine Program.bind_eq_ok_iff.mpr ⟨none, s, ?_, rfl⟩
  refine Program.bind_eq_ok_iff.mpr ⟨s, s, rfl, ?_⟩
  rw [h]
  rfl

theorem LogsOperation.redo {p : RepoM Unit} (h : LogsOperation fuel wd p)
    {r : Except RepoError Unit} (hrun : p s = some (r, t)) (hlogged : t.oplog ≠ s.oplog)
    (more : ℕ) (wd' : WorkDir) :
    Repo.redo more wd' t = some (.ok none, t) := by
  refine redo_of_empty ?_ more wd'
  have hens := h.keeps_logsFresh (s := s) s (.inl rfl)
  have hfresh : LogsFresh s t := by
    cases r with
    | ok u => exact hens.ok hrun
    | error e => exact hens.error hrun
  exact hfresh.resolve_left hlogged

theorem exists_allRestorableIn
    (h : ∀ op ∈ ops, Restorable wd s op.beforeHeads ∧ Restorable wd s op.afterHeads) :
    ∃ fuel, ∀ more, fuel ≤ more → AllRestorableIn more wd s ops := by
  induction ops with
  | nil => exact ⟨0, fun _ _ op hop => by simp at hop⟩
  | cons op ops ih =>
      obtain ⟨⟨fuel₁, hbefore⟩, fuel₂, hafter⟩ := h op List.mem_cons_self
      obtain ⟨fuel₃, hrest⟩ := ih fun x hx => h x (.tail _ hx)
      refine ⟨max fuel₁ (max fuel₂ fuel₃), fun more hmore x hx => ?_⟩
      simp only [max_le_iff] at hmore
      rcases List.mem_cons.mp hx with rfl | hx
      · exact ⟨hbefore.mono hmore.1, hafter.mono hmore.2.1⟩
      · exact hrest more hmore.2.2 x hx

/-- **Undo and redo are inverse** on operations that follow one another on their views: the calls
of `undo` go back through the log, as many calls of `redo` return to the same views and the same
log, and after another operation has been logged `redo` does nothing. -/
theorem undo_redo_inverse {older : List Operation} (hg : s.graph.Indexed)
    (hlog : s.oplog = ops ++ older) (hkind : ∀ op ∈ ops, op.kind = .generic)
    (hmat : ∀ op ∈ ops, Restorable wd s op.beforeHeads ∧ Restorable wd s op.afterHeads)
    (hchain : Chained s.views ops) :
    (∃ fuel, ∀ more, fuel ≤ more → ∃ t u, UndoRun more wd ops s t ∧ t.oplog = older
        ∧ RedoRun more wd ops.reverse t u ∧ u.views = s.views ∧ u.oplog = s.oplog)
      ∧ ∀ fuel wd p s₁ r s₂, LogsOperation fuel wd p → p s₁ = some (r, s₂) → s₂.oplog ≠ s₁.oplog →
        ∀ fuel' wd', redo fuel' wd' s₂ = some (.ok none, s₂) := by
  constructor
  · obtain ⟨fuel, hfuel⟩ := exists_allRestorableIn hmat
    refine ⟨fuel, fun more hmore => ?_⟩
    obtain ⟨t, hundo, ht, holder, hstack, hviews⟩ :=
      exists_undoRun hg (.refl hg) hlog hkind (hfuel more hmore) hchain
    obtain ⟨u, hredo, -, hlog', -, hback⟩ :=
      exists_redoRun hg ht hstack hkind (hfuel more hmore) hchain hviews
    exact ⟨t, u, hundo, holder, hredo, hback, by rw [hlog', holder, hlog]⟩
  · exact fun fuel wd p s₁ r s₂ h hrun hlogged => h.redo hrun hlogged

/-! ## Two snaps -/

theorem Restorable.of_loaded (hheads : ∀ h ∈ heads, h ∉ s.epochs.keys ∧ s.graph.get h ≠ none)
    (hreplay : (s.graph.materializeHeads (s.applyEnv wd.agentIgnore) heads).toOption.isSome = true)
    (hwrite : ∀ state, wd.canWrite state = true) : Restorable wd s heads := by
  cases hrun : s.graph.materializeHeads (s.applyEnv wd.agentIgnore) heads with
  | error e => simp [hrun, Except.toOption] at hreplay
  | ok state =>
      refine ⟨heads.card + 1, s.graph, if heads = ∅ then ∅ else state,
        hydrateGraph_of_loaded hheads (Nat.lt_succ_self _), ?_, hwrite _⟩
      refine materializeNonempty_eq_ok_iff.mpr ⟨rfl, ?_⟩
      split_ifs
      · rfl
      · exact hrun

theorem Restorable.empty (hwrite : ∀ state, wd.canWrite state = true) :
    Restorable wd s ∅ :=
  ⟨1, s.graph, ∅, rfl, materializeNonempty_eq_ok_iff.mpr ⟨rfl, by simp⟩, hwrite ∅⟩

omit [Crypto] in
/-- Two changes in the store, of which the view has the second one, and a log. -/
def loggedPair (first second : Change) (ops : List Operation) : Repo :=
  { Repo.ofHistory [first, second] {second.id} [[0]] with oplog := ops }

omit [Crypto] in
theorem restorable_loggedPair {first second : Change} {id : Blake3Hash}
    (hget : (ChangeGraph.ofChanges [first, second]).get id ≠ none)
    (hreplay : ((loggedPair first second ops).graph.materializeHeads
      (@Repo.applyEnv Crypto.sample (loggedPair first second ops) anyWorkDir.agentIgnore)
        {id}).toOption.isSome = true) :
    @Restorable Crypto.sample anyWorkDir (loggedPair first second ops) {id} := by
  refine @Restorable.of_loaded Crypto.sample _ _ _ (fun h hh => ?_) hreplay fun _ => rfl
  rw [Finset.mem_singleton.mp hh]
  exact ⟨by simp [loggedPair, Repo.ofHistory, Repo.init], hget⟩

def snapped (before after : Finset Blake3Hash) : Operation :=
  ⟨"snap", .generic, "main", before, after, ∅⟩

omit [Crypto] in
/-- The second snap goes on where the first one ended. -/
theorem undo_redo_two_snaps :
    let first := Change.sample ∅ "a" "a"
    let second := Change.sample {first.id} "b" "b"
    let ops := [snapped {first.id} {second.id}, snapped ∅ {first.id}]
    ∃ fuel t u, @UndoRun Crypto.sample fuel anyWorkDir ops (loggedPair first second ops) t
      ∧ @RedoRun Crypto.sample fuel anyWorkDir ops.reverse t u
      ∧ u.views = (loggedPair first second ops).views := by
  intro first second ops
  have hfirst : @Restorable Crypto.sample anyWorkDir (loggedPair first second ops) {first.id} :=
    restorable_loggedPair (by decide) (by decide)
  have hsecond : @Restorable Crypto.sample anyWorkDir (loggedPair first second ops) {second.id} :=
    restorable_loggedPair (by decide) (by decide)
  have hempty : @Restorable Crypto.sample anyWorkDir (loggedPair first second ops) ∅ :=
    @Restorable.empty Crypto.sample _ _ fun _ => rfl
  obtain ⟨⟨fuel, hfuel⟩, -⟩ := @undo_redo_inverse Crypto.sample anyWorkDir
    (loggedPair first second ops) ops [] (Loaded.ofChanges (by decide)).indexed rfl (by decide)
    (fun op hop => by
      rcases List.mem_pair.mp hop with rfl | rfl
      · exact ⟨hfirst, hsecond⟩
      · exact ⟨hempty, hfirst⟩) ⟨rfl, rfl, trivial⟩
  obtain ⟨t, u, hundo, -, hredo, hviews, -⟩ := hfuel fuel le_rfl
  exact ⟨fuel, t, u, hundo, hredo, hviews⟩

theorem lookup_of_redoCommit {t : Repo} {move : HeadMove}
    (h : redoCommit fuel wd s = some (.ok (some (move, op)), t)) :
    s.views.lookup op.view = some op.beforeHeads := by
  obtain ⟨_, _, hget, h⟩ := Program.bind_eq_ok_iff.mp h
  cases hget
  cases hstack : s.redoStack with
  | nil => simp [hstack] at h
  | cons op' rest =>
      simp only [hstack] at h
      split_ifs at h with hkind
      · simp [Program.throw] at h
      · obtain ⟨heads, s₁, hload, hrest⟩ := Program.bind_eq_ok_iff.mp h
        obtain ⟨hview, rfl⟩ := loadView_eq_ok_iff.mp hload
        split_ifs at hrest with hheads
        · simp [Program.throw] at hrest
        · obtain ⟨_, _, -, hrest⟩ := Program.bind_eq_ok_iff.mp hrest
          obtain ⟨_, _, -, hrest⟩ := Program.bind_eq_ok_iff.mp hrest
          obtain ⟨_, _, -, hrest⟩ := Program.bind_eq_ok_iff.mp hrest
          obtain ⟨hout, -⟩ := Prod.mk.inj (Option.some_inj.mp hrest)
          obtain ⟨-, rfl⟩ := Prod.mk.inj (Option.some_inj.mp (Except.ok.inj hout))
          rw [hview, not_not.mp hheads]

theorem lookup_of_redo {t : Repo} (h : redo fuel wd s = some (.ok (some op), t)) :
    s.views.lookup op.view = some op.beforeHeads := by
  obtain ⟨found, s₁, hcommit, h⟩ := Program.bind_eq_ok_iff.mp h
  cases found with
  | none => simp at h
  | some found =>
      obtain ⟨_, _, -, h⟩ := Program.bind_eq_ok_iff.mp h
      obtain ⟨_, _, -, h⟩ := Program.bind_eq_ok_iff.mp h
      obtain ⟨_, _, -, h⟩ := Program.bind_eq_ok_iff.mp h
      obtain ⟨_, _, -, h⟩ := Program.bind_eq_ok_iff.mp h
      obtain ⟨hop, -⟩ := Prod.mk.inj (Option.some_inj.mp h)
      rw [← Option.some_inj.mp (Except.ok.inj hop)]
      exact lookup_of_redoCommit hcommit

omit [Crypto] in
/-- Two views, of which the one that is not current was snapped last. -/
def snappedAside (first second : Change) : Repo :=
  { Repo.ofHistory [first, second] {second.id} [[0]] with
    views := FMap.insertAll ∅ [("main", {first.id}), ("work", {second.id})]
    head := "work"
    oplog := [snapped ∅ {first.id}] }

/-- An `undo`, a `reorder` of two changes and a `redo`. -/
def redoAfterReorder (order : List Blake3Hash) : RepoM (Option Operation) := do
  let _ ← undo 3 anyWorkDir
  let _ ← Repo.reorder anyWorkDir order
  redo 3 anyWorkDir

omit [Crypto] in
/-- Between two snaps the view went back without an entry in the log. The calls of `undo` succeed,
and the second `redo` finds other heads than before the operation. A `reorder` is logged and does
not clear the redo stack, and `redo` after it applies the snap of the other view again. -/
theorem redo_refuses_unlogged_move :
    (¬ ∀ (wd : WorkDir) (s : Repo) (ops older : List Operation),
      s.graph.Indexed → s.oplog = ops ++ older → (∀ op ∈ ops, op.kind = .generic) →
      (∀ op ∈ ops, @Restorable Crypto.sample wd s op.beforeHeads
        ∧ @Restorable Crypto.sample wd s op.afterHeads) →
      (∀ view op, ops.find? (fun op => op.view = view) = some op →
        s.views.lookup view = some op.afterHeads) →
      ∃ fuel t u, @UndoRun Crypto.sample fuel wd ops s t
        ∧ @RedoRun Crypto.sample fuel wd ops.reverse t u)
      ∧ (let first := Change.sample ∅ "a" "a"
        let second := Change.sample {first.id} "b" "b"
        (@redoAfterReorder Crypto.sample [second.id, first.id] (snappedAside first second)).map
          (fun r => (r.1, r.2.oplog.map Operation.command, r.2.views.lookup "main"))
          = some (.ok (some (snapped ∅ {first.id})), ["snap", "reorder"], some {first.id})) := by
  refine ⟨?_, by decide +kernel⟩
  intro h
  let first := Change.sample ∅ "a" "a"
  let second := Change.sample ∅ "b" "b"
  let ops := [snapped ∅ {second.id}, snapped ∅ {first.id}]
  have hfirst : @Restorable Crypto.sample anyWorkDir (loggedPair first second ops) {first.id} :=
    restorable_loggedPair (by decide) (by decide)
  have hsecond : @Restorable Crypto.sample anyWorkDir (loggedPair first second ops) {second.id} :=
    restorable_loggedPair (by decide) (by decide)
  have hempty : @Restorable Crypto.sample anyWorkDir (loggedPair first second ops) ∅ :=
    @Restorable.empty Crypto.sample _ _ fun _ => rfl
  obtain ⟨fuel, t, u, -, hredo⟩ := h anyWorkDir (loggedPair first second ops) ops []
    (Loaded.ofChanges (by decide)).indexed rfl (by decide)
    (fun op hop => by
      rcases List.mem_pair.mp hop with rfl | rfl
      · exact ⟨hempty, hsecond⟩
      · exact ⟨hempty, hfirst⟩)
    (fun view op hop => by
      by_cases hview : view = "main"
      · subst hview
        obtain rfl : snapped ∅ {second.id} = op := by simpa [ops, snapped] using hop
        rfl
      · simp [ops, snapped, Ne.symm hview] at hop)
  obtain ⟨t₁, -, hviews, t₂, hsecondRedo, -⟩ := hredo
  have hguard := @lookup_of_redo Crypto.sample _ _ _ _ _ hsecondRedo
  rw [hviews] at hguard
  change (t.views.insert "main" {first.id}).lookup "main" = some ∅ at hguard
  rw [Finmap.lookup_insert] at hguard
  simp at hguard

end ArcVcs
