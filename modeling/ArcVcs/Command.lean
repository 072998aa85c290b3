import ArcVcs.Maintenance
import ArcVcs.Rewrites
import ArcVcs.Views

/-!
# Runs of a repository

A step is one command with what it finds in the working directory. Opening the repository
again drops the in-memory graph and the identity.
-/

namespace ArcVcs

inductive Command where
  | reopen
  | setIdentity (author : Author) (signingKey : SigningKey)
  | snap (message : String) (stage : List Atom → List Atom)
  | createView (name : String)
  | switchView (target : String)
  | mergeHeads (target : Finset Blake3Hash)
  | undo
  | amend (message : Option String)
  | squashInto (targetId : Blake3Hash)
  | reorder (desired : List Blake3Hash)
  | restack (desired : List Blake3Hash)
  | restackContinue
  | restackAbort
  | diffeditPrepare (targetId : Blake3Hash)
  | diffeditApply (message : Option String)
  | compact
  | gc

/-- A command, its working directory, and a bound for the loops of the run. -/
structure Step where
  command : Command
  wd : WorkDir
  fuel : ℕ

/-- The changes that a step is about to write and the ids that it is about to redirect. -/
structure StepPlan where
  changes : List Change
  replaced : FMap Blake3Hash Blake3Hash

variable [Crypto]

namespace Step

open Repo in
/-- The step up to its first write of a change, of the epoch map or of a view. -/
def plan (step : Step) : RepoM StepPlan :=
  match step.command with
  | .snap message stage => do
      let plan ← snapPlan step.fuel step.wd message stage
      pure ⟨(plan.map Advance.change).toList, ∅⟩
  | .mergeHeads target => do
      match ← mergePlan step.fuel step.wd target with
      | .union .. => pure ⟨[], ∅⟩
      | .conflict plan => pure ⟨[plan.change], ∅⟩
  | .amend message => do
      let plan ← amendPlan step.fuel step.wd message
      pure ⟨plan.rewritten, plan.rewriteMap⟩
  | .squashInto targetId => do
      let plan ← squashPlan targetId
      pure ⟨plan.rewritten, plan.rewriteMap⟩
  | .reorder desired => do
      let plan ← reorderPlan desired
      pure ⟨plan.rewritten, plan.rewriteMap⟩
  | .restack desired => do
      let pending ← newPendingRestack desired
      let (plan, _) ← restackPlan pending
      pure ⟨plan.rewritten, plan.rewriteMap⟩
  | .restackContinue => do
      let pending ← loadPendingRestack
      let (plan, _) ← restackPlan pending
      pure ⟨plan.rewritten, plan.rewriteMap⟩
  | .diffeditApply message => do
      let (targetId, newChange) ← diffeditChange step.wd message
      pure ⟨[newChange], Finmap.singleton targetId newChange.id⟩
  | .compact => do
      let plan ← compactPlan step.fuel step.wd
      pure ⟨[plan.genesis], FMap.constOn plan.stable plan.genesis.id⟩
  | _ => pure ⟨[], ∅⟩

open Repo in
def program (step : Step) : RepoM Unit :=
  match step.command with
  | .reopen => .modify fun s => { s with graph := .new, identity := none }
  | .setIdentity author signingKey =>
    .modify fun s => { s with identity := some (author, signingKey) }
  | .snap message stage => do let _ ← snap step.fuel step.wd message stage
  | .createView name => createView name
  | .switchView target => switchView step.fuel step.wd target
  | .mergeHeads target => mergeHeads step.fuel step.wd target
  | .undo => do let _ ← undo step.fuel step.wd
  | .amend message => do let _ ← amend step.fuel step.wd message
  | .squashInto targetId => do let _ ← squashInto step.wd targetId
  | .reorder desired => do let _ ← reorder step.wd desired
  | .restack desired => do let _ ← restack step.wd desired
  | .restackContinue => do let _ ← restackContinue step.wd
  | .restackAbort => restackAbort step.fuel step.wd
  | .diffeditPrepare targetId => diffeditPrepare step.wd targetId
  | .diffeditApply message => do let _ ← diffeditApply step.wd message
  | .compact => do let _ ← compact step.fuel step.wd
  | .gc => do let _ ← gc

/-- The step goes from `s` to `s'`, whether the command succeeds or fails. -/
def Takes (step : Step) (s s' : Repo) : Prop := ∃ r, step.program s = some (r, s')

end Step

/-- What a run of steps, each allowed where it is taken, reaches from an empty repository. -/
inductive Reachable (allowed : Step → Repo → Prop) : Repo → Prop where
  | init : Reachable allowed Repo.init
  | step {s s' : Repo} (step : Step) : Reachable allowed s → allowed step s → step.Takes s s' →
      Reachable allowed s'

theorem Reachable.invariant {allowed : Step → Repo → Prop} {I : Repo → Prop} (hinit : I Repo.init)
    (hstep : ∀ step s, allowed step s → I s → step.program.Ensures s (fun _ => I) I)
    {s : Repo} (h : Reachable allowed s) : I s := by
  induction h with
  | init => exact hinit
  | step step _ hallowed htakes ih =>
      obtain ⟨r, hrun⟩ := htakes
      cases r with
      | ok u => exact (hstep step _ hallowed ih).ok hrun
      | error e => exact (hstep step _ hallowed ih).error hrun

end ArcVcs
