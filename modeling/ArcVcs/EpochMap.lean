import ArcVcs.Hydration
import ArcVcs.Loading

/-!
# The epoch map and the end of hydration

Hydration follows the epoch map, so it ends exactly when no id leads back to itself. Only
rewriting commands add entries. A rewrite keeps the map acyclic when the ids that it writes
do not lead back, through the entries of earlier rewrites, to the ids that they replace.
-/

namespace ArcVcs

open Relation

/-! ## Hydration ends on an acyclic map -/

section Termination

variable {store : FMap Blake3Hash Change} {epochs : FMap Blake3Hash Blake3Hash}

/-- The redirects that are left to follow from the elements of a queue, each counted with the
element itself. -/
def queueWeight (rank : Blake3Hash → ℕ) (queue : List Blake3Hash) : ℕ :=
  (queue.map fun id => rank id + 1).sum

@[simp] theorem queueWeight_nil (rank : Blake3Hash → ℕ) : queueWeight rank [] = 0 := rfl

@[simp] theorem queueWeight_cons (rank : Blake3Hash → ℕ) (id : Blake3Hash)
    (queue : List Blake3Hash) :
    queueWeight rank (id :: queue) = rank id + 1 + queueWeight rank queue := rfl

@[simp] theorem queueWeight_append (rank : Blake3Hash → ℕ) (queue queue' : List Blake3Hash) :
    queueWeight rank (queue ++ queue') = queueWeight rank queue + queueWeight rank queue' := by
  simp [queueWeight]

/-- What reading a stored change may push. -/
def depsWeight (store : FMap Blake3Hash Change) (rank : Blake3Hash → ℕ) (id : Blake3Hash) : ℕ :=
  match store.lookup id with
  | none => 0
  | some change => queueWeight rank change.deps.sorted

def unloaded (store : FMap Blake3Hash Change) (g : ChangeGraph) : Finset Blake3Hash :=
  store.keys.filter fun id => g.get id = none

/-- The weight of the queue and of everything that may still be read. -/
def hydrationPotential (store : FMap Blake3Hash Change) (rank : Blake3Hash → ℕ)
    (queue : List Blake3Hash) (g : ChangeGraph) : ℕ :=
  queueWeight rank queue + ∑ id ∈ unloaded store g, depsWeight store rank id

theorem queueWeight_filter_le (rank : Blake3Hash → ℕ) (deps : Finset Blake3Hash)
    (p : Blake3Hash → Prop) [DecidablePred p] :
    queueWeight rank (deps.filter p).sorted ≤ queueWeight rank deps.sorted := by
  rw [← Finset.filter_sorted]
  apply List.Sublist.sum_le_sum
  · exact List.filter_sublist.map _
  · exact fun _ _ => Nat.zero_le _

theorem hydrationPotential_lt {rank : Blake3Hash → ℕ} {id : Blake3Hash}
    (hrank : ∀ next, epochs.lookup id = some next → rank next < rank id)
    {queue pushed : List Blake3Hash} {g g' : ChangeGraph}
    (hstep : Repo.hydrateStep store epochs g id = .ok (pushed, g')) :
    hydrationPotential store rank (queue ++ pushed) g'
      < hydrationPotential store rank (id :: queue) g := by
  unfold Repo.hydrateStep at hstep
  cases hmap : epochs.lookup id with
  | some next =>
      simp only [hmap, Except.ok.injEq, Prod.mk.injEq] at hstep
      obtain ⟨rfl, rfl⟩ := hstep
      have hlt := hrank next hmap
      simp only [hydrationPotential, queueWeight_append, queueWeight_cons]
      split_ifs <;> simp only [queueWeight_nil, queueWeight_cons] <;> omega
  | none =>
      simp only [hmap] at hstep
      split_ifs at hstep with hloaded
      · simp only [Except.ok.injEq, Prod.mk.injEq] at hstep
        obtain ⟨rfl, rfl⟩ := hstep
        simp only [hydrationPotential, List.append_nil, queueWeight_cons]
        omega
      · cases hread : Repo.readChange store id with
        | error e => simp [hread] at hstep
        | ok change =>
            simp only [hread, Except.ok.injEq, Prod.mk.injEq] at hstep
            obtain ⟨rfl, rfl⟩ := hstep
            obtain ⟨hlook, rfl⟩ := Repo.readChange_eq_ok_iff.mp hread
            have hmem : change.id ∈ unloaded store g := by
              refine Finset.mem_filter.mpr ⟨FMap.mem_keys_of_lookup hlook, ?_⟩
              simpa using hloaded
            have herase : unloaded store (g.addChange change)
                = (unloaded store g).erase change.id := by
              ext x
              simp only [unloaded, Finset.mem_filter, ChangeGraph.get_addChange, Finset.mem_erase]
              by_cases hx : x = change.id <;> simp [hx]
            have hsum := Finset.add_sum_erase (unloaded store g) (depsWeight store rank) hmem
            have hdeps : depsWeight store rank change.id = queueWeight rank change.deps.sorted := by
              rw [depsWeight, hlook]
            have hpush := queueWeight_filter_le rank change.deps fun dep =>
              (g.get dep).isNone = true
            simp only [hydrationPotential, queueWeight_append, queueWeight_cons, herase]
            omega

/-- **On an acyclic epoch map hydration ends**, from every graph and every set of heads. -/
theorem exists_hydrateGraph (hepochs : epochs.Acyclic) (g : ChangeGraph)
    (heads : Finset Blake3Hash) :
    ∃ fuel out, Repo.hydrateGraph fuel store epochs g heads = some out := by
  obtain ⟨rank, hrank⟩ := hepochs.exists_rank
  refine ⟨hydrationPotential store rank heads.sorted g + 1, ?_⟩
  apply Worklist.process_isSome (hydrationPotential store rank) ?_ (Nat.lt_succ_self _)
  intro id queue g pushed g' hstep
  exact hydrationPotential_lt (hrank id) hstep

end Termination

/-! ## Commands that add no entry -/

namespace Repo

variable {P : FMap Blake3Hash Blake3Hash → Prop}

theorem writeChange_epochs (change : Change) :
    (writeChange change).Keeps fun s => P s.epochs := .modify fun _ hs => hs

theorem graphAddChange_epochs (change : Change) :
    (graphAddChange change).Keeps fun s => P s.epochs := .modify fun _ hs => hs

theorem saveView_epochs (name : String) (heads : Finset Blake3Hash) :
    (saveView name heads).Keeps fun s => P s.epochs := .modify fun _ hs => hs

theorem appendOperation_epochs (op : Operation) :
    (appendOperation op).Keeps fun s => P s.epochs := .modify fun _ hs => hs

theorem logOperation_epochs (command view : String) (beforeHeads afterHeads : Finset Blake3Hash) :
    (logOperation command view beforeHeads afterHeads).Keeps fun s => P s.epochs :=
  .bind (.modify fun _ hs => hs) fun _ => appendOperation_epochs _

theorem writeRewritten_epochs (changes : List Change) :
    (writeRewritten changes).Keeps fun s => P s.epochs := by
  induction changes with
  | nil => exact .pure _
  | cons change changes ih =>
      refine .bind (writeChange_epochs change) fun _ => ?_
      exact .bind (graphAddChange_epochs change) fun _ => ih

theorem repointViews_epochs (stable : Finset Blake3Hash) (genesisId : Blake3Hash)
    (names : List String) : (repointViews stable genesisId names).Keeps fun s => P s.epochs := by
  induction names with
  | nil => exact .pure _
  | cons name names ih =>
      refine .bind (loadView_keeps name) fun heads => ?_
      exact .bind (saveView_epochs name _) fun _ => ih

theorem createView_epochs (name : String) : (createView name).Keeps fun s => P s.epochs := by
  refine .bind currentViewName_keeps fun view => ?_
  refine .bind (loadView_keeps view) fun heads => .bind .get fun s => ?_
  exact .ite (.throw _) (saveView_epochs name heads)

theorem gc_epochs : gc.Keeps fun s => P s.epochs :=
  .bind .get fun _ => .bind (.modify fun _ hs => hs) fun _ => .pure _

theorem ignoresCaches_epochs : IgnoresCaches fun s => P s.epochs := fun _ _ _ hs => hs

variable [Crypto]

omit [Crypto] in
theorem advanceView_epochs (plan : Advance) : (advanceView plan).Keeps fun s => P s.epochs := by
  refine .bind (writeChange_epochs _) fun _ => .bind (graphAddChange_epochs _) fun _ => ?_
  exact .bind (saveView_epochs _ _) fun _ => logOperation_epochs _ _ _ _

theorem snap_epochs (fuel : ℕ) (wd : WorkDir) (message : String) (stage : List Atom → List Atom) :
    (snap fuel wd message stage).Keeps fun s => P s.epochs := by
  refine .bind (snapPlan_keeps ignoresCaches_epochs fuel wd message stage) fun plan => ?_
  cases plan with
  | none => exact .pure _
  | some plan => exact .bind (advanceView_epochs plan) fun _ => .pure _

theorem switchView_epochs (fuel : ℕ) (wd : WorkDir) (target : String) :
    (switchView fuel wd target).Keeps fun s => P s.epochs := by
  refine .bind (loadView_keeps target) fun heads => .bind currentViewName_keeps fun view => ?_
  refine .bind (hydrate_keeps ignoresCaches_epochs fuel view) fun _ => ?_
  refine .bind (materialize_keeps wd view) fun state => ?_
  refine .bind (checkWorkingDirClean_keeps wd state) fun _ => ?_
  refine .bind (hydrate_keeps ignoresCaches_epochs fuel target) fun _ => ?_
  refine .bind (materializeNonempty_keeps wd heads) fun target => ?_
  exact .bind (writeStateToWorkingDir_keeps wd target) fun _ => .modify fun _ hs => hs

theorem mergeHeads_epochs (fuel : ℕ) (wd : WorkDir) (target : Finset Blake3Hash) :
    (mergeHeads fuel wd target).Keeps fun s => P s.epochs := by
  refine .bind (mergePlan_keeps ignoresCaches_epochs fuel wd target) fun commit => ?_
  refine .bind ?_ fun merged => .bind (materializeHeads_keeps wd merged) fun state =>
    writeStateToWorkingDir_keeps wd state
  cases commit with
  | union view current target =>
      refine .bind (saveView_epochs _ _) fun _ => ?_
      exact .bind (logOperation_epochs _ _ _ _) fun _ => .pure _
  | conflict plan => exact .bind (advanceView_epochs plan) fun _ => .pure _

theorem diffeditPrepare_epochs (wd : WorkDir) (targetId : Blake3Hash) :
    (diffeditPrepare wd targetId).Keeps fun s => P s.epochs := by
  refine .bind .get fun s => .ite (.throw _) (.bind (.modify fun _ hs => hs) fun _ => ?_)
  exact .bind (materializeHeads_keeps wd _) fun state => writeStateToWorkingDir_keeps wd state

theorem restackAbort_epochs (fuel : ℕ) (wd : WorkDir) :
    (restackAbort fuel wd).Keeps fun s => P s.epochs := by
  refine .bind ?_ fun pending => .bind (loadView_keeps _) fun heads => ?_
  · refine .bind .get fun s => ?_
    cases s.pendingRestack with
    | none => exact .throw _
    | some pending => exact .pure _
  refine .bind (hydrateHeads_keeps ignoresCaches_epochs fuel heads) fun _ => ?_
  refine .bind (materializeNonempty_keeps wd heads) fun _ => ?_
  refine .bind (saveView_epochs _ _) fun _ => ?_
  refine .bind (hydrateHeads_keeps ignoresCaches_epochs fuel _) fun _ => ?_
  refine .bind (materializeNonempty_keeps wd _) fun restored => ?_
  refine .bind ?_ fun _ => .modify fun _ hs => hs
  exact .onError (writeStateToWorkingDir_keeps wd restored) fun _ _ hs => hs

theorem undo_epochs (hP : ∀ m m', (∀ x y, m'.lookup x = some y → m.lookup x = some y) → P m → P m')
    (fuel : ℕ) (wd : WorkDir) : (undo fuel wd).Keeps fun s => P s.epochs := by
  refine .bind (.bind .get fun s => ?_) fun popped => ?_
  · cases s.oplog with
    | nil => exact .pure _
    | cons op ops => exact .bind (.modify fun _ hs => hs) fun _ => .pure _
  cases popped with
  | none => exact .pure _
  | some op =>
      have hrest : Program.Keeps (do
          let currentHeads ← loadView op.view
          hydrateHeads fuel currentHeads
          let _ ← materializeNonempty wd currentHeads
          saveView op.view op.beforeHeads
          hydrateHeads fuel op.beforeHeads
          let restoredState ← materializeNonempty wd op.beforeHeads
          writeStateToWorkingDir wd restoredState
          .modify fun s => { s with redoStack := op :: s.redoStack }
          pure (some op) : RepoM (Option Operation)) fun s => P s.epochs := by
        refine .bind (loadView_keeps _) fun heads => ?_
        refine .bind (hydrateHeads_keeps ignoresCaches_epochs fuel heads) fun _ => ?_
        refine .bind (materializeNonempty_keeps wd heads) fun _ => ?_
        refine .bind (saveView_epochs _ _) fun _ => ?_
        refine .bind (hydrateHeads_keeps ignoresCaches_epochs fuel _) fun _ => ?_
        refine .bind (materializeNonempty_keeps wd _) fun restored => ?_
        refine .bind (writeStateToWorkingDir_keeps wd restored) fun _ => ?_
        exact .bind (.modify fun _ hs => hs) fun _ => .pure _
      refine .ite (.bind (.modify fun s hs => hP _ _ ?_ hs) fun _ => hrest) hrest
      exact fun x y h => FMap.lookup_of_lookup_eraseShared h

/-! ## Commands that add entries -/

omit [Crypto] in
theorem loadPendingRestack_keeps {I : Repo → Prop} : loadPendingRestack.Keeps I := by
  refine .bind .get fun s => ?_
  cases s.pendingRestack with
  | none => exact .throw _
  | some pending => exact .pure _

omit [Crypto] in
theorem newPendingRestack_epochs (desired : List Blake3Hash) :
    (newPendingRestack desired).Keeps fun s => P s.epochs := by
  refine .bind .get fun s => .ite (.throw _) (.ite (.throw _) ?_)
  refine .bind currentViewName_keeps fun view => .bind (loadView_keeps view) fun heads => ?_
  refine .bind (soleHead_keeps view heads) fun oldHead => .ite (.throw _) ?_
  exact .bind (.modify fun _ hs => hs) fun _ => .pure _

theorem restackPlan_epochs (pending : PendingRewrite) :
    (restackPlan pending).Keeps fun s => P s.epochs := by
  refine .bind (.ite (.pure _) (.throw _)) fun _ => .bind (.modify fun _ hs => hs) fun _ => ?_
  refine .bind (loadView_keeps _) fun heads => .ite (.throw _) ?_
  refine .bind signingIdentity_keeps fun signer => .bind .get fun s => ?_
  cases Mutator.reorder s.graph
      pending.clearConflict.withAttemptIncremented.resolvedOrder signer with
  | error e => exact .bind (.modify fun _ hs => hs) fun _ => .throw _
  | ok outcome => exact .pure _

omit [Crypto] in
theorem ensures_plan {α : Type} {p : RepoM α}
    (hp : ∀ {P : FMap Blake3Hash Blake3Hash → Prop}, p.Keeps fun s => P s.epochs) {s : Repo}
    (hs : s.epochs.Acyclic) :
    p.Ensures s (fun a s₁ => s₁.epochs = s.epochs ∧ p s = some (.ok a, s₁))
      fun s₁ => s₁.epochs.Acyclic :=
  (hp (P := fun epochs => epochs = s.epochs) s rfl).run.mono (fun _ _ h => h) fun _ h => h.symm ▸ hs

/-- Committing a rewrite keeps the epoch map acyclic when its overlay does, and a rollback
brings the map from before back. -/
theorem commitRewrite_acyclic (wd : WorkDir) {plan : RewritePlan} {staged : Repo → Repo}
    {failed : RepoError → Repo → Repo} (hstaged : ∀ s, (staged s).epochs = s.epochs)
    (hfailed : ∀ e s, (failed e s).epochs = s.epochs) {s : Repo} (hs : s.epochs.Acyclic)
    (hnew : (plan.rewriteMap ∪ s.epochs).Acyclic) :
    (commitRewrite wd plan staged failed).Ensures s (fun _ s' => s'.epochs.Acyclic)
      fun s' => s'.epochs.Acyclic := by
  have hwrite := writeRewritten_epochs (P := fun m => m = s.epochs) plan.rewritten s rfl
  refine (hwrite.mono (fun _ _ h => h) fun s' h => ?_).bind fun _ s₁ hs₁ => ?_
  · rw [h]
    exact hs
  have hstage : (stageRewriteMetadata plan.command plan.view plan.beforeHeads {plan.newHead}
      plan.rewriteMap).Ensures s₁
        (fun previous s₂ => previous = s.epochs ∧ s₂.epochs = plan.rewriteMap ∪ s.epochs)
        fun s' => s'.epochs.Acyclic :=
    .of_run rfl ⟨hs₁, congrArg (plan.rewriteMap ∪ ·) hs₁⟩
  refine hstage.bind fun previous s₂ h₂ => ?_
  obtain ⟨rfl, hs₂⟩ := h₂
  have hmodify : (Program.modify staged : RepoM Unit).Ensures s₂
      (fun _ s₃ => s₃.epochs = plan.rewriteMap ∪ s.epochs) fun s' => s'.epochs.Acyclic :=
    Program.ensures_modify.mpr ((hstaged s₂).trans hs₂)
  refine hmodify.bind fun _ s₃ hs₃ => ?_
  have hsave : (saveView plan.view {plan.newHead}).Ensures s₃
      (fun _ s₄ => s₄.epochs = plan.rewriteMap ∪ s.epochs) fun s' => s'.epochs.Acyclic :=
    Program.ensures_modify.mpr hs₃
  refine hsave.bind fun _ s₄ hs₄ => ?_
  have hcheckout := checkoutView_keeps (I := fun t => t.epochs = plan.rewriteMap ∪ s.epochs) wd
    plan.view s₄ hs₄
  refine (hcheckout.onError fun e s' _ => ?_).bind fun _ s₅ hs₅ => ?_
  · rw [hfailed]
    exact hs
  · refine Program.ensures_pure.mpr ?_
    rw [hs₅]
    exact hnew

omit [Crypto] in
theorem persistRewriteMap_epochs {rewriteMap m : FMap Blake3Hash Blake3Hash} {E : Repo → Prop}
    {s : Repo} (hs : s.epochs = m) :
    (persistRewriteMap rewriteMap).Ensures s (fun _ s' => s'.epochs = rewriteMap ∪ m) E :=
  Program.ensures_modify.mpr (congrArg (rewriteMap ∪ ·) hs)

omit [Crypto] in
theorem ensures_acyclic {α : Type} {p : RepoM α}
    (hp : ∀ {P : FMap Blake3Hash Blake3Hash → Prop}, p.Keeps fun s => P s.epochs) {s₁ : Repo}
    {m : FMap Blake3Hash Blake3Hash} (hm : m.Acyclic) (hs₁ : s₁.epochs = m) :
    p.Ensures s₁ (fun _ s₂ => s₂.epochs = m) fun s₂ => s₂.epochs.Acyclic :=
  (hp (P := fun epochs => epochs = m) s₁ hs₁).mono (fun _ _ h => h) fun _ h => h.symm ▸ hm

end Repo

namespace Step

open Repo

variable [Crypto]

/-- The ids that the step writes do not lead back, through the epoch map, to the ids that it
replaces by them. -/
def RedirectsForward (step : Step) (s : Repo) : Prop :=
  ∀ plan s₁, step.plan s = some (.ok plan, s₁) → FMap.NoFeedback s.epochs plan.replaced

variable {fuel : ℕ} {wd : WorkDir} {s : Repo}

theorem redirectsForward_of_fresh {step : Step}
    (h : ∀ plan s₁, step.plan s = some (.ok plan, s₁) → ∀ o n, plan.replaced.lookup o = some n →
      n ∉ plan.replaced.keys ∧ s.epochs.lookup n = none) : step.RedirectsForward s :=
  fun plan s₁ hplan => FMap.noFeedback_of_fresh (h plan s₁ hplan)

theorem redirectsForward_of_replaced_empty {step : Step}
    (h : ∀ plan s₁, step.plan s = some (.ok plan, s₁) → plan.replaced = ∅) :
    step.RedirectsForward s := by
  refine redirectsForward_of_fresh fun plan s₁ hplan o n hon => ?_
  simp [h plan s₁ hplan] at hon

theorem RedirectsForward.overlay {step : Step} (h : step.RedirectsForward s)
    (hs : s.epochs.Acyclic) (plan : StepPlan) {s₁ : Repo}
    (hplan : step.plan s = some (.ok plan, s₁)) : (plan.replaced ∪ s.epochs).Acyclic :=
  hs.overlay_iff.mpr (h plan s₁ hplan)

theorem amend_acyclic {message : Option String} (hs : s.epochs.Acyclic)
    (h : RedirectsForward ⟨.amend message, wd, fuel⟩ s) :
    (amend fuel wd message).Ensures s (fun _ s' => s'.epochs.Acyclic)
      fun s' => s'.epochs.Acyclic := by
  refine (ensures_plan (amendPlan_keeps ignoresCaches_epochs fuel wd message) hs).bind ?_
  rintro plan s₁ ⟨hs₁, hrun⟩
  have hnew : (plan.rewriteMap ∪ s.epochs).Acyclic :=
    h.overlay hs ⟨plan.rewritten, plan.rewriteMap⟩
      (Program.bind_eq_ok_iff.mpr ⟨plan, s₁, hrun, rfl⟩)
  refine (ensures_acyclic (writeRewritten_epochs _) hs hs₁).bind fun _ s₂ hs₂ => ?_
  refine (persistRewriteMap_epochs hs₂).bind fun _ s₃ hs₃ => ?_
  refine (ensures_acyclic (logOperation_epochs _ _ _ _) hnew hs₃).bind fun _ s₄ hs₄ => ?_
  refine (ensures_acyclic (saveView_epochs _ _) hnew hs₄).bind fun _ s₅ hs₅ => ?_
  refine (ensures_acyclic (checkoutView_keeps wd _) hnew hs₅).bind fun _ s₆ hs₆ => ?_
  refine Program.ensures_pure.mpr ?_
  rw [hs₆]
  exact hnew

theorem compact_acyclic (hs : s.epochs.Acyclic) (h : RedirectsForward ⟨.compact, wd, fuel⟩ s) :
    (compact fuel wd).Ensures s (fun _ s' => s'.epochs.Acyclic) fun s' => s'.epochs.Acyclic := by
  refine (ensures_plan (compactPlan_keeps ignoresCaches_epochs fuel wd) hs).bind ?_
  rintro plan s₁ ⟨hs₁, hrun⟩
  have hnew : (FMap.constOn plan.stable plan.genesis.id ∪ s.epochs).Acyclic :=
    h.overlay hs ⟨[plan.genesis], FMap.constOn plan.stable plan.genesis.id⟩
      (Program.bind_eq_ok_iff.mpr ⟨plan, s₁, hrun, rfl⟩)
  refine (ensures_acyclic (writeChange_epochs _) hs hs₁).bind fun _ s₂ hs₂ => ?_
  refine (ensures_acyclic (graphAddChange_epochs _) hs hs₂).bind fun _ s₃ hs₃ => ?_
  refine (persistRewriteMap_epochs hs₃).bind fun _ s₄ hs₄ => ?_
  refine (ensures_acyclic (repointViews_epochs _ _ _) hnew hs₄).bind fun _ s₅ hs₅ => ?_
  have hdelete : (deleteObjects plan.stable).Ensures s₅
      (fun _ s₆ => s₆.epochs = FMap.constOn plan.stable plan.genesis.id ∪ s.epochs)
      fun s' => s'.epochs.Acyclic := Program.ensures_modify.mpr hs₅
  refine hdelete.bind fun _ s₆ hs₆ => ?_
  refine Program.ensures_pure.mpr ?_
  rw [hs₆]
  exact hnew

theorem commitPlan_acyclic {p : RepoM RewritePlan}
    (hp : ∀ {P : FMap Blake3Hash Blake3Hash → Prop}, p.Keeps fun s => P s.epochs)
    (hs : s.epochs.Acyclic)
    (hnew : ∀ plan s₁, p s = some (.ok plan, s₁) → (plan.rewriteMap ∪ s.epochs).Acyclic) :
    (p >>= fun plan => commitRewrite wd plan id fun _ => id).Ensures s
      (fun _ s' => s'.epochs.Acyclic) fun s' => s'.epochs.Acyclic := by
  refine (ensures_plan hp hs).bind ?_
  rintro plan s₁ ⟨hs₁, hrun⟩
  apply commitRewrite_acyclic wd (fun _ => rfl) (fun _ _ => rfl)
  · exact hs₁.symm ▸ hs
  · exact hs₁.symm ▸ hnew plan s₁ hrun

theorem squashInto_acyclic {targetId : Blake3Hash} (hs : s.epochs.Acyclic)
    (h : RedirectsForward ⟨.squashInto targetId, wd, fuel⟩ s) :
    (squashInto wd targetId).Ensures s (fun _ s' => s'.epochs.Acyclic)
      fun s' => s'.epochs.Acyclic := by
  refine commitPlan_acyclic (squashPlan_keeps targetId) hs fun plan s₁ hrun => ?_
  exact h.overlay hs ⟨plan.rewritten, plan.rewriteMap⟩
    (Program.bind_eq_ok_iff.mpr ⟨plan, s₁, hrun, rfl⟩)

theorem reorder_acyclic {desired : List Blake3Hash} (hs : s.epochs.Acyclic)
    (h : RedirectsForward ⟨.reorder desired, wd, fuel⟩ s) :
    (reorder wd desired).Ensures s (fun _ s' => s'.epochs.Acyclic)
      fun s' => s'.epochs.Acyclic := by
  refine commitPlan_acyclic (reorderPlan_keeps desired) hs fun plan s₁ hrun => ?_
  exact h.overlay hs ⟨plan.rewritten, plan.rewriteMap⟩
    (Program.bind_eq_ok_iff.mpr ⟨plan, s₁, hrun, rfl⟩)

theorem executePendingRestack_acyclic {pending : PendingRewrite} {s₁ : Repo}
    (hs : s.epochs.Acyclic) (hs₁ : s₁.epochs = s.epochs)
    (hnew : ∀ plan next s₂, restackPlan pending s₁ = some (.ok (plan, next), s₂) →
      (plan.rewriteMap ∪ s.epochs).Acyclic) :
    (executePendingRestack wd pending).Ensures s₁ (fun _ s' => s'.epochs.Acyclic)
      fun s' => s'.epochs.Acyclic := by
  refine (ensures_plan (restackPlan_epochs pending) (hs₁.symm ▸ hs)).bind ?_
  rintro ⟨plan, next⟩ s₂ ⟨hs₂, hrun⟩
  have hcommit : (commitRewrite wd plan (savePendingRestack (next.withRewriteMap plan.rewriteMap))
      fun e => savePendingRestack ((next.withRewriteMap plan.rewriteMap).withConflict e)).Ensures s₂
        (fun _ s' => s'.epochs.Acyclic) fun s' => s'.epochs.Acyclic := by
    apply commitRewrite_acyclic wd
    · exact fun _ => rfl
    · exact fun _ _ => rfl
    · rw [hs₂, hs₁]
      exact hs
    · rw [hs₂, hs₁]
      exact hnew plan next s₂ hrun
  refine hcommit.bind fun newHead s₃ hs₃ => ?_
  have hclear : clearPendingRestack.Ensures s₃ (fun _ s' => s'.epochs.Acyclic)
      fun s' => s'.epochs.Acyclic := Program.ensures_modify.mpr hs₃
  exact hclear.bind fun _ s₄ hs₄ => Program.ensures_pure.mpr hs₄

theorem restack_acyclic {desired : List Blake3Hash} (hs : s.epochs.Acyclic)
    (h : RedirectsForward ⟨.restack desired, wd, fuel⟩ s) :
    (restack wd desired).Ensures s (fun _ s' => s'.epochs.Acyclic)
      fun s' => s'.epochs.Acyclic := by
  refine (ensures_plan (newPendingRestack_epochs desired) hs).bind ?_
  rintro pending s₁ ⟨hs₁, hpending⟩
  refine executePendingRestack_acyclic hs hs₁ fun plan next s₂ hrun => ?_
  exact h.overlay hs ⟨plan.rewritten, plan.rewriteMap⟩
    (Program.bind_eq_ok_iff.mpr ⟨pending, s₁, hpending,
      Program.bind_eq_ok_iff.mpr ⟨(plan, next), s₂, hrun, rfl⟩⟩)

theorem restackContinue_acyclic (hs : s.epochs.Acyclic)
    (h : RedirectsForward ⟨.restackContinue, wd, fuel⟩ s) :
    (restackContinue wd).Ensures s (fun _ s' => s'.epochs.Acyclic)
      fun s' => s'.epochs.Acyclic := by
  have hload : loadPendingRestack.Keeps fun t => t = s := loadPendingRestack_keeps
  refine ((hload s rfl).run.mono (fun _ _ h => h) fun _ he => he.symm ▸ hs).bind ?_
  rintro pending s ⟨rfl, hpending⟩
  have hvalid : (validatePendingRestack pending).Keeps fun t => t = s :=
    .ite (.pure _) (.throw _)
  refine ((hvalid s rfl).mono (fun _ _ h => h) fun _ he => he.symm ▸ hs).bind ?_
  rintro - s rfl
  refine executePendingRestack_acyclic hs rfl fun plan next s₂ hrun => ?_
  exact h.overlay hs ⟨plan.rewritten, plan.rewriteMap⟩
    (Program.bind_eq_ok_iff.mpr ⟨pending, s, hpending,
      Program.bind_eq_ok_iff.mpr ⟨(plan, next), s₂, hrun, rfl⟩⟩)

theorem diffeditApply_acyclic {message : Option String} (hs : s.epochs.Acyclic)
    (h : RedirectsForward ⟨.diffeditApply message, wd, fuel⟩ s) :
    (diffeditApply wd message).Ensures s (fun _ s' => s'.epochs.Acyclic)
      fun s' => s'.epochs.Acyclic := by
  refine (ensures_plan (diffeditChange_keeps ignoresCaches_epochs wd message) hs).bind ?_
  rintro ⟨targetId, newChange⟩ s₁ ⟨hs₁, hrun⟩
  have hnew : FMap.Acyclic (Finmap.singleton targetId newChange.id ∪ s.epochs) :=
    h.overlay hs ⟨[newChange], Finmap.singleton targetId newChange.id⟩
      (Program.bind_eq_ok_iff.mpr ⟨(targetId, newChange), s₁, hrun, rfl⟩)
  refine (ensures_acyclic (writeRewritten_epochs _) hs hs₁).bind fun _ s₂ hs₂ => ?_
  refine (ensures_acyclic currentViewName_keeps hs hs₂).bind fun view s₃ hs₃ => ?_
  refine (ensures_acyclic (loadView_keeps view) hs hs₃).bind fun heads s₄ hs₄ => ?_
  have hcommit : (commitRewrite wd ⟨"diffedit", view, heads, [],
      Finmap.singleton targetId newChange.id, newChange.id⟩ id fun _ => id).Ensures s₄
        (fun _ s' => s'.epochs.Acyclic) fun s' => s'.epochs.Acyclic := by
    apply commitRewrite_acyclic wd (fun _ => rfl) (fun _ _ => rfl)
    · exact hs₄.symm ▸ hs
    · exact hs₄.symm ▸ hnew
  refine hcommit.bind fun newId s₅ hs₅ => ?_
  have hclear : (Program.modify fun s => { s with diffeditTarget := none } : RepoM Unit).Ensures s₅
      (fun _ s' => s'.epochs.Acyclic) fun s' => s'.epochs.Acyclic := Program.ensures_modify.mpr hs₅
  exact hclear.bind fun _ s₆ hs₆ => Program.ensures_pure.mpr hs₆

theorem program_acyclic (step : Step) (h : step.RedirectsForward s) (hs : s.epochs.Acyclic) :
    step.program.Ensures s (fun _ s' => s'.epochs.Acyclic) fun s' => s'.epochs.Acyclic := by
  have hdrop : ∀ {α : Type} {p : RepoM α},
      (p.Ensures s (fun _ s' => s'.epochs.Acyclic) fun s' => s'.epochs.Acyclic) →
      (p >>= fun _ => pure ()).Ensures s (fun _ s' => s'.epochs.Acyclic)
        fun s' => s'.epochs.Acyclic :=
    fun hp => hp.bind fun _ _ hs' => Program.ensures_pure.mpr hs'
  obtain ⟨command, wd, fuel⟩ := step
  cases command with
  | reopen => exact Program.ensures_modify.mpr hs
  | setIdentity author signingKey => exact Program.ensures_modify.mpr hs
  | snap message stage =>
      exact hdrop (snap_epochs (P := FMap.Acyclic) fuel wd message stage s hs)
  | createView name => exact createView_epochs (P := FMap.Acyclic) name s hs
  | switchView target => exact switchView_epochs (P := FMap.Acyclic) fuel wd target s hs
  | mergeHeads target => exact mergeHeads_epochs (P := FMap.Acyclic) fuel wd target s hs
  | undo => exact hdrop (undo_epochs (fun _ _ hsub hm => hm.anti hsub) fuel wd s hs)
  | amend message => exact hdrop (amend_acyclic hs h)
  | squashInto targetId => exact hdrop (squashInto_acyclic hs h)
  | reorder desired => exact hdrop (reorder_acyclic hs h)
  | restack desired => exact hdrop (restack_acyclic hs h)
  | restackContinue => exact hdrop (restackContinue_acyclic hs h)
  | restackAbort => exact restackAbort_epochs (P := FMap.Acyclic) fuel wd s hs
  | diffeditPrepare targetId => exact diffeditPrepare_epochs (P := FMap.Acyclic) wd targetId s hs
  | diffeditApply message => exact hdrop (diffeditApply_acyclic hs h)
  | compact => exact hdrop (compact_acyclic hs h)
  | gc => exact hdrop (gc_epochs (P := FMap.Acyclic) s hs)

end Step

/-! ## Runs -/

/-- Following the epoch map ends at an unmapped id, and hydration ends from an empty graph. -/
structure HydrationEnds (s : Repo) : Prop where
  resolves : ∀ id, ∃ n, s.epochs.lookup (s.epochs.resolve n id) = none
  ends : ∀ heads, ∃ fuel out, Repo.hydrateGraph fuel s.store s.epochs .new heads = some out

theorem HydrationEnds.of_acyclic {s : Repo} (hs : s.epochs.Acyclic) : HydrationEnds s :=
  ⟨hs.exists_resolve, exists_hydrateGraph hs .new⟩

section Runs

variable [Crypto]

/-- The states that a list of steps goes through, to the last one. -/
def runSteps : List Step → Repo → Option Repo
  | [], s => some s
  | step :: steps, s => (step.program s).bind fun r => runSteps steps r.2

theorem Reachable.runSteps {allowed : Step → Repo → Prop} {steps : List Step}
    (hall : ∀ step ∈ steps, ∀ s, allowed step s) {s s' : Repo} (hs : Reachable allowed s)
    (hrun : ArcVcs.runSteps steps s = some s') : Reachable allowed s' := by
  induction steps generalizing s with
  | nil =>
      obtain rfl := Option.some_inj.mp hrun
      exact hs
  | cons step steps ih =>
      rw [ArcVcs.runSteps, Option.bind_eq_some_iff] at hrun
      obtain ⟨⟨r, t⟩, hstep, hrun⟩ := hrun
      have hnext : Reachable allowed t := .step step hs (hall step List.mem_cons_self s) ⟨r, hstep⟩
      exact ih (fun step hmem => hall step (.tail _ hmem)) hnext hrun

/-- **Hydration ends after every run of forward steps.** -/
theorem hydrationEnds_of_reachable {s : Repo} (h : Reachable Step.RedirectsForward s) :
    HydrationEnds s := by
  apply HydrationEnds.of_acyclic
  apply h.invariant (I := fun s => s.epochs.Acyclic)
  · exact FMap.Acyclic.empty
  · intro step s hforward hs
    exact step.program_acyclic hforward hs

end Runs

def dirWith (atoms : List Atom) (contents : List Bytes) : WorkDir :=
  { Repo.anyWorkDir with delta := fun _ => .ok (atoms, contents) }

def recordFile : List Step :=
  [⟨.setIdentity (.human "" "" 0) 0, Repo.anyWorkDir, 9⟩,
    ⟨.snap "m" id, dirWith [.insert ["file", "a"] 517] [[1, 2]], 9⟩]

def amendFile : Step :=
  ⟨.amend none, dirWith [.insert ["file", "a"] 517, .insert ["file", "b"] 517] [[1, 2]], 9⟩

theorem recordFile_spec :
    ∃ s, @runSteps Crypto.sample recordFile Repo.init = some s ∧ s.epochs = ∅
      ∧ (((@Step.plan Crypto.sample amendFile s).bind fun r => r.1.toOption).map
        StepPlan.replaced) = some (Finmap.singleton 1106 2103)
      ∧ ((@Step.program Crypto.sample amendFile s).map Prod.snd).any
        (fun s' => decide (s'.epochs.lookup 1106 = some 2103)) = true := by
  have hrun : (@runSteps Crypto.sample recordFile Repo.init).any (fun s => decide (s.epochs = ∅
      ∧ (((@Step.plan Crypto.sample amendFile s).bind fun r => r.1.toOption).map
        StepPlan.replaced) = some (Finmap.singleton 1106 2103)
      ∧ ((@Step.program Crypto.sample amendFile s).map Prod.snd).any
        (fun s' => decide (s'.epochs.lookup 1106 = some 2103)) = true)) = true := by
    decide
  obtain ⟨s, hs, hspec⟩ := (Option.any_eq_true _ _).mp hrun
  exact ⟨s, hs, of_decide_eq_true hspec⟩

/-- The file is recorded and then amended by another one. -/
theorem hydrationEnds_after_amend :
    ∃ s, @Reachable Crypto.sample (@Step.RedirectsForward Crypto.sample) s
      ∧ s.epochs.lookup 1106 = some 2103 ∧ HydrationEnds s := by
  let _ : Crypto := Crypto.sample
  obtain ⟨s, hs, hempty, hplan, hafter⟩ := recordFile_spec
  have hfile : Reachable Step.RedirectsForward s := by
    refine Reachable.init.runSteps (fun step hstep s => ?_) hs
    apply Step.redirectsForward_of_replaced_empty
    intro plan s₁ hrun
    rcases List.mem_cons.mp hstep with rfl | hstep
    · obtain ⟨hplan, -⟩ := Prod.mk.inj (Option.some_inj.mp hrun)
      rw [← Except.ok.inj hplan]
    · obtain rfl := List.mem_singleton.mp hstep
      obtain ⟨commit, s₂, -, hpure⟩ := Program.bind_eq_ok_iff.mp hrun
      obtain ⟨hplan, -⟩ := Prod.mk.inj (Option.some_inj.mp hpure)
      rw [← Except.ok.inj hplan]
  have hforward : Step.RedirectsForward amendFile s := by
    apply Step.redirectsForward_of_fresh
    intro plan s₁ hrun o n hon
    have hreplaced : plan.replaced = Finmap.singleton 1106 2103 := by
      rw [hrun] at hplan
      exact Option.some_inj.mp hplan
    rw [hreplaced, FMap.lookup_singleton] at hon
    rw [hreplaced, hempty]
    split_ifs at hon with ho
    obtain rfl := Option.some_inj.mp hon
    exact ⟨by decide, rfl⟩
  obtain ⟨s', hs', hmap⟩ := (Option.any_eq_true _ _).mp hafter
  obtain ⟨⟨r, s'⟩, htakes, rfl⟩ := Option.map_eq_some_iff.mp hs'
  have hreach : Reachable Step.RedirectsForward s' := .step amendFile hfile hforward ⟨r, htakes⟩
  exact ⟨s', hreach, of_decide_eq_true hmap, hydrationEnds_of_reachable hreach⟩

/-- Amending a change by itself maps its id to itself: a later process that loads the change
never ends. -/
theorem hydration_loops_after_amend :
    ¬ ∀ s, @Reachable Crypto.sample (fun _ _ => True) s → HydrationEnds s := by
  let _ : Crypto := Crypto.sample
  intro h
  have hrun : (runSteps (recordFile ++
      [⟨.amend none, dirWith [.insert ["file", "a"] 517] [[1, 2]], 9⟩]) Repo.init).any
        (fun s => decide (s.epochs.lookup 1106 = some 1106)) = true := by
    decide
  obtain ⟨s, hs, hself⟩ := (Option.any_eq_true _ _).mp hrun
  have hmap : s.epochs.lookup 1106 = some 1106 := of_decide_eq_true hself
  obtain ⟨n, hn⟩ := (h s (Reachable.init.runSteps (fun _ _ _ => trivial) hs)).resolves 1106
  have hstay : ∀ n, s.epochs.resolve n 1106 = 1106 := by
    intro n
    induction n with
    | zero => rfl
    | succ n ih => rw [FMap.resolve, hmap]; exact ih
  rw [hstay n, hmap] at hn
  exact Option.some_ne_none _ hn

end ArcVcs
