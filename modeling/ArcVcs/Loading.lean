import ArcVcs.Command

/-!
# What loading leaves alone

Until a command writes its first change it only loads changes into the graph and puts
content into the blob store. Every predicate of the rest of the repository holds through it.
-/

namespace ArcVcs.Repo

/-- The predicate does not look at the graph and the blobs. -/
def IgnoresCaches (I : Repo → Prop) : Prop :=
  ∀ s g blobs, I s → I { s with graph := g, blobs }

def IgnoresBlobs (I : Repo → Prop) : Prop := ∀ s blobs, I s → I { s with blobs }

variable {I : Repo → Prop}

theorem IgnoresCaches.ignoresBlobs (hI : IgnoresCaches I) : IgnoresBlobs I :=
  fun s blobs => hI s s.graph blobs

theorem loadView_keeps (name : String) : (loadView name).Keeps I := by
  refine .bind .get fun s => ?_
  cases s.views.lookup name with
  | none => exact .throw _
  | some heads => exact .pure _

theorem loadView_ensures {name : String} {s : Repo} {E : Repo → Prop} (hE : E s) :
    (loadView name).Ensures s (fun heads s' => s' = s ∧ s.views.lookup name = some heads) E := by
  refine .get_bind ?_
  cases s.views.lookup name with
  | none => exact Program.ensures_throw.mpr hE
  | some heads => exact Program.ensures_pure.mpr ⟨rfl, rfl⟩

theorem currentViewName_keeps : currentViewName.Keeps I := .bind .get fun _ => .pure _

theorem signingIdentity_keeps : signingIdentity.Keeps I := by
  refine .bind .get fun s => ?_
  cases s.identity with
  | none => exact .throw _
  | some signer => exact .pure _

theorem soleHead_keeps (view : String) (heads : Finset Blake3Hash) :
    (soleHead view heads).Keeps I := by
  unfold soleHead
  split
  · exact .pure _
  · exact .throw _

theorem checkWorkingDirClean_keeps (wd : WorkDir) (state : MaterializedState) :
    (checkWorkingDirClean wd state).Keeps I := .ite (.pure _) (.throw _)

theorem writeStateToWorkingDir_keeps (wd : WorkDir) (state : MaterializedState) :
    (writeStateToWorkingDir wd state).Keeps I := .ite (.pure _) (.throw _)

theorem hydrateHeads_keeps (hI : IgnoresCaches I) (fuel : ℕ) (heads : Finset Blake3Hash) :
    (hydrateHeads fuel heads).Keeps I := by
  intro s hs
  constructor
  · intro a s' hrun
    unfold hydrateHeads at hrun
    rcases hres : hydrateGraph fuel s.store s.epochs s.graph heads with _ | ⟨_ | g⟩
    · simp [hres] at hrun
    · simp [hres] at hrun
    · obtain rfl : { s with graph := g } = s' := by simpa [hres] using hrun
      exact hI s g s.blobs hs
  · intro e s' hrun
    unfold hydrateHeads at hrun
    rcases hres : hydrateGraph fuel s.store s.epochs s.graph heads with _ | ⟨_ | g⟩
    · simp [hres] at hrun
    · obtain ⟨-, rfl⟩ : _ ∧ s = s' := by simpa [hres] using hrun
      exact hs
    · simp [hres] at hrun

theorem hydrate_keeps (hI : IgnoresCaches I) (fuel : ℕ) (view : String) :
    (hydrate fuel view).Keeps I :=
  .bind (loadView_keeps view) fun heads => hydrateHeads_keeps hI fuel heads

theorem putBlob_keeps (hI : IgnoresBlobs I) (hash : Blake3Hash) (bytes : Bytes) :
    (putBlob hash bytes).Keeps I := .modify fun s hs => hI s _ hs

theorem writeBlobAtoms_keeps (hI : IgnoresBlobs I) (wd : WorkDir) (atoms : List Atom) :
    (writeBlobAtoms wd atoms).Keeps I := by
  induction atoms with
  | nil => exact .pure _
  | cons atom atoms ih =>
      cases atom with
      | blob path hash size =>
          rw [writeBlobAtoms]
          cases wd.readFile path with
          | none => exact .throw _
          | some bytes => exact .bind (putBlob_keeps hI hash bytes) fun _ => ih
      | _ => exact ih

variable [Crypto]

theorem writeBlobs_keeps (hI : IgnoresBlobs I) (contents : List Bytes) :
    (writeBlobs contents).Keeps I := by
  induction contents with
  | nil => exact .pure _
  | cons bytes contents ih => exact .bind (putBlob_keeps hI _ bytes) fun _ => ih

theorem materializeHeads_keeps (wd : WorkDir) (heads : Finset Blake3Hash) :
    (materializeHeads wd heads).Keeps I := by
  refine .bind .get fun s => ?_
  cases s.graph.materializeHeads (s.applyEnv wd.agentIgnore) heads with
  | error e => exact .throw _
  | ok state => exact .pure _

theorem materializeNonempty_keeps (wd : WorkDir) (heads : Finset Blake3Hash) :
    (materializeNonempty wd heads).Keeps I := .ite (.pure _) (materializeHeads_keeps wd heads)

theorem materialize_keeps (wd : WorkDir) (view : String) : (materialize wd view).Keeps I :=
  .bind (loadView_keeps view) fun heads => materializeHeads_keeps wd heads

theorem checkoutView_keeps (wd : WorkDir) (view : String) : (checkoutView wd view).Keeps I :=
  .bind (materialize_keeps wd view) fun state => writeStateToWorkingDir_keeps wd state

theorem computeWorkingDirectoryDelta_keeps (hI : IgnoresBlobs I) (wd : WorkDir)
    (state : MaterializedState) : (computeWorkingDirectoryDelta wd state).Keeps I :=
  .bind (.ofExcept _) fun delta => .bind (writeBlobs_keeps hI delta.2) fun _ => .pure _

/-! ## Plans -/

theorem snapPlan_keeps (hI : IgnoresCaches I) (fuel : ℕ) (wd : WorkDir) (message : String)
    (stage : List Atom → List Atom) : (snapPlan fuel wd message stage).Keeps I := by
  refine .bind .get fun s => .ite (.throw _) ?_
  refine .bind currentViewName_keeps fun view => ?_
  refine .bind (hydrate_keeps hI fuel view) fun _ => ?_
  refine .bind (materialize_keeps wd view) fun state => ?_
  refine .bind (computeWorkingDirectoryDelta_keeps hI.ignoresBlobs wd state) fun rawAtoms =>
    .ite (.pure _) ?_
  refine .bind (loadView_keeps view) fun heads => ?_
  refine .bind signingIdentity_keeps fun signer => ?_
  exact .bind (writeBlobAtoms_keeps hI.ignoresBlobs wd (stage rawAtoms)) fun _ => .pure _

theorem mergePlan_keeps (hI : IgnoresCaches I) (fuel : ℕ) (wd : WorkDir)
    (target : Finset Blake3Hash) : (mergePlan fuel wd target).Keeps I := by
  refine .bind currentViewName_keeps fun view => ?_
  refine .bind (hydrate_keeps hI fuel view) fun _ => ?_
  refine .bind (hydrateHeads_keeps hI fuel target) fun _ => ?_
  refine .bind (loadView_keeps view) fun current => ?_
  refine .bind (materializeHeads_keeps wd current) fun state => ?_
  refine .bind (checkWorkingDirClean_keeps wd state) fun _ => ?_
  refine .bind .get fun s => ?_
  rcases s.graph.mergePlan (s.applyEnv wd.agentIgnore) current target state with
    e | _ | ⟨pairs, states, paths⟩
  · exact .throw _
  · exact .pure _
  · refine .bind (.bind (writeBlobs_keeps hI.ignoresBlobs _) fun _ => ?_) fun _ => .pure _
    exact .bind signingIdentity_keeps fun _ => .pure _

theorem amendPlan_keeps (hI : IgnoresCaches I) (fuel : ℕ) (wd : WorkDir)
    (message : Option String) : (amendPlan fuel wd message).Keeps I := by
  refine .bind currentViewName_keeps fun view => ?_
  refine .bind (hydrate_keeps hI fuel view) fun _ => ?_
  refine .bind (loadView_keeps view) fun heads => ?_
  refine .bind (soleHead_keeps view heads) fun oldHead => ?_
  refine .bind .get fun s => ?_
  refine .bind (.ofExcept _) fun parent => ?_
  refine .bind (hydrateHeads_keeps hI fuel parent.deps) fun _ => ?_
  refine .bind (materializeHeads_keeps wd parent.deps) fun state => ?_
  refine .bind (computeWorkingDirectoryDelta_keeps hI.ignoresBlobs wd state) fun delta =>
    .ite (.throw _) ?_
  refine .bind signingIdentity_keeps fun signer => ?_
  exact .bind (writeBlobAtoms_keeps hI.ignoresBlobs wd delta) fun _ => .pure _

theorem squashPlan_keeps (targetId : Blake3Hash) : (squashPlan targetId).Keeps I := by
  refine .bind currentViewName_keeps fun view => ?_
  refine .bind (loadView_keeps view) fun heads => ?_
  refine .bind (soleHead_keeps view heads) fun _ => ?_
  refine .bind signingIdentity_keeps fun signer => .bind .get fun s => ?_
  cases Mutator.squashInto s.graph heads targetId signer with
  | error e => exact .throw _
  | ok outcome => exact .pure _

theorem reorderPlan_keeps (desired : List Blake3Hash) : (reorderPlan desired).Keeps I := by
  refine .ite (.throw _) ?_
  refine .bind currentViewName_keeps fun view => ?_
  refine .bind (loadView_keeps view) fun heads => ?_
  refine .bind (soleHead_keeps view heads) fun oldHead => .ite (.throw _) ?_
  refine .bind signingIdentity_keeps fun signer => .bind .get fun s => ?_
  cases Mutator.reorder s.graph desired signer with
  | error e => exact .throw _
  | ok outcome => exact .pure _

theorem diffeditChange_keeps (hI : IgnoresCaches I) (wd : WorkDir) (message : Option String) :
    (diffeditChange wd message).Keeps I := by
  refine .bind .get fun s => ?_
  cases s.diffeditTarget with
  | none => exact .throw _
  | some targetId =>
      dsimp only
      cases s.graph.get targetId with
      | none => exact .throw _
      | some target =>
          refine .bind (materializeHeads_keeps wd {targetId}) fun state => ?_
          refine .bind (computeWorkingDirectoryDelta_keeps hI.ignoresBlobs wd state) fun atoms =>
            .ite (.throw _) ?_
          exact .bind signingIdentity_keeps fun _ => .pure _

omit [Crypto] in
theorem viewAncestors_keeps (hI : IgnoresCaches I) (fuel : ℕ) (names : List String) :
    (viewAncestors fuel names).Keeps I := by
  induction names with
  | nil => exact .pure _
  | cons name names ih =>
      refine .bind (loadView_keeps name) fun heads => ?_
      refine .bind (hydrateHeads_keeps hI fuel heads) fun _ => ?_
      exact .bind .get fun s => .bind ih fun rest => .pure _

theorem compactPlan_keeps (hI : IgnoresCaches I) (fuel : ℕ) (wd : WorkDir) :
    (compactPlan fuel wd).Keeps I := by
  refine .bind .get fun s => .bind (viewAncestors_keeps hI fuel _) fun ancestors => ?_
  refine .ite (.throw _) (.bind .get fun hydrated => ?_)
  refine .bind (hydrateHeads_keeps hI fuel _) fun _ => ?_
  refine .bind (materializeHeads_keeps wd _) fun state => ?_
  refine .bind (writeBlobs_keeps hI.ignoresBlobs _) fun _ => ?_
  exact .bind signingIdentity_keeps fun _ => .pure _

end ArcVcs.Repo
