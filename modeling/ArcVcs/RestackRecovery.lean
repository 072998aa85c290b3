import ArcVcs.Hydration
import ArcVcs.ReorderSteps
import ArcVcs.Rewrites

/-!
# An interrupted restack

`restack` makes its writes one after another, and the process may stop between any two of
them. A later process can abort exactly as long as the epoch map was not written: then the
original heads are redirected away and no process loads them again.
-/

namespace ArcVcs

namespace Mutator

/-! ## What a reorder looks at -/

section Congr

variable {g g' : ChangeGraph} {selected : Finset Blake3Hash}

theorem parentsInSelected_congr (hg : g.Indexed) (hg' : g'.Indexed) {id : Blake3Hash}
    (h : g'.get id = g.get id) :
    parentsInSelected g' selected id = parentsInSelected g selected id := by
  have hdeps : g'.deps id = g.deps id := by
    rw [ChangeGraph.deps, ChangeGraph.deps, hg.edges_eq, hg'.edges_eq, h]
  rw [parentsInSelected, parentsInSelected, ChangeGraph.parentIds, ChangeGraph.parentIds, hdeps]

theorem childrenInSelected_congr (hg : g.Indexed) (hg' : g'.Indexed)
    (h : ∀ id ∈ selected, g'.get id = g.get id) (id : Blake3Hash) :
    childrenInSelected g' selected id = childrenInSelected g selected id := by
  rw [childrenInSelected, childrenInSelected, ChangeGraph.childIds, ChangeGraph.childIds,
    Finset.filter_sorted, Finset.filter_sorted]
  apply congrArg Finset.sorted
  ext x
  rw [Finset.mem_filter, Finset.mem_filter, hg.mem_children, hg'.mem_children]
  refine and_congr_left fun hx => ?_
  rw [ChangeGraph.deps, ChangeGraph.deps, hg.edges_eq, hg'.edges_eq, h x hx]

theorem walkChain_congr (hg : g.Indexed) (hg' : g'.Indexed)
    (h : ∀ id ∈ selected, g'.get id = g.get id) (fuel : ℕ) (current : Blake3Hash)
    (ordered : List Blake3Hash) :
    walkChain g' selected fuel current ordered = walkChain g selected fuel current ordered := by
  induction fuel generalizing current ordered with
  | zero => rfl
  | succ fuel ih =>
      rw [walkChain, walkChain, childrenInSelected_congr hg hg' h]
      split_ifs
      · rfl
      · cases childrenInSelected g selected current with
        | nil => rfl
        | cons child rest => exact ih child _

theorem resolveLinearChain_congr (hg : g.Indexed) (hg' : g'.Indexed)
    (h : ∀ id ∈ selected, g'.get id = g.get id) :
    resolveLinearChain g' selected = resolveLinearChain g selected := by
  have hparents : ∀ id ∈ selected.sorted,
      parentsInSelected g' selected id = parentsInSelected g selected id := fun id hid =>
    parentsInSelected_congr hg hg' (h id (Finset.mem_sorted.mp hid))
  have hany : (selected.sorted.any fun id => 1 < (parentsInSelected g' selected id).length
        || 1 < (childrenInSelected g' selected id).length)
      = selected.sorted.any fun id => 1 < (parentsInSelected g selected id).length
        || 1 < (childrenInSelected g selected id).length := by
    rw [Bool.eq_iff_iff, List.any_eq_true, List.any_eq_true]
    refine exists_congr fun id => and_congr_right fun hid => ?_
    rw [hparents id hid, childrenInSelected_congr hg hg' h]
  have hroots : (selected.sorted.filter fun id => (parentsInSelected g' selected id).isEmpty)
      = selected.sorted.filter fun id => (parentsInSelected g selected id).isEmpty :=
    List.filter_congr fun id hid => by rw [hparents id hid]
  unfold resolveLinearChain
  simp only [hany, hroots, walkChain_congr hg hg' h]

/-- **A reorder depends on the selected changes only.** -/
theorem reorder_congr [Crypto] (hg : g.Indexed) (hg' : g'.Indexed) {desired : List Blake3Hash}
    (h : ∀ id ∈ desired, g'.get id = g.get id) (signer : Author × SigningKey) :
    reorder g' desired signer = reorder g desired signer := by
  have hchain : resolveLinearChain g' desired.toFinset = resolveLinearChain g desired.toFinset :=
    resolveLinearChain_congr hg hg' fun id hid => h id (List.mem_toFinset.mp hid)
  have hany : (desired.any fun id => (g'.get id).isNone)
      = desired.any fun id => (g.get id).isNone := by
    rw [Bool.eq_iff_iff, List.any_eq_true, List.any_eq_true]
    refine exists_congr fun id => and_congr_right fun hid => ?_
    rw [h id hid]
  unfold reorder
  rw [hchain, hany]
  split_ifs
  · rfl
  · rfl
  · cases resolveLinearChain g desired.toFinset with
    | error e => rfl
    | ok order =>
        dsimp only
        split_ifs with hsame
        · rfl
        · have hworking : workingChanges g' order = workingChanges g order := by
            refine List.filterMap_congr fun id hid => ?_
            rw [h id (List.mem_toFinset.mp (not_not.mp hsame ▸ List.mem_toFinset.mpr hid))]
          rw [hworking]

end Congr

variable [Crypto] {signer : Author × SigningKey} {selected : Finset Blake3Hash}

theorem mem_keys_rewriteChain {ws : List WorkingChange} {raw : FMap Blake3Hash Blake3Hash}
    {prev : Option Blake3Hash} {o : Blake3Hash} (ho : o ∈ ws.map WorkingChange.origin) :
    o ∈ (rewriteChain selected signer ws raw prev).2.keys := by
  induction ws generalizing raw prev with
  | nil => simp at ho
  | cons w ws ih =>
      by_cases hlater : o ∈ ws.map WorkingChange.origin
      · exact ih hlater
      · obtain rfl : o = w.origin := by simpa [hlater] using ho
        rw [rewriteChain]
        dsimp only
        rw [FMap.mem_keys_iff]
        exact ⟨_, by rw [lookup_rewriteChain_of_notMem hlater, FMap.lookup_insert_eq, if_pos rfl]⟩

theorem mem_keys_of_reorder {g : ChangeGraph} {desired : List Blake3Hash} {out : ReorderOutcome}
    (h : reorder g desired signer = .ok out) {id : Blake3Hash} (hid : id ∈ desired) :
    id ∈ out.rewriteMap.keys := by
  obtain ⟨-, -, chain, working, -, -, horigins, -, hmap, -⟩ := reorder_eq_ok h
  rw [hmap]
  exact mem_keys_rewriteChain (horigins ▸ hid)

end Mutator

namespace Repo

variable [Crypto]

/-! ## The writes of a restack -/

def storeChange (change : Change) (s : Repo) : Repo :=
  { s with store := s.store.putOnce change.id change }

def checkpointWrites (pending : PendingRewrite) : List (Repo → Repo) :=
  [savePendingRestack pending,
    savePendingRestack pending.clearConflict.withAttemptIncremented]

def writeEpochs (plan : RewritePlan) (s : Repo) : Repo :=
  { s with epochs := plan.rewriteMap ∪ s.epochs }

/-- What follows the epoch map: the operation log, the checkpoint with its bindings, the view. -/
def laterWrites (pending : PendingRewrite) (plan : RewritePlan) : List (Repo → Repo) :=
  [fun s => { s with oplog := ⟨plan.command, .rewrite, plan.view, plan.beforeHeads, {plan.newHead},
      plan.rewriteMap⟩ :: s.oplog },
    savePendingRestack (pending.withRewriteMap plan.rewriteMap),
    fun s => { s with views := s.views.insert plan.view {plan.newHead} }]

def commitWrites (pending : PendingRewrite) (plan : RewritePlan) : List (Repo → Repo) :=
  plan.rewritten.map storeChange ++ writeEpochs plan :: laterWrites pending plan

/-- The durable writes of `restack` in order, up to the removal of the checkpoint. -/
def restackWrites (desired : List Blake3Hash) (s : Repo) : List (Repo → Repo) :=
  match newPendingRestack desired s with
  | some (.ok pending, s₁) =>
      checkpointWrites pending ++
        match restackPlan pending s₁ with
        | some (.ok (plan, attempted), _) => commitWrites attempted plan
        | some (.error (.mutator e), _) =>
            [savePendingRestack (pending.clearConflict.withAttemptIncremented.withConflict
              (.mutator e))]
        | _ => []
  | _ => []

/-- A new process on the same repository, run by the same user. -/
def newProcess (s : Repo) : Repo := { s with graph := .new }

/-- What a new process finds when the restack stopped after write `k`, counted from 0. -/
def stopAfter (desired : List Blake3Hash) (k : ℕ) (s : Repo) : Repo :=
  (Program.applyWrites ((s.restackWrites desired).take (k + 1)) s).newProcess

/-! ## Recovery -/

/-- A new process materializes the view to this state. -/
def Shows (wd : WorkDir) (s : Repo) (view : String) (state : MaterializedState) : Prop :=
  ∃ fuel s', (hydrate fuel view >>= fun _ => materialize wd view) s.newProcess
    = some (.ok state, s')

/-- `restack_abort` succeeds on `t`, and the current view has the heads that it had in `s`,
which show the same state. -/
def AbortRestores (wd : WorkDir) (s t : Repo) : Prop :=
  ∃ heads state fuel t', s.views.lookup s.head = some heads ∧ s.Shows wd s.head state
    ∧ restackAbort fuel wd t = some (.ok (), t') ∧ t'.views.lookup s.head = some heads
    ∧ t'.Shows wd s.head state

/-- Wherever `restack_continue` succeeds after `t`, with whatever part of the history the process
has loaded, it ends with the head of the uninterrupted run. -/
def ContinuesAlike (desired : List Blake3Hash) (s t : Repo) : Prop :=
  ∀ wd newHead s', restack wd desired s = some (.ok newHead, s') →
    ∀ t₁, Relation.ReflTransGen
      (fun t t' => ∃ fuel heads, hydrateHeads fuel heads t = some (.ok (), t')) t t₁ →
    ∀ wd' head t₂, restackContinue wd' t₁ = some (.ok head, t₂) → head = newHead

structure Recovers (wd : WorkDir) (desired : List Blake3Hash) (s t : Repo) : Prop where
  abort : AbortRestores wd s t
  continue_ : ContinuesAlike desired s t

/-! ## Runs of the restack -/

variable {s s' : Repo} {desired : List Blake3Hash} {pending : PendingRewrite}

omit [Crypto] in
theorem newPendingRestack_eq_ok (h : newPendingRestack desired s = some (.ok pending, s')) :
    ∃ head, s.views.lookup s.head = some {head} ∧ head ∈ desired
      ∧ pending = PendingRewrite.newRestack s.head {head} desired
      ∧ s' = savePendingRestack pending s := by
  unfold newPendingRestack at h
  obtain ⟨_, _, hget, h⟩ := Program.bind_eq_ok_iff.mp h
  cases hget
  split_ifs at h
  · simp [Program.throw] at h
  · simp [Program.throw] at h
  · obtain ⟨view, _, hview, h⟩ := Program.bind_eq_ok_iff.mp h
    cases hview
    obtain ⟨heads, _, hload, h⟩ := Program.bind_eq_ok_iff.mp h
    obtain ⟨hheads, rfl⟩ := loadView_eq_ok_iff.mp hload
    obtain ⟨head, _, hsole, h⟩ := Program.bind_eq_ok_iff.mp h
    obtain ⟨rfl, rfl⟩ := soleHead_eq_ok hsole
    split_ifs at h with hmem
    · cases h
      exact ⟨head, hheads, hmem, rfl, rfl⟩
    · simp [Program.throw] at h

omit [Crypto] in
theorem resolvedOrder_of_empty (h : pending.rewriteMap = ∅) :
    pending.resolvedOrder = pending.desiredOrder := by
  rw [PendingRewrite.resolvedOrder, h]
  refine (List.map_congr_left fun id _ => ?_).trans (List.map_id _)
  rfl

theorem restackPlan_eq_ok {plan : RewritePlan} {attempted : PendingRewrite}
    (h : restackPlan pending s = some (.ok (plan, attempted), s')) :
    attempted = pending.clearConflict.withAttemptIncremented
      ∧ s' = savePendingRestack attempted s
      ∧ s.views.lookup pending.view = some pending.beforeHeads
      ∧ ∃ signer out, s.identity = some signer
        ∧ Mutator.reorder s.graph pending.resolvedOrder signer = .ok out
        ∧ plan = ⟨"restack", pending.view, pending.beforeHeads, out.rewritten, out.rewriteMap,
          out.newHead⟩ := by
  unfold restackPlan at h
  obtain ⟨_, _, hvalid, h⟩ := Program.bind_eq_ok_iff.mp h
  unfold validatePendingRestack at hvalid
  split_ifs at hvalid
  case neg => simp [Program.throw] at hvalid
  cases hvalid
  obtain ⟨_, _, hsave, h⟩ := Program.bind_eq_ok_iff.mp h
  cases hsave
  obtain ⟨heads, _, hload, h⟩ := Program.bind_eq_ok_iff.mp h
  obtain ⟨hheads, rfl⟩ := loadView_eq_ok_iff.mp hload
  split_ifs at h with hsame
  · simp [Program.throw] at h
  · obtain rfl := not_not.mp hsame
    obtain ⟨signer, _, hsign, h⟩ := Program.bind_eq_ok_iff.mp h
    obtain ⟨hsigner, rfl⟩ := signingIdentity_eq_ok hsign
    obtain ⟨_, _, hget, h⟩ := Program.bind_eq_ok_iff.mp h
    cases hget
    generalize hout : Mutator.reorder _ _ signer = out at h
    cases out with
    | error e =>
        obtain ⟨_, _, -, h⟩ := Program.bind_eq_ok_iff.mp h
        simp [Program.throw] at h
    | ok out =>
        cases h
        exact ⟨rfl, rfl, hheads, signer, out, hsigner, hout, rfl⟩

omit [Crypto] in
theorem applyWrites_storeChange (changes : List Change) (s : Repo) :
    Program.applyWrites (changes.map storeChange) s
      = { s with store := changes.foldl (fun store c => store.putOnce c.id c) s.store } := by
  induction changes generalizing s with
  | nil => rfl
  | cons c cs ih => rw [List.map_cons, Program.applyWrites_cons, ih, storeChange, List.foldl_cons]

omit [Crypto] in
theorem writeRewritten_run (changes : List Change) (s : Repo) :
    writeRewritten changes s = some (.ok (),
      { Program.applyWrites (changes.map storeChange) s with
        graph := s.graph.addAll changes }) := by
  rw [applyWrites_storeChange]
  induction changes generalizing s with
  | nil => rfl
  | cons c cs ih => exact ih { storeChange c s with graph := s.graph.addChange c }

theorem executePendingRestack_eq_ok {wd : WorkDir} {newHead : Blake3Hash}
    (h : executePendingRestack wd pending s = some (.ok newHead, s')) :
    ∃ plan attempted s₁, restackPlan pending s = some (.ok (plan, attempted), s₁)
      ∧ newHead = plan.newHead
      ∧ s'.newProcess = { Program.applyWrites (commitWrites attempted plan) s₁ with
          graph := .new, pendingRestack := none } := by
  unfold executePendingRestack at h
  obtain ⟨⟨plan, attempted⟩, s₁, hplan, h⟩ := Program.bind_eq_ok_iff.mp h
  refine ⟨plan, attempted, s₁, hplan, ?_⟩
  obtain ⟨head, s₂, hcommit, h⟩ := Program.bind_eq_ok_iff.mp h
  cases h
  unfold commitRewrite at hcommit
  obtain ⟨_, _, hwrite, hcommit⟩ := Program.bind_eq_ok_iff.mp hcommit
  rw [writeRewritten_run] at hwrite
  cases hwrite
  obtain ⟨_, _, hstage, hcommit⟩ := Program.bind_eq_ok_iff.mp hcommit
  cases hstage
  obtain ⟨_, _, hstaged, hcommit⟩ := Program.bind_eq_ok_iff.mp hcommit
  cases hstaged
  obtain ⟨_, _, hsave, hcommit⟩ := Program.bind_eq_ok_iff.mp hcommit
  cases hsave
  obtain ⟨_, s₃, hcheckout, hcommit⟩ := Program.bind_eq_ok_iff.mp hcommit
  cases hcommit
  obtain rfl := checkoutView_eq_ok (Program.onError_eq_ok_iff.mp hcheckout)
  refine ⟨rfl, ?_⟩
  rw [commitWrites, Program.applyWrites_append, applyWrites_storeChange]
  rfl

/-- **The writes are those of the command.** A restack that succeeds leaves what its writes
leave, with the checkpoint removed. -/
theorem restack_writes {wd : WorkDir} {newHead : Blake3Hash}
    (h : restack wd desired s = some (.ok newHead, s')) :
    s'.newProcess = { Program.applyWrites (s.restackWrites desired) s with
      graph := .new, pendingRestack := none } := by
  unfold restack at h
  obtain ⟨pending, s₁, hpending, h⟩ := Program.bind_eq_ok_iff.mp h
  obtain ⟨plan, attempted, s₂, hplan, -, hs'⟩ := executePendingRestack_eq_ok h
  obtain ⟨-, -, -, -, rfl⟩ := newPendingRestack_eq_ok hpending
  obtain ⟨hattempted, rfl, -⟩ := restackPlan_eq_ok hplan
  have hwrites : s.restackWrites desired
      = checkpointWrites pending ++ commitWrites attempted plan := by
    rw [restackWrites, hpending]
    simp only [hplan]
  rw [hs', hwrites, Program.applyWrites_append, hattempted]
  rfl

/-! ## Where a restack stops -/

/-- The restack has not touched the epoch map: the heads are still those of `s`, and the
checkpoint knows no bindings. -/
structure StoppedEarly (desired : List Blake3Hash) (head : Blake3Hash) (s t : Repo) : Prop where
  epochs : t.epochs = s.epochs
  views : t.views = s.views
  blobs : t.blobs = s.blobs
  identity : t.identity = s.identity
  store : ∀ id c, s.store.lookup id = some c → t.store.lookup id = some c
  pending : ∃ p, t.pendingRestack = some p ∧ p.view = s.head ∧ p.beforeHeads = {head}
    ∧ p.desiredOrder = desired ∧ p.rewriteMap = ∅

/-- The epoch map redirects the head. -/
structure StoppedLate (head : Blake3Hash) (s t : Repo) : Prop where
  epochs : ∃ replaced, t.epochs = replaced ∪ s.epochs ∧ head ∈ replaced.keys
  pending : ∃ p, t.pendingRestack = some p ∧ p.beforeHeads = {head}

variable {head : Blake3Hash} {t : Repo}

omit [Crypto] in
theorem StoppedEarly.start (s : Repo) (desired : List Blake3Hash) (head : Blake3Hash) :
    StoppedEarly desired head s
      (savePendingRestack (PendingRewrite.newRestack s.head {head} desired) s) :=
  ⟨rfl, rfl, rfl, rfl, fun _ _ h => h, _, rfl, rfl, rfl, rfl, rfl⟩

omit [Crypto] in
theorem StoppedEarly.checkpoint (h : StoppedEarly desired head s t) {p : PendingRewrite}
    (hview : p.view = s.head) (hheads : p.beforeHeads = {head})
    (hdesired : p.desiredOrder = desired)
    (hmap : p.rewriteMap = ∅) : StoppedEarly desired head s (savePendingRestack p t) :=
  ⟨h.epochs, h.views, h.blobs, h.identity, h.store, p, rfl, hview, hheads, hdesired, hmap⟩

omit [Crypto] in
theorem StoppedEarly.storeChange (h : StoppedEarly desired head s t) (c : Change) :
    StoppedEarly desired head s (storeChange c t) :=
  ⟨h.epochs, h.views, h.blobs, h.identity,
    fun id d hd => FMap.lookup_putOnce_of_some _ _ _ (h.store id d hd), h.pending⟩

omit [Crypto] in
theorem StoppedEarly.writeEpochs (h : StoppedEarly desired head s t) {plan : RewritePlan}
    (hmem : head ∈ plan.rewriteMap.keys) : StoppedLate head s (writeEpochs plan t) := by
  obtain ⟨p, hp, -, hheads, -⟩ := h.pending
  exact ⟨⟨plan.rewriteMap, by rw [Repo.writeEpochs, h.epochs], hmem⟩, p, hp, hheads⟩

omit [Crypto] in
theorem StoppedLate.laterWrites (hheads : pending.beforeHeads = {head}) (plan : RewritePlan)
    {write : Repo → Repo} (hwrite : write ∈ laterWrites pending plan)
    (ht : StoppedLate head s t) : StoppedLate head s (write t) := by
  simp only [Repo.laterWrites, List.mem_cons, List.not_mem_nil, or_false] at hwrite
  rcases hwrite with rfl | rfl | rfl
  · exact ⟨ht.epochs, ht.pending⟩
  · exact ⟨ht.epochs, _, rfl, hheads⟩
  · exact ⟨ht.epochs, ht.pending⟩

/-- **Where a restack stops.** -/
theorem stop_cases {k : ℕ} (hk : k < (s.restackWrites desired).length) :
    ∃ head, s.views.lookup s.head = some {head}
      ∧ (StoppedEarly desired head s (s.stopAfter desired k)
        ∨ StoppedLate head s (s.stopAfter desired k)) := by
  rcases hpending : newPendingRestack desired s with _ | ⟨_ | pending, s₁⟩
  · simp [restackWrites, hpending] at hk
  · simp [restackWrites, hpending] at hk
  obtain ⟨head, hview, hmem, hnew, hs₁⟩ := newPendingRestack_eq_ok hpending
  refine ⟨head, hview, ?_⟩
  have hstart : StoppedEarly desired head s s₁ := by
    rw [hs₁, hnew]
    exact .start s desired head
  have hattempt : ∀ {t}, StoppedEarly desired head s t → StoppedEarly desired head s
      (savePendingRestack pending.clearConflict.withAttemptIncremented t) := by
    intro t ht
    rw [hnew]
    exact ht.checkpoint rfl rfl rfl rfl
  suffices hstop : ∃ rest, s.restackWrites desired
      = savePendingRestack pending :: rest ∧ (StoppedEarly desired head s
        (Program.applyWrites (rest.take k) s₁) ∨ StoppedLate head s
        (Program.applyWrites (rest.take k) s₁)) by
    obtain ⟨rest, hwrites, h⟩ := hstop
    rw [stopAfter, hwrites, List.take_succ_cons, Program.applyWrites_cons, ← hs₁]
    exact h.imp (fun h => ⟨h.epochs, h.views, h.blobs, h.identity, h.store, h.pending⟩)
      fun h => ⟨h.epochs, h.pending⟩
  rcases hplan : restackPlan pending s₁ with _ | ⟨e | ⟨plan, attempted⟩, s₂⟩
  · refine ⟨[savePendingRestack pending.clearConflict.withAttemptIncremented], ?_, .inl ?_⟩
    · rw [restackWrites, hpending]
      simp only [hplan]
      rfl
    · apply Program.applyWrites_induction _ hstart
      intro write hwrite t ht
      rw [List.mem_singleton.mp (List.mem_of_mem_take hwrite)]
      exact hattempt ht
  · obtain ⟨conflicts, hwrites, hconflicts⟩ : ∃ conflicts, s.restackWrites desired
        = savePendingRestack pending
          :: savePendingRestack pending.clearConflict.withAttemptIncremented :: conflicts
        ∧ ∀ write ∈ conflicts, ∃ reason, write = savePendingRestack
          (pending.clearConflict.withAttemptIncremented.withConflict reason) := by
      rw [restackWrites, hpending]
      simp only [hplan]
      cases e with
      | mutator e => exact ⟨_, rfl, fun write hwrite => ⟨_, List.mem_singleton.mp hwrite⟩⟩
      | _ => exact ⟨[], rfl, fun write hwrite => absurd hwrite List.not_mem_nil⟩
    refine ⟨_, hwrites, .inl ?_⟩
    apply Program.applyWrites_induction _ hstart
    intro write hwrite t ht
    rcases List.mem_cons.mp (List.mem_of_mem_take hwrite) with rfl | hwrite
    · exact hattempt ht
    · obtain ⟨reason, rfl⟩ := hconflicts write hwrite
      rw [hnew]
      exact ht.checkpoint rfl rfl rfl rfl
  · obtain ⟨hattempted, -, -, signer, out, -, hreorder, hplan'⟩ := restackPlan_eq_ok hplan
    have hkey : head ∈ plan.rewriteMap.keys := by
      rw [hplan']
      apply Mutator.mem_keys_of_reorder hreorder
      rw [resolvedOrder_of_empty (by rw [hnew]; rfl), hnew]
      exact hmem
    refine ⟨(savePendingRestack pending.clearConflict.withAttemptIncremented
      :: plan.rewritten.map storeChange) ++ writeEpochs plan :: laterWrites attempted plan, ?_, ?_⟩
    · rw [restackWrites, hpending]
      simp only [hplan]
      rfl
    · apply Program.applyWrites_take _ _ _ hstart
      · intro write hwrite t ht
        rcases List.mem_cons.mp hwrite with rfl | hwrite
        · exact hattempt ht
        · obtain ⟨c, -, rfl⟩ := List.mem_map.mp hwrite
          exact ht.storeChange c
      · exact fun t ht => ht.writeEpochs hkey
      · refine fun write hwrite t ht => ht.laterWrites ?_ plan hwrite
        rw [hattempted, hnew]
        rfl

/-! ## Aborting -/

theorem shows_iff {wd : WorkDir} {view : String} {state : MaterializedState} :
    s.Shows wd view state ↔ ∃ heads fuel g, s.views.lookup view = some heads
      ∧ hydrateGraph fuel s.store s.epochs .new heads = some (.ok g)
      ∧ g.materializeHeads (s.applyEnv wd.agentIgnore) heads = .ok state := by
  constructor
  · rintro ⟨fuel, s', hrun⟩
    obtain ⟨_, s₁, hhydrate, hmat⟩ := Program.bind_eq_ok_iff.mp hrun
    obtain ⟨heads, s₂, hload, hheads⟩ := Program.bind_eq_ok_iff.mp hhydrate
    obtain ⟨hview, rfl⟩ := loadView_eq_ok_iff.mp hload
    obtain ⟨g, hg, rfl⟩ := hydrateHeads_eq_ok_iff.mp hheads
    obtain ⟨heads', s₃, hload', hreplay⟩ := Program.bind_eq_ok_iff.mp hmat
    obtain ⟨hview', rfl⟩ := loadView_eq_ok_iff.mp hload'
    obtain rfl : heads = heads' := Option.some_inj.mp (hview.symm.trans hview')
    exact ⟨heads, fuel, g, hview, hg, (materializeHeads_eq_ok_iff.mp hreplay).1⟩
  · rintro ⟨heads, fuel, g, hview, hg, hstate⟩
    refine ⟨fuel, { s with graph := g }, Program.bind_eq_ok_iff.mpr
      ⟨(), { s with graph := g }, Program.bind_eq_ok_iff.mpr ⟨heads, s.newProcess, ?_, ?_⟩,
        Program.bind_eq_ok_iff.mpr ⟨heads, { s with graph := g }, ?_, ?_⟩⟩⟩
    · exact loadView_eq_ok_iff.mpr ⟨hview, rfl⟩
    · exact hydrateHeads_eq_ok_iff.mpr ⟨g, hg, rfl⟩
    · exact loadView_eq_ok_iff.mpr ⟨hview, rfl⟩
    · exact materializeHeads_eq_ok_iff.mpr ⟨hstate, rfl⟩

theorem notMem_keys_of_shows {wd : WorkDir} {view : String} {state : MaterializedState}
    (hview : s.views.lookup view = some {head}) (h : s.Shows wd view state) :
    head ∉ s.epochs.keys := by
  obtain ⟨heads, fuel, g, hview', hg, hstate⟩ := shows_iff.mp h
  obtain rfl : {head} = heads := Option.some_inj.mp (hview.symm.trans hview')
  intro hkey
  apply ChangeGraph.get_ne_none_of_materializeHeads ((Loaded.new s.store).hydrateGraph hg).indexed
    hstate (Finset.mem_singleton_self head)
  exact (Unmapped.new s.epochs).hydrateGraph hg head hkey

theorem materializeNonempty_singleton (wd : WorkDir) (head : Blake3Hash) :
    materializeNonempty wd {head} = materializeHeads wd {head} :=
  if_neg (Finset.singleton_ne_empty head)

theorem materializeNonempty_state {wd : WorkDir} {heads : Finset Blake3Hash}
    {state : MaterializedState} (h : materializeNonempty wd heads s = some (.ok state, s')) :
    s' = s := by
  unfold materializeNonempty at h
  split_ifs at h
  · cases h
    rfl
  · exact (materializeHeads_eq_ok_iff.mp h).2

theorem restackAbort_eq_ok {fuel : ℕ} {wd : WorkDir} (hpending : s.pendingRestack = some pending)
    (hheads : pending.beforeHeads = {head}) (h : restackAbort fuel wd s = some (.ok (), s')) :
    ∃ current g g' state, s.views.lookup pending.view = some current
      ∧ hydrateGraph fuel s.store s.epochs s.graph current = some (.ok g)
      ∧ hydrateGraph fuel s.store s.epochs g {head} = some (.ok g')
      ∧ g'.materializeHeads (s.applyEnv wd.agentIgnore) {head} = .ok state
      ∧ wd.canWrite state = true
      ∧ s' = { s with
          graph := g'
          views := s.views.insert pending.view {head}
          pendingRestack := none } := by
  unfold restackAbort at h
  obtain ⟨p, s₁, hload, h₁⟩ := Program.bind_eq_ok_iff.mp h
  obtain ⟨rfl, rfl⟩ : pending = p ∧ s = s₁ := by
    obtain ⟨_, _, hget, hload⟩ := Program.bind_eq_ok_iff.mp hload
    cases hget
    simpa [hpending] using hload
  obtain ⟨current, s₂, hcurrent, h₂⟩ := Program.bind_eq_ok_iff.mp h₁
  obtain ⟨hview, rfl⟩ := loadView_eq_ok_iff.mp hcurrent
  obtain ⟨_, s₃, hhydrate, h₃⟩ := Program.bind_eq_ok_iff.mp h₂
  obtain ⟨g, hg, rfl⟩ := hydrateHeads_eq_ok_iff.mp hhydrate
  obtain ⟨_, s₄, hmat, h₄⟩ := Program.bind_eq_ok_iff.mp h₃
  obtain rfl := materializeNonempty_state hmat
  obtain ⟨_, s₅, hsave, h₅⟩ := Program.bind_eq_ok_iff.mp h₄
  cases hsave
  obtain ⟨_, s₆, hrestore, h₆⟩ := Program.bind_eq_ok_iff.mp h₅
  obtain ⟨g', hg', rfl⟩ := hydrateHeads_eq_ok_iff.mp hrestore
  obtain ⟨state, s₇, hreplay, h₇⟩ := Program.bind_eq_ok_iff.mp h₆
  rw [hheads, materializeNonempty_singleton] at hreplay
  obtain ⟨hstate, rfl⟩ := materializeHeads_eq_ok_iff.mp hreplay
  obtain ⟨_, s₈, hfiles, h₈⟩ := Program.bind_eq_ok_iff.mp h₇
  obtain ⟨hwrite, rfl⟩ := writeStateToWorkingDir_eq_ok_iff.mp (Program.onError_eq_ok_iff.mp hfiles)
  cases h₈
  rw [hheads] at hg'
  exact ⟨current, g, g', state, hview, hg, hg', hstate, hwrite, rfl⟩

theorem restackAbort_run {fuel : ℕ} {wd : WorkDir} {g : ChangeGraph} {state : MaterializedState}
    (hpending : s.pendingRestack = some pending) (hheads : pending.beforeHeads = {head})
    (hview : s.views.lookup pending.view = some {head})
    (hg : hydrateGraph fuel s.store s.epochs s.graph {head} = some (.ok g))
    (hkey : head ∉ s.epochs.keys) (hget : g.get head ≠ none)
    (hstate : g.materializeHeads (s.applyEnv wd.agentIgnore) {head} = .ok state)
    (hwrite : wd.canWrite state = true) :
    restackAbort fuel wd s = some (.ok (), { s with
      graph := g
      views := s.views.insert pending.view {head}
      pendingRestack := none }) := by
  have hload : loadPendingRestack s = some (.ok pending, s) := by
    refine Program.bind_eq_ok_iff.mpr ⟨s, s, rfl, ?_⟩
    simp [hpending]
  let s₁ : Repo := { s with graph := g }
  let s₂ : Repo := { s₁ with views := s.views.insert pending.view {head} }
  have hidle : hydrateGraph fuel s.store s.epochs g {head} = some (.ok g) := by
    apply hydrateGraph_of_loaded _ (card_lt_of_hydrateGraph hg)
    intro h hh
    rw [Finset.mem_singleton.mp hh]
    exact ⟨hkey, hget⟩
  unfold restackAbort
  refine Program.bind_eq_ok_iff.mpr ⟨pending, s, hload, Program.bind_eq_ok_iff.mpr
    ⟨{head}, s, loadView_eq_ok_iff.mpr ⟨hview, rfl⟩, Program.bind_eq_ok_iff.mpr
      ⟨(), s₁, hydrateHeads_eq_ok_iff.mpr ⟨g, hg, rfl⟩, ?_⟩⟩⟩
  rw [hheads, materializeNonempty_singleton]
  refine Program.bind_eq_ok_iff.mpr ⟨state, s₁, materializeHeads_eq_ok_iff.mpr ⟨hstate, rfl⟩,
    Program.bind_eq_ok_iff.mpr ⟨(), s₂, rfl, Program.bind_eq_ok_iff.mpr
      ⟨(), s₂, hydrateHeads_eq_ok_iff.mpr ⟨g, hidle, rfl⟩, ?_⟩⟩⟩
  refine Program.bind_eq_ok_iff.mpr ⟨state, s₂, materializeHeads_eq_ok_iff.mpr ⟨hstate, rfl⟩,
    Program.bind_eq_ok_iff.mpr ⟨(), s₂, Program.onError_eq_ok_iff.mpr
      (writeStateToWorkingDir_eq_ok_iff.mpr ⟨hwrite, rfl⟩), rfl⟩⟩

theorem StoppedLate.not_abort (h : StoppedLate head s t) (hgraph : t.graph = .new) (fuel : ℕ)
    (wd : WorkDir) (t' : Repo) : restackAbort fuel wd t ≠ some (.ok (), t') := by
  intro hrun
  obtain ⟨p, hp, hheads⟩ := h.pending
  obtain ⟨replaced, hepochs, hmem⟩ := h.epochs
  obtain ⟨current, g, g', state, -, hg, hg', hstate, -⟩ := restackAbort_eq_ok hp hheads hrun
  rw [hgraph] at hg
  have hloaded := ((Loaded.new t.store).hydrateGraph hg).hydrateGraph hg'
  have hunmapped := ((Unmapped.new t.epochs).hydrateGraph hg).hydrateGraph hg'
  apply ChangeGraph.get_ne_none_of_materializeHeads hloaded.indexed hstate
    (Finset.mem_singleton_self head)
  apply hunmapped
  obtain ⟨n, hn⟩ := FMap.mem_keys_iff.mp hmem
  rw [hepochs, FMap.mem_keys_iff]
  exact ⟨n, by rw [FMap.lookup_overlay, if_pos hmem, hn]⟩

theorem StoppedEarly.abortRestores (h : StoppedEarly desired head s t) (hgraph : t.graph = .new)
    (hview : s.views.lookup s.head = some {head}) {wd : WorkDir} {state : MaterializedState}
    (hshows : s.Shows wd s.head state) (hwrite : wd.canWrite state = true) :
    AbortRestores wd s t := by
  obtain ⟨p, hp, hpview, hheads, -, -⟩ := h.pending
  obtain ⟨heads, fuel, g, hview', hg, hstate⟩ := shows_iff.mp hshows
  obtain rfl : {head} = heads := Option.some_inj.mp (hview.symm.trans hview')
  have hkey := notMem_keys_of_shows hview hshows
  have hget := ChangeGraph.get_ne_none_of_materializeHeads
    ((Loaded.new s.store).hydrateGraph hg).indexed hstate (Finset.mem_singleton_self head)
  have hgt : hydrateGraph fuel t.store t.epochs t.graph {head} = some (.ok g) := by
    rw [h.epochs, hgraph]
    exact hydrateGraph_mono h.store hg
  have henv : t.applyEnv wd.agentIgnore = s.applyEnv wd.agentIgnore := by
    rw [applyEnv, applyEnv, h.blobs]
  have hstate' : g.materializeHeads (t.applyEnv wd.agentIgnore) {head} = .ok state := henv ▸ hstate
  refine ⟨{head}, state, fuel, _, hview, hshows, restackAbort_run hp hheads ?_ hgt ?_ hget hstate'
    hwrite, ?_, shows_iff.mpr ⟨{head}, fuel, g, ?_, ?_, hstate'⟩⟩
  · rw [hpview, h.views, hview]
  · rw [h.epochs]
    exact hkey
  · rw [hpview, Finmap.lookup_insert]
  · rw [hpview, Finmap.lookup_insert]
  · rw [← hgraph]
    exact hgt

/-! ## Continuing -/

omit [Crypto] in
theorem StoppedEarly.hydrated (h : StoppedEarly desired head s t) {t₁ : Repo}
    (hgraph : t.graph = .new)
    (hloads : Relation.ReflTransGen
      (fun t t' => ∃ fuel heads, hydrateHeads fuel heads t = some (.ok (), t')) t t₁) :
    StoppedEarly desired head s t₁ ∧ Loaded t₁.store t₁.graph := by
  induction hloads with
  | refl => exact ⟨h, hgraph ▸ .new _⟩
  | tail _ hstep ih =>
      obtain ⟨fuel, heads, hrun⟩ := hstep
      obtain ⟨g, hg, rfl⟩ := hydrateHeads_eq_ok_iff.mp hrun
      obtain ⟨he, hloaded⟩ := ih
      exact ⟨⟨he.epochs, he.views, he.blobs, he.identity, he.store, he.pending⟩,
        hloaded.hydrateGraph hg⟩

theorem restackContinue_eq_ok {wd : WorkDir} {newHead : Blake3Hash}
    (hpending : s.pendingRestack = some pending)
    (h : restackContinue wd s = some (.ok newHead, s')) :
    executePendingRestack wd pending s = some (.ok newHead, s') := by
  unfold restackContinue at h
  obtain ⟨p, s₁, hload, h₁⟩ := Program.bind_eq_ok_iff.mp h
  obtain ⟨rfl, rfl⟩ : pending = p ∧ s = s₁ := by
    obtain ⟨_, _, hget, hload⟩ := Program.bind_eq_ok_iff.mp hload
    cases hget
    simpa [hpending] using hload
  obtain ⟨_, s₂, hvalid, h₂⟩ := Program.bind_eq_ok_iff.mp h₁
  unfold validatePendingRestack at hvalid
  split_ifs at hvalid
  case neg => simp [Program.throw] at hvalid
  cases hvalid
  exact h₂

theorem exists_reorder_of_execute {wd : WorkDir} {newHead : Blake3Hash}
    (hmap : pending.rewriteMap = ∅)
    (h : executePendingRestack wd pending s = some (.ok newHead, s')) :
    ∃ signer out, s.identity = some signer
      ∧ Mutator.reorder s.graph pending.desiredOrder signer = .ok out ∧ newHead = out.newHead := by
  obtain ⟨plan, attempted, s₁, hplan, hhead, -⟩ := executePendingRestack_eq_ok h
  obtain ⟨-, -, -, signer, out, hsigner, hreorder, rfl⟩ := restackPlan_eq_ok hplan
  rw [resolvedOrder_of_empty hmap] at hreorder
  exact ⟨signer, out, hsigner, hreorder, hhead⟩

theorem StoppedEarly.continuesAlike (h : StoppedEarly desired head s t)
    (hgraph : t.graph = .new) (hs : Loaded s.store s.graph) : ContinuesAlike desired s t := by
  intro wd newHead s' hrun t₁ hloads wd' head' t₂ hcontinue
  obtain ⟨h₁, hloaded⟩ := h.hydrated hgraph hloads
  obtain ⟨p, hp, -, -, hdesired, hmap⟩ := h₁.pending
  obtain ⟨signer', out', hsigner', hreorder', rfl⟩ :=
    exists_reorder_of_execute hmap (restackContinue_eq_ok hp hcontinue)
  obtain ⟨pending, s₁, hpending, hexecute⟩ := Program.bind_eq_ok_iff.mp hrun
  obtain ⟨_, -, -, rfl, rfl⟩ := newPendingRestack_eq_ok hpending
  obtain ⟨signer, out, hsigner, hreorder, rfl⟩ := exists_reorder_of_execute rfl hexecute
  obtain rfl : signer = signer' := by
    rw [h₁.identity] at hsigner'
    exact Option.some_inj.mp (hsigner.symm.trans hsigner')
  rw [hdesired] at hreorder'
  -- both processes read the selected changes from the store
  have hsame : ∀ id ∈ desired, t₁.graph.get id = s.graph.get id := by
    intro id hid
    obtain ⟨c, hc⟩ := (Mutator.reorder_eq_ok hreorder).2.1 id hid
    obtain ⟨c', hc'⟩ := (Mutator.reorder_eq_ok hreorder').2.1 id hid
    have hstored := h₁.store id c (readChange_eq_ok_iff.mp (hs.stored id c hc)).1
    have hstored' := (readChange_eq_ok_iff.mp (hloaded.stored id c' hc')).1
    rw [hc', ← hstored', hstored]
    exact hc.symm
  rw [Mutator.reorder_congr hs.indexed hloaded.indexed hsame] at hreorder'
  have hout : out = out' := Except.ok.inj (hreorder.symm.trans hreorder')
  rw [hout]

theorem StoppedEarly.canWrite_of_abort (h : StoppedEarly desired head s t)
    (hgraph : t.graph = .new) (hview : s.views.lookup s.head = some {head}) {wd : WorkDir}
    {state : MaterializedState} (hshows : s.Shows wd s.head state) {fuel : ℕ} {t' : Repo}
    (habort : restackAbort fuel wd t = some (.ok (), t')) : wd.canWrite state = true := by
  obtain ⟨p, hp, hpview, hheads, -, -⟩ := h.pending
  obtain ⟨current, g₁, g₂, state', hcurrent, hg₁, hg₂, hstate', hwrite, -⟩ :=
    restackAbort_eq_ok hp hheads habort
  obtain ⟨heads, more, g, hview', hg, hstate⟩ := shows_iff.mp hshows
  obtain rfl : {head} = heads := Option.some_inj.mp (hview.symm.trans hview')
  obtain rfl : {head} = current := by
    rw [hpview, h.views, hview] at hcurrent
    exact Option.some_inj.mp hcurrent
  have hget := ChangeGraph.get_ne_none_of_materializeHeads
    ((Loaded.new s.store).hydrateGraph hg).indexed hstate (Finset.mem_singleton_self head)
  have hkey := notMem_keys_of_shows hview hshows
  rw [h.epochs, hgraph] at hg₁
  rw [h.epochs] at hg₂
  obtain rfl := hydrateGraph_fuel (hydrateGraph_mono h.store hg) hg₁
  have hidle : hydrateGraph fuel t.store s.epochs g {head} = some (.ok g) := by
    apply hydrateGraph_of_loaded _ (card_lt_of_hydrateGraph hg₁)
    intro h' hh'
    rw [Finset.mem_singleton.mp hh']
    exact ⟨hkey, hget⟩
  obtain rfl := hydrateGraph_fuel hidle hg₂
  have henv : t.applyEnv wd.agentIgnore = s.applyEnv wd.agentIgnore := by
    rw [applyEnv, applyEnv, h.blobs]
  rw [henv, hstate] at hstate'
  rw [Except.ok.inj hstate']
  exact hwrite

/-- **A stopped restack is recovered exactly when it has not changed the epoch map**, provided
that the view materialized and could be written before. -/
theorem recovers_iff (wd : WorkDir) (desired : List Blake3Hash) (s : Repo)
    (hs : Loaded s.store s.graph) {k : ℕ} (hk : k < (s.restackWrites desired).length) :
    Recovers wd desired s (s.stopAfter desired k) ↔
      (s.stopAfter desired k).epochs = s.epochs
        ∧ ∃ state, s.Shows wd s.head state ∧ wd.canWrite state = true := by
  obtain ⟨head, hview, hearly | hlate⟩ := stop_cases hk
  · constructor
    · rintro ⟨⟨heads, state, fuel, t', hview', hshows, habort, -⟩, -⟩
      exact ⟨hearly.epochs, state, hshows, hearly.canWrite_of_abort rfl hview hshows habort⟩
    · rintro ⟨-, state, hshows, hwrite⟩
      exact ⟨hearly.abortRestores rfl hview hshows hwrite, hearly.continuesAlike rfl hs⟩
  · constructor
    · rintro ⟨⟨heads, state, fuel, t', -, -, habort, -⟩, -⟩
      exact absurd habort (hlate.not_abort rfl fuel wd t')
    · rintro ⟨hepochs, state, hshows, -⟩
      obtain ⟨replaced, hoverlay, hmem⟩ := hlate.epochs
      refine absurd ?_ (notMem_keys_of_shows hview hshows)
      obtain ⟨n, hn⟩ := FMap.mem_keys_iff.mp hmem
      rw [← hepochs, hoverlay, FMap.mem_keys_iff]
      exact ⟨n, by rw [FMap.lookup_overlay, if_pos hmem, hn]⟩

/-- Two independent changes in one chain, loaded by a process that can sign. -/
def twoChanges : Repo :=
  let a := Change.sample ∅ "a.rs" "a"
  let b := Change.sample {a.id} "b.rs" "b"
  { Repo.init with
    store := FMap.insertAll ∅ [(a.id, a), (b.id, b)]
    blobs := Finmap.singleton 1 [0]
    views := Finmap.singleton "main" {b.id}
    graph := .ofChanges [a, b]
    identity := some (.human "" "" 0, 0) }

omit [Crypto] in
theorem loaded_twoChanges : Loaded twoChanges.store twoChanges.graph :=
  let a := Change.sample ∅ "a.rs" "a"
  @Loaded.ofChanges [a, Change.sample {a.id} "b.rs" "b"] (by decide)

omit [Crypto] in
/-- The process stops when both rewritten changes are stored. -/
theorem recovers_twoChanges :
    @Recovers Crypto.sample anyWorkDir [1105950, 1094] twoChanges
      (@stopAfter Crypto.sample [1105950, 1094] 3 twoChanges) := by
  refine (@recovers_iff Crypto.sample anyWorkDir [1105950, 1094] twoChanges loaded_twoChanges 3
    ?_).mpr ⟨?_, ?_⟩
  · decide
  · decide
  · refine ⟨_, ⟨5, _, rfl⟩, rfl⟩

omit [Crypto] in
/-- The process stops when the epoch map is written. -/
theorem restackAbort_refuses_redirected_head :
    ¬ ∀ (wd : WorkDir) (desired : List Blake3Hash) (s : Repo), Loaded s.store s.graph →
      (∃ state, @Shows Crypto.sample wd s s.head state ∧ wd.canWrite state = true) →
      ∀ k < (@restackWrites Crypto.sample desired s).length,
        @Recovers Crypto.sample wd desired s (@stopAfter Crypto.sample desired k s) := by
  intro h
  have hrec := h anyWorkDir [1105950, 1094] twoChanges loaded_twoChanges ⟨_, ⟨5, _, rfl⟩, rfl⟩ 4
    (by decide)
  obtain ⟨heads, state, fuel, t', -, -, habort, -⟩ := @Recovers.abort Crypto.sample _ _ _ _ hrec
  obtain ⟨head, -, hearly | hlate⟩ :=
    @stop_cases Crypto.sample twoChanges [1105950, 1094] 4 (by decide)
  · have hepochs := hearly.epochs
    revert hepochs
    decide
  · exact @StoppedLate.not_abort Crypto.sample _ _ _ hlate rfl fuel anyWorkDir t' habort

end Repo

end ArcVcs
