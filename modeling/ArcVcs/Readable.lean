import ArcVcs.HeadMoves
import ArcVcs.Histories
import ArcVcs.RestackRecovery

/-!
# Views that every process can read

The commands on views and the rewrites of history, run in any order. A rewrite redirects the ids
that it replaces for all views, but repoints only the current one. Every view stays readable as long
as no other view has a replaced id in its history, and no id that is redirected comes back as a new
change, as a merged head or as a head that an undo restores.
-/

namespace ArcVcs

namespace Repo

/-- A new process hydrates the view, and then has every id of the topological order of the heads:
the replay does not run into a missing change. -/
def Opens (s : Repo) (view : String) (heads : Finset Blake3Hash) : Prop :=
  ∃ fuel s', hydrate fuel view s.newProcess = some (.ok (), s')
    ∧ ∃ order, s'.graph.topologicalSort heads = some order
      ∧ (∀ id ∈ order, s'.graph.get id ≠ none)
      ∧ ∀ env id, s'.graph.materializeHeads env heads ≠ .error (.missing id)

def Readable (s : Repo) : Prop :=
  ∀ view heads, s.views.lookup view = some heads → s.Opens view heads

def HasLive (s : Repo) (heads : Finset Blake3Hash) : Prop := Live s.store s.epochs heads

end Repo

namespace ChangeGraph

variable {g : ChangeGraph} {heads : Finset Blake3Hash}

end ChangeGraph

namespace Repo

variable {s : Repo} {view : String} {heads : Finset Blake3Hash}

end Repo

/-! ## New changes -/

/-- Under the ids of the changes the store then has records with the same dependencies. -/
def Records (store : FMap Blake3Hash Change) (changes : List Change) : Prop :=
  ∀ c ∈ changes, ∃ c', Repo.readChange (putChanges store changes) c.id = .ok c' ∧ c'.deps = c.deps

section NewChanges

variable {store : FMap Blake3Hash Change} {epochs : FMap Blake3Hash Blake3Hash}
  {changes : List Change}

/-- What was written leads to what was written with it, and to the histories of the dependencies
that were there before. -/
theorem live_putChanges (hrecords : Records store changes)
    (hfresh : ∀ c ∈ changes, c.id ∉ epochs.keys)
    (hkept : ∀ c ∈ changes, ∀ d ∈ c.deps, d ∉ changes.map Change.id → Live store epochs {d})
    {head : Blake3Hash} (hhead : head ∈ changes.map Change.id) :
    Live (putChanges store changes) epochs {head} := by
  refine .of_closed (T := {x | x ∈ changes.map Change.id
    ∨ ∃ c ∈ changes, ∃ d ∈ c.deps, d ∉ changes.map Change.id ∧ x ∈ History store {d}}) ?_ ?_
  · intro x hx
    rw [Finset.mem_singleton.mp hx]
    exact .inl hhead
  rintro x (hx | ⟨c, hc, d, hd, hold, hx⟩)
  · obtain ⟨c, hc, rfl⟩ := List.mem_map.mp hx
    obtain ⟨c', hread, hdeps⟩ := hrecords c hc
    refine ⟨hfresh c hc, c', hread, fun d hd => ?_⟩
    rw [hdeps] at hd
    by_cases hnew : d ∈ changes.map Change.id
    · exact .inl hnew
    · exact .inr ⟨c, hc, d, hd, hnew, mem_history_of_mem (Finset.mem_singleton_self d)⟩
  · obtain ⟨hmap, c', hread⟩ := hkept c hc d hd hold x hx
    refine ⟨hmap, c', readChange_mono (fun _ _ => lookup_putChanges_of_some) hread, fun y hy => ?_⟩
    exact .inr ⟨c, hc, d, hd, hold, mem_history_of_mem_deps hx hread hy⟩

end NewChanges

namespace Repo

/-! ## The invariant -/

/-- Every view has a live history, and the heads that an undo may restore have a stored one. -/
structure Sound (s : Repo) : Prop where
  views : ∀ view heads, s.views.lookup view = some heads → s.HasLive heads
  oplog : ∀ op ∈ s.oplog, Live s.store ∅ op.beforeHeads

theorem Sound.init : Sound Repo.init where
  views view heads hview := by
    rw [Repo.init, FMap.lookup_singleton] at hview
    split_ifs at hview
    exact Option.some_inj.mp hview ▸ Live.empty _ _
  oplog op hop := by cases hop

/-- The history and the names for it are the same. -/
structure SameHistory (s s' : Repo) : Prop where
  store : s'.store = s.store
  epochs : s'.epochs = s.epochs
  views : s'.views = s.views
  oplog : s'.oplog = s.oplog

theorem SameHistory.refl (s : Repo) : SameHistory s s := ⟨rfl, rfl, rfl, rfl⟩

variable {s s' : Repo} {view : String} {heads : Finset Blake3Hash}

theorem SameHistory.sound (h : SameHistory s s') (hs : Sound s) : Sound s' where
  views view heads hview := by
    rw [h.views] at hview
    rw [HasLive, h.store, h.epochs]
    exact hs.views view heads hview
  oplog op hop := by
    rw [h.oplog] at hop
    rw [h.store]
    exact hs.oplog op hop

/-- New heads are saved for a view. The store has grown, and the other views have nothing in their
histories that is redirected now. -/
theorem Sound.save (hs : Sound s)
    (hstore : ∀ id c, s.store.lookup id = some c → s'.store.lookup id = some c)
    (hviews : s'.views = s.views.insert view heads) (hlive : s'.HasLive heads)
    (hothers : ∀ v h, v ≠ view → s.views.lookup v = some h →
      ∀ id ∈ History s.store h, id ∉ s'.epochs.keys)
    (hoplog : ∀ op ∈ s'.oplog, op ∈ s.oplog ∨ s.views.lookup op.view = some op.beforeHeads) :
    Sound s' where
  views v h hv := by
    rw [hviews, FMap.lookup_insert_eq] at hv
    split_ifs at hv with hview
    · exact Option.some_inj.mp hv ▸ hlive
    · exact (hs.views v h hv).mono hstore (hothers v h hview hv)
  oplog op hop := by
    have hlogged : Live s.store ∅ op.beforeHeads := by
      rcases hoplog op hop with hop | hview
      · exact hs.oplog op hop
      · exact (hs.views _ _ hview).stored
    exact hlogged.mono hstore fun _ _ => by simp

theorem Sound.fewerRedirects (hs : Sound s) {epochs : FMap Blake3Hash Blake3Hash}
    (hepochs : ∀ id ∈ epochs.keys, id ∈ s.epochs.keys) : Sound { s with epochs } where
  views v h hv := (hs.views v h hv).mono (fun _ _ h => h) fun id hid hmap =>
    (hs.views v h hv id hid).1 (hepochs id hmap)
  oplog := hs.oplog

/-! ## Advancing a view -/

/-- New changes under ids that are not redirected, neither before nor by the replacements. -/
structure Admits (s : Repo) (changes : List Change) (replaced : FMap Blake3Hash Blake3Hash) :
    Prop where
  recorded : Records s.store changes
  fresh : ∀ c ∈ changes, c.id ∉ (replaced ∪ s.epochs).keys

variable [Crypto]

/-- A rewrite that no other view notices: its new ids are not redirected, what its new changes keep
of the old history is live, and the other views have no replaced id in theirs. -/
structure Spares (s : Repo) (plan : RewritePlan) : Prop where
  admitted : s.Admits plan.rewritten plan.rewriteMap
  kept : ∀ c ∈ plan.rewritten, ∀ d ∈ c.deps, d ∉ plan.rewritten.map Change.id →
    Live s.store (plan.rewriteMap ∪ s.epochs) {d}
  others : ∀ view heads, view ≠ plan.view → s.views.lookup view = some heads →
    ∀ id ∈ History s.store heads, id ∉ plan.rewriteMap.keys

/-- The plan is about the heads of its view, and ends in one of its changes. -/
structure Fits (s : Repo) (plan : RewritePlan) : Prop where
  heads : s.views.lookup plan.view = some plan.beforeHeads
  newHead : plan.newHead ∈ plan.rewritten.map Change.id

/-- The new changes are stored, and the rewrite is in force. -/
structure Committed (plan : RewritePlan) (s s' : Repo) : Prop where
  store : s'.store = putChanges s.store plan.rewritten
  epochs : s'.epochs = plan.rewriteMap ∪ s.epochs
  views : s'.views = s.views.insert plan.view {plan.newHead}
  oplog : ∃ op, s'.oplog = op :: s.oplog ∧ op.view = plan.view ∧ op.beforeHeads = plan.beforeHeads

/-- The new changes are stored, and nothing refers to them. -/
structure RolledBack (plan : RewritePlan) (s s' : Repo) : Prop where
  store : s'.store = putChanges s.store plan.rewritten
  epochs : s'.epochs = s.epochs
  views : s'.views = s.views.insert plan.view plan.beforeHeads
  oplog : s'.oplog = s.oplog

omit [Crypto] in
theorem Committed.sound {plan : RewritePlan} (h : Committed plan s s') (hs : Sound s)
    (hfits : s.Fits plan) (hspares : s.Spares plan) : Sound s' := by
  obtain ⟨op, hoplog, hview, hbefore⟩ := h.oplog
  refine hs.save (fun id c hc => ?_) h.views ?_ (fun v heads hv hlook id hid hmap => ?_) ?_
  · rw [h.store]
    exact lookup_putChanges_of_some hc
  · rw [HasLive, h.store, h.epochs]
    exact live_putChanges hspares.admitted.recorded hspares.admitted.fresh hspares.kept
      hfits.newHead
  · rw [h.epochs, Finmap.keys_union, Finset.mem_union] at hmap
    rcases hmap with hmap | hmap
    · exact hspares.others v heads hv hlook id hid hmap
    · exact (hs.views v heads hlook id hid).1 hmap
  · intro op' hop
    rw [hoplog] at hop
    rcases List.mem_cons.mp hop with rfl | hop
    · rw [hview, hbefore]
      exact .inr hfits.heads
    · exact .inl hop

omit [Crypto] in
theorem RolledBack.sound {plan : RewritePlan} (h : RolledBack plan s s') (hs : Sound s)
    (hfits : s.Fits plan) : Sound s' := by
  have hstore : ∀ id c, s.store.lookup id = some c → s'.store.lookup id = some c := by
    intro id c hc
    rw [h.store]
    exact lookup_putChanges_of_some hc
  refine hs.save hstore h.views ?_ (fun v heads hv hlook id hid => ?_) fun op hop => ?_
  · refine (hs.views _ _ hfits.heads).mono hstore fun id hid => ?_
    rw [h.epochs]
    exact (hs.views _ _ hfits.heads id hid).1
  · rw [h.epochs]
    exact (hs.views v heads hlook id hid).1
  · rw [h.oplog] at hop
    exact .inl hop

theorem squashPlan_ensures (targetId : Blake3Hash) (s : Repo) :
    (squashPlan targetId).Ensures s (fun plan s₁ => SameHistory s s₁ ∧ s.Fits plan)
      (SameHistory s) := by
  refine .bind (currentViewName_keeps s (.refl s)) fun view s₁ h₁ => ?_
  refine .bind (loadView_ensures h₁) fun heads s₂ h₂ => ?_
  obtain ⟨rfl, hview⟩ := h₂
  rw [h₁.views] at hview
  refine .bind (soleHead_keeps view heads s₂ h₁) fun _ s₃ h₃ => ?_
  refine .bind (signingIdentity_keeps s₃ h₃) fun signer s₄ h₄ => .get_bind ?_
  cases Mutator.squashInto s₄.graph heads targetId signer with
  | error e => exact Program.ensures_throw.mpr h₄
  | ok outcome => exact Program.ensures_pure.mpr ⟨h₄, hview, List.mem_singleton_self _⟩

theorem reorderPlan_ensures (desired : List Blake3Hash) (s : Repo) :
    (reorderPlan desired).Ensures s (fun plan s₁ => SameHistory s s₁ ∧ s.Fits plan)
      (SameHistory s) := by
  unfold reorderPlan
  split_ifs
  · exact Program.ensures_throw.mpr (.refl s)
  refine .bind (currentViewName_keeps s (.refl s)) fun view s₁ h₁ => ?_
  refine .bind (loadView_ensures h₁) fun heads s₂ h₂ => ?_
  obtain ⟨rfl, hview⟩ := h₂
  rw [h₁.views] at hview
  refine .bind (soleHead_keeps view heads s₂ h₁) fun oldHead s₃ h₃ => ?_
  by_cases hmem : oldHead ∈ desired
  swap
  · rw [if_pos hmem]
    exact Program.ensures_throw.mpr h₃
  rw [if_neg (not_not.mpr hmem)]
  refine .bind (signingIdentity_keeps s₃ h₃) fun signer s₄ h₄ => .get_bind ?_
  rcases hout : Mutator.reorder s₄.graph desired signer with e | outcome
  · exact Program.ensures_throw.mpr h₄
  · obtain ⟨-, -, -, -, -, -, -, -, -, last, hlast, hhead⟩ := Mutator.reorder_eq_ok hout
    refine Program.ensures_pure.mpr ⟨h₄, hview, ?_⟩
    exact List.mem_map.mpr ⟨last, List.mem_of_getLast? hlast, hhead.symm⟩

omit [Crypto] in
theorem SameHistory.fits (h : SameHistory s s') {plan : RewritePlan} (hfits : s.Fits plan) :
    s'.Fits plan := by
  refine ⟨?_, hfits.newHead⟩
  rw [h.views]
  exact hfits.heads

def epochsAfterUndo (op : Operation) (epochs : FMap Blake3Hash Blake3Hash) :
    FMap Blake3Hash Blake3Hash :=
  if op.kind = .rewrite then epochs.eraseShared op.rewriteMap else epochs

/-- The repository after the operation was popped and its rewrite taken back. -/
def popped (s : Repo) (op : Operation) (ops : List Operation) : Repo :=
  { s with oplog := ops, epochs := epochsAfterUndo op s.epochs }

omit [Crypto] in
theorem mem_keys_of_epochsAfterUndo {op : Operation} {epochs : FMap Blake3Hash Blake3Hash}
    {id : Blake3Hash} (h : id ∈ (epochsAfterUndo op epochs).keys) : id ∈ epochs.keys := by
  unfold epochsAfterUndo at h
  split_ifs at h
  · obtain ⟨v, hv⟩ := FMap.mem_keys_iff.mp h
    exact FMap.mem_keys_of_lookup (FMap.lookup_of_lookup_eraseShared hv)
  · exact h

omit [Crypto] in
theorem Sound.popped (hs : Sound s) {op : Operation} {ops : List Operation}
    (hlog : s.oplog = op :: ops) : Sound (s.popped op ops) where
  views := (hs.fewerRedirects fun _ h => @mem_keys_of_epochsAfterUndo op _ _ h).views
  oplog op' hop := hs.oplog op' (by rw [hlog]; exact .tail _ hop)

/-- What `undo` has done when it has saved a view: the heads from before the operation. -/
structure Restored (op : Operation) (ops : List Operation) (s s' : Repo) : Prop where
  popped : s.oplog = op :: ops
  store : s'.store = s.store
  epochs : s'.epochs = epochsAfterUndo op s.epochs
  views : s'.views = s.views.insert op.view op.beforeHeads
  oplog : s'.oplog = ops

omit [Crypto] in
theorem Restored.sound {op : Operation} {ops : List Operation} (h : Restored op ops s s')
    (hs : Sound s)
    (hfree : ∀ id ∈ History s.store op.beforeHeads, id ∉ (epochsAfterUndo op s.epochs).keys) :
    Sound s' := by
  have hstore : ∀ id c, s.store.lookup id = some c → s'.store.lookup id = some c :=
    fun id c hc => h.store ▸ hc
  have hlogged : Live s.store ∅ op.beforeHeads := hs.oplog op (h.popped ▸ List.mem_cons_self)
  refine hs.save hstore h.views ?_ (fun v heads _ hv id hid hmap => ?_) fun op' hop => ?_
  · refine hlogged.mono hstore fun id hid => ?_
    rw [h.epochs]
    exact hfree id hid
  · rw [h.epochs] at hmap
    exact (hs.views v heads hv id hid).1 (mem_keys_of_epochsAfterUndo hmap)
  · rw [h.oplog] at hop
    rw [h.popped]
    exact .inl (.tail _ hop)

end Repo

/-! ## Runs -/

variable [Crypto]

def runChecked (check : Step → Repo → Bool) : List Step → Repo → Option Repo
  | [], s => some s
  | step :: steps, s =>
      if check step s then (step.program s).bind fun r => runChecked check steps r.2 else none

theorem Reachable.runChecked {allowed : Step → Repo → Prop} {check : Step → Repo → Bool}
    (hcheck : ∀ step s, check step s = true → allowed step s) {steps : List Step} {s s' : Repo}
    (hs : Reachable allowed s) (hrun : ArcVcs.runChecked check steps s = some s') :
    Reachable allowed s' := by
  induction steps generalizing s with
  | nil =>
      obtain rfl := Option.some_inj.mp hrun
      exact hs
  | cons step steps ih =>
      rw [ArcVcs.runChecked] at hrun
      split_ifs at hrun with hstep
      obtain ⟨⟨r, t⟩, hprogram, hrun⟩ := Option.bind_eq_some_iff.mp hrun
      exact ih (.step step hs (hcheck step s hstep) ⟨r, hprogram⟩) hrun

end ArcVcs
