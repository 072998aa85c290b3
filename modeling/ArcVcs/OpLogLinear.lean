import ArcVcs.OpLogQuiet

/-!
# The operation log as a stack

Calls of any number of writers, with their actions interleaved in any way. As long as a heads file
that is there is only changed under the lock, what the calls do to the log is a legal history of a
stack. A migration that was overtaken by other calls breaks this: it takes no lock.
-/

namespace ArcVcs.OpLog

open OpLogHash StackHistory Disk
open Thread (Outcome perform attempt)

namespace Disk

/-- A call made one change of the stack. -/
structure Makes {ι : Type} [DecidableEq ι] [OpLogHash] (i : ι) (e : Effect ι OperationContent)
    (s t : Disk ι) : Prop extends Evolves s t where
  own : changesBy i t.history = changesBy i s.history ++ [e]
  written : t.heads.isSome

end Disk

variable {ι : Type} [DecidableEq ι] [OpLogHash] {legacy : Option (List Operation)}
  {s t u : Disk ι} {i : ι} {α : Type} {e : Effect ι OperationContent}

theorem Disk.Makes.carries (h : s.Makes i e t) (h' : t.Carries i u) : s.Makes i e u :=
  ⟨h.toEvolves.trans h'.toEvolves, h'.own.trans h.own, h'.present h.written⟩

theorem Disk.Carries.makes (h : s.Carries i t) (h' : t.Makes i e u) : s.Makes i e u :=
  ⟨h.toEvolves.trans h'.toEvolves, by rw [h'.own, h.own], h'.written⟩

/-! ## The lock -/

theorem returns_acquire (hready : s.Ready) :
    (contract ι legacy).Returns i (fun _ t => t.lock = some i ∧ s.Carries i t)
      (perform (acquire i)) s := by
  refine .perform_of_run (fun t hst ht r u hrun hguard => ?_) fun _ _ _ _ _ h => by cases h
  rw [acquire] at hrun
  cases hfree : t.lock with
  | some j => simp [hfree] at hrun
  | none =>
      rw [hfree] at hrun
      obtain ⟨-, rfl⟩ := Prod.mk.inj (Option.some.inj hrun)
      obtain ⟨stack, hreplay, hrep⟩ := ht.represents
      have hcarries : t.Carries i { t with lock := some i } :=
        ⟨⟨fun _ hp => hp, id, id, List.prefix_refl _, List.Subset.refl _, List.Subset.refl _⟩, rfl⟩
      refine ⟨⟨⟨hguard.1, ht.nodes, ht.unmigrated, fun _ _ => hst.ready hready,
          ⟨stack, hreplay, hrep.heads, hrep.absent⟩, ht.ascending⟩, fun j hj => ?_⟩, ?_⟩
      · refine ⟨⟨hcarries.toEvolves, rfl⟩, ?_, fun _ => rfl⟩
        simp [hfree, hj.symm]
      · refine fun v huv _ => ⟨fun _ _ => ⟨huv.lock.mpr rfl, ?_⟩, fun _ _ h => by cases h⟩
        exact hst.toCarries.trans (hcarries.trans huv.toCarries)

theorem safe_release (hlock : s.lock = some i) :
    (contract ι legacy).Safe i
      (fun r t => s.Carries i t ∧ ∀ a, r = .ok a → t.lock ≠ some i) (perform release) s := by
  refine .perform_of_run (fun t hst ht r u hrun hguard => ?_)
    fun _ _ hst _ => ⟨hst.toCarries, fun _ h => by cases h⟩
  obtain ⟨-, rfl⟩ := Prod.mk.inj (Option.some.inj hrun)
  have hlock' : t.lock = some i := hst.lock.mpr hlock
  obtain ⟨stack, hreplay, hrep⟩ := ht.represents
  have hcarries : t.Carries i { t with lock := none } :=
    ⟨⟨fun _ hp => hp, id, id, List.prefix_refl _, List.Subset.refl _, List.Subset.refl _⟩, rfl⟩
  refine ⟨⟨⟨hguard.1, ht.nodes, ht.unmigrated, by rintro j ⟨⟩,
      ⟨stack, hreplay, hrep.heads, hrep.absent⟩, ht.ascending⟩, fun j hj => ?_⟩, fun v huv _ => ?_⟩
  · refine ⟨⟨hcarries.toEvolves, rfl⟩, ?_, fun _ => rfl⟩
    simp [hlock', hj.symm]
  · have hall := hst.toCarries.trans (hcarries.trans huv.toCarries)
    refine ⟨⟨hall, fun _ _ h => ?_⟩, fun _ => ⟨hall, fun _ h => by cases h⟩⟩
    cases huv.lock.mp h

/-- **A section under the lock.** The body starts with the lock and ends with it. -/
theorem returns_withLock {body : OpLogThread ι α} {Q : α → Disk ι → Prop}
    (hs : s.Consistent legacy) (hready : s.Ready)
    (hbody : ∀ t, t.Consistent legacy → s.Carries i t → t.lock = some i →
      (contract ι legacy).Safe i (fun r u => u.lock = some i ∧ ∀ a, r = .ok a → Q a u) body t)
    (hQ : ∀ a t u, Q a t → t.Carries i u → Q a u) :
    (contract ι legacy).Returns i (fun a t => t.lock ≠ some i ∧ Q a t) (withLock i body) s := by
  refine (returns_acquire hready).bind hs fun _ t ht ⟨hlock, hcarries⟩ => ?_
  have hattempt : (contract ι legacy).Returns i
      (fun result u => u.lock = some i ∧ ∀ a, result = .ok a → Q a u) (attempt body) t := by
    refine (hbody t ht hcarries hlock).attempt fun r u _ hu => ?_
    rintro r' ⟨⟩
    exact hu
  refine hattempt.bind ht fun result u hu ⟨hlock', hbody'⟩ => ?_
  cases result with
  | ok a =>
      refine ((safe_release hlock').returns fun _ v _ hrel => hrel).bind hu fun _ v hv hrel => ?_
      refine .pure fun w hvw _ => ⟨fun h => hrel.2 _ rfl (hvw.lock.mp h), ?_⟩
      exact hQ a v w (hQ a u v (hbody' a rfl) hrel.1) hvw.toCarries
  | error e =>
      have hrelease : (contract ι legacy).Returns i (fun _ _ => True)
          (attempt (perform release)) u :=
        (safe_release hlock').attempt fun _ _ _ _ _ _ => trivial
      exact hrelease.bind hu fun _ _ _ _ => .throw

/-! ## Changing the stack -/

namespace Disk

/-- The state after a candidate has been written and its effect recorded. -/
abbrev changed (s : Disk ι) (candidate : HeadsState) (e : Effect ι OperationContent) : Disk ι :=
  { s with
    heads := some candidate
    history := s.history ++ [e] }

omit [DecidableEq ι] [OpLogHash] in
theorem ChangedUnderLock.epoch_lt {candidate : HeadsState}
    (h : s.ChangedUnderLock i (s.changed candidate e))
    (hepoch : candidate.epoch = nextEpoch s.current.epoch) : s.current.epoch < candidate.epoch := by
  rw [nextEpoch] at hepoch
  cases hheads : s.heads with
  | none =>
      rw [hepoch, current, hheads]
      decide
  | some state =>
      have hcurrent : s.current = state := by rw [current, hheads]; rfl
      rw [hcurrent] at hepoch ⊢
      rcases h state hheads with heq | ⟨-, hlt⟩
      · obtain rfl : candidate = state := Option.some.inj heq
        omega
      · omega

theorem Consistent.changed (hs : s.Consistent legacy) (hlock : s.lock = some i)
    {candidate : HeadsState} (hlt : s.current.epoch < candidate.epoch)
    (hversion : e.version = some candidate.epoch) (hcaller : ∀ j, j ≠ i → e.changedBy j = false)
    (hchange : ∀ stack, s.current.heads = headsOf stack → Chain s.nodes stack →
      ∃ stack', e.apply stack = some stack' ∧ candidate.heads = headsOf stack'
        ∧ Chain s.nodes stack')
    (hfree : (s.changed candidate e).CollisionFree) :
    (s.changed candidate e).Consistent legacy ∧ s.Evolves (s.changed candidate e)
      ∧ ∀ j, j ≠ i → s.Rely j (s.changed candidate e) := by
  obtain ⟨stack, hreplay, hheads, hchain⟩ := hs.exists_stack (hs.ready_of_locked i hlock)
  obtain ⟨stack', happly, hheads', hchain'⟩ := hchange stack hheads hchain
  have hevolves : s.Evolves (s.changed candidate e) :=
    ⟨fun _ hp => hp, fun _ => .inl rfl, fun _ => rfl, List.prefix_append _ _, List.Subset.refl _,
      List.Subset.refl _⟩
  refine ⟨⟨hfree, hs.nodes, (by rintro ⟨⟩), fun _ _ => .inl rfl,
    ⟨stack', ?_, fun h hh => ?_, (by rintro ⟨⟩)⟩, ?_⟩, hevolves, fun j hj => ?_⟩
  · rw [replay_append_singleton, hreplay]
    exact happly
  · obtain rfl := Option.some.inj hh
    exact ⟨hheads', hchain'⟩
  · obtain ⟨hpairwise, hle⟩ := hs.ascending
    rw [versions_append_singleton _ hversion, List.pairwise_append]
    refine ⟨⟨hpairwise, List.pairwise_singleton _ _, fun v hv w hw => ?_⟩, fun v hv => ?_⟩
    · rw [List.mem_singleton.mp hw]
      exact (hle v hv).trans_lt hlt
    · rcases List.mem_append.mp hv with hv | hv
      · exact ((hle v hv).trans_lt hlt).le
      · exact (List.mem_singleton.mp hv).le
  · refine ⟨⟨hevolves, ?_⟩, Iff.rfl, fun hlock' => ?_⟩
    · refine changesBy_append_of_not_changed fun e' he' => ?_
      rw [List.mem_singleton.mp he']
      exact hcaller j hj
    · exact absurd (Option.some.inj (hlock'.symm.trans hlock)) hj

end Disk

theorem safe_change {candidate : HeadsState} (hlock : s.lock = some i)
    (hepoch : candidate.epoch = nextEpoch s.current.epoch)
    (hversion : e.version = some candidate.epoch) (hcaller : ∀ j, e.changedBy j = decide (i = j))
    (hchange : ∀ t, s.Rely i t → t.Consistent legacy → t.current = s.current → ∀ stack,
      t.current.heads = headsOf stack → Chain t.nodes stack →
        ∃ stack', e.apply stack = some stack' ∧ candidate.heads = headsOf stack'
          ∧ Chain t.nodes stack') :
    (contract ι legacy).Safe i
      (fun r t => t.lock = some i ∧ ∀ a, r = .ok a → s.Makes i e t)
      (perform ((writeHeadsState candidate).noting fun _ => [e])) s := by
  refine .perform_of_run (fun t hst ht r u hrun hguard => ?_)
    fun _ _ hst _ => ⟨hst.lock.mpr hlock, fun _ h => by cases h⟩
  obtain ⟨-, rfl⟩ := Prod.mk.inj (Option.some.inj hrun)
  have hlock' : t.lock = some i := hst.lock.mpr hlock
  have hcurrent : t.current = s.current := by rw [current, current, hst.locked hlock]
  have hlt : t.current.epoch < candidate.epoch :=
    hguard.2.epoch_lt (hepoch.trans (by rw [hcurrent]))
  obtain ⟨hconsistent, hevolves, hrely⟩ := ht.changed hlock' hlt hversion
    (fun j hj => (hcaller j).trans (decide_eq_false hj.symm)) (hchange t hst ht hcurrent) hguard.1
  refine ⟨⟨hconsistent, hrely⟩, fun v huv _ => ?_⟩
  have hmakes : t.Makes i e (t.changed candidate e) :=
    ⟨hevolves, changesBy_append_singleton _ (by simp [hcaller]), rfl⟩
  have hlocked : v.lock = some i := huv.lock.mpr hlock'
  exact ⟨⟨hlocked, fun _ _ => hst.toCarries.makes (hmakes.carries huv.toCarries)⟩,
    fun _ => ⟨hlocked, fun _ h => by cases h⟩⟩

/-! ## Appending -/

def Published (i : ι) (e : Effect ι OperationContent) (s : Disk ι) (published : Bool)
    (t : Disk ι) : Prop :=
  if published then s.Makes i e t else s.Carries i t

theorem quietly_loadHeadsState :
    Quietly legacy i (fun loaded t => loaded.2 = fingerprint loaded.1 ∧ loaded.1 ∈ t.hashedStates
      ∧ (s.lock = some i → t.current = loaded.1)) (perform loadHeadsState) s := by
  refine quiet_loadHeadsState.quietly (fun _ _ _ => trivial)
    fun t loaded u v hst _ hrun _ huv _ => ?_
  obtain ⟨hloaded, rfl⟩ := Prod.mk.inj (Option.some.inj hrun)
  obtain rfl := Except.ok.inj hloaded
  refine ⟨rfl, huv.states List.mem_cons_self, fun hlock => ?_⟩
  rw [current, huv.locked (hst.lock.mpr hlock)]
  rfl

/-- **Compare and swap.** A candidate for the state that was loaded is published on top of the
stack or not at all. -/
theorem returns_publishHeadsCas {state candidate : HeadsState} {content : OperationContent}
    (hs : s.Consistent legacy) (hready : s.Ready) (hstate : state ∈ s.hashedStates)
    (hepoch : candidate.epoch = nextEpoch state.epoch)
    (hheads : candidate.heads = {snapshotId ⟨content, state.heads⟩})
    (hstored : Stored s.nodes ⟨content, state.heads⟩) :
    (contract ι legacy).Returns i
      (fun published t => t.lock ≠ some i
        ∧ Published i (.pushed i content candidate.epoch) s published t)
      (publishHeadsCas i (fingerprint state) candidate content) s := by
  refine returns_withLock hs hready (fun t ht hst hlock => ?_) fun published t u hQ htu => ?_
  · refine Contract.Safe.bind quietly_loadHeadsState ht (fun loaded u hu ⟨htu, hR⟩ => ?_)
      fun _ _ _ ⟨htu, _⟩ => ⟨htu.lock.mpr hlock, fun _ h => by cases h⟩
    obtain ⟨hprint, hmem, hcurrent⟩ := hR loaded rfl
    have hlock' : u.lock = some i := htu.lock.mpr hlock
    have hsu : s.Carries i u := hst.trans htu.toCarries
    by_cases heq : loaded.2 = fingerprint state
    · rw [if_pos heq]
      -- Equal fingerprints are those of equal states, so the candidate is for the current one.
      have hsame : loaded.1 = state :=
        hu.collisionFree.states hmem (hsu.states hstate) (hprint.symm.trans heq)
      have hcurrent' : u.current = state := (hcurrent hlock).trans hsame
      refine (safe_change (e := .pushed i content candidate.epoch) hlock'
        (hcurrent' ▸ hepoch) rfl (fun _ => rfl) fun v huv _ hv stack hstack hchain =>
        ⟨content :: stack, rfl, ?_, chain_cons_iff.mpr ⟨?_, hchain⟩⟩).bind hu
        (fun _ v _ ⟨hlocked, hmakes⟩ => ?_) fun _ _ _ ⟨hlocked, _⟩ =>
          ⟨hlocked, fun _ h => by cases h⟩
      · rw [hheads, headsOf, ← hstack, hv, hcurrent']
      · rw [← hstack, hv, hcurrent']
        exact huv.stored _ (hsu.stored _ hstored)
      · intro w hvw _
        refine ⟨hvw.lock.mpr hlocked, ?_⟩
        rintro published ⟨⟩
        exact hsu.makes ((hmakes _ rfl).carries hvw.toCarries)
    · rw [if_neg heq]
      intro v huv _
      refine ⟨huv.lock.mpr hlock', ?_⟩
      rintro published ⟨⟩
      exact hsu.trans huv.toCarries
  · cases published with
    | true => exact hQ.carries htu
    | false => exact hQ.trans htu

theorem returns_appendLoop (op : Operation) (depth attempts : ℕ) (hs : s.Consistent legacy)
    (hready : s.Ready) :
    (contract ι legacy).Returns i
      (fun _ t => ∃ epoch, s.Makes i (.pushed i op.toOperationContent epoch) t)
      (appendLoop i op depth attempts) s := by
  induction attempts generalizing s with
  | zero => exact .throw
  | succ attempts ih =>
      refine quietly_loadHeadsState.returns.bind hs fun loaded t ht ⟨hst, hprint, hmem, _⟩ => ?_
      refine (quietly_persistNode ht rfl).returns.bind ht fun _ u hu ⟨htu, hstored⟩ => ?_
      have hsu := hst.trans htu
      have hcandidate : insert (buildNode op loaded.1.heads).id
          (loaded.1.heads \ (buildNode op loaded.1.heads).operation.parents)
          = {snapshotId ⟨op.toOperationContent, loaded.1.heads⟩} := by
        rw [show (buildNode op loaded.1.heads).operation.parents = loaded.1.heads from rfl,
          Finset.sdiff_self, insert_empty_eq]
        rfl
      rw [hprint]
      refine (returns_publishHeadsCas hu (hsu.ready hready) (htu.states hmem) rfl hcandidate
        hstored).bind hu fun published v hv ⟨_, hpublished⟩ => ?_
      cases published with
      | true =>
          have hmakes : u.Makes i (.pushed i op.toOperationContent (nextEpoch loaded.1.epoch)) v :=
            hpublished
          refine (quietly_writeLegacyProjection hv hmakes.written depth).attempt.returns.bind hv
            fun _ w _ ⟨hvw, _⟩ => .pure fun x hwx _ => ⟨nextEpoch loaded.1.epoch, ?_⟩
          exact hsu.toCarries.makes (hmakes.carries (hvw.trans hwx).toCarries)
      | false =>
          have hsv := hsu.toCarries.trans hpublished
          exact (ih hv (hsv.ready hready)).mono fun _ w _ ⟨epoch, hmakes⟩ =>
            ⟨epoch, hsv.makes hmakes⟩

/-! ## Popping -/

def Popped (i : ι) (s : Disk ι) (op : Option Operation) (t : Disk ι) : Prop :=
  match op with
  | none => s.Carries i t ∧ .foundEmpty i ∈ t.history
  | some op => ∃ epoch, s.Makes i (.popped i op.toOperationContent epoch) t

theorem Popped.carries {op : Option Operation} (h : Popped i s op t) (h' : t.Carries i u) :
    Popped i s op u := by
  cases op with
  | none => exact ⟨h.1.trans h', h'.history.subset h.2⟩
  | some op =>
      obtain ⟨epoch, hmakes⟩ := h
      exact ⟨epoch, hmakes.carries h'⟩

theorem Disk.Carries.popped {op : Option Operation} (h : s.Carries i t) (h' : Popped i t op u) :
    Popped i s op u := by
  cases op with
  | none => exact ⟨h.trans h'.1, h'.2⟩
  | some op =>
      obtain ⟨epoch, hmakes⟩ := h'
      exact ⟨epoch, h.makes hmakes⟩

theorem quietly_loadNodes {ids : List SnapshotId} (hs : s.Consistent legacy) :
    Quietly legacy i (fun nodes t => nodes.map OperationNode.id = ids ∧ ∀ node ∈ nodes,
      snapshotId node.operation.payload = node.id ∧ node.operation.payload ∈ t.hashedPayloads)
      (loadNodes ids) s := by
  induction ids generalizing s with
  | nil => exact .pure fun _ _ _ => ⟨rfl, fun _ h => absurd h List.not_mem_nil⟩
  | cons id ids ih =>
      have hload : Quietly legacy i (fun node t => node.id = id
          ∧ snapshotId node.operation.payload = node.id
          ∧ node.operation.payload ∈ t.hashedPayloads) (perform (loadNode id)) s := by
        refine (quiet_of_unchanged fun t r u hrun => ?_).quietly (fun _ _ _ => trivial) ?_
        · rw [loadNode] at hrun
          split at hrun <;> exact (Prod.mk.inj (Option.some.inj hrun)).2.symm
        · intro t node u v _ ht hrun _ huv _
          rw [loadNode] at hrun
          cases hlookup : t.nodes.lookup id with
          | none => simp [hlookup] at hrun
          | some found =>
              rw [hlookup] at hrun
              obtain ⟨hnode, rfl⟩ := Prod.mk.inj (Option.some.inj hrun)
              obtain rfl := Except.ok.inj hnode
              obtain ⟨hid, hhash, hmem⟩ := ht.nodes id found hlookup
              exact ⟨hid, hhash.trans hid.symm, huv.payloads hmem⟩
      refine hload.bind hs fun node t ht _ ⟨hid, hhash, hmem⟩ => ?_
      refine (ih ht).bind ht fun nodes u _ htu ⟨hids, hall⟩ => .pure fun v _ huv => ⟨?_, ?_⟩
      · rw [List.map_cons, hid, hids]
      · intro node' hnode'
        rcases List.mem_cons.mp hnode' with rfl | hnode'
        · exact ⟨hhash, (htu.trans huv).payloads hmem⟩
        · exact ⟨(hall node' hnode').1, huv.payloads (hall node' hnode').2⟩

/-- The load of `pop` finds an empty stack or notes nothing. -/
theorem quietly_loadForPop (hlock : s.lock = some i) :
    Quietly legacy i (fun loaded t => t.current = loaded.1
        ∧ (loaded.1.heads = ∅ → .foundEmpty i ∈ t.history))
      (perform (loadHeadsState.noting fun loaded =>
        if loaded.1.heads = ∅ then [.foundEmpty i] else [])) s := by
  refine (quiet_loadHeadsState_noting (P := fun t => t.lock = some i)
    fun t ht hlocked e he => ?_).quietly
    (fun t hst _ => hst.lock.mpr hlock) fun t loaded u v hst _ hrun _ huv _ => ?_
  · by_cases hempty : t.current.heads = ∅
    · rw [if_pos hempty] at he
      obtain rfl := List.mem_singleton.mp he
      refine ⟨rfl, fun stack hrep => ?_⟩
      obtain ⟨hheads, -⟩ := ht.current_heads (ht.ready_of_locked i hlocked) hrep
      obtain rfl := headsOf_eq_empty_iff.mp (hheads.symm.trans hempty)
      rfl
    · rw [if_neg hempty] at he
      exact absurd he List.not_mem_nil
  · obtain ⟨hloaded, rfl⟩ := Prod.mk.inj (Option.some.inj hrun)
    obtain rfl := Except.ok.inj hloaded
    refine ⟨?_, fun hempty => huv.history.subset ?_⟩
    · rw [current, huv.locked (hst.lock.mpr hlock)]
      rfl
    · have hempty' : t.current.heads = ∅ := hempty
      simp [hempty']

/-- **Popping under the lock** takes the top of the stack. -/
theorem safe_popLocked (depth : ℕ) (hs : s.Consistent legacy) (hlock : s.lock = some i) :
    (contract ι legacy).Safe i
      (fun r t => t.lock = some i ∧ ∀ op, r = .ok op → Popped i s op t) (popLocked i depth) s := by
  refine Contract.Safe.bind (quietly_loadForPop hlock) hs (fun loaded t ht hloaded => ?_)
    fun _ _ _ hfail => ⟨hfail.1.lock.mpr hlock, fun _ h => by cases h⟩
  obtain ⟨hst, hR⟩ := hloaded
  obtain ⟨hcurrent, hfound⟩ := hR loaded rfl
  have hlock' : t.lock = some i := hst.lock.mpr hlock
  by_cases hempty : loaded.1.heads = ∅
  · rw [if_pos hempty]
    intro u htu _
    refine ⟨htu.lock.mpr hlock', ?_⟩
    rintro op ⟨⟩
    exact ⟨hst.toCarries.trans htu.toCarries, htu.history.subset (hfound hempty)⟩
  rw [if_neg hempty]
  refine Contract.Safe.bind (quietly_loadNodes ht) ht (fun nodes u hu hread => ?_)
    fun _ _ _ hfail => ⟨hfail.1.lock.mpr hlock', fun _ h => by cases h⟩
  obtain ⟨htu, hnodes⟩ := hread
  obtain ⟨hids, hall⟩ := hnodes nodes rfl
  have hlocked : u.lock = some i := htu.lock.mpr hlock'
  have hsame : u.current = loaded.1 := by
    rw [← hcurrent, current, current, htu.locked hlock']
  obtain ⟨stack, -, hheads, hchain⟩ := hu.exists_stack (hu.ready_of_locked i hlocked)
  rw [hsame] at hheads
  cases stack with
  | nil => exact absurd hheads hempty
  | cons content below =>
      -- The head set has one element, so one node is loaded, and it is the top of the stack.
      rw [hheads] at hids
      obtain ⟨node, rfl, hid⟩ := List.map_eq_singleton_iff.mp (show nodes.map OperationNode.id
        = [snapshotId ⟨content, headsOf below⟩] from hids)
      obtain ⟨hhash, hmem⟩ := hall node List.mem_cons_self
      have hpayload : node.operation.payload = ⟨content, headsOf below⟩ :=
        hu.collisionFree.payloads hmem (hu.hashed (chain_cons_iff.mp hchain).1) (hhash.trans hid)
      have hcontent : node.operation.toOperationContent = content :=
        congrArg OperationPayload.toOperationContent hpayload
      have hparents : node.operation.parents = headsOf below :=
        congrArg OperationPayload.parents hpayload
      have hlast : ([node].insertionSort listedBefore).getLast? = some node := rfl
      have hnext : loaded.1.heads.erase node.id ∪ node.operation.parents = headsOf below := by
        rw [hheads, headsOf, hid, hparents]
        simp
      simp only [hlast]
      refine (safe_change hlocked (by rw [hsame]) rfl (fun _ => rfl)
        fun v huv hv hvcurrent stack' hstack' hchain' => ⟨below, ?_, hnext, ?_⟩).bind hu
        (fun _ v hv hchanged => ?_) fun _ _ _ hfail => ⟨hfail.1, fun _ h => by cases h⟩
      · have hchainv := hchain.mono huv.stored
        obtain rfl : stack' = content :: below := by
          refine headsOf_injective hv.collisionFree.payloads
            (fun p hp => hv.hashed (hchain' p hp)) (fun p hp => hv.hashed (hchainv p hp)) ?_
          rw [← hstack', hvcurrent, hsame, hheads]
        simp [Effect.apply, hcontent]
      · exact (chain_cons_iff.mp (hchain.mono huv.stored)).2
      · obtain ⟨hvlocked, hmakes⟩ := hchanged
        have hmakes' := hmakes _ rfl
        refine Contract.Safe.bind (quietly_writeLegacyProjection hv hmakes'.written depth).attempt
          hv (fun _ w _ hprojected => ?_)
          fun _ _ _ hfail => ⟨hfail.1.lock.mpr hvlocked, fun _ h => by cases h⟩
        intro x hwx _
        have hvx := hprojected.1.trans hwx
        refine ⟨hvx.lock.mpr hvlocked, ?_⟩
        rintro op ⟨⟩
        exact ⟨_, (hst.trans htu).toCarries.makes (hmakes'.carries hvx.toCarries)⟩

/-! ## Calls -/

theorem returns_append (op : Operation) (depth : ℕ) (hs : s.Consistent legacy)
    (hlock : s.lock ≠ some i) :
    (contract ι legacy).Returns i
      (fun _ t => ∃ epoch, s.Makes i (.pushed i op.toOperationContent epoch) t)
      (append i op depth) s := by
  refine (quietly_migrate hs hlock depth).returns.bind hs fun _ t ht ⟨hst, hready⟩ => ?_
  exact (returns_appendLoop op depth maxRetryAttempts ht hready).mono fun _ u _ ⟨epoch, hmakes⟩ =>
    ⟨epoch, hst.toCarries.makes hmakes⟩

theorem returns_pop (depth : ℕ) (hs : s.Consistent legacy) (hlock : s.lock ≠ some i) :
    (contract ι legacy).Returns i (Popped i s) (pop i depth) s := by
  refine (quietly_migrate hs hlock depth).returns.bind hs fun _ t ht ⟨hst, hready⟩ => ?_
  have hlocked := returns_withLock ht hready (Q := Popped i s)
    (fun u hu htu hulock => (safe_popLocked depth hu hulock).mono fun r v _ ⟨hvlock, hpopped⟩ =>
      ⟨hvlock, fun op hop => (hst.toCarries.trans htu).popped (hpopped op hop)⟩)
    fun op u v hpopped huv => hpopped.carries huv
  exact hlocked.mono fun op u _ hu => hu.2

theorem returns_readAll (depth : ℕ) (hs : s.Consistent legacy) (hlock : s.lock ≠ some i) :
    (contract ι legacy).Returns i
      (fun ops t => s.Carries i t ∧ Listed legacy i (ops.map Operation.toOperationContent) t)
      (readAll i depth) s := by
  refine (quietly_migrate hs hlock depth).returns.bind hs fun _ t ht ⟨hst, hready⟩ => ?_
  exact (quietly_readHeads ht hready).returns.mono fun ops u _ ⟨htu, hlisted⟩ =>
    ⟨(hst.trans htu).toCarries, hlisted⟩

/-- What a call that returned has done to the stack. -/
def Explains (legacy : Option (List Operation)) (i : ι) (s : Disk ι) : Call → Reply → Prop
  | .append op, .appended => ∃ epoch,
      changesBy i s.history = [.pushed i op.toOperationContent epoch]
  | .pop, .popped (some op) => ∃ epoch,
      changesBy i s.history = [.popped i op.toOperationContent epoch]
  | .pop, .popped none => changesBy i s.history = [] ∧ .foundEmpty i ∈ s.history
  | .readAll, .listed ops => changesBy i s.history = []
      ∧ Listed legacy i (ops.map Operation.toOperationContent) s
  | _, _ => False

theorem returns_call (call : Call) (hs : s.Consistent legacy) (hlock : s.lock ≠ some i)
    (hhistory : s.history = []) :
    (contract ι legacy).Returns i (fun reply t => Explains legacy i t call reply)
      (call.run i) s := by
  have hnone : changesBy i s.history = [] := by rw [hhistory]; rfl
  cases call with
  | append op =>
      refine (returns_append op 2 hs hlock).bind hs fun _ t _ ⟨epoch, hmakes⟩ =>
        .pure fun u htu _ => ⟨epoch, ?_⟩
      rw [(hmakes.carries htu.toCarries).own, hnone]
      rfl
  | pop =>
      refine (returns_pop 2 hs hlock).bind hs fun op t _ hpopped => .pure fun u htu _ => ?_
      have hpopped' := hpopped.carries htu.toCarries
      cases op with
      | none => exact ⟨hpopped'.1.own.trans hnone, hpopped'.2⟩
      | some op =>
          obtain ⟨epoch, hmakes⟩ := hpopped'
          exact ⟨epoch, by rw [hmakes.own, hnone]; rfl⟩
  | readAll =>
      refine (returns_readAll 2 hs hlock).bind hs fun ops t _ ⟨hst, hlisted⟩ =>
        .pure fun u htu _ => ⟨(hst.trans htu.toCarries).own.trans hnone, ?_⟩
      obtain ⟨before, after, stack, hhistory, hreplay, hperm⟩ := hlisted
      exact .of_extends (List.IsPrefix.trans ⟨after, by simp [hhistory]⟩ htu.history) hreplay hperm

end ArcVcs.OpLog
