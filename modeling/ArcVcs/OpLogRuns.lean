import ArcVcs.OpLogLinear

/-!
# Runs of the operation log

The calls of a run taken together, and a run in which a migration that was overtaken loses an
operation.
-/

namespace ArcVcs.OpLog

open OpLogHash StackHistory Disk ThreadSystem

section Runs

variable {ι : Type} [DecidableEq ι] [OpLogHash]

/-- The log is a stack, and every call that returned has an effect on it that explains its
reply. -/
structure IsStack (calls : ι → Call) (legacy : Option (List Operation)) (s : LogSystem ι) : Prop
    where
  legal : ∃ stack, replay (legacyStack legacy) s.shared.history = some stack
    ∧ (legacyStack legacy ++ pushes s.shared.history).Perm (stack ++ pops s.shared.history)
    ∧ (s.shared.heads.isSome → ∃ found,
        reachableNodes s.shared.nodes s.shared.current.heads = some (.ok found)
          ∧ (found.map fun node => node.operation.toOperationContent).Perm stack)
  heads : s.shared.current.heads.card ≤ 1
  epochs : (versions s.shared.history).Pairwise (· < ·)
    ∧ ∀ v ∈ versions s.shared.history, v ≤ s.shared.current.epoch
  calls : ∀ i reply, (s.threads i).result = some (.ok reply) →
    Explains legacy i s.shared (calls i) reply

/-- A step without hash collisions that changes a heads file only under the lock. -/
def StepKeepsLock (s : LogSystem ι) (e : Event ι OpLogError) (s' : LogSystem ι) : Prop :=
  s'.shared.CollisionFree ∧ s.shared.ChangedUnderLock e.thread s'.shared

omit [DecidableEq ι] in
theorem consistent_fresh (legacy : Option (List Operation)) :
    (Disk.fresh legacy : Disk ι).Consistent legacy where
  collisionFree := ⟨by simp [Disk.fresh], by simp [Disk.fresh]⟩
  nodes id node h := by simp [Disk.fresh] at h
  unmigrated _ := rfl
  ready_of_locked i h := by cases h
  represents := ⟨_, rfl, (by rintro _ ⟨⟩), fun _ => rfl⟩
  ascending := ⟨List.Pairwise.nil, fun _ h => absurd h List.not_mem_nil⟩

/-- **The operation log is a stack** in every state of a run that changes an existing heads file
only under the lock. -/
theorem opLog_isStack (calls : ι → Call) (legacy : Option (List Operation))
    {events : List (Event ι OpLogError)} {s : LogSystem ι}
    (hrun : Trace (fun s e s' => Step s e s' ∧ StepKeepsLock s e s') (beforeCalls calls legacy)
      events s) : IsStack calls legacy s := by
  have hstart : (contract ι legacy).AllSafe
      (fun i r t => ∀ reply, r = .ok reply → Explains legacy i t (calls i) reply)
      (beforeCalls calls legacy) :=
    ⟨consistent_fresh legacy, fun i => returns_call (calls i) (consistent_fresh legacy)
      (by simp [beforeCalls, Disk.fresh]) rfl⟩
  have hsafe := hstart.run hrun
  obtain ⟨stack, hreplay, hrep⟩ := hsafe.1.represents
  refine ⟨⟨stack, hreplay, perm_of_replay hreplay, fun hpresent => ?_⟩, ?_, hsafe.1.ascending,
    fun i reply hresult => hsafe.result hresult reply rfl⟩
  · obtain ⟨hheads, hchain⟩ := hsafe.1.current_heads (.inl hpresent) hrep
    obtain ⟨found, hfound⟩ := exists_reachableNodes hchain
    rw [hheads]
    exact ⟨found, hfound, perm_of_reachableNodes hsafe.1.collisionFree.payloads
      (fun p hp => hsafe.1.hashed (hchain p hp)) hchain hfound⟩
  · cases hheads : s.shared.heads with
    | none =>
        rw [current, hheads]
        exact Nat.zero_le 1
    | some state =>
        rw [current, hheads, Option.getD_some, (hrep.heads state hheads).1]
        exact card_headsOf_le_one stack

end Runs

/-! ## Two runs -/

section Checks

variable {ι : Type} [DecidableEq ι] [OpLogHash]

instance (s : Disk ι) : Decidable s.CollisionFree :=
  decidable_of_iff ((∀ p ∈ s.hashedPayloads, ∀ q ∈ s.hashedPayloads,
      snapshotId p = snapshotId q → p = q) ∧ ∀ h ∈ s.hashedStates, ∀ k ∈ s.hashedStates,
      fingerprint h = fingerprint k → h = k)
    ⟨fun ⟨hp, hs⟩ => ⟨fun p hmem q hmem' => hp p hmem q hmem', fun h hmem k hmem' =>
      hs h hmem k hmem'⟩, fun h => ⟨fun _ hmem _ hmem' => h.payloads hmem hmem',
      fun _ hmem _ hmem' => h.states hmem hmem'⟩⟩

instance (i : ι) (s t : Disk ι) : Decidable (s.ChangedUnderLock i t) :=
  match h : s.heads with
  | none => .isTrue fun state hstate => by simp [h] at hstate
  | some state =>
    decidable_of_iff (t.heads = some state ∨ s.lock = some i ∧ state.epoch + 1 < 2 ^ 64)
      (by simp [ChangedUnderLock, h])

instance (s : LogSystem ι) (e : Event ι OpLogError) (s' : LogSystem ι) :
    Decidable (StepKeepsLock s e s') :=
  inferInstanceAs (Decidable (_ ∧ _))

end Checks

def sampleOperation (timestamp : ℕ) : Operation :=
  ⟨⟨timestamp, "snap", .generic, "main", .human, ∅, ∅, none, ∅⟩, "5f0c2a91", ∅, none⟩

/-- Two appends that load the same heads. The one that publishes second tries again, and a pop
takes its operation. -/
theorem opLog_isStack_contended :
    letI := OpLogHash.sample
    let calls : Fin 3 → Call
      | 0 => .append (sampleOperation 1)
      | 1 => .append (sampleOperation 2)
      | 2 => .pop
    let events : List (Event (Fin 3) OpLogError) :=
      List.replicate 5 (.step 0) ++ List.replicate 14 (.step 1) ++ List.replicate 15 (.step 0)
        ++ List.replicate 11 (.step 2)
    ∃ s, Trace (fun s e s' => Step s e s' ∧ StepKeepsLock s e s') (beforeCalls calls none) events s
      ∧ (∀ i, (s.threads i).result.isSome) ∧ IsStack calls none s := by
  intro calls events
  let _ := OpLogHash.sample
  have hrun : (events.foldlM (fun s e => (ThreadSystem.next s e).filter fun s' =>
      StepKeepsLock s e s') (beforeCalls calls none)).any
      (fun s => decide (∀ i, (s.threads i).result.isSome)) = true := by
    decide
  obtain ⟨s, hs, hdone⟩ := (Option.any_eq_true _ _).mp hrun
  have htrace := Trace.of_foldlM_filter hs
  exact ⟨s, htrace, of_decide_eq_true hdone, opLog_isStack calls none htrace⟩

/-- A listing looks for `oplog.json` between the end of one append and the end of another. It
migrates what the first one projected, over the heads that the second one published. -/
theorem overtaken_migration_loses_operation :
    letI := OpLogHash.sample
    let calls : Fin 3 → Call
      | 0 => .readAll
      | 1 => .append (sampleOperation 1)
      | 2 => .append (sampleOperation 2)
    let events : List (Event (Fin 3) OpLogError) :=
      .step 0 :: List.replicate 14 (.step 1) ++ List.replicate 2 (.step 0)
        ++ List.replicate 13 (.step 2) ++ List.replicate 11 (.step 0)
    ∃ s, Trace (fun s e s' => Step s e s' ∧ s'.shared.CollisionFree)
        (beforeCalls calls none) events s
      ∧ (s.threads 1).result = some (.ok .appended)
      ∧ (s.threads 2).result = some (.ok .appended)
      ∧ (s.threads 0).result = some (.ok (.listed [(buildNode (sampleOperation 1) ∅).operation]))
      ∧ ¬ IsStack calls none s := by
  intro calls events
  let _ := OpLogHash.sample
  have hrun : (events.foldlM (fun s e => (ThreadSystem.next s e).filter fun s' =>
      s'.shared.CollisionFree) (beforeCalls calls none)).any (fun s => decide (
        (s.threads 1).result = some (.ok .appended) ∧ (s.threads 2).result = some (.ok .appended)
          ∧ (s.threads 0).result
            = some (.ok (.listed [(buildNode (sampleOperation 1) ∅).operation]))
          ∧ 2 ∈ versions s.shared.history ∧ s.shared.current.epoch = 1)) = true := by
    decide
  obtain ⟨s, hs, hfacts⟩ := (Option.any_eq_true _ _).mp hrun
  obtain ⟨hfirst, hsecond, hlisted, hversion, hepoch⟩ := of_decide_eq_true hfacts
  refine ⟨s, Trace.of_foldlM_filter hs, hfirst, hsecond, hlisted, fun hstack => ?_⟩
  -- The second append made version 2, and the migration wrote version 1 after it.
  have hle := hstack.epochs.2 2 hversion
  omega

end ArcVcs.OpLog
