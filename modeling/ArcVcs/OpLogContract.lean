import ArcVcs.OpLogChain

/-!
# What the calls of the operation log rely on

The invariant of the files of the log, what a call may assume of the other calls, and the actions
that leave the log as it is.
-/

namespace ArcVcs.OpLog

open OpLogHash StackHistory
open Thread (Outcome perform)

variable {ι : Type} [DecidableEq ι]

/-- The operations of a log file of an earlier version, the last one on top. -/
def legacyStack (legacy : Option (List Operation)) : List OperationContent :=
  ((legacy.getD []).map Operation.toOperationContent).reverse

namespace Disk

/-- There is nothing to migrate. -/
def Ready (s : Disk ι) : Prop := s.heads.isSome ∨ s.legacy = none

variable [OpLogHash]

/-- Nothing that has been hashed collides. -/
structure CollisionFree (s : Disk ι) : Prop where
  payloads : Set.InjOn snapshotId {p | p ∈ s.hashedPayloads}
  states : Set.InjOn fingerprint {h | h ∈ s.hashedStates}

/-- The heads file holds the stack, or there is none and the stack is what was there before. -/
structure Represents (legacy : Option (List Operation)) (s : Disk ι)
    (stack : List OperationContent) : Prop where
  heads : ∀ h, s.heads = some h → h.heads = headsOf stack ∧ Chain s.nodes stack
  absent : s.heads = none → stack = legacyStack legacy

/-- The invariant of the files. -/
structure Consistent (legacy : Option (List Operation)) (s : Disk ι) : Prop where
  collisionFree : s.CollisionFree
  nodes : ∀ id node, s.nodes.lookup id = some node →
    node.id = id ∧ snapshotId node.operation.payload = id
      ∧ node.operation.payload ∈ s.hashedPayloads
  unmigrated : s.heads = none → s.legacy = legacy
  ready_of_locked : ∀ i, s.lock = some i → s.Ready
  represents : ∃ stack, replay (legacyStack legacy) s.history = some stack
    ∧ s.Represents legacy stack
  ascending : (versions s.history).Pairwise (· < ·)
    ∧ ∀ v ∈ versions s.history, v ≤ s.current.epoch

/-- What stays of a state when calls go on. -/
structure Evolves (s t : Disk ι) : Prop where
  stored : ∀ payload, Stored s.nodes payload → Stored t.nodes payload
  ready : s.Ready → t.Ready
  present : s.heads.isSome → t.heads.isSome
  history : s.history <+: t.history
  payloads : s.hashedPayloads ⊆ t.hashedPayloads
  states : s.hashedStates ⊆ t.hashedStates

/-- What stays of a state while a call does not change the stack. -/
structure Carries (i : ι) (s t : Disk ι) : Prop extends Evolves s t where
  own : changesBy i t.history = changesBy i s.history

/-- What a call relies on: the others do not act in its name or under its lock. -/
structure Rely (i : ι) (s t : Disk ι) : Prop extends Carries i s t where
  lock : t.lock = some i ↔ s.lock = some i
  locked : s.lock = some i → t.heads = s.heads

/-- A heads file that is there is changed only under the lock, and its epoch does not overflow. -/
def ChangedUnderLock (i : ι) (s t : Disk ι) : Prop :=
  ∀ h, s.heads = some h → t.heads = some h ∨ s.lock = some i ∧ h.epoch + 1 < 2 ^ 64

variable {s t u : Disk ι} {i : ι}

omit [DecidableEq ι] in
theorem Evolves.refl (s : Disk ι) : s.Evolves s :=
  ⟨fun _ h => h, id, id, List.prefix_refl _, List.Subset.refl _, List.Subset.refl _⟩

omit [DecidableEq ι] in
theorem Evolves.trans (h : s.Evolves t) (h' : t.Evolves u) : s.Evolves u where
  stored payload hp := h'.stored payload (h.stored payload hp)
  ready hs := h'.ready (h.ready hs)
  present hs := h'.present (h.present hs)
  history := h.history.trans h'.history
  payloads := List.Subset.trans h.payloads h'.payloads
  states := List.Subset.trans h.states h'.states

omit [DecidableEq ι] in
theorem Evolves.absent (h : s.Evolves t) (ht : t.heads = none) : s.heads = none := by
  by_contra hs
  have hpresent := h.present (Option.isSome_iff_ne_none.mpr hs)
  simp [ht] at hpresent

theorem Carries.trans (h : s.Carries i t) (h' : t.Carries i u) : s.Carries i u :=
  ⟨h.toEvolves.trans h'.toEvolves, h'.own.trans h.own⟩

theorem Rely.refl (i : ι) (s : Disk ι) : s.Rely i s :=
  ⟨⟨.refl s, rfl⟩, Iff.rfl, fun _ => rfl⟩

theorem Rely.trans (h : s.Rely i t) (h' : t.Rely i u) : s.Rely i u where
  toCarries := h.toCarries.trans h'.toCarries
  lock := h'.lock.trans h.lock
  locked hs := (h'.locked (h.lock.mpr hs)).trans (h.locked hs)

end Disk

open Disk

variable [OpLogHash]

def contract (ι : Type) [DecidableEq ι] (legacy : Option (List Operation)) :
    Contract (Disk ι) ι where
  Inv := Consistent legacy
  Rely i := Rely i
  Guard i s t := t.CollisionFree ∧ s.ChangedUnderLock i t
  rely_refl := Rely.refl
  rely_trans := Rely.trans

variable {legacy : Option (List Operation)} {s : Disk ι} {i : ι} {α : Type}

/-! ## Consequences of the invariant -/

namespace Disk

omit [DecidableEq ι] in
theorem Consistent.current_heads (h : s.Consistent legacy) (hready : s.Ready)
    {stack : List OperationContent} (hrep : s.Represents legacy stack) :
    s.current.heads = headsOf stack ∧ Chain s.nodes stack := by
  cases hheads : s.heads with
  | some state =>
      rw [current, hheads]
      exact hrep.heads state hheads
  | none =>
      -- Without a heads file there was no log of an earlier version either.
      have hlegacy : s.legacy = none := by simpa [Ready, hheads] using hready
      obtain rfl : stack = [] := by
        rw [hrep.absent hheads, ← h.unmigrated hheads, hlegacy]
        rfl
      rw [current, hheads]
      exact ⟨rfl, chain_nil⟩

omit [DecidableEq ι] in
theorem Consistent.exists_stack (h : s.Consistent legacy) (hready : s.Ready) :
    ∃ stack, replay (legacyStack legacy) s.history = some stack
      ∧ s.current.heads = headsOf stack ∧ Chain s.nodes stack := by
  obtain ⟨stack, hreplay, hrep⟩ := h.represents
  exact ⟨stack, hreplay, h.current_heads hready hrep⟩

omit [DecidableEq ι] in
theorem Consistent.hashed (h : s.Consistent legacy) {payload : OperationPayload}
    (hstored : Stored s.nodes payload) : payload ∈ s.hashedPayloads := by
  obtain ⟨node, hlookup, rfl⟩ := hstored
  exact (h.nodes _ node hlookup).2.2

abbrev recorded (s : Disk ι) (effects : List (Effect ι OperationContent))
    (payloads : List OperationPayload) (states : List HeadsState) : Disk ι :=
  { s with
    history := s.history ++ effects
    hashedPayloads := payloads
    hashedStates := states }

theorem Consistent.recorded (h : s.Consistent legacy)
    {effects : List (Effect ι OperationContent)} {payloads : List OperationPayload}
    {states : List HeadsState} (hversion : ∀ e ∈ effects, e.version = none)
    (hfixed : ∀ e ∈ effects, ∀ stack, s.Represents legacy stack → e.apply stack = some stack)
    (hpayloads : s.hashedPayloads ⊆ payloads) (hstates : s.hashedStates ⊆ states)
    (hfree : (s.recorded effects payloads states).CollisionFree) :
    (s.recorded effects payloads states).Consistent legacy
      ∧ ∀ j, s.Rely j (s.recorded effects payloads states) := by
  have hversions : versions (s.history ++ effects) = versions s.history := by
    rw [versions_append, versions_eq_nil hversion, List.append_nil]
  obtain ⟨stack, hreplay, hrep⟩ := h.represents
  constructor
  · refine ⟨hfree, fun id node hlookup => ?_, h.unmigrated, h.ready_of_locked,
      ⟨stack, ?_, hrep.heads, hrep.absent⟩, ?_⟩
    · obtain ⟨hid, hhash, hmem⟩ := h.nodes id node hlookup
      exact ⟨hid, hhash, hpayloads hmem⟩
    · rw [replay_append, hreplay]
      exact replay_fixed fun e he => hfixed e he stack hrep
    · rw [hversions]
      exact h.ascending
  · intro j
    refine ⟨⟨⟨fun _ hp => hp, id, id, List.prefix_append _ _, hpayloads, hstates⟩, ?_⟩, Iff.rfl,
      fun _ => rfl⟩
    exact changesBy_append_of_not_changed fun e he =>
      Effect.changedBy_of_version_eq_none (hversion e he) j

theorem Consistent.hashing (h : s.Consistent legacy) {payloads : List OperationPayload}
    {states : List HeadsState} (hpayloads : s.hashedPayloads ⊆ payloads)
    (hstates : s.hashedStates ⊆ states)
    (hfree : CollisionFree { s with hashedPayloads := payloads, hashedStates := states }) :
    Consistent legacy { s with hashedPayloads := payloads, hashedStates := states }
      ∧ ∀ j, s.Rely j { s with hashedPayloads := payloads, hashedStates := states } := by
  have hfree' : (s.recorded [] payloads states).CollisionFree := by
    simpa [Disk.recorded] using hfree
  simpa [Disk.recorded] using h.recorded (fun _ he => absurd he List.not_mem_nil)
    (fun _ he => absurd he List.not_mem_nil) hpayloads hstates hfree'

end Disk

/-! ## Threads that leave the log as it is -/

/-- Throughout the thread, its call could have relied on what the thread does, and `R` holds from
its return on. -/
def Quietly (legacy : Option (List Operation)) (i : ι) (R : α → Disk ι → Prop)
    (thread : OpLogThread ι α) (s : Disk ι) : Prop :=
  (contract ι legacy).Safe i (fun r t => s.Rely i t ∧ ∀ a, r = .ok a → R a t) thread s

section Quietly

variable {β : Type} {R R' : α → Disk ι → Prop} {thread : OpLogThread ι α}

theorem Quietly.bind {R' : β → Disk ι → Prop} {f : α → OpLogThread ι β}
    (h : Quietly legacy i R thread s) (hs : s.Consistent legacy)
    (hf : ∀ a t, t.Consistent legacy → s.Rely i t → R a t → Quietly legacy i R' (f a) t) :
    Quietly legacy i R' (thread >>= f) s := by
  refine Contract.Safe.bind h hs (fun a t ht hQ => ?_) fun e t _ hQ =>
    ⟨hQ.1, fun b hb => by cases hb⟩
  exact Contract.Safe.mono (hf a t ht hQ.1 (hQ.2 a rfl)) fun r u _ hu => ⟨hQ.1.trans hu.1, hu.2⟩

theorem Quietly.pure {a : α} (h : ∀ t, t.Consistent legacy → s.Rely i t → R a t) :
    Quietly legacy i R (pure a) s := by
  intro t hst ht
  refine ⟨hst, ?_⟩
  rintro b ⟨⟩
  exact h t ht hst

theorem Quietly.throw {e : OpLogError} : Quietly legacy i R (.throw e) s :=
  fun _ hst _ => ⟨hst, fun _ hb => by cases hb⟩

theorem Quietly.attempt (h : Quietly legacy i R thread s) :
    Quietly legacy i (fun r t => ∀ a, r = .ok a → R a t) thread.attempt s := by
  refine Contract.Safe.attempt h fun r t _ hQ => ⟨hQ.1, ?_⟩
  rintro r' ⟨⟩
  exact hQ.2

theorem Quietly.returns (h : Quietly legacy i R thread s) :
    (contract ι legacy).Returns i (fun a t => s.Rely i t ∧ R a t) thread s :=
  Contract.Safe.returns h fun a _ _ hQ => ⟨hQ.1, hQ.2 a rfl⟩

end Quietly

/-- From the states with `P`, an action does what any call may rely on. -/
def Quiet (legacy : Option (List Operation)) (P : Disk ι → Prop) (action : Action ι α) : Prop :=
  ∀ s r t, s.Consistent legacy → P s → action s = some (r, t) → t.CollisionFree →
    t.Consistent legacy ∧ ∀ j, s.Rely j t

theorem Quiet.quietly {P : Disk ι → Prop} {action : Action ι α} {R : α → Disk ι → Prop}
    (hquiet : Quiet legacy P action) (hP : ∀ t, s.Rely i t → t.Consistent legacy → P t)
    (hR : ∀ t a u v, s.Rely i t → t.Consistent legacy → action t = some (.ok a, u) →
      u.Consistent legacy → u.Rely i v → v.Consistent legacy → R a v) :
    Quietly legacy i R (perform action) s := by
  refine Contract.Safe.perform fun t hst ht r u hout hguard => ?_
  have hu : u.Consistent legacy ∧ ∀ j, t.Rely j u := by
    rcases hout.effect with rfl | ⟨r', hrun⟩
    · exact ⟨ht, fun j => .refl j _⟩
    · exact hquiet t r' u ht (hP t hst ht) hrun hguard.1
  refine ⟨⟨hu.1, fun j _ => hu.2 j⟩, fun v huv hv => ⟨hst.trans ((hu.2 i).trans huv), ?_⟩⟩
  rintro a rfl
  exact hR t a u v hst ht hout.run hu.1 huv hv

theorem quiet_of_unchanged {P : Disk ι → Prop} {action : Action ι α}
    (h : ∀ s r t, action s = some (r, t) → t = s) : Quiet legacy P action := by
  intro s r t hs _ hrun _
  rw [h s r t hrun]
  exact ⟨hs, fun j => .refl j s⟩

end ArcVcs.OpLog
