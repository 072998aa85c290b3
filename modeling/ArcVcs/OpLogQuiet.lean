import ArcVcs.OpLogContract

/-!
# Reading, projecting and migrating

The parts of the calls that do not change the stack. A migration writes the heads file, but the
stack that the file holds is the one that was there before.
-/

namespace ArcVcs.OpLog

open OpLogHash StackHistory Disk
open Thread (Outcome perform attempt)

variable {ι : Type} [DecidableEq ι] [OpLogHash] {legacy : Option (List Operation)} {s : Disk ι}
  {i : ι} {α : Type}

/-! ## Actions -/

theorem quiet_noting {P : Disk ι → Prop} {action : Action ι α}
    {effects : α → List (Effect ι OperationContent)} (h : ∀ s r t, action s = some (r, t) → t = s)
    (heffects : ∀ s a, s.Consistent legacy → P s → action s = some (.ok a, s) →
      ∀ e ∈ effects a, e.version = none
        ∧ ∀ stack, s.Represents legacy stack → e.apply stack = some stack) :
    Quiet legacy P (action.noting effects) := by
  intro s r t hs hP hrun hfree
  cases haction : action s with
  | none => simp [Action.noting, haction] at hrun
  | some out =>
      obtain ⟨r', t'⟩ := out
      obtain rfl := h s r' t' haction
      cases r' with
      | error e =>
          obtain ⟨-, rfl⟩ : _ ∧ t' = t := by simpa [Action.noting, haction] using hrun
          exact ⟨hs, fun j => .refl j t'⟩
      | ok a =>
          obtain ⟨-, rfl⟩ : _ ∧ { t' with history := t'.history ++ effects a } = t := by
            simpa [Action.noting, haction] using hrun
          have he := heffects t' a hs hP haction
          exact hs.recorded (fun e hmem => (he e hmem).1) (fun e hmem => (he e hmem).2)
            (List.Subset.refl _) (List.Subset.refl _) hfree

theorem quiet_loadHeadsState_noting {P : Disk ι → Prop}
    {effects : HeadsState × Blake3Hash → List (Effect ι OperationContent)}
    (heffects : ∀ s : Disk ι, s.Consistent legacy → P s →
      ∀ e ∈ effects (s.current, fingerprint s.current), e.version = none
        ∧ ∀ stack, s.Represents legacy stack → e.apply stack = some stack) :
    Quiet legacy P (loadHeadsState.noting effects) := by
  intro s r t hs hP hrun hfree
  obtain ⟨-, rfl⟩ := Prod.mk.inj (Option.some.inj hrun)
  have he := heffects s hs hP
  exact hs.recorded (fun e hmem => (he e hmem).1) (fun e hmem => (he e hmem).2)
    (List.Subset.refl _) (List.subset_cons_self _ _) hfree

theorem quiet_loadHeadsState {P : Disk ι → Prop} :
    Quiet legacy P (loadHeadsState (ι := ι)) := by
  intro s r t hs _ hrun hfree
  obtain ⟨-, rfl⟩ := Prod.mk.inj (Option.some.inj hrun)
  exact hs.hashing (List.Subset.refl _) (List.subset_cons_self _ _) hfree

theorem quiet_nodeExists {P : Disk ι → Prop} (node : OperationNode) :
    Quiet legacy P (nodeExists (ι := ι) node) := by
  intro s r t hs _ hrun hfree
  obtain ⟨-, rfl⟩ := Prod.mk.inj (Option.some.inj hrun)
  exact hs.hashing (List.subset_cons_self _ _) (List.Subset.refl _) hfree

omit [DecidableEq ι] in
theorem Disk.Consistent.stored_insert (hs : s.Consistent legacy) {node : OperationNode}
    (hnode : node.id = snapshotId node.operation.payload)
    (hhashed : node.operation.payload ∈ s.hashedPayloads) {payload : OperationPayload}
    (h : Stored s.nodes payload) : Stored (s.nodes.insert node.id node) payload := by
  obtain ⟨stored, hlookup, rfl⟩ := h
  have hmem := (hs.nodes _ stored hlookup).2.2
  by_cases hid : snapshotId stored.operation.payload = node.id
  · refine ⟨node, by rw [FMap.lookup_insert_eq, if_pos hid], ?_⟩
    exact hs.collisionFree.payloads hhashed hmem (hid.trans hnode).symm
  · exact ⟨stored, by rw [FMap.lookup_insert_eq, if_neg hid, hlookup], rfl⟩

theorem quiet_writeNode {node : OperationNode}
    (hnode : node.id = snapshotId node.operation.payload) :
    Quiet legacy (fun s : Disk ι => node.operation.payload ∈ s.hashedPayloads)
      (writeNode node) := by
  intro s r t hs hhashed hrun hfree
  obtain ⟨-, rfl⟩ := Prod.mk.inj (Option.some.inj hrun)
  have hstored : ∀ payload, Stored s.nodes payload → Stored (s.nodes.insert node.id node) payload :=
    fun payload => hs.stored_insert hnode hhashed
  constructor
  · obtain ⟨stack, hreplay, hrep⟩ := hs.represents
    refine ⟨hfree, fun id stored hlookup => ?_, hs.unmigrated, hs.ready_of_locked,
      ⟨stack, hreplay, fun h hh => ?_, hrep.absent⟩, hs.ascending⟩
    · rw [FMap.lookup_insert_eq] at hlookup
      split_ifs at hlookup with hid
      · obtain rfl := Option.some.inj hlookup
        exact ⟨hid.symm, hnode.symm.trans hid.symm, hhashed⟩
      · exact hs.nodes id stored hlookup
    · exact ⟨(hrep.heads h hh).1, (hrep.heads h hh).2.mono hstored⟩
  · exact fun j => ⟨⟨⟨hstored, id, id, List.prefix_refl _, List.Subset.refl _,
      List.Subset.refl _⟩, rfl⟩, Iff.rfl, fun _ => rfl⟩

theorem quiet_setLegacy {action : Action ι α}
    (h : ∀ s r t, action s = some (r, t) → t = s ∨ ∃ ops, t = { s with legacy := ops }) :
    Quiet legacy (fun s : Disk ι => s.heads.isSome) action := by
  intro s r t hs hheads hrun hfree
  rcases h s r t hrun with rfl | ⟨ops, rfl⟩
  · exact ⟨hs, fun j => .refl j _⟩
  · obtain ⟨stack, hreplay, hrep⟩ := hs.represents
    refine ⟨⟨hfree, hs.nodes, fun hnone => ?_, fun _ _ => .inl hheads,
      ⟨stack, hreplay, hrep.heads, hrep.absent⟩, hs.ascending⟩,
    fun j => ⟨⟨⟨fun _ hp => hp, fun _ => .inl hheads, id, List.prefix_refl _,
        List.Subset.refl _, List.Subset.refl _⟩, rfl⟩, Iff.rfl, fun _ => rfl⟩⟩
    simp only at hnone
    simp [hnone] at hheads

/-! ## Nodes -/

theorem quietly_persistNode {node : OperationNode} (hs : s.Consistent legacy)
    (hnode : node.id = snapshotId node.operation.payload) :
    Quietly legacy i (fun _ t => Stored t.nodes node.operation.payload) (persistNode node) s := by
  have hexists : Quietly legacy i (fun present t => node.operation.payload ∈ t.hashedPayloads
      ∧ (present = true → Stored t.nodes node.operation.payload))
      (perform (nodeExists node)) s := by
    refine (quiet_nodeExists node).quietly (fun _ _ _ => trivial) ?_
    intro t present u v _ _ hrun hu huv _
    obtain ⟨hpresent, rfl⟩ := Prod.mk.inj (Option.some.inj hrun)
    have hmem : node.operation.payload ∈ node.operation.payload :: t.hashedPayloads :=
      List.mem_cons_self
    refine ⟨huv.payloads hmem, ?_⟩
    rintro rfl
    obtain ⟨stored, hlookup⟩ := FMap.mem_keys_iff.mp (of_decide_eq_true (Except.ok.inj hpresent))
    obtain ⟨-, hhash, hstored⟩ := hu.nodes _ stored hlookup
    refine huv.stored _ ⟨stored, hnode ▸ hlookup, ?_⟩
    exact hu.collisionFree.payloads hstored hmem (hhash.trans hnode)
  refine hexists.bind hs fun present t ht _ hR => ?_
  by_cases hpresent : present
  · rw [if_pos hpresent]
    exact .pure fun u _ htu => htu.stored _ (hR.2 hpresent)
  · rw [if_neg hpresent]
    refine (quiet_writeNode hnode).quietly (fun u htu _ => htu.payloads hR.1) ?_
    intro u _ v w _ _ hrun _ hvw _
    obtain ⟨-, rfl⟩ := Prod.mk.inj (Option.some.inj hrun)
    refine hvw.stored _ ⟨node, ?_, rfl⟩
    rw [FMap.lookup_insert_eq, if_pos hnode.symm]

/-! ## Reading -/

/-- At some moment of the call the log held operations with these contents. -/
def Listed (legacy : Option (List Operation)) (i : ι) (contents : List OperationContent)
    (s : Disk ι) : Prop :=
  ∃ before after stack, s.history = before ++ .listed i :: after
    ∧ replay (legacyStack legacy) before = some stack ∧ contents.Perm stack

omit [DecidableEq ι] [OpLogHash] in
theorem Listed.of_extends {t : Disk ι} {before : List (Effect ι OperationContent)}
    {contents stack : List OperationContent} (h : before ++ [.listed i] <+: t.history)
    (hreplay : replay (legacyStack legacy) before = some stack) (hperm : contents.Perm stack) :
    Listed legacy i contents t := by
  obtain ⟨after, hafter⟩ := h
  exact ⟨before, after, stack, by simp [← hafter], hreplay, hperm⟩

theorem quietly_readHeads (hs : s.Consistent legacy) (hready : s.Ready) :
    Quietly legacy i (fun ops t => Listed legacy i (ops.map Operation.toOperationContent) t)
      (readHeads i) s := by
  have hexist : Quietly legacy i (fun present t => present = false → Listed legacy i [] t)
      (perform (headsExist.noting fun present => if present then [] else [.listed i])) s := by
    refine (quiet_noting (fun _ _ _ h => (Prod.mk.inj (Option.some.inj h)).2.symm) ?_).quietly
      (fun _ _ _ => trivial) ?_
    · intro t present _ _ _ e he
      cases present with
      | true => exact absurd he List.not_mem_nil
      | false =>
          obtain rfl := List.mem_singleton.mp he
          exact ⟨rfl, fun _ _ => rfl⟩
    · rintro t present u v hst ht hrun hu huv _ rfl
      obtain ⟨hpresent, rfl⟩ := Prod.mk.inj (Option.some.inj hrun)
      have habsent : t.heads = none := by simpa using hpresent
      obtain ⟨stack, hreplay, hheads, -⟩ := ht.exists_stack (hst.ready hready)
      obtain rfl : stack = [] := by
        rw [current, habsent] at hheads
        exact headsOf_eq_empty_iff.mp hheads.symm
      refine .of_extends ?_ hreplay (.refl _)
      simpa [habsent] using huv.history
  have hload : ∀ t : Disk ι, t.Ready → Quietly legacy i
      (fun loaded u => ∃ before stack, before ++ [.listed i] <+: u.history
        ∧ replay (legacyStack legacy) before = some stack ∧ loaded.1.heads = headsOf stack
        ∧ Chain u.nodes stack)
      (perform (loadHeadsState.noting fun _ => [.listed i])) t := by
    intro t hready
    refine (quiet_loadHeadsState_noting fun _ _ _ e he => ?_).quietly (fun _ _ _ => trivial) ?_
    · obtain rfl := List.mem_singleton.mp he
      exact ⟨rfl, fun _ _ => rfl⟩
    · intro u loaded v w htu hu hrun _ hvw _
      obtain ⟨hloaded, rfl⟩ := Prod.mk.inj (Option.some.inj hrun)
      obtain ⟨stack, hreplay, hheads, hchain⟩ := hu.exists_stack (htu.ready hready)
      refine ⟨u.history, stack, hvw.history, hreplay, ?_, hchain.mono hvw.stored⟩
      rw [← Except.ok.inj hloaded, hheads]
  refine hexist.bind hs fun present t ht hst hlisted => ?_
  cases present with
  | false =>
      refine .pure fun u _ htu => ?_
      obtain ⟨before, after, stack, hhistory, hreplay, hperm⟩ := hlisted rfl
      refine .of_extends ?_ hreplay hperm
      exact List.IsPrefix.trans ⟨after, by simp [hhistory]⟩ htu.history
  | true =>
      refine (hload t (hst.ready hready)).bind ht fun loaded u hu _ hR => ?_
      obtain ⟨before, stack, hbefore, hreplay, hheads, hchain⟩ := hR
      by_cases hempty : loaded.1.heads = ∅
      · rw [if_pos hempty]
        obtain rfl := headsOf_eq_empty_iff.mp (hheads.symm.trans hempty)
        exact .pure fun v _ huv => .of_extends (hbefore.trans huv.history) hreplay (.refl _)
      · rw [if_neg hempty]
        refine (quiet_of_unchanged ?_).quietly (fun _ _ _ => trivial) ?_
        · intro v r w hrun
          obtain ⟨out, -, hout⟩ := Option.map_eq_some_iff.mp hrun
          exact (Prod.mk.inj hout).2.symm
        · intro v ops w x huv hv hrun _ hwx _
          obtain ⟨out, hread, hout⟩ := Option.map_eq_some_iff.mp hrun
          obtain ⟨hops, rfl⟩ := Prod.mk.inj hout
          cases out with
          | error e => cases hops
          | ok found =>
              obtain rfl := Except.ok.inj hops
              have hchain' := hchain.mono huv.stored
              rw [hheads] at hread
              have hperm := perm_of_reachableNodes hv.collisionFree.payloads
                (fun p hp => hv.hashed (hchain' p hp)) hchain' hread
              rw [List.map_map]
              exact .of_extends (hbefore.trans (huv.history.trans hwx.history)) hreplay hperm

/-! ## Migrating -/

theorem quietly_headsExist (R : Bool → Disk ι → Prop)
    (hR : ∀ t v, s.Rely i t → t.Consistent legacy → t.Rely i v → v.Consistent legacy →
      R t.heads.isSome v) : Quietly legacy i R (perform headsExist) s := by
  refine (quiet_of_unchanged fun _ _ _ h => (Prod.mk.inj (Option.some.inj h)).2.symm).quietly
    (fun _ _ _ => trivial) ?_
  intro t present u v hst ht hrun _ huv hv
  obtain ⟨hpresent, rfl⟩ := Prod.mk.inj (Option.some.inj hrun)
  obtain rfl := Except.ok.inj hpresent
  exact hR t v hst ht huv hv

theorem quietly_migrate_of_present (hs : s.Consistent legacy) (hheads : s.heads.isSome)
    (depth : ℕ) : Quietly legacy i (fun _ _ => True) (migrateLegacyJsonIfPresent i depth) s := by
  cases depth with
  | zero => exact .throw
  | succ depth =>
      refine (quietly_headsExist (fun present _ => present = true) fun t _ hst _ _ _ =>
        hst.present hheads).bind hs fun present t _ _ hpresent => ?_
      rw [if_pos hpresent]
      exact .pure fun _ _ _ => trivial

theorem quietly_writeLegacyProjection (hs : s.Consistent legacy) (hheads : s.heads.isSome)
    (depth : ℕ) : Quietly legacy i (fun _ _ => True)
      (writeLegacyProjection (migrateLegacyJsonIfPresent i depth) i) s := by
  refine (quietly_migrate_of_present hs hheads depth).bind hs fun _ t ht hst _ => ?_
  refine (quietly_readHeads ht (hst.ready (.inl hheads))).bind ht fun ops u _ htu _ => ?_
  have hquiet : Quiet legacy (fun s : Disk ι => s.heads.isSome) (writeLegacy ops) :=
    quiet_setLegacy fun _ _ _ h => .inr ⟨_, (Prod.mk.inj (Option.some.inj h)).2.symm⟩
  exact hquiet.quietly (fun v huv _ => huv.present (htu.present (hst.present hheads)))
    fun _ _ _ _ _ _ _ _ _ _ => trivial

theorem quietly_migrateNodes {ops : List Operation} {state : HeadsState}
    {below : List OperationContent} (hs : s.Consistent legacy)
    (hchain : Chain s.nodes below) (hheads : state.heads = headsOf below) :
    Quietly legacy i (fun out t =>
        out.heads = headsOf ((ops.map Operation.toOperationContent).reverse ++ below)
          ∧ Chain t.nodes ((ops.map Operation.toOperationContent).reverse ++ below))
      (migrateNodes ops state) s := by
  induction ops generalizing state below s with
  | nil => exact .pure fun t _ hst => ⟨hheads, hchain.mono hst.stored⟩
  | cons op ops ih =>
      refine (quietly_persistNode hs rfl).bind hs fun _ t ht hst hstored => ?_
      have hpayload : (buildNode op state.heads).operation.payload
          = ⟨op.toOperationContent, headsOf below⟩ := by rw [← hheads]; rfl
      rw [hpayload] at hstored
      have hnext : Chain t.nodes (op.toOperationContent :: below) :=
        chain_cons_iff.mpr ⟨hstored, hchain.mono hst.stored⟩
      have hnextHeads : ({(buildNode op state.heads).id} : Finset SnapshotId)
          = headsOf (op.toOperationContent :: below) := by
        rw [headsOf, ← hheads]
        rfl
      rw [List.map_cons, List.reverse_cons, List.append_assoc]
      exact ih ht hnext hnextHeads

theorem quietly_writeMigrated {state : HeadsState} (hs : s.Consistent legacy)
    (hlock : s.lock ≠ some i) {ops : List Operation}
    (hlegacy : s.heads = none → legacy = some ops)
    (hheads : state.heads = headsOf (legacyStack (some ops)))
    (hchain : Chain s.nodes (legacyStack (some ops))) :
    Quietly legacy i (fun _ t => t.heads.isSome) (perform (writeHeadsState state)) s := by
  refine Contract.Safe.perform fun t hst ht r u hout hguard => ?_
  have hlock' : t.lock ≠ some i := mt hst.lock.mp hlock
  have hwrite : u = t ∨ u = { t with heads := some state } :=
    hout.effect.imp_right fun ⟨_, hrun⟩ => (Prod.mk.inj (Option.some.inj hrun)).2.symm
  have hu : u.Consistent legacy ∧ ∀ j, t.Rely j u := by
    rcases hwrite with rfl | rfl
    · exact ⟨ht, fun j => .refl j _⟩
    cases hpresent : t.heads with
    | some h =>
        obtain heq | ⟨hlocked, -⟩ := hguard.2 h hpresent
        · have hsame : { t with heads := some state } = t := by
            rw [show some state = t.heads from heq.trans hpresent.symm]
          rw [hsame]
          exact ⟨ht, fun j => .refl j t⟩
        · exact absurd hlocked hlock'
    | none =>
        obtain rfl := hlegacy (hst.absent hpresent)
        -- The others have not come past their own migration.
        have hready : ¬ t.Ready := by
          simp [Ready, hpresent, ht.unmigrated hpresent]
        obtain ⟨stack, hreplay, hrep⟩ := ht.represents
        obtain rfl := hrep.absent hpresent
        refine ⟨⟨hguard.1, ht.nodes, (by rintro ⟨⟩), fun _ _ => .inl rfl,
          ⟨_, hreplay, fun h hh => ?_, (by rintro ⟨⟩)⟩, ht.ascending.1, fun v hv => ?_⟩,
          fun j => ⟨⟨⟨fun _ hp => hp, fun _ => .inl rfl, fun _ => rfl, List.prefix_refl _,
            List.Subset.refl _, List.Subset.refl _⟩, rfl⟩, Iff.rfl, fun hj => ?_⟩⟩
        · obtain rfl := Option.some.inj hh
          exact ⟨hheads, hchain.mono hst.stored⟩
        · have hle := ht.ascending.2 v hv
          rw [current, hpresent] at hle
          exact hle.trans (Nat.zero_le _)
        · exact absurd (ht.ready_of_locked j hj) hready
  refine ⟨⟨hu.1, fun j _ => hu.2 j⟩, fun v huv _ => ⟨hst.trans ((hu.2 i).trans huv), ?_⟩⟩
  rintro a rfl
  obtain ⟨-, rfl⟩ := Prod.mk.inj (Option.some.inj hout.run)
  exact huv.present rfl

theorem quietly_moveLegacyAside (hheads : s.heads.isSome) :
    Quietly legacy i (fun _ _ => True) (perform moveLegacyAside) s := by
  refine (quiet_setLegacy fun t r u hrun => ?_).quietly (fun t hst _ => hst.present hheads)
    fun _ _ _ _ _ _ _ _ _ _ => trivial
  rw [moveLegacyAside] at hrun
  split at hrun
  · exact .inl (Prod.mk.inj (Option.some.inj hrun)).2.symm
  · exact .inr ⟨_, (Prod.mk.inj (Option.some.inj hrun)).2.symm⟩

theorem quietly_migrate (hs : s.Consistent legacy) (hlock : s.lock ≠ some i) (depth : ℕ) :
    Quietly legacy i (fun _ t => t.Ready) (migrateLegacyJsonIfPresent i depth) s := by
  cases depth with
  | zero => exact .throw
  | succ depth =>
      refine (quietly_headsExist (fun present t => present = true → t.Ready)
        fun _ _ _ _ htv _ hpresent => htv.ready (.inl hpresent)).bind hs
          fun present t ht hst hR => ?_
      cases present with
      | true => exact .pure fun u _ htu => htu.ready (hR rfl)
      | false =>
          have hexists : Quietly legacy i (fun present u => present = false → u.Ready)
              (perform legacyExists) t := by
            refine (quiet_of_unchanged fun _ _ _ h =>
              (Prod.mk.inj (Option.some.inj h)).2.symm).quietly (fun _ _ _ => trivial) ?_
            rintro u present v w _ _ hrun _ hvw _ rfl
            obtain ⟨hpresent, rfl⟩ := Prod.mk.inj (Option.some.inj hrun)
            refine hvw.ready (.inr ?_)
            simpa using hpresent
          refine hexists.bind ht fun legacyPresent u hu htu hR' => ?_
          cases legacyPresent with
          | false => exact .pure fun v _ huv => huv.ready (hR' rfl)
          | true =>
              have hread : Quietly legacy i (fun ops v => v.heads = none → legacy = some ops)
                  (perform readLegacy) u := by
                refine (quiet_of_unchanged fun v r w hrun => ?_).quietly (fun _ _ _ => trivial) ?_
                · rw [readLegacy] at hrun
                  split at hrun <;> exact (Prod.mk.inj (Option.some.inj hrun)).2.symm
                · intro v ops w x _ hv hrun _ hwx _ habsent
                  rw [readLegacy] at hrun
                  cases hlegacy : v.legacy with
                  | none => simp [hlegacy] at hrun
                  | some read =>
                      rw [hlegacy] at hrun
                      obtain ⟨hops, rfl⟩ := Prod.mk.inj (Option.some.inj hrun)
                      obtain rfl := Except.ok.inj hops
                      rw [← hv.unmigrated (hwx.absent habsent), hlegacy]
              refine hread.bind hu fun ops v hv huv hops => ?_
              refine (quietly_migrateNodes hv chain_nil rfl).bind hv fun state w hw hvw hstate => ?_
              rw [List.append_nil] at hstate
              have hlock' : w.lock ≠ some i :=
                mt (hst.trans (htu.trans (huv.trans hvw))).lock.mp hlock
              refine (quietly_writeMigrated hw hlock' (fun habsent => hops (hvw.absent habsent))
                hstate.1 hstate.2).bind hw fun _ x hx _ hpresent => ?_
              refine (quietly_moveLegacyAside hpresent).bind hx fun _ y hy hxy _ => ?_
              have hpresent' := hxy.present hpresent
              refine (quietly_writeLegacyProjection hy hpresent' depth).attempt.bind hy
                fun _ z _ hyz _ => ?_
              exact .pure fun w _ hzw => hzw.ready (hyz.ready (.inl hpresent'))

end ArcVcs.OpLog
