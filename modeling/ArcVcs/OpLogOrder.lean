import ArcVcs.Lib.KeySort
import ArcVcs.OpLogAlone
import ArcVcs.OpLogRuns
import Mathlib.Order.Lex

/-!
# The order of the operation log

`read_all` sorts the operations by their time and their display id, and does not look at their
parents. After a history of appends the list respects the parents only if the clock does.
-/

namespace ArcVcs.OpLog

open OpLogHash Thread TieSort

variable {ι : Type} [OpLogHash]

/-! ## Statement -/

/-- Appends one after the other into an empty log, the last operation first. -/
inductive Appends : List Operation → Disk ι → Prop
  | none : Appends [] (Disk.fresh none)
  | append {ops : List Operation} {s t : Disk ι} {op : Operation} (i : ι) (h : Appends ops s)
      (hrun : (append i op 2).run s = some (.ok (), t)) : Appends (op :: ops) t

def sortKey (op : Operation) : ℕ ×ₗ String := toLex (op.timestamp, op.id)

/-- `read_all` may return the list. The values of its hash map come in any order, so operations
with the same key do too. -/
def MayList (i : ι) (s : Disk ι) (ops : List Operation) : Prop :=
  ∃ listed, listing i s = some (.ok listed) ∧ IsSortOf sortKey listed ops

/-- Every operation comes after its parents. -/
def Causal (ops : List Operation) : Prop :=
  ∀ xs op ys, ops = xs ++ op :: ys → ∀ id ∈ op.parents, ∃ parent ∈ xs, parent.snapshot = some id

/-- The payloads of the operations, each with the one before it as its parent. -/
def payloads (ops : List Operation) : List OperationPayload :=
  payloadsOf (ops.map Operation.toOperationContent)

/-- The nodes of the operations, each on top of the one before it. -/
def chainNodes : List Operation → List OperationNode
  | [] => []
  | op :: below => buildNode op (headsOf (below.map Operation.toOperationContent)) ::
      chainNodes below

/-- The operations as they are stored. -/
def published (ops : List Operation) : List Operation :=
  (chainNodes ops).map OperationNode.operation

omit [OpLogHash] in
theorem listedBefore_iff (a b : OperationNode) :
    listedBefore a b ↔ sortKey a.operation ≤ sortKey b.operation := by
  rw [listedBefore, sortKey, sortKey, Prod.Lex.le_iff]
  rfl

theorem mayList_of_listing {i : ι} {s : Disk ι} (hready : s.Ready) {listed : List Operation}
    (h : listing i s = some (.ok listed)) : MayList i s listed := by
  refine ⟨listed, h, List.Perm.refl listed, ?_⟩
  rw [listing_eq hready] at h
  obtain ⟨found, hfound, hlisted⟩ := Option.map_eq_some_iff.mp h
  obtain ⟨out, -, hout⟩ := Option.map_eq_some_iff.mp hfound
  cases found with
  | error e => cases hlisted
  | ok found =>
      obtain rfl := Except.ok.inj hlisted
      cases out with
      | error e => cases hout
      | ok ids =>
          obtain rfl := Except.ok.inj hout
          have : Std.Total listedBefore := ⟨fun a b => by
            simp only [listedBefore_iff]
            exact le_total _ _⟩
          have : IsTrans OperationNode listedBefore := ⟨fun a b c => by
            simp only [listedBefore_iff]
            exact le_trans⟩
          rw [List.pairwise_map]
          refine (List.pairwise_insertionSort listedBefore _).imp fun {a b} hab => ?_
          exact (listedBefore_iff a b).mp hab

/-! ## The log after a history of appends -/

section Nodes

variable {ops below : List Operation} {op : Operation}

theorem published_cons (op : Operation) (below : List Operation) :
    published (op :: below) =
      (buildNode op (headsOf (below.map Operation.toOperationContent))).operation ::
        published below := rfl

theorem published_snapshots (ops : List Operation) :
    (published ops).map Operation.snapshot = ((payloads ops).map snapshotId).map some := by
  induction ops with
  | nil => rfl
  | cons op below ih =>
      rw [published_cons, List.map_cons, ih]
      rfl

theorem nodup_published_snapshots (hfree : Set.InjOn snapshotId {p | p ∈ payloads ops}) :
    ((published ops).map Operation.snapshot).Nodup := by
  have hids : ((payloads ops).map snapshotId).Nodup := nodup_ids hfree fun _ hp => hp
  rw [published_snapshots]
  exact hids.map (Option.some_injective _)

theorem mem_parents_iff (h : op ∈ published ops) {id : SnapshotId} :
    id ∈ op.parents ↔
      ∃ xs parent ys, published ops = xs ++ op :: parent :: ys ∧ parent.snapshot = some id := by
  constructor
  · intro hid
    induction ops with
    | nil => exact absurd h List.not_mem_nil
    | cons first below ih =>
        rw [published_cons] at h ⊢
        rcases List.mem_cons.mp h with rfl | h
        · cases below with
          | nil => exact absurd hid (Finset.notMem_empty id)
          | cons second rest =>
              refine ⟨[], _, _, rfl, ?_⟩
              rw [Finset.mem_singleton.mp hid]
              rfl
        · obtain ⟨xs, parent, ys, hsplit, hparent⟩ := ih h
          exact ⟨_ :: xs, parent, ys, by rw [hsplit]; rfl, hparent⟩
  · rintro ⟨xs, parent, ys, hsplit, hparent⟩
    induction ops generalizing xs with
    | nil => simp [published, chainNodes] at hsplit
    | cons first below ih =>
        rw [published_cons] at hsplit
        cases xs with
        | nil =>
            obtain ⟨rfl, hbelow⟩ := List.cons.inj hsplit
            cases below with
            | nil => cases hbelow
            | cons second rest =>
                obtain ⟨rfl, -⟩ := List.cons.inj hbelow
                obtain rfl := Option.some.inj hparent
                exact Finset.mem_singleton_self _
        | cons _ xs =>
            obtain ⟨-, hbelow⟩ := List.cons.inj hsplit
            exact ih (by rw [hbelow]; simp) xs hbelow

theorem causal_iff (hfree : Set.InjOn snapshotId {p | p ∈ payloads ops}) {listed : List Operation}
    (hperm : listed.Perm (published ops)) :
    Causal listed ↔ (published ops).IsChain fun op parent => Precedes parent op listed := by
  rw [List.isChain_iff_forall_rel_of_append_cons_cons]
  have hmem : ∀ {op}, op ∈ listed ↔ op ∈ published ops := hperm.mem_iff
  constructor
  · intro hcausal op parent us vs hsplit xs ys hlisted
    have hop : op ∈ published ops := by rw [hsplit]; simp
    have hparent : parent ∈ published ops := by rw [hsplit]; simp
    obtain ⟨id, hid⟩ : ∃ id, parent.snapshot = some id := by
      have hsnapshot := @List.mem_map_of_mem _ _ _ _ Operation.snapshot hparent
      rw [published_snapshots] at hsnapshot
      obtain ⟨id, -, hid⟩ := List.mem_map.mp hsnapshot
      exact ⟨id, hid.symm⟩
    obtain ⟨found, hfound, hfoundId⟩ := hcausal xs op ys hlisted id
      ((mem_parents_iff hop).mpr ⟨us, parent, vs, hsplit, hid⟩)
    have hfoundMem : found ∈ published ops := hmem.mp (by rw [hlisted]; simp [hfound])
    rwa [List.inj_on_of_nodup_map (nodup_published_snapshots hfree) hparent hfoundMem
      (hid.trans hfoundId.symm)]
  · intro hchain xs op ys hlisted id hid
    have hop : op ∈ published ops := hmem.mp (by rw [hlisted]; simp)
    obtain ⟨us, parent, vs, hsplit, hparent⟩ := (mem_parents_iff hop).mp hid
    exact ⟨parent, hchain hsplit xs ys hlisted, hparent⟩

theorem map_sortKey_published (ops : List Operation) :
    (published ops).map sortKey = ops.map sortKey := by
  induction ops with
  | nil => rfl
  | cons op below ih =>
      rw [published_cons, List.map_cons, ih]
      rfl

/-- **Every sort respects the parents** if and only if the keys ascend along the chain. -/
theorem forall_causal_iff (hfree : Set.InjOn snapshotId {p | p ∈ payloads ops}) :
    (∀ listed, IsSortOf sortKey (published ops) listed → Causal listed) ↔
      ops.IsChain fun op parent => sortKey parent < sortKey op := by
  have hnodup : (published ops).Nodup := List.Nodup.of_map _ (nodup_published_snapshots hfree)
  have hkeys : (ops.IsChain fun op parent => sortKey parent < sortKey op) ↔
      (published ops).IsChain fun op parent => sortKey parent < sortKey op := by
    rw [← @List.isChain_map _ _ (fun a b => b < a) sortKey, ← map_sortKey_published,
      List.isChain_map]
  rw [hkeys, List.isChain_iff_forall_rel_of_append_cons_cons]
  constructor
  · intro h op parent xs ys hsplit
    refine (forall_precedes_iff hnodup (by rw [hsplit]; simp) (by rw [hsplit]; simp)).mp ?_
    intro listed hsort
    have hchain := (causal_iff hfree hsort.perm).mp (h listed hsort)
    exact List.isChain_iff_forall_rel_of_append_cons_cons.mp hchain hsplit
  · intro h listed hsort
    rw [causal_iff hfree hsort.perm, List.isChain_iff_forall_rel_of_append_cons_cons]
    intro op parent xs ys hsplit
    exact (forall_precedes_iff hnodup (by rw [hsplit]; simp) (by rw [hsplit]; simp)).mpr
      (h hsplit) listed hsort

theorem chainNodes_payloads (ops : List Operation) :
    (chainNodes ops).map (fun node => node.operation.payload) = payloads ops := by
  induction ops with
  | nil => rfl
  | cons op below ih =>
      rw [chainNodes, List.map_cons, ih]
      rfl

theorem chainNodes_ids (ops : List Operation) :
    (chainNodes ops).map OperationNode.id = (payloads ops).map snapshotId := by
  induction ops with
  | nil => rfl
  | cons op below ih =>
      rw [chainNodes, List.map_cons, ih]
      rfl

theorem snapshotId_of_mem_chainNodes {node : OperationNode} (h : node ∈ chainNodes ops) :
    snapshotId node.operation.payload = node.id := by
  induction ops with
  | nil => exact absurd h List.not_mem_nil
  | cons op below ih =>
      rcases List.mem_cons.mp h with rfl | h
      · rfl
      · exact ih h

end Nodes

/-! ## The files after a history of appends -/

/-- The files hold the operations and nothing else. -/
structure IsLog (ops : List Operation) (s : Disk ι) : Prop where
  ready : s.Ready
  lock : s.lock = none
  heads : s.current.heads = headsOf (ops.map Operation.toOperationContent)
  nodes : ∀ id node, s.nodes.lookup id = some node ↔ node ∈ chainNodes ops ∧ node.id = id

section Files

variable {ops : List Operation} {op : Operation} {s t : Disk ι}

theorem isLog_fresh : IsLog [] (Disk.fresh none : Disk ι) where
  ready := .inr rfl
  lock := rfl
  heads := rfl
  nodes id node := by simp [Disk.fresh, chainNodes]

theorem IsLog.exists_append (h : IsLog ops s)
    (hfree : Set.InjOn snapshotId {p | p ∈ payloads (op :: ops)}) (i : ι) :
    ∃ t, (append i op 2).run s = some (.ok (), t) ∧ IsLog (op :: ops) t := by
  obtain ⟨t, hrun, hheads, hlock, hnodes⟩ := append_run_eq h.ready h.lock i op 1
  refine ⟨t, hrun, .inl (by rw [hheads]; rfl), hlock, ?_, fun id node => ?_⟩
  · rw [Disk.current, hheads, Option.getD_some, h.heads]
    rfl
  · let node' := buildNode op s.current.heads
    have hids : ((payloads (op :: ops)).map snapshotId).Nodup := nodup_ids hfree fun _ hp => hp
    have hnew : ∀ node ∈ chainNodes ops, node.id ≠ node'.id := by
      intro node hnode hid
      have hmem := @List.mem_map_of_mem _ _ _ _ OperationNode.id hnode
      rw [chainNodes_ids, hid] at hmem
      refine (List.nodup_cons.mp hids).1 ?_
      have hid' : node'.id = snapshotId
          ⟨op.toOperationContent, headsOf (ops.map Operation.toOperationContent)⟩ := by
        rw [← h.heads]
        rfl
      rwa [hid'] at hmem
    have habsent : node'.id ∉ s.nodes.keys := by
      intro hmem
      obtain ⟨node, hnode⟩ := FMap.mem_keys_iff.mp hmem
      obtain ⟨hnode, hid⟩ := (h.nodes _ node).mp hnode
      exact hnew node hnode hid
    have hchain : chainNodes (op :: ops) = node' :: chainNodes ops := by
      rw [chainNodes, ← h.heads]
    rw [hnodes, storing, if_neg habsent, FMap.lookup_insert_eq, hchain, List.mem_cons]
    split_ifs with hid
    · constructor
      · rintro hnode
        obtain rfl := Option.some.inj hnode
        exact ⟨.inl rfl, hid.symm⟩
      · rintro ⟨rfl | hnode, hid'⟩
        · rfl
        · exact absurd (hid'.trans hid) (hnew node hnode)
    · rw [h.nodes]
      refine and_congr_left fun hid' => (or_iff_right ?_).symm
      rintro rfl
      exact hid hid'.symm

theorem Appends.isLog (h : Appends ops s)
    (hfree : Set.InjOn snapshotId {p | p ∈ payloads ops}) : IsLog ops s := by
  induction h with
  | none => exact isLog_fresh
  | append i h hrun ih =>
      obtain ⟨t, hrun', hlog⟩ := (ih (hfree.mono fun p hp => .tail _ hp)).exists_append hfree i
      obtain ⟨-, rfl⟩ := Prod.mk.inj (Option.some.inj (hrun.symm.trans hrun'))
      exact hlog

theorem exists_appends (i : ι) (ops : List Operation)
    (hfree : Set.InjOn snapshotId {p | p ∈ payloads ops}) : ∃ s : Disk ι, Appends ops s := by
  induction ops with
  | nil => exact ⟨_, .none⟩
  | cons op ops ih =>
      have hbelow := hfree.mono fun p hp => List.mem_cons_of_mem _ hp
      obtain ⟨s, hs⟩ := ih hbelow
      obtain ⟨t, hrun, -⟩ := (hs.isLog hbelow).exists_append hfree i
      exact ⟨t, hs.append i hrun⟩

theorem IsLog.chain (h : IsLog ops s) : Chain s.nodes (ops.map Operation.toOperationContent) := by
  intro payload hpayload
  change payload ∈ payloads ops at hpayload
  rw [← chainNodes_payloads] at hpayload
  obtain ⟨node, hnode, rfl⟩ := List.mem_map.mp hpayload
  exact ⟨node, (h.nodes _ node).mpr ⟨hnode, (snapshotId_of_mem_chainNodes hnode).symm⟩, rfl⟩

theorem IsLog.filterMap_lookup (h : IsLog ops s) :
    ((payloads ops).map snapshotId).filterMap s.nodes.lookup = chainNodes ops := by
  have hlookup : ∀ node ∈ chainNodes ops, s.nodes.lookup node.id = some node :=
    fun node hnode => (h.nodes _ node).mpr ⟨hnode, rfl⟩
  rw [← chainNodes_ids, List.filterMap_map]
  exact (List.filterMap_congr hlookup).trans List.filterMap_some

theorem IsLog.listing_perm (h : IsLog ops s)
    (hfree : Set.InjOn snapshotId {p | p ∈ payloads ops}) (i : ι) :
    ∃ listed, listing i s = some (.ok listed) ∧ listed.Perm (published ops) := by
  obtain ⟨found, hfound⟩ := exists_reachableNodes h.chain
  have hperm := reachableNodes_perm hfree (fun _ hp => hp) h.chain hfound
  change found.Perm (((payloads ops).map snapshotId).filterMap s.nodes.lookup) at hperm
  rw [h.filterMap_lookup] at hperm
  refine ⟨found.map OperationNode.operation, ?_, hperm.map _⟩
  rw [listing_eq h.ready, operationsFrom, h.heads, hfound]
  rfl

theorem IsLog.mayList_iff (h : IsLog ops s)
    (hfree : Set.InjOn snapshotId {p | p ∈ payloads ops}) (i : ι) (listed : List Operation) :
    MayList i s listed ↔ IsSortOf sortKey (published ops) listed := by
  obtain ⟨first, hfirst, hperm⟩ := h.listing_perm hfree i
  constructor
  · rintro ⟨second, hsecond, hsort⟩
    obtain rfl : first = second := Except.ok.inj (Option.some.inj (hfirst.symm.trans hsecond))
    exact ⟨hsort.perm.trans hperm, hsort.ordered⟩
  · intro hsort
    exact ⟨first, hfirst, hsort.perm.trans hperm.symm, hsort.ordered⟩

end Files

/-! ## Main result -/

/-- **The listing after a history of appends respects the parents** if and only if every operation
is later than the one before it, by its time and among equal times by its display id. -/
theorem mayList_causal_iff {ops : List Operation} {s : Disk ι} (h : Appends ops s)
    (hfree : Set.InjOn snapshotId {p | p ∈ payloads ops}) (i : ι) :
    (∀ listed, MayList i s listed → Causal listed) ↔
      ops.IsChain fun op parent => sortKey parent < sortKey op := by
  simp only [(h.isLog hfree).mayList_iff hfree i]
  exact forall_causal_iff hfree

omit [OpLogHash] in
theorem mayList_causal_ascending :
    letI := OpLogHash.sample
    ∃ s : Disk Unit, Appends [sampleOperation 2, sampleOperation 1] s
      ∧ ∀ listed, MayList () s listed → Causal listed := by
  let _ := OpLogHash.sample
  have hfree : Set.InjOn snapshotId {p | p ∈ payloads [sampleOperation 2, sampleOperation 1]} :=
    List.inj_on_of_nodup_map (by decide)
  obtain ⟨s, hs⟩ := exists_appends () _ hfree
  refine ⟨s, hs, (mayList_causal_iff hs hfree ()).mpr ?_⟩
  simp [sortKey, sampleOperation, Prod.Lex.lt_iff]

omit [OpLogHash] in
/-- The clock is set back between two appends, and the second operation is listed first. -/
theorem clock_back_lists_child_first :
    letI := OpLogHash.sample
    ∃ s : Disk Unit, Appends [sampleOperation 1, sampleOperation 2] s
      ∧ ∃ listed, MayList () s listed ∧ ¬ Causal listed := by
  let _ := OpLogHash.sample
  have hfree : Set.InjOn snapshotId {p | p ∈ payloads [sampleOperation 1, sampleOperation 2]} :=
    List.inj_on_of_nodup_map (by decide)
  obtain ⟨s, hs⟩ := exists_appends () _ hfree
  refine ⟨s, hs, ?_⟩
  by_contra! hcausal
  have hchain := (forall_causal_iff hfree).mp fun listed hsort =>
    hcausal listed (((hs.isLog hfree).mayList_iff hfree () listed).mpr hsort)
  simp [sortKey, sampleOperation, Prod.Lex.lt_iff] at hchain

end ArcVcs.OpLog
