import ArcVcs.OpLog

/-!
# The chain of nodes of a stack

A stack of operations determines the heads of the log that holds it: each node has the node
below it as its parent.
-/

namespace ArcVcs.OpLog

open OpLogHash

def Stored [OpLogHash] (nodes : FMap SnapshotId OperationNode) (payload : OperationPayload) :
    Prop :=
  ∃ node, nodes.lookup (snapshotId payload) = some node ∧ node.operation.payload = payload

section Chain

variable [OpLogHash]

def headsOf : List OperationContent → Finset SnapshotId
  | [] => ∅
  | content :: below => {snapshotId ⟨content, headsOf below⟩}

def payloadsOf : List OperationContent → List OperationPayload
  | [] => []
  | content :: below => ⟨content, headsOf below⟩ :: payloadsOf below

def Chain (nodes : FMap SnapshotId OperationNode) (stack : List OperationContent) : Prop :=
  ∀ payload ∈ payloadsOf stack, Stored nodes payload

theorem card_headsOf_le_one (stack : List OperationContent) : (headsOf stack).card ≤ 1 := by
  cases stack with
  | nil => exact Nat.zero_le 1
  | cons content below => exact (Finset.card_singleton _).le

theorem headsOf_eq_empty_iff {stack : List OperationContent} : headsOf stack = ∅ ↔ stack = [] := by
  cases stack with
  | nil => exact iff_of_true rfl rfl
  | cons content below => simp [headsOf]

variable {nodes nodes' : FMap SnapshotId OperationNode} {stack below : List OperationContent}
  {content : OperationContent}

theorem chain_nil : Chain nodes [] := fun _ h => absurd h List.not_mem_nil

theorem chain_cons_iff :
    Chain nodes (content :: below) ↔ Stored nodes ⟨content, headsOf below⟩ ∧ Chain nodes below := by
  simp [Chain, payloadsOf]

theorem Chain.mono (h : Chain nodes stack)
    (hstored : ∀ payload, Stored nodes payload → Stored nodes' payload) : Chain nodes' stack :=
  fun payload hmem => hstored payload (h payload hmem)

theorem mem_headsOf {id : SnapshotId} (h : id ∈ headsOf stack) :
    id ∈ (payloadsOf stack).map snapshotId := by
  cases stack with
  | nil => exact absurd h (Finset.notMem_empty _)
  | cons content below =>
      rw [Finset.mem_singleton.mp h]
      exact List.mem_cons_self

theorem headsOf_injective {hashed : Set OperationPayload} (hfree : Set.InjOn snapshotId hashed)
    {x y : List OperationContent} (hx : ∀ p ∈ payloadsOf x, p ∈ hashed)
    (hy : ∀ p ∈ payloadsOf y, p ∈ hashed) (h : headsOf x = headsOf y) : x = y := by
  induction x generalizing y with
  | nil => exact (headsOf_eq_empty_iff.mp h.symm).symm
  | cons c below ih =>
      cases y with
      | nil => exact absurd h (Finset.singleton_ne_empty _)
      | cons c' below' =>
          have hpayload := hfree (hx _ List.mem_cons_self) (hy _ List.mem_cons_self)
            (Finset.singleton_injective h)
          obtain ⟨rfl, hbelow⟩ := OperationPayload.mk.inj hpayload
          rw [ih (fun p hp => hx p (.tail _ hp)) (fun p hp => hy p (.tail _ hp)) hbelow]

theorem exists_suffix_of_mem_payloadsOf {payload : OperationPayload}
    (h : payload ∈ payloadsOf stack) :
    ∃ content below, content :: below <:+ stack ∧ payload = ⟨content, headsOf below⟩ := by
  induction stack with
  | nil => exact absurd h List.not_mem_nil
  | cons c rest ih =>
      rcases List.mem_cons.mp h with rfl | h
      · exact ⟨c, rest, List.suffix_refl _, rfl⟩
      · obtain ⟨content, below, hsuffix, rfl⟩ := ih h
        exact ⟨content, below, hsuffix.trans (List.suffix_cons _ _), rfl⟩

theorem payloadsOf_subset_of_suffix (h : below <:+ stack) :
    payloadsOf below ⊆ payloadsOf stack := by
  obtain ⟨above, rfl⟩ := h
  induction above with
  | nil => exact List.Subset.refl _
  | cons c above ih => exact fun p hp => .tail _ (ih hp)

theorem nodup_ids {hashed : Set OperationPayload} (hfree : Set.InjOn snapshotId hashed)
    (h : ∀ p ∈ payloadsOf stack, p ∈ hashed) : ((payloadsOf stack).map snapshotId).Nodup := by
  induction stack with
  | nil => exact List.nodup_nil
  | cons c rest ih =>
      have hrest : ∀ p ∈ payloadsOf rest, p ∈ hashed := fun p hp => h p (.tail _ hp)
      refine List.nodup_cons.mpr ⟨fun hmem => ?_, ih hrest⟩
      obtain ⟨payload, hpayload, hid⟩ := List.mem_map.mp hmem
      obtain ⟨content, below, hsuffix, rfl⟩ := exists_suffix_of_mem_payloadsOf hpayload
      -- The same id further down is the id of a shorter stack with the same heads.
      have hheads : headsOf (content :: below) = headsOf (c :: rest) := by
        rw [headsOf, headsOf, hid]
      have heq := headsOf_injective hfree
        (fun p hp => hrest p (payloadsOf_subset_of_suffix hsuffix hp)) h hheads
      have hlength := hsuffix.length_le
      rw [heq] at hlength
      exact absurd hlength (by simp)

/-! ## Reading the chain -/

theorem Stored.pushed {payload : OperationPayload} (h : Stored nodes payload) :
    visitNode nodes (snapshotId payload) = .ok payload.parents.sorted.reverse := by
  obtain ⟨node, hlookup, rfl⟩ := h
  rw [visitNode, hlookup]
  rfl

theorem reaches_iff (h : Chain nodes stack) (id : SnapshotId) :
    (∃ q ∈ (headsOf stack).sorted.reverse,
        Relation.ReflTransGen (fun x y => y ∈ DepthFirst.pushed (visitNode nodes) x) q id)
      ↔ id ∈ (payloadsOf stack).map snapshotId := by
  have hpushed : ∀ p, Stored nodes p →
      DepthFirst.pushed (visitNode nodes) (snapshotId p) = p.parents.sorted.reverse :=
    fun p hp => DepthFirst.pushed_of_ok hp.pushed
  constructor
  · rintro ⟨q, hq, hpath⟩
    induction hpath with
    | refl => exact mem_headsOf (by simpa using hq)
    | tail _ hstep ih =>
        obtain ⟨payload, hpayload, rfl⟩ := List.mem_map.mp ih
        rw [hpushed payload (h payload hpayload)] at hstep
        obtain ⟨content, below, hsuffix, rfl⟩ := exists_suffix_of_mem_payloadsOf hpayload
        have hmem := mem_headsOf (Finset.mem_sorted.mp (List.mem_reverse.mp hstep))
        have hbelow : below <:+ stack := (List.suffix_cons _ _).trans hsuffix
        exact List.map_subset _ (payloadsOf_subset_of_suffix hbelow) hmem
  · intro hmem
    induction stack with
    | nil => exact absurd hmem List.not_mem_nil
    | cons c below ih =>
        obtain ⟨hstored, hchain⟩ := chain_cons_iff.mp h
        refine ⟨snapshotId ⟨c, headsOf below⟩, by simp [headsOf], ?_⟩
        rcases List.mem_cons.mp hmem with rfl | hmem
        · exact .refl
        · obtain ⟨q, hq, hpath⟩ := ih hchain hmem
          exact .head (by rwa [hpushed _ hstored]) hpath

theorem map_filterMap_lookup (h : Chain nodes stack) :
    (((payloadsOf stack).map snapshotId).filterMap nodes.lookup).map
      (fun node => node.operation.toOperationContent) = stack := by
  induction stack with
  | nil => rfl
  | cons c below ih =>
      obtain ⟨⟨node, hlookup, hpayload⟩, hchain⟩ := chain_cons_iff.mp h
      have hcontent : node.operation.toOperationContent = c :=
        congrArg OperationPayload.toOperationContent hpayload
      simp only [payloadsOf, List.map_cons, List.filterMap_cons, hlookup, hcontent, ih hchain]

theorem reachableNodes_perm {hashed : Set OperationPayload}
    (hfree : Set.InjOn snapshotId hashed) (hhashed : ∀ p ∈ payloadsOf stack, p ∈ hashed)
    (h : Chain nodes stack) {found : List OperationNode}
    (hread : reachableNodes nodes (headsOf stack) = some (.ok found)) :
    found.Perm (((payloadsOf stack).map snapshotId).filterMap nodes.lookup) := by
  obtain ⟨out, hsearch, hout⟩ := Option.map_eq_some_iff.mp hread
  cases out with
  | error e => cases hout
  | ok ids =>
      obtain rfl := Except.ok.inj hout
      obtain ⟨hnodup, -, hmem⟩ := DepthFirst.search_ok hsearch
      have hids : ids.Perm ((payloadsOf stack).map snapshotId) :=
        (List.perm_ext_iff_of_nodup hnodup (nodup_ids hfree hhashed)).mpr fun id =>
          (hmem id).trans (reaches_iff h id)
      exact (List.perm_insertionSort listedBefore _).trans (hids.filterMap nodes.lookup)

/-- **Reading the log.** The nodes that can be reached from the heads of a stack are the
operations of the stack, each once. -/
theorem perm_of_reachableNodes {hashed : Set OperationPayload}
    (hfree : Set.InjOn snapshotId hashed) (hhashed : ∀ p ∈ payloadsOf stack, p ∈ hashed)
    (h : Chain nodes stack) {found : List OperationNode}
    (hread : reachableNodes nodes (headsOf stack) = some (.ok found)) :
    (found.map fun node => node.operation.toOperationContent).Perm stack := by
  have hperm := (reachableNodes_perm hfree hhashed h hread).map
    fun node => node.operation.toOperationContent
  rwa [map_filterMap_lookup h] at hperm

omit [OpLogHash] in
theorem length_pushed_visitNode (id : SnapshotId) :
    (DepthFirst.pushed (visitNode nodes) id).length = parentCount nodes id := by
  rw [DepthFirst.pushed, visitNode, parentCount]
  cases nodes.lookup id with
  | none => rfl
  | some node => simp [Except.toOption]

omit [OpLogHash] in
theorem exists_search (nodes : FMap SnapshotId OperationNode) (heads : Finset SnapshotId) :
    ∃ out, DepthFirst.search (visitNode nodes)
      (heads.card + ∑ id ∈ nodes.keys, parentCount nodes id + 1) heads.sorted.reverse []
        = some out := by
  have hsupport : ∀ id, id ∉ nodes.keys → DepthFirst.pushed (visitNode nodes) id = [] := by
    intro id hid
    rw [DepthFirst.pushed, visitNode, FMap.notMem_keys_iff.mp hid]
    rfl
  refine DepthFirst.search_isSome hsupport ?_
  simp [DepthFirst.potential, length_pushed_visitNode]

theorem exists_reachableNodes (h : Chain nodes stack) :
    ∃ found, reachableNodes nodes (headsOf stack) = some (.ok found) := by
  obtain ⟨out, hout⟩ := exists_search nodes (headsOf stack)
  cases out with
  | error e =>
      refine absurd hout ((DepthFirst.Inv.init _).search_ne_error fun id hid => ?_)
      obtain ⟨payload, hpayload, rfl⟩ := List.mem_map.mp ((reaches_iff h id).mp hid)
      exact ⟨_, (h payload hpayload).pushed⟩
  | ok ids => exact ⟨_, by rw [reachableNodes, hout]; rfl⟩

end Chain

end ArcVcs.OpLog
