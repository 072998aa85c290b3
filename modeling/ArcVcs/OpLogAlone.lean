import ArcVcs.Lib.Solo
import ArcVcs.OpLogContract

/-!
# The operation log of one writer

`append`, `pop` and `read_all` when nobody else writes. Whatever the heads of the log are, an
append makes them the parents of the new node, and a pop takes that node away again.
-/

namespace ArcVcs.OpLog

open OpLogHash Thread

variable {ι : Type} {s t u : Disk ι} {i : ι} {op : Operation}

/-! ## Statement -/

/-- The heads, the nodes and the lock are the same. The projection and what is recorded may
differ. -/
structure SameLog (s t : Disk ι) : Prop where
  heads : t.heads = s.heads
  nodes : t.nodes = s.nodes
  lock : t.lock = s.lock

def KeepsNodes (s t : Disk ι) : Prop :=
  ∀ id node, s.nodes.lookup id = some node → t.nodes.lookup id = some node

def listing [OpLogHash] (i : ι) (s : Disk ι) : Option (Except OpLogError (List Operation)) :=
  ((readAll i 2).run s).map Prod.fst

theorem SameLog.trans (h : SameLog s t) (h' : SameLog t u) : SameLog s u :=
  ⟨h'.heads.trans h.heads, h'.nodes.trans h.nodes, h'.lock.trans h.lock⟩

/-! ## Reading -/

def operationsFrom (s : Disk ι) : Option (Except OpLogError (List Operation)) :=
  (reachableNodes s.nodes s.current.heads).map fun found =>
    found.map fun nodes => nodes.map OperationNode.operation

theorem reachableNodes_isSome (nodes : FMap SnapshotId OperationNode)
    (heads : Finset SnapshotId) : ∃ out, reachableNodes nodes heads = some out := by
  obtain ⟨out, hout⟩ := exists_search nodes heads
  exact ⟨_, by rw [reachableNodes, hout]; rfl⟩

theorem reachableNodes_of_keepsNodes (h : KeepsNodes s t) {heads : Finset SnapshotId}
    {found : List OperationNode} (hread : reachableNodes s.nodes heads = some (.ok found)) :
    reachableNodes t.nodes heads = some (.ok found) := by
  obtain ⟨out, hsearch, hout⟩ := Option.map_eq_some_iff.mp hread
  cases out with
  | error e => cases hout
  | ok ids =>
      have hext : ∀ id next, visitNode s.nodes id = .ok next → visitNode t.nodes id = .ok next := by
        intro id next hvisit
        unfold visitNode at hvisit ⊢
        cases hnode : s.nodes.lookup id with
        | none => simp [hnode] at hvisit
        | some node =>
            rw [hnode] at hvisit
            rw [h id node hnode]
            exact hvisit
      obtain ⟨out', hsearch'⟩ := exists_search t.nodes heads
      obtain rfl := DepthFirst.search_of_extends hext hsearch hsearch'
      have hsame : ids.filterMap t.nodes.lookup = ids.filterMap s.nodes.lookup := by
        refine List.filterMap_congr fun id hid => ?_
        obtain ⟨next, hvisit⟩ := (DepthFirst.search_ok hsearch).2.1 id hid
        unfold visitNode at hvisit
        cases hnode : s.nodes.lookup id with
        | none => simp [hnode] at hvisit
        | some node => exact h id node hnode
      rw [reachableNodes, hsearch', ← Except.ok.inj hout]
      change some (Except.ok ((ids.filterMap t.nodes.lookup).insertionSort listedBefore)) = _
      rw [hsame]

theorem operationsFrom_of_empty (h : s.current.heads = ∅) : operationsFrom s = some (.ok []) := by
  rw [operationsFrom, h]
  rfl

theorem operationsFrom_of_keepsNodes (h : KeepsNodes s t)
    (hheads : t.current.heads = s.current.heads)
    {ops : List Operation} (hread : operationsFrom s = some (.ok ops)) :
    operationsFrom t = some (.ok ops) := by
  obtain ⟨found, hfound, hops⟩ := Option.map_eq_some_iff.mp hread
  cases found with
  | error e => cases hops
  | ok nodes =>
      rw [operationsFrom, hheads, reachableNodes_of_keepsNodes h hfound, ← hops]
      rfl

variable [OpLogHash]

omit [OpLogHash] in
theorem noting_run {α : Type} {action : Action ι α} {a : α}
    (h : action s = some (.ok a, t)) (effects : α → List (StackHistory.Effect ι OperationContent)) :
    ∃ u, action.noting effects s = some (.ok a, u) ∧ SameLog t u :=
  ⟨{ t with history := t.history ++ effects a }, by rw [Action.noting, h], rfl, rfl, rfl⟩

theorem loadHeadsState_run (s : Disk ι) :
    ∃ t, loadHeadsState s = some (.ok (s.current, fingerprint s.current), t) ∧ SameLog s t :=
  ⟨_, rfl, rfl, rfl, rfl⟩

theorem migrate_run (h : s.Ready) (i : ι) (depth : ℕ) :
    (migrateLegacyJsonIfPresent i (depth + 1)).run s = some (.ok (), s) := by
  have hexist : headsExist s = some (.ok s.heads.isSome, s) := rfl
  have hlegacy : legacyExists s = some (.ok s.legacy.isSome, s) := rfl
  rw [migrateLegacyJsonIfPresent, run_perform_bind hexist]
  rcases h with h | h
  · rw [h]
    rfl
  · cases s.heads.isSome with
    | true => rfl
    | false =>
        rw [if_neg Bool.false_ne_true, run_perform_bind hlegacy, h]
        rfl

theorem readHeads_run (i : ι) (s : Disk ι) :
    ∃ out t, (readHeads i).run s = some (out, t) ∧ SameLog s t ∧ operationsFrom s = some out := by
  obtain ⟨s₁, hexist, hsame₁⟩ := noting_run
    (show headsExist s = some (.ok s.heads.isSome, s) from rfl)
    fun present => if present then [] else [.listed i]
  rw [readHeads, run_perform_bind hexist]
  cases hheads : s.heads with
  | none =>
      refine ⟨_, s₁, rfl, hsame₁, operationsFrom_of_empty ?_⟩
      simp [Disk.current, hheads, HeadsState.default]
  | some state =>
      obtain ⟨s₂, hload, hsame₂⟩ := loadHeadsState_run s₁
      obtain ⟨s₃, hnoted, hsame₃⟩ := noting_run hload fun _ => [.listed i]
      have hsame := (hsame₁.trans hsame₂).trans hsame₃
      have hcurrent : s₁.current = s.current := by rw [Disk.current, hsame₁.heads, Disk.current]
      rw [Option.isSome_some, if_pos rfl, run_perform_bind hnoted, hcurrent]
      dsimp only
      split_ifs with hempty
      · exact ⟨_, s₃, rfl, hsame, operationsFrom_of_empty hempty⟩
      · obtain ⟨out, hout⟩ := reachableNodes_isSome s.nodes s.current.heads
        refine ⟨_, s₃, ?_, hsame, by rw [operationsFrom, hout]; rfl⟩
        rw [run_perform, readNodes, hsame.nodes, hout]
        rfl

theorem readAll_run (h : s.Ready) (i : ι) (depth : ℕ) :
    ∃ out t, (readAll i (depth + 1)).run s = some (out, t) ∧ SameLog s t
      ∧ operationsFrom s = some out := by
  rw [readAll, run_bind_of_ok (migrate_run h i depth)]
  exact readHeads_run i s

theorem listing_eq (h : s.Ready) (i : ι) : listing i s = operationsFrom s := by
  obtain ⟨out, t, hrun, -, hout⟩ := readAll_run h i 1
  rw [listing, hrun, hout]
  rfl

theorem writeLegacyProjection_run (h : s.heads.isSome) (i : ι) (depth : ℕ) :
    ∃ out t, (writeLegacyProjection (migrateLegacyJsonIfPresent i (depth + 1)) i).run s
      = some (out, t) ∧ SameLog s t := by
  obtain ⟨out, t, hrun, hsame, -⟩ := readHeads_run i s
  rw [writeLegacyProjection, run_bind_of_ok (migrate_run (.inl h) i depth)]
  cases out with
  | error e => exact ⟨_, t, run_bind_of_error hrun, hsame⟩
  | ok all =>
      rw [run_bind_of_ok hrun, run_perform]
      exact ⟨_, _, rfl, hsame.heads, hsame.nodes, hsame.lock⟩

/-! ## Writing -/

/-- A node that holds an operation on top of the heads. -/
structure IsNode (heads : Finset SnapshotId) (op : Operation) (node : OperationNode) : Prop where
  id : node.id = (buildNode op heads).id
  parents : node.operation.parents = heads
  content : node.operation.toOperationContent = op.toOperationContent

theorem isNode_buildNode (heads : Finset SnapshotId) (op : Operation) :
    IsNode heads op (buildNode op heads) := ⟨rfl, rfl, rfl⟩

/-- The id of the next node is new, or the node is there already. -/
def Fresh (s : Disk ι) (op : Operation) : Prop :=
  ∀ node, s.nodes.lookup (buildNode op s.current.heads).id = some node →
    IsNode s.current.heads op node

/-- The log after an append: the new node is the only head. -/
structure HasAppended (s : Disk ι) (op : Operation) (t : Disk ι) : Prop where
  heads : t.heads = some ⟨nextEpoch s.current.epoch, {(buildNode op s.current.heads).id}⟩
  lock : t.lock = none
  keepsNodes : KeepsNodes s t
  node : ∃ node, t.nodes.lookup (buildNode op s.current.heads).id = some node
    ∧ IsNode s.current.heads op node

/-- The nodes with one more, unless its id is taken. -/
def storing (node : OperationNode) (nodes : FMap SnapshotId OperationNode) :
    FMap SnapshotId OperationNode :=
  if node.id ∈ nodes.keys then nodes else nodes.insert node.id node

omit [OpLogHash] in
theorem persistNode_run (node : OperationNode) (s : Disk ι) :
    ∃ t, (persistNode node).run s = some (.ok (), t) ∧ t.heads = s.heads ∧ t.lock = s.lock
      ∧ t.nodes = storing node s.nodes := by
  have hexists : nodeExists node s = some (.ok (decide (node.id ∈ s.nodes.keys)),
      { s with hashedPayloads := node.operation.payload :: s.hashedPayloads }) := rfl
  rw [persistNode, run_perform_bind hexists, storing]
  by_cases hnode : node.id ∈ s.nodes.keys
  · rw [decide_eq_true hnode, if_pos rfl, if_pos hnode]
    exact ⟨_, rfl, rfl, rfl, rfl⟩
  · rw [decide_eq_false hnode, if_neg Bool.false_ne_true, run_perform, if_neg hnode]
    exact ⟨_, rfl, rfl, rfl, rfl⟩

omit [OpLogHash] in
theorem withLock_run {α : Type} {body : OpLogThread ι α} {out : Except OpLogError α}
    (hlock : s.lock = none) (hbody : body.run { s with lock := some i } = some (out, t)) :
    (withLock i body).run s = some (out, { t with lock := none }) := by
  have hacquire : acquire i s = some (.ok (), { s with lock := some i }) := by
    rw [acquire, hlock]
  rw [withLock, run_perform_bind hacquire, run_attempt_bind hbody]
  cases out with
  | ok a => rfl
  | error e => rfl

theorem publishHeadsCas_run (hlock : s.lock = none) (i : ι) (candidate : HeadsState)
    (content : OperationContent) :
    ∃ t, (publishHeadsCas i (fingerprint s.current) candidate content).run s = some (.ok true, t)
      ∧ t.heads = some candidate ∧ t.lock = none ∧ t.nodes = s.nodes := by
  obtain ⟨s₁, hload, hsame₁⟩ := loadHeadsState_run { s with lock := some i }
  obtain ⟨s₂, hwrite, hsame₂⟩ := noting_run
    (show writeHeadsState candidate s₁ =
      some (.ok (), { s₁ with heads := some candidate }) from rfl)
    fun _ => [.pushed i content candidate.epoch]
  refine ⟨_, withLock_run hlock ?_, hsame₂.heads, rfl, hsame₂.nodes.trans hsame₁.nodes⟩
  have hloaded : Disk.current { s with lock := some i } = s.current := rfl
  rw [run_perform_bind hload, hloaded]
  dsimp only
  rw [if_pos rfl, run_perform_bind hwrite]
  rfl

theorem append_run_eq (h : s.Ready) (hlock : s.lock = none) (i : ι) (op : Operation)
    (depth : ℕ) : ∃ t, (append i op (depth + 1)).run s = some (.ok (), t)
      ∧ t.heads = some ⟨nextEpoch s.current.epoch, {(buildNode op s.current.heads).id}⟩
      ∧ t.lock = none ∧ t.nodes = storing (buildNode op s.current.heads) s.nodes := by
  obtain ⟨s₁, hload, hsame₁⟩ := loadHeadsState_run s
  obtain ⟨s₂, hpersist, hheads₂, hlock₂, hnodes₂⟩ :=
    persistNode_run (buildNode op s.current.heads) s₁
  have hcurrent : s₂.current = s.current := by
    rw [Disk.current, hheads₂, hsame₁.heads, Disk.current]
  obtain ⟨s₃, hpublish, hheads₃, hlock₃, hnodes₃⟩ := publishHeadsCas_run
    (hlock₂.trans (hsame₁.lock.trans hlock)) i
    ⟨nextEpoch s.current.epoch, {(buildNode op s.current.heads).id}⟩ op.toOperationContent
  obtain ⟨out, s₄, hproject, hsame₄⟩ := writeLegacyProjection_run
    (show s₃.heads.isSome by rw [hheads₃]; rfl) i depth
  rw [hcurrent] at hpublish
  refine ⟨s₄, ?_, hsame₄.heads.trans hheads₃, hsame₄.lock.trans hlock₃, ?_⟩
  · rw [append, run_bind_of_ok (migrate_run h i depth), maxRetryAttempts, appendLoop,
      run_perform_bind hload]
    dsimp only
    rw [run_bind_of_ok hpersist, (isNode_buildNode s.current.heads op).parents, sdiff_self,
      Finset.bot_eq_empty, insert_empty_eq, run_bind_of_ok hpublish, if_pos rfl,
      run_attempt_bind hproject]
    rfl
  · rw [hsame₄.nodes, hnodes₃, hnodes₂, hsame₁.nodes]

/-- **An append** puts the new node on top of all heads. -/
theorem append_run (h : s.Ready) (hlock : s.lock = none) (hfresh : Fresh s op) (i : ι)
    (depth : ℕ) : ∃ t, (append i op (depth + 1)).run s = some (.ok (), t) ∧ HasAppended s op t := by
  obtain ⟨t, hrun, hheads, hlock', hnodes⟩ := append_run_eq h hlock i op depth
  refine ⟨t, hrun, hheads, hlock', fun id node hnode => ?_, ?_⟩
  · rw [hnodes, storing]
    split_ifs with hid
    · exact hnode
    · rw [FMap.lookup_insert_eq, if_neg]
      · exact hnode
      · rintro rfl
        exact hid (FMap.mem_keys_of_lookup hnode)
  · rw [hnodes, storing]
    split_ifs with hid
    · obtain ⟨node, hnode⟩ := FMap.mem_keys_iff.mp hid
      exact ⟨node, hnode, hfresh node hnode⟩
    · exact ⟨_, Finmap.lookup_insert _, isNode_buildNode _ op⟩

/-- **A pop** of a log with one head makes its parents the heads. -/
theorem pop_run {state : HeadsState} {node : OperationNode} (hstate : s.heads = some state)
    (hheads : state.heads = {node.id}) (hnode : s.nodes.lookup node.id = some node)
    (hlock : s.lock = none) (i : ι) (depth : ℕ) :
    ∃ t, (pop i (depth + 1)).run s = some (.ok (some node.operation), t)
      ∧ t.heads = some ⟨nextEpoch state.epoch, node.operation.parents⟩ ∧ t.lock = none
      ∧ t.nodes = s.nodes := by
  have hcurrent : s.current = state := by rw [Disk.current, hstate, Option.getD_some]
  obtain ⟨s₁, hload, hsame₁⟩ := loadHeadsState_run { s with lock := some i }
  obtain ⟨s₂, hnoted, hsame₂⟩ := noting_run hload fun loaded =>
    if loaded.1.heads = ∅ then [.foundEmpty i] else []
  have hsame := hsame₁.trans hsame₂
  have hnodes : loadNode node.id s₂ = some (.ok node, s₂) := by
    rw [loadNode, hsame.nodes, hnode]
  let candidate : HeadsState := ⟨nextEpoch state.epoch, node.operation.parents⟩
  obtain ⟨s₃, hwrite, hsame₃⟩ := noting_run
    (show writeHeadsState candidate s₂ =
      some (.ok (), { s₂ with heads := some candidate }) from rfl)
    fun _ => [.popped i node.operation.toOperationContent candidate.epoch]
  obtain ⟨out, s₄, hproject, hsame₄⟩ := writeLegacyProjection_run
    (show s₃.heads.isSome by rw [hsame₃.heads]; rfl) i depth
  refine ⟨{ s₄ with lock := none }, ?_, hsame₄.heads.trans hsame₃.heads, rfl,
    hsame₄.nodes.trans (hsame₃.nodes.trans hsame.nodes)⟩
  rw [pop, run_bind_of_ok (migrate_run (.inl (by rw [hstate]; rfl)) i depth)]
  refine withLock_run hlock ?_
  have hloaded : Disk.current { s with lock := some i } = state := hcurrent
  rw [popLocked, run_perform_bind hnoted, hloaded]
  dsimp only
  have hids : state.heads.sorted = [node.id] := by
    rw [hheads, Finset.sorted_eq_sort, Finset.sort_singleton]
  have hload : (loadNodes [node.id]).run s₂ = some (.ok [node], s₂) := by
    rw [loadNodes, run_perform_bind hnodes]
    rfl
  have hlast : ([node].insertionSort listedBefore).getLast? = some node := rfl
  have hnext : state.heads.erase node.id ∪ node.operation.parents = node.operation.parents := by
    rw [hheads, Finset.erase_singleton, Finset.empty_union]
  rw [if_neg (by rw [hheads]; exact Finset.singleton_ne_empty _), hids, run_bind_of_ok hload,
    hlast]
  dsimp only
  rw [hnext, run_perform_bind hwrite, run_attempt_bind hproject]
  rfl

/-! ## Migration -/

theorem migrateNodes_run (ops : List Operation) (state : HeadsState) (s : Disk ι) :
    ∃ out t, (migrateNodes ops state).run s = some (.ok out, t) ∧ t.lock = s.lock
      ∧ t.legacy = s.legacy := by
  induction ops generalizing state s with
  | nil => exact ⟨state, s, rfl, rfl, rfl⟩
  | cons op ops ih =>
      have hpersist : ∃ t, (persistNode (buildNode op state.heads)).run s = some (.ok (), t)
          ∧ t.lock = s.lock ∧ t.legacy = s.legacy := by
        rw [persistNode, run_bind, run_perform, Program.bind_run, nodeExists]
        dsimp only
        cases decide ((buildNode op state.heads).id ∈ s.nodes.keys) with
        | true => exact ⟨_, rfl, rfl, rfl⟩
        | false =>
            rw [if_neg Bool.false_ne_true, run_perform]
            exact ⟨_, rfl, rfl, rfl⟩
      obtain ⟨t, hpersist, hlock, hlegacy⟩ := hpersist
      obtain ⟨out, u, hrun, hlock', hlegacy'⟩ :=
        ih ⟨nextEpoch state.epoch, {(buildNode op state.heads).id}⟩ t
      exact ⟨out, u, by rw [migrateNodes, run_bind_of_ok hpersist, hrun], hlock'.trans hlock,
        hlegacy'.trans hlegacy⟩

theorem exists_migrate (i : ι) (s : Disk ι) :
    ∃ t, (migrateLegacyJsonIfPresent i 2).run s = some (.ok (), t) ∧ t.Ready ∧ t.lock = s.lock := by
  by_cases hready : s.Ready
  · exact ⟨s, migrate_run hready i 1, hready, rfl⟩
  · obtain ⟨hheads, ops, hlegacy⟩ : s.heads = none ∧ ∃ ops, s.legacy = some ops := by
      simpa [Disk.Ready, Option.ne_none_iff_exists'] using hready
    obtain ⟨state, s₁, hnodes, hlock₁, hlegacy₁⟩ := migrateNodes_run ops .default s
    have hexist : headsExist s = some (.ok false, s) := by rw [headsExist, hheads]; rfl
    have hpresent : legacyExists s = some (.ok true, s) := by rw [legacyExists, hlegacy]; rfl
    have hread : readLegacy s = some (.ok ops, s) := by rw [readLegacy, hlegacy]
    have hwrite : writeHeadsState state s₁ = some (.ok (), { s₁ with heads := some state }) := rfl
    have hmove : moveLegacyAside { s₁ with heads := some state }
        = some (.ok (), { s₁ with heads := some state, legacy := none }) := by
      rw [moveLegacyAside, hlegacy₁.trans hlegacy]
    obtain ⟨out, t, hproject, hsame⟩ := writeLegacyProjection_run
      (show (Disk.heads { s₁ with heads := some state, legacy := none }).isSome from rfl) i 0
    refine ⟨t, ?_, .inl (by rw [hsame.heads]; rfl), hsame.lock.trans hlock₁⟩
    rw [migrateLegacyJsonIfPresent, run_perform_bind hexist, if_neg Bool.false_ne_true,
      run_perform_bind hpresent, if_pos rfl, run_perform_bind hread, run_bind_of_ok hnodes,
      run_perform_bind hwrite, run_perform_bind hmove, run_attempt_bind hproject]
    rfl

/-! ## An append and a pop -/

/-- **A pop takes back what an append has put on the log**, whatever its heads are. -/
theorem append_pop_run (h : s.Ready) (hlock : s.lock = none) (hfresh : Fresh s op) (i : ι) :
    ∃ t u popped, (append i op 2).run s = some (.ok (), t)
      ∧ (pop i 2).run t = some (.ok (some popped), u)
      ∧ popped.toOperationContent = op.toOperationContent ∧ u.heads.isSome ∧ u.lock = none
      ∧ u.current.heads = s.current.heads ∧ KeepsNodes s u := by
  obtain ⟨t, happend, happended⟩ := append_run h hlock hfresh i 1
  obtain ⟨node, hnode, hid, hparents, hcontent⟩ := happended.node
  rw [← hid] at hnode
  obtain ⟨u, hpop, hheads, hlock', hnodes⟩ := pop_run happended.heads (by rw [hid]) hnode
    happended.lock i 1
  refine ⟨t, u, node.operation, happend, hpop, hcontent, by rw [hheads]; rfl, hlock', ?_, ?_⟩
  · rw [Disk.current, hheads, Option.getD_some, hparents]
  · intro id node' hnode'
    rw [hnodes]
    exact happended.keepsNodes id node' hnode'

/-- The new node is fresh in the log once it is migrated. -/
def FreshNext (i : ι) (s : Disk ι) (op : Operation) : Prop :=
  ∀ t, (migrateLegacyJsonIfPresent i 2).run s = some (.ok (), t) → Fresh t op

/-- **An append and a pop** list what was listed before. -/
theorem append_pop_listing (hlock : s.lock = none) (hfresh : FreshNext i s op)
    {ops : List Operation} (hread : listing i s = some (.ok ops)) :
    ∃ t u popped, (append i op 2).run s = some (.ok (), t)
      ∧ (pop i 2).run t = some (.ok (some popped), u) ∧ listing i u = some (.ok ops) := by
  obtain ⟨s₁, hmigrate, hready, hlock₁⟩ := exists_migrate i s
  have hagain := migrate_run hready i 1
  have happend_eq : (append i op 2).run s = (append i op 2).run s₁ := by
    rw [append, run_bind_of_ok hmigrate, run_bind_of_ok hagain]
  have hread_eq : listing i s = listing i s₁ := by
    rw [listing, listing, readAll, run_bind_of_ok hmigrate, run_bind_of_ok hagain]
  obtain ⟨t, u, popped, happend, hpop, -, hheads, -, hcurrent, hkeeps⟩ :=
    append_pop_run hready (hlock₁.trans hlock) (hfresh s₁ hmigrate) i
  refine ⟨t, u, popped, happend_eq.trans happend, hpop, ?_⟩
  rw [hread_eq, listing_eq hready] at hread
  rw [listing_eq (.inl hheads)]
  exact operationsFrom_of_keepsNodes hkeeps hcurrent hread

end ArcVcs.OpLog
