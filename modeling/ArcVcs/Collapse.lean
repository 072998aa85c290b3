import ArcVcs.GraphIndex
import ArcVcs.Lib.Cascade
import ArcVcs.Persistence

/-!
# Identity collapsing

The loop of `post_sync` runs Kahn's algorithm over the edges inside the payload and renames the
changes that it collapses. It is the cascade of the library: what is rewritten, and to what, is
a fixed point of the final rewrite map.
-/

namespace ArcVcs

namespace DeltaPayload

/-- The dependencies of a change of the payload that are in the payload. -/
def depsWithin (payload : DeltaPayload) (id : Blake3Hash) : Finset Blake3Hash :=
  ((ChangeGraph.ofChanges payload.changes).deps id).filter fun dep => dep ∈ payload.ids

def DistinctIds (payload : DeltaPayload) : Prop := (payload.changes.map Change.id).Nodup

instance (payload : DeltaPayload) : Decidable payload.DistinctIds :=
  inferInstanceAs (Decidable (List.Nodup _))

variable {payload : DeltaPayload}

@[simp] theorem mem_ids {id : Blake3Hash} :
    id ∈ payload.ids ↔ id ∈ payload.changes.map Change.id := by
  rw [ids, List.mem_toFinset]

theorem DistinctIds.oneDepSet (h : payload.DistinctIds) :
    ChangeGraph.OneDepSet payload.changes := fun _ ha _ hb hid =>
  congrArg Change.deps (List.inj_on_of_nodup_map h ha hb hid)

theorem DistinctIds.depsWithin_eq (h : payload.DistinctIds) {c : Change}
    (hc : c ∈ payload.changes) :
    payload.depsWithin c.id = c.deps.filter fun dep => dep ∈ payload.ids := by
  rw [depsWithin, h.oneDepSet.deps_eq hc]

theorem DistinctIds.changeMap_eq (h : payload.DistinctIds) {c : Change}
    (hc : c ∈ payload.changes) : payload.changeMap.lookup c.id = some c := by
  have hkeys : ((payload.changes.map fun c => (c.id, c)).map Prod.fst).Nodup := by
    rw [List.map_map]
    exact h
  exact FMap.lookup_insertAll_of_nodup hkeys (List.mem_map.mpr ⟨c, hc, rfl⟩)

end DeltaPayload

/-! ## The edges that the loop follows -/

namespace Wiring

theorem children_link (id : Blake3Hash) (w : Wiring) (dep d : Blake3Hash) :
    (w.link id dep).children d = w.children d ++ if d = dep then [id] else [] := by
  rw [children, link, FMap.lookup_insert_eq]
  split_ifs with h
  · subst h
    rfl
  · rw [List.append_nil, children]

theorem children_foldl_link (id : Blake3Hash) {deps : List Blake3Hash} (hnodup : deps.Nodup)
    (w : Wiring) (d : Blake3Hash) :
    (deps.foldl (link id) w).children d = w.children d ++ if d ∈ deps then [id] else [] := by
  induction deps generalizing w with
  | nil => simp
  | cons dep deps ih =>
      obtain ⟨hdep, hdeps⟩ := List.nodup_cons.mp hnodup
      rw [List.foldl_cons, ih hdeps, children_link, List.append_assoc]
      by_cases hd : d = dep
      · subst hd
        simp [hdep]
      · simp [hd]

theorem children_foldl_linkChange (ids : Finset Blake3Hash) (changes : List Change) (w : Wiring)
    (d : Blake3Hash) :
    (changes.foldl (linkChange ids) w).children d
      = w.children d
        ++ (changes.filter fun c => decide (d ∈ c.deps ∧ d ∈ ids)).map Change.id := by
  induction changes generalizing w with
  | nil => simp
  | cons c changes ih =>
      rw [List.foldl_cons, ih, linkChange, children_foldl_link _ (Finset.nodup_sorted _)]
      by_cases hd : d ∈ c.deps ∧ d ∈ ids
      · simp [hd]
      · rw [if_neg (by simpa using hd), List.filter_cons_of_neg (by simpa using hd),
          List.append_nil]

theorem lookup_foldl_link (id : Blake3Hash) (deps : List Blake3Hash) {w : Wiring} {n : ℕ}
    (h : w.inDegree.lookup id = some n) :
    (deps.foldl (link id) w).inDegree.lookup id = some (n + deps.length) := by
  induction deps generalizing w n with
  | nil => exact h
  | cons dep deps ih =>
      rw [List.foldl_cons, ih (n := n + 1), List.length_cons, Nat.add_right_comm, Nat.add_assoc]
      rw [link, FMap.lookup_insert_eq, if_pos rfl, h, Option.getD_some]

theorem lookup_foldl_link_of_ne {id x : Blake3Hash} (hx : x ≠ id) (deps : List Blake3Hash)
    (w : Wiring) : (deps.foldl (link id) w).inDegree.lookup x = w.inDegree.lookup x := by
  induction deps generalizing w with
  | nil => rfl
  | cons dep deps ih => rw [List.foldl_cons, ih, link, FMap.lookup_insert_eq, if_neg hx]

theorem lookup_foldl_linkChange_of_notMem (ids : Finset Blake3Hash) {changes : List Change}
    {x : Blake3Hash} (hx : x ∉ changes.map Change.id) (w : Wiring) :
    (changes.foldl (linkChange ids) w).inDegree.lookup x = w.inDegree.lookup x := by
  induction changes generalizing w with
  | nil => rfl
  | cons c changes ih =>
      simp only [List.map_cons, List.mem_cons, not_or] at hx
      rw [List.foldl_cons, ih hx.2, linkChange, lookup_foldl_link_of_ne hx.1]

theorem lookup_foldl_linkChange (ids : Finset Blake3Hash) {changes : List Change}
    (hnodup : (changes.map Change.id).Nodup) {c : Change} (hc : c ∈ changes) {w : Wiring} {n : ℕ}
    (h : w.inDegree.lookup c.id = some n) :
    (changes.foldl (linkChange ids) w).inDegree.lookup c.id
      = some (n + (c.deps.filter fun dep => dep ∈ ids).card) := by
  induction changes generalizing w with
  | nil => simp at hc
  | cons a changes ih =>
      obtain ⟨ha, hrest⟩ := List.nodup_cons.mp hnodup
      rw [List.foldl_cons]
      rcases List.mem_cons.mp hc with rfl | hc
      · rw [lookup_foldl_linkChange_of_notMem _ ha, linkChange, lookup_foldl_link _ _ h,
          Finset.length_sorted]
      · refine ih hrest hc ?_
        have hne : c.id ≠ a.id := fun hid => ha (hid ▸ List.mem_map_of_mem hc)
        rw [linkChange, lookup_foldl_link_of_ne hne, h]

variable {payload : DeltaPayload}

theorem lookup_inDegree_of_notMem {x : Blake3Hash} (hx : x ∉ payload.ids) :
    (ofPayload payload).inDegree.lookup x = none := by
  rw [DeltaPayload.mem_ids] at hx
  rw [ofPayload, lookup_foldl_linkChange_of_notMem _ hx,
    FMap.lookup_insertAll_of_notMem _ _ (by simpa using hx)]
  rfl

theorem lookup_zeros {x : Blake3Hash} (hx : x ∈ payload.ids) :
    (FMap.insertAll ∅ (payload.changes.map fun c => (c.id, 0))).lookup x = some 0 := by
  obtain ⟨c, hc, rfl⟩ := List.mem_map.mp (DeltaPayload.mem_ids.mp hx)
  obtain ⟨e, he, -, hlook⟩ := FMap.lookup_insertAll_of_mem ∅
    (payload.changes.map fun c => (c.id, 0)) (k := c.id) (by simpa using ⟨c, hc, rfl⟩)
  obtain ⟨b, -, rfl⟩ := List.mem_map.mp he
  exact hlook

theorem lookup_inDegree (h : payload.DistinctIds) {x : Blake3Hash} (hx : x ∈ payload.ids) :
    (ofPayload payload).inDegree.lookup x
      = some (Kahn.inDegree payload.ids payload.depsWithin x) := by
  obtain ⟨c, hc, rfl⟩ := List.mem_map.mp (DeltaPayload.mem_ids.mp hx)
  rw [ofPayload, lookup_foldl_linkChange payload.ids h hc (lookup_zeros hx), Nat.zero_add,
    Kahn.inDegree, h.depsWithin_eq hc, Finset.filter_filter]
  simp only [and_self]

theorem wired (h : payload.DistinctIds) :
    Kahn.Wired payload.ids payload.depsWithin (ofPayload payload).children := by
  have hchildren : ∀ d, (ofPayload payload).children d
      = (payload.changes.filter fun c => decide (d ∈ c.deps ∧ d ∈ payload.ids)).map Change.id := by
    intro d
    rw [ofPayload, children_foldl_linkChange]
    rfl
  refine ⟨fun d => ?_, fun d x => ?_⟩
  · rw [hchildren]
    exact h.sublist (List.filter_sublist.map _)
  · rw [hchildren]
    constructor
    · intro hx
      obtain ⟨c, hc, rfl⟩ := List.mem_map.mp hx
      obtain ⟨hc, hd⟩ := List.mem_filter.mp hc
      refine ⟨DeltaPayload.mem_ids.mpr (List.mem_map_of_mem hc), ?_⟩
      rw [h.depsWithin_eq hc, Finset.mem_filter]
      exact of_decide_eq_true hd
    · rintro ⟨hx, hd⟩
      obtain ⟨c, hc, rfl⟩ := List.mem_map.mp (DeltaPayload.mem_ids.mp hx)
      rw [h.depsWithin_eq hc, Finset.mem_filter] at hd
      exact List.mem_map_of_mem (List.mem_filter.mpr ⟨hc, decide_eq_true hd⟩)

theorem ready_eq (h : payload.DistinctIds) :
    (ofPayload payload).ready
      = payload.ids.filter fun id => Kahn.inDegree payload.ids payload.depsWithin id = 0 := by
  ext x
  rw [ready, Finset.mem_filter, Finset.mem_filter]
  by_cases hx : x ∈ payload.ids
  · rw [FMap.mem_keys_iff, lookup_inDegree h hx]
    simp [hx]
  · rw [lookup_inDegree_of_notMem hx]
    simp [hx]

theorem inv_start [Serde] (h : payload.DistinctIds) :
    Kahn.Inv payload.ids payload.depsWithin (ofPayload payload).inDegree
      (Serde.iter (ofPayload payload).ready) [] := by
  refine .of_roots (fun x hx => lookup_inDegree h hx) ?_
  refine (Serde.iter_perm _).trans (List.Perm.of_eq ?_)
  rw [ready_eq h, Kahn.roots, Finset.filter_sorted]

end Wiring

theorem DeltaPayload.acyclic_within {payload : DeltaPayload}
    (hac : (ChangeGraph.ofChanges payload.changes).Acyclic) :
    Kahn.Acyclic payload.ids payload.depsWithin := by
  intro x hx
  refine hac.kahn payload.ids x (Relation.TransGen.mono (fun d c hdc => ?_) _ _ hx)
  exact ⟨(Finset.mem_filter.mp hdc.1).1, hdc.2⟩

/-! ## What the loop leaves -/

def changesOf (changeMap : FMap Blake3Hash Change) (ids : List Blake3Hash) : List Change :=
  ids.filterMap fun id => changeMap.lookup id

section Loop

variable {σ : Type} [Crypto] {write : σ → Change → Except Unit σ} (app : AppState)

/-- The id of the canonical form of a change under given names, when it is collapsed. -/
def canonicalId (rename : Blake3Hash → Blake3Hash) (change : Change) : Option Blake3Hash :=
  if isTransientAuthor change.author = true ∨ change.deps.image rename ≠ change.deps then
    some (Change.computeId (change.deps.image rename) change.atoms change.intent app.serverAuthor)
  else none

variable {app} in
theorem canonicalId_of_triggers {rewritten : FMap Blake3Hash Blake3Hash} {change : Change}
    (h : triggersCollapse rewritten change) :
    canonicalId app (Cascade.name rewritten) change
      = some (canonicalOf app rewritten change).id := if_pos h

variable {app} in
theorem canonicalId_of_not_triggers {rewritten : FMap Blake3Hash Blake3Hash} {change : Change}
    (h : ¬ triggersCollapse rewritten change) :
    canonicalId app (Cascade.name rewritten) change = none := if_neg h

def stored (rewritten : FMap Blake3Hash Blake3Hash) (change : Change) : List Change :=
  if triggersCollapse rewritten change then [change, canonicalOf app rewritten change]
  else [change]

def rewriteAll (rewritten : FMap Blake3Hash Blake3Hash) (changes : List Change) :
    FMap Blake3Hash Blake3Hash :=
  changes.foldl (Cascade.step Change.id (canonicalId app)) rewritten

def storedAll : FMap Blake3Hash Blake3Hash → List Change → List Change
  | _, [] => []
  | rewritten, change :: changes =>
      stored app rewritten change
        ++ storedAll (Cascade.step Change.id (canonicalId app) rewritten change) changes

omit [Crypto] in
theorem foldlM_cons_of_ok {store store' : σ} {c : Change} {cs : List Change}
    (h : write store c = .ok store') :
    (c :: cs).foldlM write store = cs.foldlM write store' := by
  rw [List.foldlM_cons, h]
  rfl

omit [Crypto] in
theorem storeChange_run {disk : ServerDisk σ} {c : Change} {store : σ}
    (h : write disk.store c = .ok store) :
    storeChange write c disk = some (.ok (), { disk with store := store }) := by
  rw [storeChange, h]

omit [Crypto] in
theorem foldlM_cons_eq_ok_iff {store store' : σ} {c : Change} {cs : List Change} :
    (c :: cs).foldlM write store = .ok store'
      ↔ ∃ store₁, write store c = .ok store₁ ∧ cs.foldlM write store₁ = .ok store' := by
  rw [List.foldlM_cons]
  exact Except.bind_eq_ok_iff

omit [Crypto] in
theorem foldlM_ok (hwrite : ∀ store c, ∃ store', write store c = .ok store') (cs : List Change)
    (store : σ) : ∃ store', cs.foldlM write store = .ok store' := by
  induction cs generalizing store with
  | nil => exact ⟨store, rfl⟩
  | cons c cs ih =>
      obtain ⟨store₁, hstore⟩ := hwrite store c
      obtain ⟨store', hrest⟩ := ih store₁
      exact ⟨store', foldlM_cons_eq_ok_iff.mpr ⟨store₁, hstore, hrest⟩⟩

theorem processChange_of_ok {rewritten : FMap Blake3Hash Blake3Hash} {change : Change}
    {disk : ServerDisk σ} {store : σ}
    (h : (stored app rewritten change).foldlM write disk.store = .ok store) :
    processChange write app rewritten change disk
      = some (.ok (Cascade.step Change.id (canonicalId app) rewritten change),
          { disk with store := store }) := by
  by_cases htrigger : triggersCollapse rewritten change
  · rw [stored, if_pos htrigger] at h
    obtain ⟨store₁, hstore₁, h⟩ := foldlM_cons_eq_ok_iff.mp h
    obtain ⟨_, hstore, ⟨⟩⟩ := foldlM_cons_eq_ok_iff.mp h
    rw [processChange, if_pos htrigger, Cascade.step, canonicalId_of_triggers htrigger]
    simp only [Program.bind_run, storeChange_run hstore₁, Program.pure_run]
    have hcanonical : write { disk with store := store₁ }.store (canonicalOf app rewritten change)
        = .ok store := hstore
    rw [storeChange_run hcanonical]
  · rw [stored, if_neg htrigger] at h
    obtain ⟨_, hstore, ⟨⟩⟩ := foldlM_cons_eq_ok_iff.mp h
    rw [processChange, if_neg htrigger, Cascade.step, canonicalId_of_not_triggers htrigger]
    simp only [Program.bind_run, storeChange_run hstore, Program.pure_run]

omit [Crypto] in
theorem changesOf_cons {changeMap : FMap Blake3Hash Change} {id : Blake3Hash} {c : Change}
    (h : changeMap.lookup id = some c) (ids : List Blake3Hash) :
    changesOf changeMap (id :: ids) = c :: changesOf changeMap ids := by
  rw [changesOf, List.filterMap_cons, h, changesOf]

theorem collapseLoop_of_ok {changeMap : FMap Blake3Hash Change} {w : Wiring} {fuel : ℕ}
    {inDegree : FMap Blake3Hash ℕ} {queue order ids : List Blake3Hash}
    (h : Kahn.loop w.children fuel inDegree queue order = some (order ++ ids))
    (hmap : ∀ id ∈ ids, id ∈ changeMap.keys) {rewritten : FMap Blake3Hash Blake3Hash}
    {processed : ℕ} {disk : ServerDisk σ} {store : σ}
    (hstore : (storedAll app rewritten (changesOf changeMap ids)).foldlM write disk.store
      = .ok store) :
    collapseLoop write app changeMap w fuel inDegree queue rewritten processed disk
      = some (.ok (rewriteAll app rewritten (changesOf changeMap ids), processed + ids.length),
          { disk with store := store }) := by
  induction fuel generalizing inDegree queue order ids rewritten processed disk with
  | zero => simp [Kahn.loop] at h
  | succ fuel ih =>
      cases queue with
      | nil =>
          obtain rfl : ids = [] := by simpa [Kahn.loop] using h
          obtain rfl : disk.store = store := Except.ok.inj hstore
          rfl
      | cons id queue =>
          rw [Kahn.loop] at h
          cases hrelax : Kahn.relax (w.children id) inDegree queue with
          | none => simp [hrelax] at h
          | some next =>
              obtain ⟨inDegree', queue'⟩ := next
              simp only [hrelax] at h
              obtain ⟨rest, hrest⟩ := Kahn.loop_append h
              obtain rfl : ids = id :: rest := by simpa using hrest
              obtain ⟨change, hchange⟩ := FMap.mem_keys_iff.mp (hmap id List.mem_cons_self)
              rw [changesOf_cons hchange, storedAll, List.foldlM_append] at hstore
              obtain ⟨store₁, hfirst, hstore⟩ := Except.bind_eq_ok_iff.mp hstore
              have hrun := @ih inDegree' queue' (order ++ [id]) rest (by rw [h, hrest])
                (fun x hx => hmap x (List.mem_cons_of_mem _ hx)) _ (processed + 1)
                { disk with store := store₁ } hstore
              rw [collapseLoop, hchange]
              dsimp only
              rw [Program.bind_run, processChange_of_ok app hfirst]
              simp only [hrelax]
              rw [hrun, changesOf_cons hchange, List.length_cons, Nat.add_assoc, Nat.add_comm 1]
              rfl

end Loop

/-! ## The rewrite map -/

section Rewrites

variable [Crypto] (app : AppState)

/-- The version of a change that is distributed: its canonical form when it was rewritten. -/
def distributed (rewritten : FMap Blake3Hash Blake3Hash) (change : Change) : Change :=
  if change.id ∈ rewritten.keys then canonicalOf app rewritten change else change

/-- What is stored for a change: the original as audit root, and what is distributed. -/
def storedFor (rewritten : FMap Blake3Hash Blake3Hash) (change : Change) : List Change :=
  if change.id ∈ rewritten.keys then [change, canonicalOf app rewritten change] else [change]

/-- The rewrite map of a payload. -/
structure Collapsed (payload : DeltaPayload) (rewritten : FMap Blake3Hash Blake3Hash) : Prop where
  keys : rewritten.keys ⊆ payload.ids
  rewritten_iff : ∀ c ∈ payload.changes, c.id ∈ rewritten.keys ↔
    isTransientAuthor c.author = true ∨ ∃ dep ∈ c.deps, dep ∈ payload.ids ∧ dep ∈ rewritten.keys
  distributed_id : ∀ c ∈ payload.changes, (distributed app rewritten c).id = remap rewritten c.id
  distributed_deps : ∀ c ∈ payload.changes,
    (distributed app rewritten c).deps = c.deps.image (remap rewritten)
  fresh_id : ∀ c ∈ payload.changes, (distributed app rewritten c).id ∉ rewritten.keys
  fresh_deps : ∀ c ∈ payload.changes, ∀ dep ∈ (distributed app rewritten c).deps,
    dep ∉ rewritten.keys
  fresh_heads : ∀ h ∈ payload.viewHeads.image (remap rewritten), h ∉ rewritten.keys

/-- The payloads of the changes and of their canonical forms do not collide. -/
def CollisionFree (payload : DeltaPayload) (rewritten : FMap Blake3Hash Blake3Hash) : Prop :=
  Set.InjOn Crypto.hashPayload {p | ∃ c ∈ payload.changes,
    p = c.payload ∨ c.id ∈ rewritten.keys ∧ p = (canonicalOf app rewritten c).payload}

def hashedPayloads (payload : DeltaPayload) (rewritten : FMap Blake3Hash Blake3Hash) :
    List IdPayload :=
  payload.changes.flatMap fun c => [c.payload, (canonicalOf app rewritten c).payload]

variable {app}

theorem collisionFree_of_nodup {payload : DeltaPayload} {rewritten : FMap Blake3Hash Blake3Hash}
    (h : ((hashedPayloads app payload rewritten).map Crypto.hashPayload).Nodup) :
    CollisionFree app payload rewritten := by
  have hmem : ∀ p, (∃ c ∈ payload.changes, p = c.payload ∨ c.id ∈ rewritten.keys
      ∧ p = (canonicalOf app rewritten c).payload) → p ∈ hashedPayloads app payload rewritten := by
    rintro p ⟨c, hc, hp⟩
    refine List.mem_flatMap.mpr ⟨c, hc, ?_⟩
    rcases hp with rfl | ⟨-, rfl⟩ <;> simp
  exact fun p hp q hq hpq => List.inj_on_of_nodup_map h (hmem p hp) (hmem q hq) hpq

theorem collisionFree_of_run [Serde] {σ : Type} {write : σ → Change → Except Unit σ}
    {payload : DeltaPayload} {disk : ServerDisk σ}
    (h : (collapse write app payload disk).all (fun out => match out.1 with
      | .ok rewritten =>
          decide ((hashedPayloads app payload rewritten).map Crypto.hashPayload).Nodup
      | .error _ => false) = true) {rewritten : FMap Blake3Hash Blake3Hash}
    {disk' : ServerDisk σ} (hrun : collapse write app payload disk = some (.ok rewritten, disk')) :
    CollisionFree app payload rewritten := by
  rw [hrun] at h
  exact collisionFree_of_nodup (of_decide_eq_true h)

theorem canonicalId_local : Cascade.Local Change.deps (canonicalId app) := by
  intro r r' c h
  have himage : c.deps.image r = c.deps.image r' := Finset.image_congr fun d hd => h d hd
  rw [canonicalId, canonicalId, himage]

omit [Crypto] in
theorem image_remap_eq {rewritten : FMap Blake3Hash Blake3Hash} {deps : Finset Blake3Hash}
    (h : ∀ d ∈ deps, d ∉ rewritten.keys) : deps.image (remap rewritten) = deps := by
  refine (Finset.image_congr fun d hd => ?_).trans Finset.image_id
  exact Cascade.name_of_notMem (h d hd)

omit [Crypto] in
theorem not_transient_of_isServer {author : Author} (h : author.isServer = true) :
    isTransientAuthor author = false := by
  cases author <;> first | rfl | cases h

/-- A change with the payload of a canonical form is the server's, and is not collapsed when its
dependencies have their final names. -/
theorem canonicalId_eq_none (happ : app.serverAuthor.isServer = true)
    {rewritten : FMap Blake3Hash Blake3Hash} {c x : Change}
    (hdeps : ∀ d ∈ c.deps, remap rewritten d ∉ rewritten.keys)
    (hpayload : (canonicalOf app rewritten c).payload = x.payload) :
    canonicalId app (remap rewritten) x = none := by
  have hauthor : app.serverAuthor = x.author := congrArg IdPayload.author hpayload
  have hxdeps : c.deps.image (remap rewritten) = x.deps := Change.deps_eq_of_payload_eq hpayload
  rw [canonicalId, if_neg]
  rintro (htransient | hchanged)
  · rw [← hauthor, not_transient_of_isServer happ] at htransient
    exact Bool.false_ne_true htransient
  · refine hchanged (image_remap_eq fun d hd => ?_)
    rw [← hxdeps] at hd
    obtain ⟨e, he, rfl⟩ := Finset.mem_image.mp hd
    exact hdeps e he

section Fixed

variable {payload : DeltaPayload} {rewritten : FMap Blake3Hash Blake3Hash}
  (hlook : ∀ c ∈ payload.changes,
    rewritten.lookup c.id = canonicalId app (remap rewritten) c)

include hlook

theorem mem_keys_iff_triggersCollapse {c : Change} (hc : c ∈ payload.changes) :
    c.id ∈ rewritten.keys ↔ triggersCollapse rewritten c := by
  rw [FMap.mem_keys_iff, hlook c hc]
  by_cases h : triggersCollapse rewritten c
  · exact iff_of_true ⟨_, canonicalId_of_triggers h⟩ h
  · refine iff_of_false ?_ h
    rintro ⟨id, hid⟩
    exact absurd ((canonicalId_of_not_triggers h).symm.trans hid) (by simp)

theorem distributed_id {c : Change} (hc : c ∈ payload.changes) :
    (distributed app rewritten c).id = remap rewritten c.id := by
  rw [distributed]
  split_ifs with hkey
  · have htrigger := (mem_keys_iff_triggersCollapse hlook hc).mp hkey
    have hcanonical : canonicalId app (remap rewritten) c
        = some (canonicalOf app rewritten c).id := canonicalId_of_triggers htrigger
    rw [remap, hlook c hc]
    exact (congrArg (Option.getD · c.id) hcanonical).symm
  · exact (Cascade.name_of_notMem hkey).symm

theorem distributed_deps {c : Change} (hc : c ∈ payload.changes) :
    (distributed app rewritten c).deps = c.deps.image (remap rewritten) := by
  rw [distributed]
  split_ifs with hkey
  · rfl
  · rw [mem_keys_iff_triggersCollapse hlook hc, triggersCollapse, not_or, not_not] at hkey
    exact hkey.2.symm

theorem collapsed_of_fresh (hkeys : rewritten.keys ⊆ payload.ids)
    (hfresh : ∀ a, remap rewritten a ∉ rewritten.keys) : Collapsed app payload rewritten := by
  have himage : ∀ s : Finset Blake3Hash, ∀ d ∈ s.image (remap rewritten),
      d ∉ rewritten.keys := by
    intro s d hd
    obtain ⟨e, -, rfl⟩ := Finset.mem_image.mp hd
    exact hfresh e
  refine ⟨hkeys, fun c hc => ?_, fun c hc => distributed_id hlook hc,
    fun c hc => distributed_deps hlook hc, fun c hc => ?_, fun c hc d hd => ?_, himage _⟩
  · rw [mem_keys_iff_triggersCollapse hlook hc, triggersCollapse]
    refine or_congr_right ⟨fun hchanged => ?_, ?_⟩
    · by_contra hnone
      push Not at hnone
      exact hchanged (image_remap_eq fun d hd hkey => hnone d hd (hkeys hkey) hkey)
    · rintro ⟨d, hd, -, hkey⟩ hsame
      rw [← hsame] at hd
      exact himage _ d hd hkey
  · rw [distributed_id hlook hc]
    exact hfresh c.id
  · rw [distributed_deps hlook hc] at hd
    exact himage _ d hd

end Fixed

theorem lookup_rewriteAll {payload : DeltaPayload} {changes : List Change}
    (hperm : changes.Perm payload.changes) (hids : payload.DistinctIds)
    (hfirst : Cascade.DepsFirst Change.id Change.deps changes) {c : Change}
    (hc : c ∈ payload.changes) :
    (rewriteAll app ∅ changes).lookup c.id
      = canonicalId app (remap (rewriteAll app ∅ changes)) c :=
  Cascade.lookup_foldl ((hperm.map _).nodup_iff.mpr hids) hfirst canonicalId_local
    (hperm.mem_iff.mpr hc)

theorem collapsed_rewriteAll [Ed25519] (happ : app.serverAuthor.isServer = true)
    {payload : DeltaPayload} (hverified : verifyPayload payload = .ok ())
    {changes : List Change} (hperm : changes.Perm payload.changes)
    (hids : payload.DistinctIds) (hfirst : Cascade.DepsFirst Change.id Change.deps changes)
    {rewritten : FMap Blake3Hash Blake3Hash} (hrewritten : rewritten = rewriteAll app ∅ changes)
    (hfree : CollisionFree app payload rewritten) : Collapsed app payload rewritten := by
  have hnodup : (changes.map Change.id).Nodup := (hperm.map _).nodup_iff.mpr hids
  have hlook : ∀ c ∈ payload.changes,
      rewritten.lookup c.id = canonicalId app (remap rewritten) c := by
    subst hrewritten
    exact fun c hc => lookup_rewriteAll hperm hids hfirst hc
  have hkeys : rewritten.keys ⊆ payload.ids := by
    intro a ha
    rw [hrewritten] at ha
    rw [DeltaPayload.mem_ids]
    exact (hperm.map _).mem_iff.mp (Cascade.mem_keys_foldl ha)
  refine collapsed_of_fresh hlook hkeys ?_
  refine Cascade.name_notMem_keys hnodup hfirst canonicalId_local hrewritten ?_
  intro c hc hdeps x hx hcanonical
  have hc' := hperm.mem_iff.mp hc
  have hx' := hperm.mem_iff.mp hx
  have hkey : c.id ∈ rewritten.keys :=
    FMap.mem_keys_iff.mpr ⟨x.id, (hlook c hc').trans hcanonical⟩
  have hid : (canonicalOf app rewritten c).id = x.id := by
    rw [canonicalId] at hcanonical
    split_ifs at hcanonical
    exact Option.some_inj.mp hcanonical
  have hxid : Crypto.hashPayload x.payload = x.id :=
    (Change.verifySignature_iff.mp (verified_of_verifyChanges hverified hx')).1
  exact canonicalId_eq_none happ hdeps
    (hfree ⟨c, hc', .inr ⟨hkey, rfl⟩⟩ ⟨x, hx', .inl rfl⟩ (hid.trans hxid.symm))

theorem stored_prefix {changes pre post : List Change} {c : Change}
    (hfirst : Cascade.DepsFirst Change.id Change.deps changes)
    (hsplit : changes = pre ++ c :: post) :
    stored app (rewriteAll app ∅ pre) c = stored app (rewriteAll app ∅ changes) c := by
  have himage : c.deps.image (remap (rewriteAll app ∅ pre))
      = c.deps.image (remap (rewriteAll app ∅ changes)) :=
    Finset.image_congr fun d hd => Cascade.name_foldl_prefix hfirst hsplit hd
  have htrigger : triggersCollapse (rewriteAll app ∅ pre) c
      ↔ triggersCollapse (rewriteAll app ∅ changes) c := by
    rw [triggersCollapse, triggersCollapse, himage]
  have hcanonical : canonicalOf app (rewriteAll app ∅ pre) c
      = canonicalOf app (rewriteAll app ∅ changes) c := by
    rw [canonicalOf, canonicalOf, himage]
  rw [stored, stored, hcanonical]
  exact if_congr htrigger rfl rfl

theorem storedAll_suffix {changes : List Change}
    (hfirst : Cascade.DepsFirst Change.id Change.deps changes) {pre post : List Change}
    (hsplit : changes = pre ++ post) :
    storedAll app (rewriteAll app ∅ pre) post
      = post.flatMap (stored app (rewriteAll app ∅ changes)) := by
  induction post generalizing pre with
  | nil => rfl
  | cons c post ih =>
      have hsplit' : changes = (pre ++ [c]) ++ post := by simpa using hsplit
      have hstep : Cascade.step Change.id (canonicalId app) (rewriteAll app ∅ pre) c
          = rewriteAll app ∅ (pre ++ [c]) := by
        rw [rewriteAll, rewriteAll, List.foldl_append, List.foldl_cons, List.foldl_nil]
      rw [storedAll, List.flatMap_cons, stored_prefix hfirst hsplit, hstep, ih hsplit']

omit [Crypto] in
theorem exists_order [Serde] {payload : DeltaPayload} (hids : payload.DistinctIds)
    (hac : (ChangeGraph.ofChanges payload.changes).Acyclic) :
    ∃ out, Kahn.loop (Wiring.ofPayload payload).children (payload.changes.length + 1)
        (Wiring.ofPayload payload).inDegree (Serde.iter (Wiring.ofPayload payload).ready) []
        = some out
      ∧ out.Perm (payload.changes.map Change.id)
      ∧ LinearExtension.Respects (fun d x => d ∈ payload.depsWithin x) out := by
  have hcard : payload.ids.card = payload.changes.length := by
    rw [DeltaPayload.ids, List.toFinset_card_of_nodup hids, List.length_map]
  obtain ⟨out, deg, hrun, hinv⟩ := Kahn.loop_spec (Wiring.wired hids) (Wiring.inv_start hids)
    (by rw [hcard]; exact Nat.lt_succ_self _)
  refine ⟨out, hrun, ?_, hinv.respects⟩
  have hnodup : out.Nodup := by simpa using hinv.nodup
  refine (List.perm_ext_iff_of_nodup hnodup hids).mpr fun x => ?_
  rw [hinv.mem_iff (DeltaPayload.acyclic_within hac), DeltaPayload.mem_ids]

omit [Crypto] in
theorem changesOf_perm {payload : DeltaPayload} (hids : payload.DistinctIds)
    {out : List Blake3Hash} (hperm : out.Perm (payload.changes.map Change.id)) :
    (changesOf payload.changeMap out).Perm payload.changes := by
  refine (hperm.filterMap _).trans (List.Perm.of_eq ?_)
  rw [List.filterMap_map]
  exact (List.filterMap_congr fun c hc => hids.changeMap_eq hc).trans List.filterMap_some

omit [Crypto] in
theorem pairwise_changesOf {payload : DeltaPayload} (hids : payload.DistinctIds)
    {out : List Blake3Hash}
    (hrespects : LinearExtension.Respects (fun d x => d ∈ payload.depsWithin x) out) :
    (changesOf payload.changeMap out).Pairwise fun b c => c.id ∉ b.deps := by
  refine List.pairwise_filterMap.mpr (hrespects.imp fun {x y} hxy b hb c hc hdep => hxy ?_)
  obtain ⟨hbmem, rfl⟩ := DeltaPayload.mem_of_changeMap hb
  obtain ⟨hcmem, rfl⟩ := DeltaPayload.mem_of_changeMap hc
  rw [hids.depsWithin_eq hbmem, Finset.mem_filter, DeltaPayload.mem_ids]
  exact ⟨hdep, List.mem_map_of_mem hcmem⟩

omit [Crypto] in
theorem id_notMem_deps {payload : DeltaPayload} (hids : payload.DistinctIds)
    (hac : (ChangeGraph.ofChanges payload.changes).Acyclic) {c : Change}
    (hc : c ∈ payload.changes) : c.id ∉ c.deps := by
  intro hself
  refine hac c.id (.single ?_)
  rw [ChangeGraph.DependsOn, hids.oneDepSet.deps_eq hc]
  exact hself

end Rewrites

section Request

variable {σ : Type} [Crypto] [Ed25519] [Serde] {write : σ → Change → Except Unit σ}

omit [Ed25519] in
theorem collapse_run (hwrite : ∀ store c, ∃ store', write store c = .ok store') {app : AppState}
    (happ : app.serverAuthor.isServer = true) {payload : DeltaPayload}
    (hids : payload.DistinctIds) (hac : (ChangeGraph.ofChanges payload.changes).Acyclic)
    (disk : ServerDisk σ) :
    ∃ order store, order.Perm payload.changes
      ∧ Cascade.DepsFirst Change.id Change.deps order
      ∧ (storedAll app ∅ order).foldlM write disk.store = .ok store
      ∧ collapse write app payload disk
        = some (.ok (rewriteAll app ∅ order), { disk with store := store }) := by
  obtain ⟨out, hloop, hperm, hrespects⟩ := exists_order hids hac
  have hmap : ∀ id ∈ out, id ∈ payload.changeMap.keys := by
    intro id hid
    obtain ⟨c, hc, rfl⟩ := List.mem_map.mp (hperm.mem_iff.mp hid)
    exact FMap.mem_keys_of_lookup (hids.changeMap_eq hc)
  obtain ⟨store, hstore⟩ :=
    foldlM_ok hwrite (storedAll app ∅ (changesOf payload.changeMap out)) disk.store
  have hrun := @collapseLoop_of_ok _ _ write app payload.changeMap _ _ _ _ [] out hloop hmap ∅ 0
    disk store hstore
  have hchanges := changesOf_perm hids hperm
  refine ⟨changesOf payload.changeMap out, store, hchanges, ?_, hstore, ?_⟩
  · exact .of_pairwise (pairwise_changesOf hids hrespects) fun c hc =>
      id_notMem_deps hids hac (hchanges.mem_iff.mp hc)
  · have hlength : out.length = payload.changes.length := by
      rw [hperm.length_eq, List.length_map]
    rw [collapse]
    simp only [happ, Bool.true_eq_false, if_false]
    rw [Program.bind_run, hrun]
    simp [hlength]

/-- **Identity collapsing.** A verified payload of distinct ids and acyclic dependencies is
processed change by change, each after its dependencies, and its heads are renamed like its
changes. -/
theorem postSync_collapses (hwrite : ∀ store c, ∃ store', write store c = .ok store')
    {app : AppState} (happ : app.serverAuthor.isServer = true) {payload : DeltaPayload}
    (hverified : verifyPayload payload = .ok ()) (hids : payload.DistinctIds)
    (hac : (ChangeGraph.ofChanges payload.changes).Acyclic) {disk : ServerDisk σ}
    (hblobs : missingBlobs disk.blobs payload.changes = [])
    (hfree : ∀ rewritten disk', collapse write app payload disk = some (.ok rewritten, disk') →
      CollisionFree app payload rewritten) (view : String) :
    ∃ response disk' order, postSync write app view payload disk = some (.ok response, disk')
      ∧ order.Perm payload.changes
      ∧ (∀ pre c post, order = pre ++ c :: post → ∀ dep ∈ c.deps, dep ∈ payload.ids →
        dep ∈ pre.map Change.id)
      ∧ (order.flatMap (storedFor app response.rewrittenMap)).foldlM write disk.store
        = .ok disk'.store
      ∧ Collapsed app payload response.rewrittenMap
      ∧ response.viewHeads
        = loadHeads disk view ∪ payload.viewHeads.image (remap response.rewrittenMap)
      ∧ disk'.views = disk.views.insert view response.viewHeads := by
  obtain ⟨order, store, hperm, hfirst, hstore, hrun⟩ := collapse_run hwrite happ hids hac disk
  have hcollapsed := collapsed_rewriteAll happ hverified hperm hids hfirst rfl (hfree _ _ hrun)
  let heads := loadHeads disk view ∪ payload.viewHeads.image (remap (rewriteAll app ∅ order))
  refine ⟨⟨heads, rewriteAll app ∅ order⟩, saveHeads view heads { disk with store := store },
    order, postSync_eq_ok_iff.mpr ⟨hverified, hblobs, _, hrun, rfl⟩, hperm, ?_, ?_, hcollapsed,
    rfl, rfl⟩
  · intro pre c post hsplit dep hdep hmem
    rw [DeltaPayload.mem_ids, ← (hperm.map Change.id).mem_iff] at hmem
    obtain ⟨x, hx, rfl⟩ := List.mem_map.mp hmem
    rw [hsplit, List.mem_append] at hx
    rcases hx with hx | hx
    · exact List.mem_map_of_mem hx
    · exact absurd hdep (hfirst pre c post hsplit x hx)
  · have hall : storedAll app ∅ order = order.flatMap (stored app (rewriteAll app ∅ order)) :=
      storedAll_suffix hfirst (List.nil_append order).symm
    rw [hall] at hstore
    refine Eq.trans (congrArg (List.foldlM write disk.store) ?_) hstore
    refine List.flatMap_congr fun c hc => if_congr ?_ rfl rfl
    exact mem_keys_iff_triggersCollapse (fun _ => lookup_rewriteAll hperm hids hfirst)
      (hperm.mem_iff.mp hc)

end Request

/-- A change of a transient author, whose id is a hash of bytes. -/
def transientChange : Change :=
  @Change.newWithMetadata (@Crypto.ofBytes (Serde.sample [])) ∅ [] "base" (.transient "s" 7) .human
    false 7

def dependentChange : Change :=
  @Change.newWithMetadata (@Crypto.ofBytes (Serde.sample [])) {transientChange.id} [] "child"
    (.human "" "" 7) .human false 7

/-- A change of a transient author and a change of a human on top of it are both rewritten. -/
theorem postSync_collapses_dependent :
    letI := Serde.sample []
    letI := Crypto.ofBytes
    letI := Ed25519.sample
    let payload : DeltaPayload := ⟨[dependentChange, transientChange], {dependentChange.id}⟩
    ∃ response disk', postSync (fun (log : List Change) c => .ok (log ++ [c])) ⟨.server "s" 3, 3⟩
        "main" payload ⟨[], ∅, ∅⟩ = some (.ok response, disk')
      ∧ dependentChange.id ∈ response.rewrittenMap.keys := by
  intro payload
  let _ := Serde.sample []
  let _ := Crypto.ofBytes
  let _ := Ed25519.sample
  let write : List Change → Change → Except Unit (List Change) := fun log c => .ok (log ++ [c])
  let app : AppState := ⟨.server "s" 3, 3⟩
  let disk : ServerDisk (List Change) := ⟨[], ∅, ∅⟩
  have hac : (ChangeGraph.ofChanges payload.changes).Acyclic :=
    ChangeGraph.acyclic_of_lt (by decide +kernel)
  have hverified : verifyPayload payload = .ok () := by decide +kernel
  have hids : payload.DistinctIds := by decide +kernel
  have hblobs : missingBlobs disk.blobs payload.changes = [] := by decide
  have hfree : ∀ rewritten disk', collapse write app payload disk
      = some (.ok rewritten, disk') → CollisionFree app payload rewritten := by
    intro rewritten disk' hrun
    exact collisionFree_of_run (by decide +kernel) hrun
  have hwrite : ∀ store c, ∃ store', write store c = .ok store' := fun _ _ => ⟨_, rfl⟩
  obtain ⟨response, disk', -, hrun, -, -, -, hcollapsed, -⟩ :=
    postSync_collapses hwrite rfl hverified hids hac hblobs hfree "main"
  have hroot : transientChange.id ∈ response.rewrittenMap.keys :=
    (hcollapsed.rewritten_iff transientChange (by simp [payload])).mpr (.inl rfl)
  have hdep : transientChange.id ∈ dependentChange.deps := Finset.mem_singleton_self _
  have hchild := (hcollapsed.rewritten_iff dependentChange (by simp [payload])).mpr
    (.inr ⟨transientChange.id, hdep, hcollapsed.keys hroot, hroot⟩)
  exact ⟨response, disk', hrun, hchild⟩

end ArcVcs
