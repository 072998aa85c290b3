import ArcVcs.Collapse
import ArcVcs.Lib.Trace

/-!
# Requests that succeed

A request that `post_sync` accepts has distinct ids, because Kahn's loop emits no id twice and the
loop counts what it emits. So each change was stored after its dependencies, and the rewrite map is
the cascade along that order, whatever the store did with the other requests.
-/

namespace ArcVcs

theorem Wiring.inv_ready [Serde] (w : Wiring) :
    (Serde.iter w.ready).Nodup ∧ ∀ id ∈ Serde.iter w.ready, w.inDegree.lookup id = some 0 := by
  have hperm := Serde.iter_perm w.ready
  refine ⟨hperm.nodup_iff.mpr (Finset.nodup_sorted _), fun id hid => ?_⟩
  have hmem : id ∈ w.ready := Finset.mem_sorted.mp (hperm.mem_iff.mp hid)
  exact (Finset.mem_filter.mp hmem).2

/-! ## What the loop has done when it returns -/

section Loop

variable {σ : Type} [Crypto] {write : σ → Change → Except Unit σ} {app : AppState}
  {disk disk' : ServerDisk σ}

omit [Crypto] in
theorem storeChange_eq_ok {c : Change} (h : storeChange write c disk = some (.ok (), disk')) :
    write disk.store c = .ok disk'.store ∧ disk' = { disk with store := disk'.store } := by
  rw [storeChange] at h
  split at h
  · simp at h
  · rename_i store hwrite
    obtain rfl : { disk with store := store } = disk' := by simpa using h
    exact ⟨hwrite, rfl⟩

omit [Crypto] in
theorem foldlM_pair {store₁ store₂ store₃ : σ} {b c : Change} (hb : write store₁ b = .ok store₂)
    (hc : write store₂ c = .ok store₃) : [b, c].foldlM write store₁ = .ok store₃ := by
  rw [foldlM_cons_of_ok hb, foldlM_cons_of_ok hc]
  rfl

theorem processChange_eq_ok {rewritten rewritten' : FMap Blake3Hash Blake3Hash} {change : Change}
    (h : processChange write app rewritten change disk = some (.ok rewritten', disk')) :
    rewritten' = Cascade.step Change.id (canonicalId app) rewritten change
      ∧ (stored app rewritten change).foldlM write disk.store = .ok disk'.store
      ∧ disk' = { disk with store := disk'.store } := by
  rw [processChange] at h
  by_cases htrigger : triggersCollapse rewritten change
  · rw [if_pos htrigger] at h
    obtain ⟨_, disk₁, hfirst, h⟩ := Program.bind_eq_ok_iff.mp h
    obtain ⟨_, disk₂, hsecond, h⟩ := Program.bind_eq_ok_iff.mp h
    obtain ⟨hwrite₁, hdisk₁⟩ := storeChange_eq_ok hfirst
    obtain ⟨hwrite₂, hdisk₂⟩ := storeChange_eq_ok hsecond
    simp only [Program.pure_run, Option.some.injEq, Prod.mk.injEq, Except.ok.injEq] at h
    obtain ⟨rfl, rfl⟩ := h
    refine ⟨?_, ?_, ?_⟩
    · rw [Cascade.step, canonicalId_of_triggers htrigger]
    · rw [stored, if_pos htrigger]
      exact foldlM_pair hwrite₁ hwrite₂
    · rw [hdisk₂, hdisk₁]
  · rw [if_neg htrigger] at h
    obtain ⟨_, disk₁, hfirst, h⟩ := Program.bind_eq_ok_iff.mp h
    obtain ⟨hwrite, hdisk⟩ := storeChange_eq_ok hfirst
    simp only [Program.pure_run, Option.some.injEq, Prod.mk.injEq, Except.ok.injEq] at h
    obtain ⟨rfl, rfl⟩ := h
    refine ⟨?_, ?_, hdisk⟩
    · rw [Cascade.step, canonicalId_of_not_triggers htrigger]
    · rw [stored, if_neg htrigger, foldlM_cons_of_ok hwrite]
      rfl

theorem collapseLoop_eq_ok {changeMap : FMap Blake3Hash Change} {w : Wiring} {fuel : ℕ}
    {inDegree : FMap Blake3Hash ℕ} {queue : List Blake3Hash} (order : List Blake3Hash)
    {rewritten : FMap Blake3Hash Blake3Hash} {processed : ℕ}
    {out : FMap Blake3Hash Blake3Hash × ℕ}
    (h : collapseLoop write app changeMap w fuel inDegree queue rewritten processed disk
      = some (.ok out, disk')) :
    ∃ ids, Kahn.loop w.children fuel inDegree queue order = some (order ++ ids)
      ∧ (∀ id ∈ ids, id ∈ changeMap.keys)
      ∧ out = (rewriteAll app rewritten (changesOf changeMap ids), processed + ids.length)
      ∧ (storedAll app rewritten (changesOf changeMap ids)).foldlM write disk.store
        = .ok disk'.store
      ∧ disk' = { disk with store := disk'.store } := by
  induction fuel generalizing inDegree queue order rewritten processed disk with
  | zero => simp [collapseLoop] at h
  | succ fuel ih =>
      cases queue with
      | nil =>
          simp only [collapseLoop, Program.pure_run, Option.some.injEq, Prod.mk.injEq,
            Except.ok.injEq] at h
          obtain ⟨rfl, rfl⟩ := h
          exact ⟨[], by simp [Kahn.loop], by simp, rfl, rfl, rfl⟩
      | cons id queue =>
          rw [collapseLoop] at h
          cases hlook : changeMap.lookup id with
          | none => simp [hlook] at h
          | some change =>
              rw [hlook] at h
              obtain ⟨rewritten₁, disk₁, hprocess, h⟩ := Program.bind_eq_ok_iff.mp h
              obtain ⟨rfl, hfirst, hdisk₁⟩ := processChange_eq_ok hprocess
              cases hrelax : Kahn.relax (w.children id) inDegree queue with
              | none => simp [hrelax] at h
              | some next =>
                  obtain ⟨inDegree', queue'⟩ := next
                  simp only [hrelax] at h
                  obtain ⟨ids, hloop, hmap, hout, hstore, hdisk⟩ := ih (order ++ [id]) h
                  refine ⟨id :: ids, ?_, ?_, ?_, ?_, ?_⟩
                  · rw [Kahn.loop, hrelax]
                    dsimp only
                    rw [hloop, List.append_assoc, List.singleton_append]
                  · rintro x hx
                    rcases List.mem_cons.mp hx with rfl | hx
                    · exact FMap.mem_keys_of_lookup hlook
                    · exact hmap x hx
                  · rw [hout, changesOf_cons hlook, List.length_cons, Nat.add_assoc,
                      Nat.add_comm 1]
                    rfl
                  · rw [changesOf_cons hlook, storedAll, List.foldlM_append, hfirst]
                    exact hstore
                  · rw [hdisk, hdisk₁]

end Loop

/-! ## Requests -/

section Request

variable {σ : Type} [Crypto] [Serde] {write : σ → Change → Except Unit σ} {app : AppState}
  {payload : DeltaPayload} {disk disk' : ServerDisk σ} {rewritten : FMap Blake3Hash Blake3Hash}

/-- The changes were processed in some order, each after its dependencies. -/
structure Processed (write : σ → Change → Except Unit σ) (app : AppState) (payload : DeltaPayload)
    (disk disk' : ServerDisk σ) (rewritten : FMap Blake3Hash Blake3Hash) (order : List Change) :
    Prop where
  isServer : app.serverAuthor.isServer = true
  distinct : payload.DistinctIds
  perm : order.Perm payload.changes
  first : Cascade.DepsFirst Change.id Change.deps order
  rewritten_eq : rewritten = rewriteAll app ∅ order
  store : (storedAll app ∅ order).foldlM write disk.store = .ok disk'.store
  disk_eq : disk' = { disk with store := disk'.store }

theorem collapse_eq_ok
    (h : collapse write app payload disk = some (.ok rewritten, disk')) :
    ∃ order, Processed write app payload disk disk' rewritten order := by
  rw [collapse] at h
  by_cases happ : app.serverAuthor.isServer = true
  swap
  · simp [happ, Program.throw] at h
  simp only [happ, Bool.true_eq_false, if_false] at h
  obtain ⟨⟨rewritten₁, processed⟩, disk₁, hrun, h⟩ := Program.bind_eq_ok_iff.mp h
  obtain ⟨ids, hloop, hmap, hout, hstore, hdisk⟩ := collapseLoop_eq_ok [] hrun
  obtain ⟨rfl, rfl⟩ := Prod.mk.inj hout
  dsimp only at h
  split_ifs at h with hlt
  · simp [Program.throw] at h
  simp only [Program.pure_run, Option.some.injEq, Prod.mk.injEq, Except.ok.injEq] at h
  obtain ⟨rfl, rfl⟩ := h
  have hready := (Wiring.ofPayload payload).inv_ready
  have hnodup : ids.Nodup :=
    Kahn.loop_nodup hloop (by simpa using hready.1) (by simpa using hready.2)
  have hsub : ∀ id ∈ ids, id ∈ payload.ids := by
    intro id hid
    obtain ⟨c, hc⟩ := FMap.mem_keys_iff.mp (hmap id hid)
    obtain ⟨hmem, rfl⟩ := DeltaPayload.mem_of_changeMap hc
    exact DeltaPayload.mem_ids.mpr (List.mem_map_of_mem hmem)
  have hperm : ids.Perm (payload.changes.map Change.id) := by
    refine (List.subperm_of_subset hnodup fun id hid => ?_).perm_of_length_le ?_
    · exact DeltaPayload.mem_ids.mp (hsub id hid)
    · simpa using hlt
  have hids : payload.DistinctIds := hperm.nodup_iff.mp hnodup
  have hcard : payload.ids.card = payload.changes.length := by
    rw [DeltaPayload.ids, List.toFinset_card_of_nodup hids, List.length_map]
  obtain ⟨out, deg, hrun', hinv⟩ := Kahn.loop_spec (Wiring.wired hids) (Wiring.inv_start hids)
    (by rw [hcard]; exact Nat.lt_succ_self _)
  obtain rfl : ids = out := by simpa [hloop] using hrun'
  have hself := Kahn.loop_notMem_deps (Wiring.wired hids) (Wiring.inv_start hids) (by simp) hrun'
  have hchanges := changesOf_perm hids hperm
  refine ⟨changesOf payload.changeMap ids, happ, hids, hchanges, ?_, rfl, hstore, hdisk⟩
  refine .of_pairwise (pairwise_changesOf hids hinv.respects) fun c hc hdep => ?_
  have hc' := hchanges.mem_iff.mp hc
  refine hself c.id (hperm.mem_iff.mpr (List.mem_map_of_mem hc')) ?_
  rw [hids.depsWithin_eq hc', Finset.mem_filter, DeltaPayload.mem_ids]
  exact ⟨hdep, List.mem_map_of_mem hc'⟩

namespace Processed

omit [Serde]

variable {order : List Change} (h : Processed write app payload disk disk' rewritten order)

include h

theorem lookup_eq {c : Change} (hc : c ∈ payload.changes) :
    rewritten.lookup c.id = canonicalId app (remap rewritten) c := by
  rw [h.rewritten_eq]
  exact lookup_rewriteAll h.perm h.distinct h.first hc

theorem keys_subset : rewritten.keys ⊆ payload.ids := by
  intro a ha
  rw [h.rewritten_eq] at ha
  rw [DeltaPayload.mem_ids]
  exact (h.perm.map _).mem_iff.mp (Cascade.mem_keys_foldl ha)

theorem remap_of_notMem {a : Blake3Hash} (ha : a ∉ payload.ids) : remap rewritten a = a :=
  Cascade.name_of_notMem fun hkey => ha (h.keys_subset hkey)

theorem not_transient {c : Change} (hc : c ∈ payload.changes) :
    isTransientAuthor (distributed app rewritten c).author = false := by
  rw [distributed]
  split_ifs with hkey
  · exact not_transient_of_isServer h.isServer
  · have hno := mt (mem_keys_iff_triggersCollapse (fun _ => h.lookup_eq) hc).mpr hkey
    rw [triggersCollapse, not_or] at hno
    simpa using hno.1

end Processed

end Request

/-! ## What no request changes, accepted or not -/

section Keeps

variable {σ : Type} [Crypto] {write : σ → Change → Except Unit σ} {app : AppState}
  {payload : DeltaPayload} {I : ServerDisk σ → Prop}

/-- The changes that a request may store: those of the payload, and canonical forms of them. -/
def MayStore (app : AppState) (payload : DeltaPayload) (c : Change) : Prop :=
  c ∈ payload.changes ∨ ∃ rewritten, ∃ b ∈ payload.changes, c = canonicalOf app rewritten b

omit [Crypto] in
theorem storeChange_keeps {c : Change} (h : ∀ disk store, I disk →
    write disk.store c = .ok store → I { disk with store := store }) :
    (storeChange write c).Keeps I := by
  intro disk hdisk
  constructor
  · intro _ disk' hrun
    obtain ⟨hwrite, hdisk'⟩ := storeChange_eq_ok hrun
    rw [hdisk']
    exact h disk _ hdisk hwrite
  · intro e disk' hrun
    rw [storeChange] at hrun
    split at hrun
    · obtain ⟨-, rfl⟩ : SyncRefusal.internalServerError = e ∧ disk = disk' := by simpa using hrun
      exact hdisk
    · simp at hrun

theorem collapseLoop_keeps
    (hstore : ∀ c, MayStore app payload c → (storeChange write c).Keeps I) {w : Wiring}
    (fuel : ℕ) (inDegree : FMap Blake3Hash ℕ) (queue : List Blake3Hash)
    (rewritten : FMap Blake3Hash Blake3Hash) (processed : ℕ) :
    (collapseLoop write app payload.changeMap w fuel inDegree queue rewritten processed).Keeps
      I := by
  induction fuel generalizing inDegree queue rewritten processed with
  | zero => exact .hang
  | succ fuel ih =>
      cases queue with
      | nil => exact .pure _
      | cons id queue =>
          rw [collapseLoop]
          cases hlook : payload.changeMap.lookup id with
          | none => exact .hang
          | some change =>
              have hmem := (DeltaPayload.mem_of_changeMap hlook).1
              dsimp only
              refine .bind ?_ fun rewritten' => ?_
              · rw [processChange]
                refine .ite (.bind (hstore _ (.inl hmem)) fun _ => .bind ?_ fun _ => .pure _)
                  (.bind (hstore _ (.inl hmem)) fun _ => .pure _)
                exact hstore _ (.inr ⟨rewritten, change, hmem, rfl⟩)
              · cases Kahn.relax (w.children id) inDegree queue with
                | none => exact .hang
                | some next => exact ih _ _ _ _

theorem collapse_keeps [Serde]
    (hstore : ∀ c, MayStore app payload c → (storeChange write c).Keeps I) :
    (collapse write app payload).Keeps I := by
  unfold collapse
  refine .ite (.throw _) (.bind (collapseLoop_keeps hstore _ _ _ _ _) fun out => ?_)
  exact .ite (.throw _) (.pure _)

theorem postSync_error_keeps [Ed25519] [Serde] {view : String} {disk disk' : ServerDisk σ}
    {refusal : SyncRefusal}
    (h : postSync write app view payload disk = some (.error refusal, disk'))
    (hstore : verifyPayload payload = .ok () → ∀ c, MayStore app payload c →
      (storeChange write c).Keeps I) (hI : I disk) : I disk' := by
  rw [postSync, Program.bind_run] at h
  rw [ingest] at h
  cases hverify : verifyPayload payload with
  | error message =>
      simp only [hverify, Option.some.injEq, Prod.mk.injEq] at h
      exact h.2 ▸ hI
  | ok _ =>
      simp only [hverify] at h
      by_cases hmissing : missingBlobs disk.blobs payload.changes = []
      · simp only [hmissing, ne_eq, not_true_eq_false, if_false] at h
        have hkeeps := collapse_keeps (hstore hverify) disk hI
        rcases hrun : collapse write app payload disk with _ | ⟨e | rewritten, disk₁⟩
        · simp [hrun] at h
        · simp only [hrun, Option.some.injEq, Prod.mk.injEq] at h
          exact h.2 ▸ hkeeps.error hrun
        · simp [hrun, updateView] at h
      · simp only [if_pos hmissing, Option.some.injEq, Prod.mk.injEq] at h
        exact h.2 ▸ hI

end Keeps

/-! ## Runs of the server -/

/-- `PUT /blobs/:hash`: the content must hash to the key, and a blob that is there stays. -/
def ServerDisk.putBlob {σ : Type} [Crypto] (disk : ServerDisk σ) (hash : Blake3Hash)
    (bytes : Bytes) : ServerDisk σ :=
  if Crypto.hashBytes bytes ≠ hash then disk
  else { disk with blobs := disk.blobs.putOnce hash bytes }

@[simp] theorem ServerDisk.putBlob_views {σ : Type} [Crypto] (disk : ServerDisk σ)
    (hash : Blake3Hash) (bytes : Bytes) : (disk.putBlob hash bytes).views = disk.views := by
  unfold ServerDisk.putBlob
  split_ifs <;> rfl

@[simp] theorem ServerDisk.putBlob_store {σ : Type} [Crypto] (disk : ServerDisk σ)
    (hash : Blake3Hash) (bytes : Bytes) : (disk.putBlob hash bytes).store = disk.store := by
  unfold ServerDisk.putBlob
  split_ifs <;> rfl

/-- A request that reaches the server, and whether `post_sync` has succeeded. -/
inductive HttpEvent where
  | putBlob (hash : Blake3Hash) (bytes : Bytes)
  | accepted (view : String) (payload : DeltaPayload)
  | refused (view : String) (payload : DeltaPayload)

/-- The requests send changes in circulation, and what the server makes of them is too. -/
inductive HttpStep {σ : Type} [Crypto] [Ed25519] [Serde] (write : σ → Change → Except Unit σ)
    (app : AppState) (W : Set Change) : ServerDisk σ → HttpEvent → ServerDisk σ → Prop
  | putBlob (disk : ServerDisk σ) (hash : Blake3Hash) (bytes : Bytes) :
      HttpStep write app W disk (.putBlob hash bytes) (disk.putBlob hash bytes)
  | accepted {disk disk' : ServerDisk σ} {view : String} {payload : DeltaPayload}
      {response : SyncResponse} (hsent : ∀ c ∈ payload.changes, c ∈ W)
      (hrun : postSync write app view payload disk = some (.ok response, disk'))
      (hmade : ∀ c ∈ payload.changes, distributed app response.rewrittenMap c ∈ W) :
      HttpStep write app W disk (.accepted view payload) disk'
  | refused {disk disk' : ServerDisk σ} {view : String} {payload : DeltaPayload}
      {refusal : SyncRefusal} (hsent : ∀ c ∈ payload.changes, c ∈ W)
      (hrun : postSync write app view payload disk = some (.error refusal, disk')) :
      HttpStep write app W disk (.refused view payload) disk'

/-- Changes that are identified by their payloads, which do not collide. -/
structure Circulating [Crypto] (W : Set Change) : Prop where
  identified : ∀ c ∈ W, Crypto.hashPayload c.payload = c.id
  injective : Set.InjOn Crypto.hashPayload (Set.image Change.payload W)

def DependsIn (W : Set Change) (a b : Blake3Hash) : Prop := ∃ c ∈ W, c.id = a ∧ b ∈ c.deps

/-- The history of `a`, as far as `W` knows it. -/
abbrev LeadsTo (W : Set Change) : Blake3Hash → Blake3Hash → Prop :=
  Relation.ReflTransGen (DependsIn W)

def DeltaPayload.changeSet (payload : DeltaPayload) : Set Change := {c | c ∈ payload.changes}

/-- Every head of every view has a property. -/
def AllHeads {σ : Type} (P : Blake3Hash → Prop) (disk : ServerDisk σ) : Prop :=
  ∀ view heads, disk.views.lookup view = some heads → ∀ h ∈ heads, P h

theorem AllHeads.of_mem_loadHeads {σ : Type} {P : Blake3Hash → Prop} {disk : ServerDisk σ}
    (h : AllHeads P disk) {view : String} {x : Blake3Hash} (hx : x ∈ loadHeads disk view) :
    P x := by
  rw [loadHeads] at hx
  cases hlook : disk.views.lookup view with
  | none => simp [hlook] at hx
  | some heads => exact h view heads hlook x (by simpa [hlook] using hx)

theorem Circulating.payload_eq [Crypto] {W : Set Change} (hW : Circulating W) {c c' : Change}
    (hc : c ∈ W) (hc' : c' ∈ W) (hid : c.id = c'.id) : c.payload = c'.payload := by
  refine hW.injective (Set.mem_image_of_mem _ hc) (Set.mem_image_of_mem _ hc') ?_
  rw [hW.identified c hc, hW.identified c' hc', hid]

theorem circulating_of_nodup [Crypto] {changes : List Change}
    (hid : ∀ c ∈ changes, Crypto.hashPayload c.payload = c.id)
    (hnodup : (changes.map Change.id).Nodup) : Circulating {c | c ∈ changes} := by
  refine ⟨hid, ?_⟩
  rintro _ ⟨c, hc, rfl⟩ _ ⟨c', hc', rfl⟩ hhash
  rw [hid c hc, hid c' hc'] at hhash
  rw [List.inj_on_of_nodup_map hnodup hc hc' hhash]

section Runs

variable {σ : Type} [Crypto] [Ed25519] [Serde] {write : σ → Change → Except Unit σ}
  {app : AppState} {view : String} {payload : DeltaPayload} {disk disk' : ServerDisk σ}
  {response : SyncResponse}

theorem postSync_eq_ok (h : postSync write app view payload disk = some (.ok response, disk')) :
    verifyPayload payload = .ok ()
      ∧ (∃ disk₁ order, Processed write app payload disk disk₁ response.rewrittenMap order
        ∧ disk'.store = disk₁.store)
      ∧ disk'.views = disk.views.insert view
        (loadHeads disk view ∪ payload.viewHeads.image (remap response.rewrittenMap)) := by
  obtain ⟨hverified, -, disk₁, hcollapse, hview⟩ := postSync_eq_ok_iff.mp h
  obtain ⟨order, hprocessed⟩ := collapse_eq_ok hcollapse
  simp only [updateView, Option.some.injEq, Prod.mk.injEq, Except.ok.injEq] at hview
  obtain ⟨-, rfl⟩ := hview
  refine ⟨hverified, ⟨disk₁, order, hprocessed, rfl⟩, ?_⟩
  have hviews : disk₁.views = disk.views := by rw [hprocessed.disk_eq]
  simp only [saveHeads, loadHeads, hviews]

theorem allHeads_postSync_iff {P : Blake3Hash → Prop} (hdisk : AllHeads P disk)
    (h : postSync write app view payload disk = some (.ok response, disk')) :
    AllHeads P disk' ↔ ∀ h ∈ payload.viewHeads, P (remap response.rewrittenMap h) := by
  obtain ⟨-, -, hviews⟩ := postSync_eq_ok h
  constructor
  · intro hall x hx
    refine hall view _ (by rw [hviews, FMap.lookup_insert_eq, if_pos rfl]) _ ?_
    exact Finset.mem_union_right _ (Finset.mem_image_of_mem _ hx)
  · intro hnamed v heads hlook x hx
    rw [hviews, FMap.lookup_insert_eq] at hlook
    split_ifs at hlook with hv
    · obtain rfl := Option.some_inj.mp hlook
      rcases Finset.mem_union.mp hx with hx | hx
      · exact hdisk.of_mem_loadHeads hx
      · obtain ⟨y, hy, rfl⟩ := Finset.mem_image.mp hx
        exact hnamed y hy
    · exact hdisk v heads hlook x hx

theorem exists_accepted {changes : List Change} {P : ServerDisk σ → Bool}
    (hsent : ∀ c ∈ payload.changes, c ∈ changes)
    (hrun : (postSync write app view payload disk).any (fun out =>
      out.1.toOption.any fun response => decide (∀ c ∈ payload.changes,
        distributed app response.rewrittenMap c ∈ changes) && P out.2) = true) :
    ∃ disk', HttpStep write app {c | c ∈ changes} disk (.accepted view payload) disk'
      ∧ P disk' = true := by
  obtain ⟨⟨result, disk'⟩, hpost, hcheck⟩ := (Option.any_eq_true _ _).mp hrun
  cases result with
  | error refusal => cases hcheck
  | ok response =>
      obtain ⟨hmade, hP⟩ := (Bool.and_eq_true _ _).mp hcheck
      exact ⟨disk', .accepted hsent hpost (of_decide_eq_true hmade), hP⟩

end Runs

end ArcVcs
