import ArcVcs.Loading
import ArcVcs.Requests

/-!
# The frontier of a view

A view holds "changes with no dependents in scope". `snap` and a merge with conflicts leave one
head. A merge without conflicts and `post_sync` join two sets of heads and remove none, so a head
stays next to the heads that have overtaken it. The frontier is kept exactly when the two sets are
apart.
-/

namespace ArcVcs

/-- No head is an ancestor of another one. -/
def Antichain (W : Set Change) (heads : Finset Blake3Hash) : Prop :=
  ∀ a ∈ heads, ∀ b ∈ heads, a ≠ b → ¬ LeadsTo W a b

/-- No new head is an ancestor or a descendant of another head, old or new. -/
def Apart (W : Set Change) (old new : Finset Blake3Hash) : Prop :=
  ∀ a ∈ new, ∀ b ∈ old ∪ new, a ≠ b → ¬ LeadsTo W a b ∧ ¬ LeadsTo W b a

def Frontier (W : Set Change) (s : Repo) : Prop :=
  ∀ view heads, s.views.lookup view = some heads → Antichain W heads

section Heads

variable {W : Set Change} {old new : Finset Blake3Hash}

theorem antichain_union_iff (hold : Antichain W old) :
    Antichain W (old ∪ new) ↔ Apart W old new := by
  constructor
  · intro h a ha b hb hab
    have ha' := Finset.mem_union_right old ha
    exact ⟨h a ha' b hb hab, h b hb a ha' hab.symm⟩
  · intro h a ha b hb hab
    rcases Finset.mem_union.mp ha with ha' | ha'
    · rcases Finset.mem_union.mp hb with hb' | hb'
      · exact hold a ha' b hb' hab
      · exact (h b hb' a ha hab.symm).2
    · exact (h a ha' b hb hab).1

theorem antichain_singleton (W : Set Change) (a : Blake3Hash) : Antichain W {a} := by
  intro x hx y hy hxy
  rw [Finset.mem_singleton.mp hx, Finset.mem_singleton.mp hy] at hxy
  exact absurd rfl hxy

theorem antichain_empty (W : Set Change) : Antichain W ∅ := fun _ ha => by simp at ha

theorem frontier_insert_iff {s s' : Repo} (hs : Frontier W s) {view : String}
    {heads : Finset Blake3Hash} (hviews : s'.views = s.views.insert view heads) :
    Frontier W s' ↔ Antichain W heads := by
  constructor
  · intro h
    exact h view heads (by rw [hviews, FMap.lookup_insert_eq, if_pos rfl])
  · intro h v hs' hlook
    rw [hviews, FMap.lookup_insert_eq] at hlook
    split_ifs at hlook
    · exact Option.some_inj.mp hlook ▸ h
    · exact hs v hs' hlook

theorem frontier_init {s : Repo} (h : s.views = Repo.init.views) : Frontier W s := by
  intro view heads hlook
  rw [h, Repo.init, FMap.lookup_singleton] at hlook
  split_ifs at hlook
  exact Option.some_inj.mp hlook ▸ antichain_empty W

end Heads

/-! ## The commands -/

namespace Repo

variable {W : Set Change}

theorem ignoresCaches_frontier : IgnoresCaches (Frontier W) := fun _ _ _ hs => hs

theorem ignoresCaches_views (v : FMap String (Finset Blake3Hash)) :
    IgnoresCaches fun s => s.views = v := fun _ _ _ hs => hs

theorem logOperation_views (v : FMap String (Finset Blake3Hash)) (command view : String)
    (before after : Finset Blake3Hash) :
    (logOperation command view before after).Keeps fun s => s.views = v :=
  .bind (.modify fun _ hs => hs) fun _ => .modify fun _ hs => hs

theorem advanceView_frontier (plan : Advance) : (advanceView plan).Keeps (Frontier W) := by
  refine .bind (.modify fun _ hs => hs) fun _ => .bind (.modify fun _ hs => hs) fun _ => ?_
  refine .bind (.modify fun s hs => ?_) fun _ => ?_
  · exact (frontier_insert_iff hs rfl).mpr (antichain_singleton W _)
  · exact .bind (.modify fun _ hs => hs) fun _ => .modify fun _ hs => hs

variable [Crypto] {s s' : Repo}

theorem snap_frontier (fuel : ℕ) (wd : WorkDir) (message : String)
    (stage : List Atom → List Atom) : (snap fuel wd message stage).Keeps (Frontier W) := by
  refine .bind (snapPlan_keeps ignoresCaches_frontier fuel wd message stage) fun plan => ?_
  cases plan with
  | none => exact .pure _
  | some plan => exact .bind (advanceView_frontier plan) fun _ => .pure _

theorem mergePlan_ensures_union (fuel : ℕ) (wd : WorkDir) (target : Finset Blake3Hash) (s : Repo) :
    (mergePlan fuel wd target).Ensures s (fun commit s₁ => s₁.views = s.views
      ∧ ∀ view current target', commit = .union view current target' →
        target' = target ∧ s.views.lookup view = some current) fun s₁ => s₁.views = s.views := by
  have hI := ignoresCaches_views s.views
  refine .bind (currentViewName_keeps s rfl) fun view s₁ h₁ => ?_
  refine .bind (hydrate_keeps hI fuel view s₁ h₁) fun _ s₂ h₂ => ?_
  refine .bind (hydrateHeads_keeps hI fuel target s₂ h₂) fun _ s₃ h₃ => ?_
  refine .bind (loadView_ensures h₃) fun current s₄ h₄ => ?_
  obtain ⟨rfl, hlook⟩ := h₄
  rw [h₃] at hlook
  refine .bind (materializeHeads_keeps wd current s₄ h₃) fun state s₅ h₅ => ?_
  refine .bind (checkWorkingDirClean_keeps wd state s₅ h₅) fun _ s₆ h₆ => .get_bind ?_
  rcases s₆.graph.mergePlan (s₆.applyEnv wd.agentIgnore) current target state with
    e | _ | ⟨pairs, states, paths⟩
  · exact Program.ensures_throw.mpr h₆
  · refine Program.ensures_pure.mpr ⟨h₆, fun view' current' target' hcommit => ?_⟩
    obtain ⟨rfl, rfl, rfl⟩ : view = view' ∧ current = current' ∧ target = target' := by
      simpa using hcommit
    exact ⟨rfl, hlook⟩
  · refine .bind (Q := fun _ t => t.views = s.views) ?_ fun plan s₇ h₇ =>
      Program.ensures_pure.mpr ⟨h₇, fun _ _ _ hcommit => by cases hcommit⟩
    refine .bind (writeBlobs_keeps hI.ignoresBlobs _ s₆ h₆) fun _ s₇ h₇ => ?_
    exact .bind (signingIdentity_keeps s₇ h₇) fun _ s₈ h₈ => Program.ensures_pure.mpr h₈

theorem mergeHeads_union {fuel : ℕ} {wd : WorkDir} {target : Finset Blake3Hash} {s₁ : Repo}
    {view : String} {current : Finset Blake3Hash}
    (hplan : mergePlan fuel wd target s = some (.ok (.union view current target), s₁))
    {result : Except RepoError Unit} (hrun : mergeHeads fuel wd target s = some (result, s')) :
    s'.views = s.views.insert view (current ∪ target) := by
  obtain ⟨hviews, -⟩ := (mergePlan_ensures_union fuel wd target s).ok hplan
  let v := s.views.insert view (current ∪ target)
  have hensures : (mergeHeads fuel wd target).Ensures s (fun _ t => t.views = v)
      fun t => t.views = v := by
    refine .bind (Q := fun commit t => commit = .union view current target ∧ t = s₁)
      (.of_run hplan ⟨rfl, rfl⟩) ?_
    rintro _ _ ⟨rfl, rfl⟩
    refine .bind (Q := fun _ t => t.views = v) ?_ fun merged t ht => ?_
    · refine .bind (Q := fun _ t => t.views = v) (Program.ensures_modify.mpr ?_) fun _ t ht => ?_
      · exact congrArg (fun views => views.insert view (current ∪ target)) hviews
      · exact .bind (logOperation_views v _ _ _ _ t ht) fun _ t ht => Program.ensures_pure.mpr ht
    · refine .bind (materializeHeads_keeps wd merged t ht) fun state t ht => ?_
      exact writeStateToWorkingDir_keeps wd state t ht
  cases result with
  | ok _ => exact hensures.ok hrun
  | error e => exact hensures.error hrun

theorem mergeHeads_conflict {fuel : ℕ} {wd : WorkDir} {target : Finset Blake3Hash} {s₁ : Repo}
    {plan : Advance} (hs : Frontier W s)
    (hplan : mergePlan fuel wd target s = some (.ok (.conflict plan), s₁))
    {result : Except RepoError Unit} (hrun : mergeHeads fuel wd target s = some (result, s')) :
    Frontier W s' := by
  have hs₁ : Frontier W s₁ :=
    ((mergePlan_keeps ignoresCaches_frontier fuel wd target) s hs).ok hplan
  have hensures : (mergeHeads fuel wd target).Ensures s (fun _ => Frontier W) (Frontier W) := by
    refine .bind (Q := fun commit t => commit = .conflict plan ∧ t = s₁)
      (.of_run hplan ⟨rfl, rfl⟩) ?_
    rintro _ _ ⟨rfl, rfl⟩
    refine .bind (Q := fun _ => Frontier W) ?_ fun merged t ht => ?_
    · refine .bind (advanceView_frontier plan _ hs₁) fun _ t ht => ?_
      exact Program.ensures_pure.mpr ht
    · refine .bind (materializeHeads_keeps wd merged t ht) fun state t ht => ?_
      exact writeStateToWorkingDir_keeps wd state t ht
  cases result with
  | ok _ => exact hensures.ok hrun
  | error e => exact hensures.error hrun

/-- **A merge keeps the frontier exactly when it finds a conflict or joins heads that are
apart.** -/
theorem mergeHeads_frontier_iff {fuel : ℕ} {wd : WorkDir} {target : Finset Blake3Hash}
    (hs : Frontier W s) {result : Except RepoError Unit}
    (hrun : mergeHeads fuel wd target s = some (result, s')) :
    Frontier W s' ↔ ∀ view current s₁,
      mergePlan fuel wd target s = some (.ok (.union view current target), s₁) →
        Apart W current target := by
  have hensures := mergePlan_ensures_union fuel wd target s
  rcases hplan : mergePlan fuel wd target s with _ | ⟨e | ⟨view, current, target'⟩ | plan, s₁⟩
  · rw [mergeHeads, Program.bind_run, hplan] at hrun
    cases hrun
  · rw [mergeHeads, Program.bind_run, hplan] at hrun
    obtain ⟨-, rfl⟩ : Except.error e = result ∧ s₁ = s' := by simpa using hrun
    refine iff_of_true (fun view heads hlook => ?_) fun _ _ _ h => by simp at h
    rw [hensures.error hplan] at hlook
    exact hs view heads hlook
  · obtain ⟨-, hunion⟩ := hensures.ok hplan
    obtain ⟨rfl, hlook⟩ := hunion view current target' rfl
    rw [frontier_insert_iff hs (mergeHeads_union hplan hrun),
      antichain_union_iff (hs view current hlook)]
    constructor
    · intro hapart view' current' s₂ hplan'
      simp only [Option.some.injEq, Prod.mk.injEq, Except.ok.injEq, MergeCommit.union.injEq]
        at hplan'
      exact hplan'.1.2.1 ▸ hapart
    · exact fun h => h view current s₁ rfl
  · exact iff_of_true (mergeHeads_conflict hs hplan hrun) fun _ _ _ h => by simp at h

end Repo

/-! ## The server on the same files -/

/-- `write_change` of the server on decoded records: the record must hash to its key. -/
def serverWrite [Crypto] [Serde] (store : FMap Blake3Hash Change) (change : Change) :
    Except Unit (FMap Blake3Hash Change) :=
  if Crypto.hashBytes (Bincode.serialize change) ≠ change.id then .error ()
  else .ok (store.putOnce change.id change)

namespace Repo

def serverDisk (s : Repo) : ServerDisk (FMap Blake3Hash Change) := ⟨s.store, s.blobs, s.views⟩

def withServerDisk (s : Repo) (disk : ServerDisk (FMap Blake3Hash Change)) : Repo :=
  { s with store := disk.store, blobs := disk.blobs, views := disk.views }

end Repo

/-- An operation on the views, and whether `post_sync` has succeeded. -/
inductive ViewEvent where
  | snap (fuel : ℕ) (wd : WorkDir) (message : String) (stage : List Atom → List Atom)
  | mergeHeads (fuel : ℕ) (wd : WorkDir) (target : Finset Blake3Hash)
  | accepted (view : String) (payload : DeltaPayload)
  | refused (view : String) (payload : DeltaPayload)

section Runs

variable [Crypto] [Ed25519] [Serde]

/-- Every operation runs to its end, with or without an error. -/
inductive ViewStep (app : AppState) (W : Set Change) : Repo → ViewEvent → Repo → Prop
  | snap {s s' : Repo} {fuel : ℕ} {wd : WorkDir} {message : String} {stage : List Atom → List Atom}
      {result : Except RepoError (Option Blake3Hash)}
      (hrun : Repo.snap fuel wd message stage s = some (result, s')) :
      ViewStep app W s (.snap fuel wd message stage) s'
  | mergeHeads {s s' : Repo} {fuel : ℕ} {wd : WorkDir} {target : Finset Blake3Hash}
      {result : Except RepoError Unit}
      (hrun : Repo.mergeHeads fuel wd target s = some (result, s')) :
      ViewStep app W s (.mergeHeads fuel wd target) s'
  | accepted {s : Repo} {disk : ServerDisk (FMap Blake3Hash Change)} {view : String}
      {payload : DeltaPayload} {response : SyncResponse} (hsent : ∀ c ∈ payload.changes, c ∈ W)
      (hrun : postSync serverWrite app view payload s.serverDisk = some (.ok response, disk)) :
      ViewStep app W s (.accepted view payload) (s.withServerDisk disk)
  | refused {s : Repo} {disk : ServerDisk (FMap Blake3Hash Change)} {view : String}
      {payload : DeltaPayload} {refusal : SyncRefusal} (hsent : ∀ c ∈ payload.changes, c ∈ W)
      (hrun : postSync serverWrite app view payload s.serverDisk = some (.error refusal, disk)) :
      ViewStep app W s (.refused view payload) (s.withServerDisk disk)

/-- The heads that are joined are apart: those of a merge that finds no conflict, and those that
an accepted request names. -/
def JoinsApart (W : Set Change) (s : Repo) : ViewEvent → Prop
  | .mergeHeads fuel wd target => ∀ view current s₁,
      Repo.mergePlan fuel wd target s = some (.ok (.union view current target), s₁) →
        Apart W current target
  | .accepted view payload => Apart W ((s.views.lookup view).getD ∅) payload.viewHeads
  | _ => True

variable [LawfulCrypto] {app : AppState} {W : Set Change} {s s' : Repo}

theorem postSync_serverWrite {view : String} {payload : DeltaPayload}
    {disk disk' : ServerDisk (FMap Blake3Hash Change)} {response : SyncResponse}
    (hinj : ∀ c ∈ payload.changes,
      Set.InjOn Crypto.hashBytes {Bincode.serialize c, Bincode.idPayload c.payload})
    (hrun : postSync serverWrite app view payload disk = some (.ok response, disk')) :
    disk'.views = disk.views.insert view (loadHeads disk view ∪ payload.viewHeads) := by
  obtain ⟨hverified, -, disk₁, hcollapse, -⟩ := postSync_eq_ok_iff.mp hrun
  obtain ⟨-, hrewritten⟩ := collapse_of_failing_writes (fun c hc store => by
    rw [serverWrite, if_pos]
    exact hashBytes_ne_id (Bincode.encodes_serialize c) (verified_of_verifyChanges hverified hc)
      (hinj c hc)) hcollapse
  have himage : payload.viewHeads.image (remap response.rewrittenMap) = payload.viewHeads :=
    image_remap_eq fun h _ => by simp [hrewritten]
  rw [(postSync_eq_ok hrun).2.2, himage]

theorem ViewStep.frontier_iff (hinj : ∀ c ∈ W,
      Set.InjOn Crypto.hashBytes {Bincode.serialize c, Bincode.idPayload c.payload})
    {event : ViewEvent} (hs : Frontier W s) (hstep : ViewStep app W s event s') :
    Frontier W s' ↔ JoinsApart W s event := by
  cases hstep with
  | @snap _ fuel wd message stage result hrun =>
      refine iff_of_true ?_ trivial
      have hensures := Repo.snap_frontier (W := W) fuel wd message stage s hs
      cases result with
      | ok _ => exact hensures.ok hrun
      | error e => exact hensures.error hrun
  | mergeHeads hrun => exact Repo.mergeHeads_frontier_iff hs hrun
  | @accepted disk view payload response hsent hrun =>
      have hviews := postSync_serverWrite (fun c hc => hinj c (hsent c hc)) hrun
      rw [frontier_insert_iff hs hviews]
      refine antichain_union_iff ?_
      cases hlook : s.views.lookup view with
      | none => simpa [loadHeads, Repo.serverDisk, hlook] using antichain_empty W
      | some heads => simpa [loadHeads, Repo.serverDisk, hlook] using hs view heads hlook
  | @refused disk view payload refusal hsent hrun =>
      refine iff_of_true (fun view heads hlook => ?_) trivial
      have hviews : disk.views = s.views := postSync_error_keeps
        (I := fun disk => disk.views = s.views) hrun
        (fun _ c _ => storeChange_keeps fun _ _ hd _ => hd) rfl
      exact hs view heads (hviews ▸ hlook)

/-- **The heads of every view stay a frontier** in every state of a run from an empty repository
exactly when every merge that finds no conflict, and every accepted request, joins heads that are
apart. -/
theorem frontier_run_iff (hinj : ∀ c ∈ W,
      Set.InjOn Crypto.hashBytes {Bincode.serialize c, Bincode.idPayload c.payload})
    {start : Repo} (hstart : start.views = Repo.init.views) {events : List ViewEvent} :
    Trace (fun s event s' => ViewStep app W s event s' ∧ Frontier W s') start events s
      ↔ Trace (fun s event s' => ViewStep app W s event s' ∧ JoinsApart W s event) start events
        s := by
  exact Trace.guard_iff (frontier_init hstart) fun s event s' hs hstep =>
    hstep.frontier_iff hinj hs

end Runs

def Repo.folderWorkDir (name : String) : WorkDir :=
  { Repo.anyWorkDir with delta := fun _ => .ok ([.directory [name]], []) }

def Repo.authored : Repo := { Repo.init with identity := some (.human "" "" 7, 7) }

theorem exists_run_of_any {σ ε α : Type} {p : Program σ ε α} {s : σ} {P : Except ε α → σ → Bool}
    (h : (p s).any (fun out => P out.1 out.2) = true) :
    ∃ result s', p s = some (result, s') ∧ P result s' = true := by
  obtain ⟨⟨result, s'⟩, hrun, hP⟩ := (Option.any_eq_true _ _).mp h
  exact ⟨result, s', hrun, hP⟩

def folderChange (deps : Finset Blake3Hash) (name : String) : Change :=
  @Change.new (@Crypto.ofBytes (Serde.sample [])) deps [.directory [name]] name (.human "" "" 7) 7

/-- After two changes in a row the view has one head. -/
theorem frontier_two_snaps :
    letI := Serde.sample []
    letI := Crypto.ofBytes
    letI := Ed25519.sample
    let a := folderChange ∅ "a"
    let W : Set Change := {c | c ∈ [a, folderChange {a.id} "b"]}
    ∃ s, Trace (ViewStep ⟨.server "s" 3, 3⟩ W) Repo.authored
        [.snap 9 (Repo.folderWorkDir "a") "a" id, .snap 9 (Repo.folderWorkDir "b") "b" id] s
      ∧ s.views.lookup "main" = some {(folderChange {a.id} "b").id} ∧ Frontier W s := by
  intro a W
  let _ := Serde.sample []
  let _ := Crypto.ofBytes
  let _ := Ed25519.sample
  have := Crypto.ofBytes_lawful
  have hinj : ∀ c ∈ W,
      Set.InjOn Crypto.hashBytes {Bincode.serialize c, Bincode.idPayload c.payload} := by
    have hne : ∀ c ∈ [a, folderChange {a.id} "b"], Crypto.hashBytes (Bincode.serialize c)
        ≠ Crypto.hashBytes (Bincode.idPayload c.payload) := by decide +kernel
    intro c hc
    rw [Set.injOn_pair]
    exact fun h => absurd h (hne c hc)
  obtain ⟨_, s₁, hfirst, hsecond⟩ : ∃ result s₁,
      Repo.snap 9 (Repo.folderWorkDir "a") "a" id Repo.authored = some (result, s₁)
        ∧ (Repo.snap 9 (Repo.folderWorkDir "b") "b" id s₁).any (fun out =>
          decide (out.2.views.lookup "main" = some {(folderChange {a.id} "b").id})) = true :=
    exists_run_of_any (by decide +kernel)
  obtain ⟨_, s₂, hsecond, hheads⟩ : ∃ result s₂,
      Repo.snap 9 (Repo.folderWorkDir "b") "b" id s₁ = some (result, s₂)
        ∧ decide (s₂.views.lookup "main" = some {(folderChange {a.id} "b").id}) = true :=
    exists_run_of_any hsecond
  have htrace : Trace (fun s event s' => ViewStep ⟨.server "s" 3, 3⟩ W s event s'
      ∧ JoinsApart W s event) Repo.authored
      [.snap 9 (Repo.folderWorkDir "a") "a" id, .snap 9 (Repo.folderWorkDir "b") "b" id] s₂ :=
    .snoc (.snoc (.nil _) ⟨.snap hfirst, trivial⟩) ⟨.snap hsecond, trivial⟩
  have hviews : Repo.authored.views = Repo.init.views := rfl
  have hfrontier := (frontier_run_iff hinj hviews).mpr htrace
  exact ⟨s₂, hfrontier.mono fun _ _ _ h => h.1, of_decide_eq_true hheads,
    hfrontier.last (frontier_init hviews)⟩

/-- Merging the head of a view that is behind, or pushing it, puts it next to its descendant. -/
theorem merge_of_ancestor_breaks_frontier :
    letI := Serde.sample []
    letI := Crypto.ofBytes
    letI := Ed25519.sample
    let a := folderChange ∅ "a"
    let b := folderChange {a.id} "b"
    let W : Set Change := {c | c ∈ [a, b]}
    (∃ s, Trace (ViewStep ⟨.server "s" 3, 3⟩ W) Repo.authored
        [.snap 9 (Repo.folderWorkDir "a") "a" id, .snap 9 (Repo.folderWorkDir "b") "b" id,
          .mergeHeads 9 Repo.anyWorkDir {a.id}] s
      ∧ s.views.lookup "main" = some {a.id, b.id} ∧ ¬ Frontier W s)
      ∧ ∃ s, Trace (ViewStep ⟨.server "s" 3, 3⟩ W) Repo.authored
        [.accepted "main" ⟨[], {b.id}⟩, .accepted "main" ⟨[], {a.id}⟩] s
      ∧ s.views.lookup "main" = some {a.id, b.id} ∧ ¬ Frontier W s := by
  intro a b W
  let _ := Serde.sample []
  let _ := Crypto.ofBytes
  let _ := Ed25519.sample
  have hnot : ∀ s : Repo, s.views.lookup "main" = some {a.id, b.id} → ¬ Frontier W s := by
    intro s hlook hfrontier
    have hne : b.id ≠ a.id := by decide +kernel
    have hmem : b ∈ [a, b] := List.mem_cons_of_mem _ List.mem_cons_self
    refine hfrontier "main" _ hlook b.id (by simp) a.id (by simp) hne (.single ⟨b, hmem, rfl, ?_⟩)
    exact Finset.mem_singleton_self _
  constructor
  · obtain ⟨_, s₁, hfirst, hrest⟩ : ∃ result s₁,
        Repo.snap 9 (Repo.folderWorkDir "a") "a" id Repo.authored = some (result, s₁)
          ∧ (Repo.snap 9 (Repo.folderWorkDir "b") "b" id s₁).any (fun out =>
            (Repo.mergeHeads 9 Repo.anyWorkDir {a.id} out.2).any fun out =>
              decide (out.2.views.lookup "main" = some {a.id, b.id})) = true :=
      exists_run_of_any (by decide +kernel)
    obtain ⟨_, s₂, hsecond, hrest⟩ : ∃ result s₂,
        Repo.snap 9 (Repo.folderWorkDir "b") "b" id s₁ = some (result, s₂)
          ∧ (Repo.mergeHeads 9 Repo.anyWorkDir {a.id} s₂).any (fun out =>
            decide (out.2.views.lookup "main" = some {a.id, b.id})) = true :=
      exists_run_of_any hrest
    obtain ⟨_, s₃, hthird, hheads⟩ : ∃ result s₃,
        Repo.mergeHeads 9 Repo.anyWorkDir {a.id} s₂ = some (result, s₃)
          ∧ decide (s₃.views.lookup "main" = some {a.id, b.id}) = true :=
      exists_run_of_any hrest
    have hlook := of_decide_eq_true hheads
    exact ⟨s₃, .snoc (.snoc (.snoc (.nil _) (.snap hfirst)) (.snap hsecond)) (.mergeHeads hthird),
      hlook, hnot s₃ hlook⟩
  · let app : AppState := ⟨.server "s" 3, 3⟩
    obtain ⟨result₁, disk₁, hfirst, hrest⟩ : ∃ result₁ disk₁,
        postSync serverWrite app "main" ⟨[], {b.id}⟩ Repo.authored.serverDisk
            = some (result₁, disk₁)
          ∧ (result₁.isOk && (postSync serverWrite app "main" ⟨[], {a.id}⟩
            (Repo.authored.withServerDisk disk₁).serverDisk).any fun out => out.1.isOk
              && decide (out.2.views.lookup "main" = some {a.id, b.id})) = true :=
      exists_run_of_any (by decide +kernel)
    obtain ⟨hok₁, hrest⟩ := (Bool.and_eq_true _ _).mp hrest
    obtain ⟨result₂, disk₂, hsecond, hrest⟩ : ∃ result₂ disk₂,
        postSync serverWrite app "main" ⟨[], {a.id}⟩
            (Repo.authored.withServerDisk disk₁).serverDisk = some (result₂, disk₂)
          ∧ (result₂.isOk && decide (disk₂.views.lookup "main" = some {a.id, b.id})) = true :=
      exists_run_of_any hrest
    obtain ⟨hok₂, hheads⟩ := (Bool.and_eq_true _ _).mp hrest
    cases result₁ with
    | error refusal => cases hok₁
    | ok response₁ =>
        cases result₂ with
        | error refusal => cases hok₂
        | ok response₂ =>
            have hlook := of_decide_eq_true hheads
            exact ⟨_, .snoc (.snoc (.nil _) (.accepted (by simp) hfirst))
              (.accepted (by simp) hsecond), hlook, hnot _ hlook⟩

end ArcVcs
