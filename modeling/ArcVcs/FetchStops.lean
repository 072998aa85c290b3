import ArcVcs.Replicas

/-!
# Fetches that are stopped

A fetch turns back at the changes that the store has, and stores a change before its dependencies.
So a fetch that is stopped leaves a store closed under dependencies only before it has written a
change with a dependency that is missing, or when nothing is missing any more.
-/

namespace ArcVcs

open Repo

/-- A fetch from a repository in the file system or from a server. -/
inductive FetchCommand where
  | fetchLocal (remote : Repo) (view : String)
  | bfsFetchChanges (server : Peer) (roots : Finset Blake3Hash)

/-- A fetch, the number of changes that it writes before it ends or is stopped, and whether it
returns. -/
structure FetchEvent where
  command : FetchCommand
  fuel : ℕ
  disk : Blake3Hash → Bool
  written : ℕ
  returned : Bool

namespace FetchCommand

def roots : FetchCommand → Finset Blake3Hash
  | fetchLocal remote view => (remote.views.lookup view).getD ∅
  | bfsFetchChanges _ roots => roots

variable [Crypto]

def peer : FetchCommand → Peer
  | fetchLocal remote _ => .ofRepo remote
  | bfsFetchChanges server _ => server

def thread [Serde] (fuel : ℕ) (disk : Blake3Hash → Bool) : FetchCommand → SyncM Unit
  | fetchLocal remote view => do
      let _ ← Repo.fetchLocal disk fuel remote view
      pure ()
  | bfsFetchChanges server roots => do
      let _ ← Repo.bfsFetchChanges disk fuel server roots
      pure ()

theorem run [Serde] {command : FetchCommand} {fuel : ℕ} {disk : Blake3Hash → Bool} {s u : Repo}
    {out : Option (Except PeerError Unit)} (h : Thread.Stops (command.thread fuel disk) s out u) :
    ∃ turned got ended, FetchRun command.peer s u (Serde.iter command.roots) [] turned got ended
      ∧ (out = some (.ok ()) → ended = true) := by
  cases command with
  | fetchLocal remote view =>
      obtain ⟨out', h, hout⟩ := Thread.stops_of_bind_pure h
      rw [Repo.fetchLocal] at h
      rw [roots, peer]
      cases hview : remote.views.lookup view with
      | none =>
          rw [hview] at h
          obtain ⟨rfl, hout'⟩ := Thread.stops_throw_iff.mp h
          refine ⟨[], [], false, .stop fun _ _ h => .inl h, fun hok => ?_⟩
          obtain ⟨heads, hheads, -⟩ := hout () hok
          rcases hout' with rfl | rfl <;> simp at hheads
      | some heads =>
          rw [hview] at h
          obtain ⟨out₂, h, hout₂⟩ := Thread.stops_of_bind_pure h
          obtain ⟨turned, got, ended, hrun, hended⟩ :=
            fetchLoop_run (copies_copyBlobIfReadable disk _) h
          refine ⟨turned, got, ended, hrun, fun hok => ?_⟩
          obtain ⟨heads', hheads, -⟩ := hout () hok
          obtain ⟨vg, hvg, -⟩ := hout₂ heads' hheads
          exact (hended vg.1 vg.2 hvg).1
  | bfsFetchChanges server roots =>
      obtain ⟨out', h, hout⟩ := Thread.stops_of_bind_pure h
      obtain ⟨out₂, h, hout₂⟩ := Thread.stops_of_bind_pure h
      obtain ⟨turned, got, ended, hrun, hended⟩ := fetchLoop_run (copies_copyBlob disk server) h
      refine ⟨turned, got, ended, hrun, fun hok => ?_⟩
      obtain ⟨n, hn, -⟩ := hout () hok
      obtain ⟨vg, hvg, -⟩ := hout₂ n hn
      exact (hended vg.1 vg.2 hvg).1

end FetchCommand

section Fetches

variable [Crypto] [Serde] {history : FMap Blake3Hash Change}

/-- One fetch, run to its end or stopped. -/
def FetchStep (history : FMap Blake3Hash Change) (s : Repo) (e : FetchEvent) (s' : Repo) : Prop :=
  e.command.peer.Honest history
    ∧ s'.store.keys.card = s.store.keys.card + e.written
    ∧ ∃ out, Thread.Stops (e.command.thread e.fuel e.disk) s out s'
      ∧ (e.returned = true ↔ out = some (.ok ()))

/-- The requested heads that the store has not, in the order of the queue. -/
def missingRoots (store : FMap Blake3Hash Change) (roots : Finset Blake3Hash) : List Blake3Hash :=
  (Serde.iter roots).filter fun id => ¬ Stores store id

omit [Crypto] in
/-- Everything that is missing has been written, or nothing but requested heads, which depend on
each other and on what is there. -/
def SafeStop (history : FMap Blake3Hash Change) (store : FMap Blake3Hash Change)
    (roots : Finset Blake3Hash) (written : ℕ) : Prop :=
  (missingHistory history store roots).encard ≤ written
    ∨ written ≤ (missingRoots store roots).length
      ∧ ∀ id ∈ (missingRoots store roots).take written, ∀ c, readChange history id = .ok c →
        ∀ d ∈ c.deps, Stores store d ∨ d ∈ (missingRoots store roots).take written

section Search

omit [Crypto]

variable {store : FMap Blake3Hash Change} {peer : Peer} {roots : Finset Blake3Hash}
  {turned : List Blake3Hash} {got : List (Blake3Hash × Change)} {ended : Bool}

theorem nodes_prefix_or (hpeer : peer.Honest history)
    (h : FetchSearch peer store (Serde.iter roots) [] turned got ended) :
    PrunedSearch.nodes got <+: missingRoots store roots
      ∨ missingRoots store roots <+: PrunedSearch.nodes got := by
  rw [← List.append_nil (Serde.iter roots)] at h
  exact h.queue_first hpeer.faithful (nodup_iter roots) (by simp)

theorem nodes_eq_take (hpeer : peer.Honest history)
    (h : FetchSearch peer store (Serde.iter roots) [] turned got ended)
    (hlength : got.length ≤ (missingRoots store roots).length) :
    PrunedSearch.nodes got = (missingRoots store roots).take got.length := by
  have hnodes : (PrunedSearch.nodes got).length = got.length := List.length_map ..
  rcases nodes_prefix_or hpeer h with hpref | hpref
  · rw [← hnodes]
    exact List.prefix_iff_eq_take.mp hpref
  · have heq := hpref.eq_of_length_le (by rw [hnodes]; exact hlength)
    rw [← heq, ← hnodes, ← heq, List.take_length]

theorem stores_root (hpeer : peer.Honest history)
    (h : FetchSearch peer store (Serde.iter roots) [] turned got ended)
    (hlength : (missingRoots store roots).length ≤ got.length) {id : Blake3Hash}
    (hid : id ∈ roots) : Stores store id ∨ id ∈ PrunedSearch.nodes got := by
  by_cases hthere : Stores store id
  · exact .inl hthere
  have hmissing : id ∈ missingRoots store roots :=
    List.mem_filter.mpr ⟨mem_iter.mpr hid, by simpa using hthere⟩
  have hnodes : (PrunedSearch.nodes got).length = got.length := List.length_map ..
  rcases nodes_prefix_or hpeer h with hpref | hpref
  · rw [hpref.eq_of_length_le (by rw [hnodes]; exact hlength)]
    exact .inr hmissing
  · exact .inr (hpref.subset hmissing)

theorem encard_nodes (h : FetchSearch peer store (Serde.iter roots) [] turned got ended) :
    {id | id ∈ PrunedSearch.nodes got}.encard = got.length := by
  rw [← List.length_map (f := Prod.fst), ← List.toFinset_card_of_nodup h.nodup,
    ← Set.encard_coe_eq_coe_finsetCard, List.coe_toFinset]

/-- **Where a fetch may be stopped.** -/
theorem closed_fetched_iff (hpeer : peer.Honest history) (hreplica : Replica history store)
    (h : FetchSearch peer store (Serde.iter roots) [] turned got ended) :
    ClosedStore (putChanges store (got.map Prod.snd))
      ↔ SafeStop history store roots got.length := by
  have hstores := stores_fetched_iff hpeer hreplica.keyed h
  have hread {id : Blake3Hash} {c : Change}
      (hc : readChange (putChanges store (got.map Prod.snd)) id = .ok c) :
      readChange history id = .ok c := readChange_fetched hpeer hreplica.sub h hc
  constructor
  · intro hclosed
    by_cases hk : got.length ≤ (missingRoots store roots).length
    · refine .inr ⟨hk, fun id hid c hc d hd => ?_⟩
      rw [← nodes_eq_take hpeer h hk] at hid ⊢
      obtain ⟨c', hc'⟩ := (hstores id).mpr (.inr hid)
      obtain rfl : c' = c := Except.ok.inj ((hread hc').symm.trans hc)
      exact (hstores d).mp (hclosed id c' hc' d hd)
    · left
      have hroots (id : Blake3Hash) (hid : id ∈ roots) :
          Stores (putChanges store (got.map Prod.snd)) id :=
        (hstores id).mpr (stores_root hpeer h (by omega) hid)
      have hall : History history roots
          ⊆ {id | Stores (putChanges store (got.map Prod.snd)) id} := by
        refine history_subset hroots fun id hid c hc d hd => ?_
        obtain ⟨c', hc'⟩ := hid
        obtain rfl : c' = c := Except.ok.inj ((hread hc').symm.trans hc)
        exact hclosed id c' hc' d hd
      rw [← encard_nodes h]
      refine Set.encard_le_encard fun id hid => ?_
      exact ((hstores id).mp (hall hid.1)).resolve_left hid.2
  · intro hstop id c hc d hd
    rw [hstores]
    rcases (hstores id).mp ⟨c, hc⟩ with ⟨c', hc'⟩ | hid
    · obtain rfl : c' = c := Except.ok.inj ((hreplica.sub id c' hc').symm.trans (hread hc))
      exact .inl (hreplica.closed id c' hc' d hd)
    rcases hstop with hall | ⟨hk, hdeps⟩
    · have hsub : {id | id ∈ PrunedSearch.nodes got} ⊆ missingHistory history store roots :=
        fun _ => got_missing hpeer hpeer.faithful h
      have heq : {id | id ∈ PrunedSearch.nodes got} = missingHistory history store roots := by
        rw [← encard_nodes h] at hall
        exact (List.finite_toSet _).eq_of_subset_of_encard_le hsub hall
      have hd : d ∈ History history roots := mem_history_of_mem_deps (hsub hid).1 (hread hc) hd
      by_cases hthere : Stores store d
      · exact .inl hthere
      · have hmissing : d ∈ {id | id ∈ PrunedSearch.nodes got} := heq ▸ ⟨hd, hthere⟩
        exact .inr hmissing
    · rw [nodes_eq_take hpeer h hk] at hid ⊢
      exact hdeps id hid c (hread hc) d hd

end Search

omit [Crypto] in
theorem card_putChanges {store : FMap Blake3Hash Change} {peer : Peer} {roots : Finset Blake3Hash}
    {turned : List Blake3Hash} {got : List (Blake3Hash × Change)} {ended : Bool}
    (hpeer : peer.Honest history) (hkeyed : Keyed store)
    (h : FetchSearch peer store (Serde.iter roots) [] turned got ended) :
    (putChanges store (got.map Prod.snd)).keys.card = store.keys.card + got.length := by
  have hstores {store : FMap Blake3Hash Change} (hkeyed : Keyed store) (id : Blake3Hash) :
      id ∈ store.keys ↔ Stores store id := by
    refine ⟨hkeyed id, fun ⟨c, hc⟩ => ?_⟩
    exact FMap.mem_keys_of_lookup (readChange_eq_ok_iff.mp hc).1
  have hkeys : (putChanges store (got.map Prod.snd)).keys
      = store.keys ∪ (PrunedSearch.nodes got).toFinset := by
    ext id
    rw [hstores (hkeyed.putChanges _), stores_fetched_iff hpeer hkeyed h, Finset.mem_union,
      List.mem_toFinset, hstores hkeyed]
  rw [hkeys, Finset.card_union_of_disjoint, List.toFinset_card_of_nodup h.nodup, List.length_map]
  refine Finset.disjoint_left.mpr fun id hid hgot => ?_
  exact h.not_holds_of_got hpeer.faithful (List.mem_toFinset.mp hgot) (hkeyed id hid)

/-- **One fetch.** It leaves the store closed exactly when the stop is safe, as it is when the fetch
returns, and then the requested histories are there. -/
theorem FetchStep.closed_iff {s s' : Repo} {e : FetchEvent} (hreplica : Replica history s.store)
    (hstep : FetchStep history s e s') :
    (ClosedStore s'.store ↔ SafeStop history s.store e.command.roots e.written)
      ∧ Keyed s'.store ∧ (∀ id c, readChange s'.store id = .ok c → readChange history id = .ok c)
      ∧ (e.returned = true → SafeStop history s.store e.command.roots e.written
        ∧ ∀ id ∈ History history e.command.roots, Stores s'.store id) := by
  obtain ⟨hpeer, hcard, out, hrun, hreturned⟩ := hstep
  obtain ⟨turned, got, ended, hrun, hended⟩ := FetchCommand.run hrun
  have hlength : got.length = e.written := by
    rw [hrun.store, card_putChanges hpeer hreplica.keyed hrun.search] at hcard
    omega
  have hclosed := closed_fetched_iff hpeer hreplica hrun.search
  rw [hlength] at hclosed
  rw [hrun.store]
  refine ⟨hclosed, hreplica.keyed.putChanges _,
    fun id c => readChange_fetched hpeer hreplica.sub hrun.search, fun hret => ?_⟩
  have hend : ended = true := hended (hreturned.mp hret)
  have hgot := got_eq_missing hpeer hpeer.faithful hreplica hrun.search hend
  refine ⟨.inl ?_, fun id hid => ?_⟩
  · rw [← hgot, encard_nodes hrun.search, hlength]
  · exact (stores_fetched_iff hpeer hreplica.keyed hrun.search id).mpr
      (stores_or_got hpeer hpeer.faithful hreplica hrun.search hend hid)

/-- **Runs of fetches.** The store stays closed after every fetch, and a fetch that returns leaves
the requested histories there, exactly when every stop is safe. -/
theorem fetches_closed_iff {s t : Repo} {events : List FetchEvent}
    (hstart : Replica history s.store) :
    Trace (fun s e s' => FetchStep history s e s' ∧ ClosedStore s'.store
        ∧ (e.returned = true → ∀ id ∈ History history e.command.roots, Stores s'.store id))
        s events t
      ↔ Trace (fun s e s' => FetchStep history s e s'
        ∧ SafeStop history s.store e.command.roots e.written) s events t := by
  constructor
  · intro h
    refine h.mono_of_keeps (P := fun s => Replica history s.store) hstart ?_
    rintro s e s' hs ⟨hstep, hclosed, -⟩
    obtain ⟨hiff, hkeyed, hsub, -⟩ := hstep.closed_iff hs
    exact ⟨⟨hkeyed, hsub, hclosed⟩, hstep, hiff.mp hclosed⟩
  · intro h
    refine h.mono_of_keeps (P := fun s => Replica history s.store) hstart ?_
    rintro s e s' hs ⟨hstep, hsafe⟩
    obtain ⟨hiff, hkeyed, hsub, hreturned⟩ := hstep.closed_iff hs
    have hclosed := hiff.mpr hsafe
    exact ⟨⟨hkeyed, hsub, hclosed⟩, hstep, hclosed, fun hret => (hreturned hret).2⟩

end Fetches

/-! ## A stopped fetch -/

def twoChangesServer : Peer :=
  ⟨fun id => (readChange twoChanges id).mapError .repo, fun hash => .error (.missingBlob hash)⟩

theorem honest_twoChangesServer : twoChangesServer.Honest twoChanges := by
  intro id c h
  rw [Peer.Sends, twoChangesServer] at h
  cases hread : readChange twoChanges id with
  | error e => simp [hread, Except.mapError] at h
  | ok c' => simpa [hread, Except.mapError] using h

/-- A fetch of the second change, and what it has done after a number of actions. -/
def fetchSecond (written : ℕ) (returned : Bool) : FetchEvent :=
  ⟨.bfsFetchChanges twoChangesServer {2}, 9, fun _ => true, written, returned⟩

abbrev SampleStep : Repo → FetchEvent → Repo → Prop :=
  @FetchStep Crypto.sample (Serde.sample []) twoChanges

def afterActions (n : ℕ) (s : Repo) : Option (Option (Except PeerError Unit) × Repo) :=
  let _ := Crypto.sample
  let _ := Serde.sample []
  Thread.runFor n ((fetchSecond 0 false).command.thread 9 fun _ => true) s

theorem sampleStep_afterActions {n written : ℕ} {returned : Bool} {s : Repo}
    {out : Option (Except PeerError Unit) × Repo} (hrun : afterActions n s = some out)
    (hcard : out.2.store.keys.card = s.store.keys.card + written)
    (hreturned : returned = true ↔ out.1 = some (.ok ())) :
    SampleStep s (fetchSecond written returned) out.2 :=
  ⟨honest_twoChangesServer, hcard, out.1, Thread.stops_of_runFor hrun, hreturned⟩

/-- A fetch that returns. -/
theorem fetches_closed_second :
    ∃ t, Trace (fun s e s' => SampleStep s e s' ∧ ClosedStore s'.store
      ∧ (e.returned = true → ∀ id ∈ History twoChanges e.command.roots, Stores s'.store id))
      .init [fetchSecond 2 true] t := by
  let _ := Crypto.sample
  let _ := Serde.sample []
  obtain ⟨out, hrun⟩ := Option.isSome_iff_exists.mp
    (show (afterActions 9 .init).isSome = true by decide)
  have hout : (afterActions 9 .init).map (fun out => (out.1, out.2.store.keys))
      = some (some (.ok ()), {1, 2}) := by decide
  rw [hrun] at hout
  obtain ⟨hreturned, hkeys⟩ := Prod.mk.inj (Option.some_inj.mp hout)
  have hstep : SampleStep .init (fetchSecond 2 true) out.2 :=
    sampleStep_afterActions hrun (by rw [hkeys]; decide) (by simp [hreturned])
  have hsafe := (hstep.closed_iff (replica_init twoChanges)).2.2.2 rfl
  exact ⟨out.2, (fetches_closed_iff (replica_init twoChanges)).mpr
    (.snoc (.nil Repo.init) ⟨hstep, hsafe.1⟩)⟩

/-- A fetch that is stopped after it has written the head, and one after it that returns. -/
theorem stopped_fetch_loses_history :
    ¬ ∀ (s t : Repo) (events : List FetchEvent), Replica twoChanges s.store →
      Trace SampleStep s events t → ClosedStore t.store
        ∧ ∀ e, events.getLast? = some e → e.returned = true →
          ∀ id ∈ History twoChanges e.command.roots, Stores t.store id := by
  intro h
  obtain ⟨first, hfirst⟩ := Option.isSome_iff_exists.mp
    (show (afterActions 2 .init).isSome = true by decide)
  obtain ⟨second, hsecond⟩ : ∃ second, ((afterActions 2 .init).bind fun out =>
      afterActions 9 out.2) = some second :=
    Option.isSome_iff_exists.mp (by decide)
  have hout : (afterActions 2 .init).map (fun out => (out.1, out.2.store.keys))
    = some (none, {2}) :=
    by decide
  have hout₂ : ((afterActions 2 .init).bind fun out => afterActions 9 out.2).map
      (fun out => (out.1, out.2.store.keys)) = some (some (.ok ()), {2}) := by decide
  rw [hsecond] at hout₂
  rw [hfirst] at hout hsecond
  obtain ⟨hstop, hkeys⟩ := Prod.mk.inj (Option.some_inj.mp hout)
  obtain ⟨hreturned, hkeys₂⟩ := Prod.mk.inj (Option.some_inj.mp hout₂)
  have hstep : SampleStep .init (fetchSecond 1 false) first.2 :=
    sampleStep_afterActions hfirst (by rw [hkeys]; decide) (by simp [hstop])
  have hstep₂ : SampleStep first.2 (fetchSecond 0 true) second.2 :=
    sampleStep_afterActions hsecond (by rw [hkeys, hkeys₂]; rfl) (by simp [hreturned])
  have htrace := Trace.snoc (Trace.snoc (Trace.nil _) hstep) hstep₂
  have hsecondStored : readChange twoChanges 2 = .ok (.bare 2 {1} []) :=
    readChange_twoChanges.mpr (.inr ⟨rfl, rfl⟩)
  have hthere := (h _ _ _ (replica_init twoChanges) htrace).2 _ rfl rfl 1
    (mem_history_of_mem_deps (mem_history_of_mem (by decide)) hsecondStored (by decide))
  obtain ⟨c, hc⟩ := hthere
  have hmem := FMap.mem_keys_of_lookup (readChange_eq_ok_iff.mp hc).1
  rw [hkeys₂] at hmem
  exact absurd hmem (by decide)

end ArcVcs
