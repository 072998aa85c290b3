import ArcVcs.Replicas
import ArcVcs.Verify

/-!
# Fetches from any server

`bfs_fetch_changes` stores and loads what a server sends under the id that it finds in it. It does
not compare that id with the one it has asked for, and it verifies nothing.
-/

namespace ArcVcs

open Repo

section Server

variable [Crypto] [Ed25519]

/-- A change that may be stored in answer to a request for the id. -/
structure Admissible (id : Blake3Hash) (c : Change) : Prop where
  requested : c.id = id
  verified : c.verifySignature = true

/-- A local store with verified changes and their dependencies. -/
structure SoundStore (store : FMap Blake3Hash Change) : Prop where
  keyed : Keyed store
  closed : ClosedStore store
  verified : ∀ id c, readChange store id = .ok c → c.verifySignature = true

/-- The ids that a fetch asks the server for. A run asks for each of them at most once, so that the
answers of a server are a function of the id. -/
inductive Asked (server : Peer) (roots : Finset Blake3Hash) (store : FMap Blake3Hash Change) :
    Blake3Hash → Prop
  | root {id : Blake3Hash} (hroot : id ∈ roots) (hmissing : ¬ Stores store id) :
      Asked server roots store id
  | dep {id d : Blake3Hash} {c : Change} (hid : Asked server roots store id)
      (hsends : server.Sends id c) (hd : d ∈ c.deps) (hmissing : ¬ Stores store d) :
      Asked server roots store d

/-- The server answers the requests with the changes that were asked for, which verify. -/
def AnswersWell (server : Peer) (roots : Finset Blake3Hash) (store : FMap Blake3Hash Change) :
    Prop :=
  ∀ id, Asked server roots store id → ∀ c, server.Sends id c → Admissible id c

/-- The histories of the roots are stored, and what is new in the store and the graph was sent in
answer to a request for its id, or was stored before, and verifies. -/
structure OnlyAdmissible (server : Peer) (roots : Finset Blake3Hash) (s u : Repo) : Prop where
  stored : ∀ id ∈ History u.store roots, Stores u.store id
  written : ∀ id c, readChange u.store id = .ok c → readChange s.store id ≠ .ok c →
    server.Sends id c ∧ Admissible id c
  loaded : ∀ id c, u.graph.get id = some c → s.graph.get id ≠ some c →
    (server.Sends id c ∨ readChange s.store id = .ok c) ∧ Admissible id c

end Server

variable [Crypto] [Ed25519] [Serde] {server : Peer} {roots : Finset Blake3Hash} {s u : Repo}
  {disk : Blake3Hash → Bool} {fuel n : ℕ} {got : List (Blake3Hash × Change)}
  {turned : List Blake3Hash}

omit [Crypto] [Ed25519] in
/-- By induction on the search. -/
theorem asked_of_got {store t : FMap Blake3Hash Change} {queue visited : List Blake3Hash}
    {ended : Bool} (h : FetchSearch server t queue visited turned got ended)
    (hstore : ∀ id, Stores store id → Stores t id)
    (hqueue : ∀ id ∈ queue, Stores store id ∨ Asked server roots store id) :
    ∀ id ∈ PrunedSearch.nodes got, Asked server roots store id := by
  induction h with
  | stop | done => simp
  | skip _ _ ih | turn _ _ _ ih =>
      exact ih hstore fun id hid => hqueue id (List.mem_cons_of_mem _ hid)
  | @get t id c queue seen turned got ended hid hmissing hsends hrest ih =>
      have hasked : Asked server roots store id :=
        (hqueue id List.mem_cons_self).resolve_left fun h => hmissing (hstore id h)
      refine List.forall_mem_cons.mpr ⟨hasked, ih (fun x hx => (hstore x hx).putOnce) ?_⟩
      intro d hd
      rcases List.mem_append.mp hd with hd | hd
      · exact hqueue d (List.mem_cons_of_mem _ hd)
      · by_cases hthere : Stores store d
        · exact .inl hthere
        · exact .inr (.dep hasked hsends (mem_iter.mp (List.mem_filter.mp hd).1) hthere)

omit [Ed25519] in
theorem bfsFetchChanges_run (h : Thread.Returns (bfsFetchChanges disk fuel server roots) s n u) :
    ∃ turned got, FetchRun server s u (Serde.iter roots) [] turned got true := by
  obtain ⟨out, hstop, hout⟩ := Thread.stops_of_bind_pure h
  obtain ⟨vg, rfl, -⟩ := hout n rfl
  obtain ⟨turned, got, ended, hrun, hend⟩ := fetchLoop_run (copies_copyBlob disk server) hstop
  obtain ⟨rfl, -, -⟩ := hend vg.1 vg.2 rfl
  exact ⟨turned, got, hrun⟩

omit [Crypto] [Ed25519] in
theorem asked_run (hrun : FetchRun server s u (Serde.iter roots) [] turned got true) :
    ∀ p ∈ got, Asked server roots s.store p.1 := by
  intro p hp
  refine asked_of_got hrun.search (fun _ h => h) (fun id hid => ?_) p.1 (List.mem_map_of_mem hp)
  by_cases hthere : Stores s.store id
  · exact .inl hthere
  · exact .inr (.root (mem_iter.mp hid) hthere)

theorem admissible_got (hwell : AnswersWell server roots s.store)
    (hrun : FetchRun server s u (Serde.iter roots) [] turned got true) :
    ∀ p ∈ got, Admissible p.1 p.2 := fun p hp =>
  hwell p.1 (asked_run hrun p hp) p.2 (hrun.search.source_of_mem hp)

theorem stored_of_answersWell (hsound : SoundStore s.store)
    (hwell : AnswersWell server roots s.store)
    (hrun : FetchRun server s u (Serde.iter roots) [] turned got true) :
    ∀ id ∈ History u.store roots, Stores u.store id := by
  have hadmissible := admissible_got hwell hrun
  have hstores (id : Blake3Hash) :
      Stores u.store id ↔ Stores s.store id ∨ id ∈ PrunedSearch.nodes got := by
    rw [hrun.store]
    exact hsound.keyed.stores_putGot_iff (fun p hp => (hadmissible p hp).requested) id
  have hsearch := hrun.search.restrict (fun id c => c.id = id)
    fun p hp => (hadmissible p hp).requested
  have hvisited {x : Blake3Hash} (hx : x ∈ ([] : List Blake3Hash) ∨ x ∈ turned
      ∨ x ∈ PrunedSearch.nodes got) : Stores u.store x := by
    rw [hstores]
    exact hsearch.held_or_got (faithful_putOnce fun _ _ h => h) hx
  obtain ⟨hqueue, hnext⟩ := hsearch.covers rfl
  refine history_subset (T := {id | Stores u.store id}) (fun id hid => ?_) fun id _ c hc d hd => ?_
  · exact hvisited (hqueue id (mem_iter.mpr hid))
  · rw [hrun.store] at hc
    rcases readChange_putChanges hc with hold | hnew
    · exact (hstores d).mpr (.inl (hsound.closed id c hold d hd))
    · obtain ⟨p, hp, rfl⟩ := List.mem_map.mp hnew
      exact hvisited (hnext p hp d (mem_iter.mpr hd))

theorem onlyAdmissible_of_answersWell (hsound : SoundStore s.store)
    (hwell : AnswersWell server roots s.store)
    (hrun : FetchRun server s u (Serde.iter roots) [] turned got true) :
    OnlyAdmissible server roots s u := by
  have hadmissible := admissible_got hwell hrun
  have hgot {id : Blake3Hash} {c : Change} (hid : c.id = id) (hc : c ∈ got.map Prod.snd) :
      server.Sends id c ∧ Admissible id c := by
    obtain ⟨p, hp, rfl⟩ := List.mem_map.mp hc
    obtain rfl : p.1 = id := (hadmissible p hp).requested.symm.trans hid
    exact ⟨hrun.search.source_of_mem hp, hadmissible p hp⟩
  refine ⟨stored_of_answersWell hsound hwell hrun, fun id c hc hold => ?_, fun id c hc hold => ?_⟩
  · have hid := (readChange_eq_ok_iff.mp hc).2
    rw [hrun.store] at hc
    exact hgot hid ((readChange_putChanges hc).resolve_left hold)
  · obtain ⟨hid, hread | hnew⟩ := (hrun.loaded id c hc).resolve_left hold
    · exact ⟨.inr hread, hid, hsound.verified id c hread⟩
    · exact (hgot hid hnew).imp_left .inl

omit [Serde] in
/-- By induction on the requests: what the run has stored under the id that it asked for is what
the server has sent. -/
theorem OnlyAdmissible.answersWell (h : OnlyAdmissible server roots s u) :
    AnswersWell server roots s.store := by
  have hnew {id : Blake3Hash} (hid : id ∈ History u.store roots) (hmissing : ¬ Stores s.store id) :
      ∃ c, readChange u.store id = .ok c ∧ server.Sends id c ∧ Admissible id c := by
    obtain ⟨c, hc⟩ := h.stored id hid
    exact ⟨c, hc, h.written id c hc fun hold => hmissing ⟨c, hold⟩⟩
  have hasked {id : Blake3Hash} (hid : Asked server roots s.store id) :
      ∃ c, readChange u.store id = .ok c ∧ id ∈ History u.store roots
        ∧ server.Sends id c ∧ Admissible id c := by
    induction hid with
    | root hroot hmissing =>
        have hid : _ ∈ History u.store roots := mem_history_of_mem hroot
        obtain ⟨c, hc, hsends⟩ := hnew hid hmissing
        exact ⟨c, hc, hid, hsends⟩
    | dep _ hsends hd hmissing ih =>
        obtain ⟨c, hc, hid, hsends', -⟩ := ih
        obtain rfl := Except.ok.inj (hsends.symm.trans hsends')
        have hdep := mem_history_of_mem_deps hid hc hd
        obtain ⟨c', hc', hsends'⟩ := hnew hdep hmissing
        exact ⟨c', hc', hdep, hsends'⟩
  intro id hid c hsends
  obtain ⟨c', -, -, hsends', hadmissible⟩ := hasked hid
  obtain rfl := Except.ok.inj (hsends.symm.trans hsends')
  exact hadmissible

/-- **What a fetch that returns has stored** is what was asked for, and verified, exactly when the
server's answers are. -/
theorem bfsFetchChanges_admits_iff (hsound : SoundStore s.store)
    (hrun : Thread.Returns (bfsFetchChanges disk fuel server roots) s n u) :
    OnlyAdmissible server roots s u ↔ AnswersWell server roots s.store := by
  obtain ⟨turned, got, hrun⟩ := bfsFetchChanges_run hrun
  exact ⟨fun h => h.answersWell, fun h => onlyAdmissible_of_answersWell hsound h hrun⟩

omit [Serde] in
theorem soundStore_init : SoundStore Repo.init.store := by
  constructor <;> simp [Repo.init, readChange, Keyed, ClosedStore]

/-! ## Servers with one answer -/

/-- A server that has one change under an id. -/
def oneAnswer (id : Blake3Hash) (c : Change) : Peer where
  object x := if x = id then .ok c else .error (.notFound x)
  blob hash := .error (.missingBlob hash)

omit [Crypto] [Ed25519] [Serde] in
theorem sends_oneAnswer {id x : Blake3Hash} {c c' : Change} :
    (oneAnswer id c).Sends x c' ↔ x = id ∧ c' = c := by
  change (if x = id then Except.ok c else .error (PeerError.notFound x)) = .ok c' ↔ _
  split_ifs with h <;> simp [h, eq_comm]

def oneFetch (crypto : Crypto) (id : Blake3Hash) (c : Change) :
    Option (Option (Except PeerError ℕ) × Repo) :=
  let _ := Serde.sample []
  Thread.runFor 12 (@bfsFetchChanges crypto _ (fun _ => true) 9 (oneAnswer id c) {id}) .init

omit [Crypto] [Ed25519] [Serde] in
/-- A server with a signed change. -/
theorem bfsFetchChanges_admits_signed :
    let _ := Serde.sample []
    let _ := Crypto.ofBytes
    let _ := Ed25519.sample
    ∃ u, OnlyAdmissible (oneAnswer recordedChange.id recordedChange) {recordedChange.id} .init
      u := by
  intro serde crypto ed25519
  have hout : (oneFetch crypto recordedChange.id recordedChange).map Prod.fst
      = some (some (.ok 1)) := by decide +kernel
  obtain ⟨⟨out, u⟩, hrun, rfl⟩ := Option.map_eq_some_iff.mp hout
  refine ⟨u, (bfsFetchChanges_admits_iff soundStore_init (Thread.stops_of_runFor hrun)).mpr ?_⟩
  intro id _ c hsends
  obtain ⟨rfl, rfl⟩ := sends_oneAnswer.mp hsends
  exact ⟨rfl, by decide +kernel⟩

omit [Crypto] [Ed25519] [Serde] in
/-- A server with a change that nobody has signed. -/
theorem bfsFetchChanges_admits_forged :
    let _ := Serde.sample []
    let _ := Crypto.sample
    let _ := Ed25519.sample
    ¬ ∀ (server : Peer) (roots : Finset Blake3Hash) (disk : Blake3Hash → Bool) (fuel n : ℕ)
      (s u : Repo), SoundStore s.store →
        Thread.Returns (bfsFetchChanges disk fuel server roots) s n u →
        OnlyAdmissible server roots s u := by
  intro serde crypto ed25519 hall
  have hout : (oneFetch crypto 1 (.bare 1 ∅ [])).map Prod.fst = some (some (.ok 1)) := by
    decide
  obtain ⟨⟨out, u⟩, hrun, rfl⟩ := Option.map_eq_some_iff.mp hout
  have honly := hall _ {1} _ _ _ _ u soundStore_init (Thread.stops_of_runFor hrun)
  have hasked : Asked (oneAnswer 1 (.bare 1 ∅ [])) {1} Repo.init.store 1 :=
    .root (Finset.mem_singleton_self 1) fun ⟨c, hc⟩ => by simp [Repo.init, readChange] at hc
  have hadmissible := honly.answersWell 1 hasked _ (sends_oneAnswer.mpr ⟨rfl, rfl⟩)
  exact absurd hadmissible.verified (by decide)

end ArcVcs
