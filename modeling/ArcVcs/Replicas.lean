import ArcVcs.Transfer

/-!
# Replicas of a history

Stores that hold a part of one history and the dependencies of what they hold. A fetch from an
honest peer then gets changes that the store misses, before any other those of the queue, and all of
them when it comes to its end.
-/

namespace ArcVcs

open Repo

instance (store : FMap Blake3Hash Change) (id : Blake3Hash) : Decidable (Stores store id) :=
  decidable_of_iff ((readChange store id).isOk = true) (by
    cases h : readChange store id with
    | error e => simp [Stores, h, Except.isOk, Except.toBool]
    | ok c => simp [Stores, h, Except.isOk, Except.toBool])

/-- Every record is one of its id. -/
def Keyed (store : FMap Blake3Hash Change) : Prop := ∀ id ∈ store.keys, Stores store id

def ClosedStore (store : FMap Blake3Hash Change) : Prop :=
  ∀ id c, readChange store id = .ok c → ∀ d ∈ c.deps, Stores store d

/-- The store holds a part of the history, and the dependencies of what it holds. -/
structure Replica (history store : FMap Blake3Hash Change) : Prop where
  keyed : Keyed store
  sub : ∀ id c, readChange store id = .ok c → readChange history id = .ok c
  closed : ClosedStore store

/-- The peer sends nothing but the change that the history has under the id. -/
def Peer.Honest (history : FMap Blake3Hash Change) (peer : Peer) : Prop :=
  ∀ id c, peer.Sends id c → readChange history id = .ok c

def missingHistory (history store : FMap Blake3Hash Change) (roots : Finset Blake3Hash) :
    Set Blake3Hash :=
  {id | id ∈ History history roots ∧ ¬ Stores store id}

variable {history store store' : FMap Blake3Hash Change} {peer : Peer} {id : Blake3Hash}
  {c : Change} {roots : Finset Blake3Hash}

theorem Repo.Stores.mono (hstore : ∀ id c, store.lookup id = some c → store'.lookup id = some c)
    (h : Stores store id) : Stores store' id := by
  obtain ⟨c, hc⟩ := h
  exact ⟨c, readChange_mono hstore hc⟩

theorem Repo.Stores.putOnce (h : Stores store id) : Stores (store.putOnce c.id c) id :=
  h.mono fun _ _ => FMap.lookup_putOnce_of_some _ _ _

theorem Keyed.stores_putOnce_iff (h : Keyed store) (c : Change) (x : Blake3Hash) :
    Stores (store.putOnce c.id c) x ↔ Stores store x ∨ c.id = x := by
  constructor
  · rintro ⟨c', hc'⟩
    obtain ⟨-, hid⟩ := readChange_eq_ok_iff.mp hc'
    rcases readChange_putOnce hc' with hold | rfl
    · exact .inl ⟨c', hold⟩
    · exact .inr hid
  · rintro (hold | rfl)
    · exact hold.putOnce
    by_cases hmem : c.id ∈ store.keys
    · exact (h _ hmem).putOnce
    · refine ⟨c, readChange_eq_ok_iff.mpr ⟨?_, rfl⟩⟩
      rw [FMap.lookup_putOnce, if_pos ⟨rfl, hmem⟩]

theorem Keyed.putOnce (h : Keyed store) (c : Change) : Keyed (store.putOnce c.id c) := by
  intro id hid
  obtain ⟨c', hc'⟩ := FMap.mem_keys_iff.mp hid
  rw [FMap.lookup_putOnce] at hc'
  rw [h.stores_putOnce_iff]
  split_ifs at hc' with hnew
  · exact .inr hnew.1.symm
  · exact .inl (h id (FMap.mem_keys_of_lookup hc'))

theorem Keyed.putChanges (h : Keyed store) (changes : List Change) :
    Keyed (putChanges store changes) := by
  induction changes generalizing store with
  | nil => exact h
  | cons c cs ih => exact ih (h.putOnce c)

theorem Keyed.stores_putChanges_iff (h : Keyed store) (changes : List Change) (x : Blake3Hash) :
    Stores (ArcVcs.putChanges store changes) x ↔ Stores store x ∨ ∃ c ∈ changes, c.id = x := by
  induction changes generalizing store with
  | nil => simp [ArcVcs.putChanges]
  | cons c cs ih =>
      rw [ArcVcs.putChanges, List.foldl_cons, ← ArcVcs.putChanges, ih (h.putOnce c),
        h.stores_putOnce_iff]
      simp only [List.mem_cons, exists_eq_or_imp, or_assoc]

theorem Keyed.stores_putGot_iff (h : Keyed store) {got : List (Blake3Hash × Change)}
    (hids : ∀ p ∈ got, p.2.id = p.1) (x : Blake3Hash) :
    Stores (ArcVcs.putChanges store (got.map Prod.snd)) x
      ↔ Stores store x ∨ x ∈ PrunedSearch.nodes got := by
  rw [h.stores_putChanges_iff]
  refine or_congr_right ⟨?_, fun hid => ?_⟩
  · rintro ⟨c, hc, rfl⟩
    obtain ⟨p, hp, rfl⟩ := List.mem_map.mp hc
    exact List.mem_map.mpr ⟨p, hp, (hids p hp).symm⟩
  · obtain ⟨p, hp, rfl⟩ := List.mem_map.mp hid
    exact ⟨p.2, List.mem_map_of_mem hp, hids p hp⟩

theorem readChange_putChanges {changes : List Change} {x : Blake3Hash}
    (h : readChange (putChanges store changes) x = .ok c) :
    readChange store x = .ok c ∨ c ∈ changes := by
  induction changes generalizing store with
  | nil => exact .inl h
  | cons c' cs ih =>
      rcases ih h with hold | hnew
      · refine (readChange_putOnce hold).imp_right fun hc => ?_
        rw [hc]
        exact List.mem_cons_self
      · exact .inr (List.mem_cons_of_mem _ hnew)

/-- What the peer sends for an id adds no record but that of the id. -/
abbrev Peer.Faithful (put : FMap Blake3Hash Change → Change → FMap Blake3Hash Change)
    (peer : Peer) : Prop := PrunedSearch.Faithful Stores put peer.Sends

theorem faithful_putOnce {sends : Blake3Hash → Change → Prop} (h : ∀ id c, sends id c → c.id = id) :
    PrunedSearch.Faithful Stores (fun store c => store.putOnce c.id c) sends where
  mono store id c x _ hx := Repo.Stores.putOnce hx
  only store id c x hsends := by
    rintro ⟨c', hc'⟩
    obtain ⟨-, hid⟩ := readChange_eq_ok_iff.mp hc'
    rcases readChange_putOnce hc' with hold | rfl
    · exact .inl ⟨c', hold⟩
    · exact .inr (hid.symm.trans (h _ _ hsends))

theorem Peer.Honest.faithful (h : peer.Honest history) :
    Peer.Faithful (fun store c => store.putOnce c.id c) peer :=
  faithful_putOnce fun id c hsends => (readChange_eq_ok_iff.mp (h id c hsends)).2

section Search

variable [Serde] {turned : List Blake3Hash} {got : List (Blake3Hash × Change)} {ended : Bool}
  {put : FMap Blake3Hash Change → Change → FMap Blake3Hash Change}

theorem mem_iter {s : Finset Blake3Hash} {d : Blake3Hash} : d ∈ Serde.iter s ↔ d ∈ s := by
  rw [(Serde.iter_perm s).mem_iff, Finset.mem_sorted]

theorem nodup_iter (s : Finset Blake3Hash) : (Serde.iter s).Nodup :=
  (Serde.iter_perm s).nodup_iff.mpr (Finset.nodup_sorted s)

theorem got_missing (hpeer : peer.Honest history) (hput : Peer.Faithful put peer)
    (h : TransferSearch put peer store (Serde.iter roots) [] turned got ended)
    (hid : id ∈ PrunedSearch.nodes got) : id ∈ missingHistory history store roots := by
  refine ⟨?_, h.not_holds_of_got hput hid⟩
  obtain ⟨root, hroot, hpath⟩ := h.reached (.inr hid)
  refine ⟨root, mem_iter.mp hroot, Relation.ReflTransGen.mono (fun x y hxy => ?_) _ _ hpath⟩
  obtain ⟨b, hb, hy⟩ := hxy
  exact (dependsIn_storedChanges (hpeer _ _ (h.source_of_mem hb))).mpr (mem_iter.mp hy)

/-- By induction on the path from a root. -/
theorem stores_or_got (hpeer : peer.Honest history) (hput : Peer.Faithful put peer)
    (hreplica : Replica history store)
    (h : TransferSearch put peer store (Serde.iter roots) [] turned got ended)
    (hended : ended = true)
    (hid : id ∈ History history roots) : Stores store id ∨ id ∈ PrunedSearch.nodes got := by
  obtain ⟨hqueue, hnext⟩ := h.covers hended
  obtain ⟨root, hroot, hpath⟩ := hid
  induction hpath with
  | refl => exact h.held_or_got hput (hqueue root (mem_iter.mpr hroot))
  | tail _ hstep ih =>
      obtain ⟨c, hc, rfl, hd⟩ := hstep
      rcases ih with ⟨c', hc'⟩ | hgot
      · obtain rfl : c' = c := Except.ok.inj ((hreplica.sub _ _ hc').symm.trans hc)
        exact .inl (hreplica.closed _ _ hc' _ hd)
      · obtain ⟨p, hp, hpc⟩ := List.mem_map.mp hgot
        have hsame : p.2 = c :=
          Except.ok.inj ((hpeer _ _ (h.source_of_mem hp)).symm.trans (hpc ▸ hc))
        exact h.held_or_got hput (hnext p hp _ (mem_iter.mpr (hsame ▸ hd)))

/-- **An honest transfer that ends gets what is missing.** -/
theorem got_eq_missing (hpeer : peer.Honest history) (hput : Peer.Faithful put peer)
    (hreplica : Replica history store)
    (h : TransferSearch put peer store (Serde.iter roots) [] turned got ended)
    (hended : ended = true) :
    {id | id ∈ PrunedSearch.nodes got} = missingHistory history store roots := by
  ext id
  exact ⟨got_missing hpeer hput h, fun hid =>
    (stores_or_got hpeer hput hreplica h hended hid.1).resolve_left hid.2⟩

theorem stores_fetched_iff (hpeer : peer.Honest history) (hkeyed : Keyed store)
    (h : FetchSearch peer store (Serde.iter roots) [] turned got ended) (id : Blake3Hash) :
    Stores (putChanges store (got.map Prod.snd)) id
      ↔ Stores store id ∨ id ∈ PrunedSearch.nodes got := by
  have hids (p : Blake3Hash × Change) (hp : p ∈ got) : p.2.id = p.1 :=
    (readChange_eq_ok_iff.mp (hpeer _ _ (h.source_of_mem hp))).2
  exact hkeyed.stores_putGot_iff hids id

theorem readChange_fetched (hpeer : peer.Honest history)
    (hsub : ∀ id c, readChange store id = .ok c → readChange history id = .ok c)
    (h : FetchSearch peer store (Serde.iter roots) [] turned got ended)
    (hread : readChange (putChanges store (got.map Prod.snd)) id = .ok c) :
    readChange history id = .ok c := by
  rcases readChange_putChanges hread with hold | hnew
  · exact hsub id c hold
  · obtain ⟨p, hp, rfl⟩ := List.mem_map.mp hnew
    have hsends := hpeer _ _ (h.source_of_mem hp)
    obtain ⟨-, hid⟩ := readChange_eq_ok_iff.mp hread
    obtain ⟨-, hp1⟩ := readChange_eq_ok_iff.mp hsends
    rwa [← hid, hp1]

end Search

/-! ## Small replicas -/

theorem replica_init (history : FMap Blake3Hash Change) : Replica history Repo.init.store where
  keyed id hid := by simp [Repo.init] at hid
  sub id c h := by simp [Repo.init, readChange] at h
  closed id c h := by simp [Repo.init, readChange] at h

/-- Two changes, of which the second depends on the first. -/
def twoChanges : FMap Blake3Hash Change :=
  ((∅ : FMap Blake3Hash Change).insert 1 (.bare 1 ∅ [])).insert 2 (.bare 2 {1} [])

theorem readChange_twoChanges : readChange twoChanges id = .ok c ↔
    (id = 1 ∧ c = .bare 1 ∅ []) ∨ (id = 2 ∧ c = .bare 2 {1} []) := by
  rw [readChange_eq_ok_iff, twoChanges, FMap.lookup_insert_eq, FMap.lookup_insert_eq]
  split_ifs with h h'
  · subst h
    constructor
    · rintro ⟨h, -⟩
      exact .inr ⟨rfl, (Option.some_inj.mp h).symm⟩
    · rintro (⟨h, -⟩ | ⟨-, rfl⟩)
      · exact absurd h (by decide)
      · exact ⟨rfl, rfl⟩
  · subst h'
    constructor
    · rintro ⟨h, -⟩
      exact .inl ⟨rfl, (Option.some_inj.mp h).symm⟩
    · rintro (⟨-, rfl⟩ | ⟨h, -⟩)
      · exact ⟨rfl, rfl⟩
      · exact absurd h (by decide)
  · simp [h, h']

theorem replica_twoChanges : Replica twoChanges twoChanges where
  keyed := by
    rw [Keyed]
    decide
  sub _ _ h := h
  closed id c h d hd := by
    rcases readChange_twoChanges.mp h with ⟨-, rfl⟩ | ⟨-, rfl⟩
    · exact absurd hd (Finset.notMem_empty d)
    · rw [Finset.mem_singleton.mp hd]
      exact ⟨_, readChange_twoChanges.mpr (.inl ⟨rfl, rfl⟩)⟩

end ArcVcs
