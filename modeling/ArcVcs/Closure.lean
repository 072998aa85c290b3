import ArcVcs.Lib.DepthFirst
import ArcVcs.ObjectStore

/-!
# Closures over the object store

The searches of the native transport. `reachable_set` and `compute_missing_hashes` go on where
the local store has a record, and `ensure_dependency_closure_present` fails where it has none.
-/

namespace ArcVcs

/-- The errors of `NetError` that a search of the store returns. -/
inductive SearchError where
  | serialization
  | idMismatch (expected found : Blake3Hash)
deriving DecidableEq

inductive ClosureError where
  | unreadable (id : Blake3Hash)
  | decode
  | mismatchedId
  | verification
deriving DecidableEq

namespace ObjectStore

variable [Serde] (store : ObjectStore)

/-- The dependencies of a change in the order in which a stack returns them. -/
def pushOrder (change : Change) : List Blake3Hash := (Serde.iter change.deps).reverse

theorem mem_pushOrder {change : Change} {d : Blake3Hash} :
    d ∈ pushOrder change ↔ d ∈ change.deps := by
  rw [pushOrder, List.mem_reverse, (Serde.iter_perm _).mem_iff, Finset.mem_sorted]

/-- What the record under an id lets a search push. -/
def recordedDeps (id : Blake3Hash) : List Blake3Hash :=
  match store.lookup id with
  | none => []
  | some bytes => (Serde.deserialize bytes).elim [] pushOrder

def searchFuel (stack : List Blake3Hash) : ℕ :=
  stack.length + ∑ id ∈ store.keys, (store.recordedDeps id).length + 1

/-- `x` is stored and lists `d` as a dependency. -/
def DependsOn (x d : Blake3Hash) : Prop := ∃ c, store.readChange x = .ok c ∧ d ∈ c.deps

/-- `a` is `x` or an ancestor of it. -/
def Reaches : Blake3Hash → Blake3Hash → Prop := Relation.ReflTransGen store.DependsOn

/-- The dependencies of every stored change are stored. -/
def Closed : Prop := ∀ id c, store.readChange id = .ok c → ∀ d ∈ c.deps, d ∈ store.keys

/-- One step of the traversals of `protocol.rs`. -/
def visitStored (id : Blake3Hash) : Except SearchError (List Blake3Hash) :=
  match store.readChangeBytes id with
  | .error _ => .ok []
  | .ok raw =>
      match Serde.deserialize raw with
      | none => .error .serialization
      | some change =>
          if change.id ≠ id then .error (.idMismatch id change.id) else .ok (pushOrder change)

/-- `reachable_set`. `none` means that the fuel ran out. -/
def reachableSet (frontier : List Blake3Hash) : Option (Except SearchError (List Blake3Hash)) :=
  DepthFirst.search store.visitStored (store.searchFuel frontier) frontier.reverse []

def missingLoop (reachable : List Blake3Hash) : ℕ → List Blake3Hash → List Blake3Hash →
    List Blake3Hash → Option (Except SearchError (List Blake3Hash))
  | 0, _, _, _ => none
  | _ + 1, [], _, missing => some (.ok missing.reverse)
  | fuel + 1, current :: stack, queued, missing =>
      if current ∈ queued then missingLoop reachable fuel stack queued missing
      else if current ∈ reachable then
        missingLoop reachable fuel stack (queued ++ [current]) missing
      else
        match store.readChangeBytes current with
        | .error _ =>
            missingLoop reachable fuel stack (queued ++ [current]) (missing ++ [current])
        | .ok raw =>
            match Serde.deserialize raw with
            | none => some (.error .serialization)
            | some change =>
                if change.id ≠ current then some (.error (.idMismatch current change.id))
                else
                  missingLoop reachable fuel (pushOrder change ++ stack) (queued ++ [current])
                    (missing ++ [current])

/-- `compute_missing_hashes`: what the remote frontier reaches through the local store and the
local frontier does not. -/
def computeMissingHashes (localFrontier remoteFrontier : List Blake3Hash) :
    Option (Except SearchError (List Blake3Hash)) :=
  match store.reachableSet localFrontier with
  | none => none
  | some (.error e) => some (.error e)
  | some (.ok reachable) =>
      store.missingLoop reachable (store.searchFuel remoteFrontier) remoteFrontier.reverse [] []

/-- One step of `ensure_dependency_closure_present`. -/
def visitVerified [Crypto] [Ed25519] (id : Blake3Hash) : Except ClosureError (List Blake3Hash) :=
  match store.readChangeBytes id with
  | .error _ => .error (.unreadable id)
  | .ok raw =>
      match Serde.deserialize raw with
      | none => .error .decode
      | some change =>
          if change.id ≠ id then .error .mismatchedId
          else if change.verifySignature = false then .error .verification
          else .ok (pushOrder change)

def ensureDependencyClosurePresent [Crypto] [Ed25519] (heads : List Blake3Hash) :
    Option (Except ClosureError (List Blake3Hash)) :=
  DepthFirst.search store.visitVerified (store.searchFuel heads) heads.reverse []

variable {store}

/-! ## What a search pushes -/

theorem readChange_eq_ok_iff {id : Blake3Hash} {c : Change} :
    store.readChange id = .ok c
      ↔ ∃ bytes, store.lookup id = some bytes ∧ Serde.deserialize bytes = some c ∧ c.id = id := by
  rw [readChange, readChangeBytes]
  cases hlook : store.lookup id with
  | none => simp
  | some bytes =>
      cases hdecode : Serde.deserialize bytes with
      | none => simp [hdecode]
      | some change =>
          simp only [hdecode, Option.some.injEq, exists_eq_left']
          split_ifs with hid
          · simp only [false_iff, not_and]
            rintro rfl
            exact hid
          · rw [Except.ok.injEq]
            exact ⟨fun h => ⟨h, h ▸ not_not.mp hid⟩, And.left⟩

theorem mem_keys_of_readChange {id : Blake3Hash} {c : Change} (h : store.readChange id = .ok c) :
    id ∈ store.keys := by
  obtain ⟨bytes, hlook, -⟩ := readChange_eq_ok_iff.mp h
  exact FMap.mem_keys_of_lookup hlook

theorem recordedDeps_of_notMem {id : Blake3Hash} (h : id ∉ store.keys) :
    store.recordedDeps id = [] := by
  rw [recordedDeps, FMap.notMem_keys_iff.mp h]

theorem recordedDeps_of_readChange {id : Blake3Hash} {c : Change}
    (h : store.readChange id = .ok c) : store.recordedDeps id = pushOrder c := by
  obtain ⟨bytes, hlook, hdecode, -⟩ := readChange_eq_ok_iff.mp h
  rw [recordedDeps, hlook]
  exact congrArg (fun decoded => Option.elim decoded [] pushOrder) hdecode

theorem closed_of_recordedDeps
    (h : ∀ id ∈ store.keys, ∀ d ∈ store.recordedDeps id, d ∈ store.keys) :
    store.Closed := by
  intro id c hc d hd
  refine h id (mem_keys_of_readChange hc) d ?_
  rwa [recordedDeps_of_readChange hc, mem_pushOrder]

theorem visitStored_eq_ok_iff {id : Blake3Hash} {next : List Blake3Hash} :
    store.visitStored id = .ok next
      ↔ (id ∉ store.keys ∧ next = []) ∨ ∃ c, store.readChange id = .ok c ∧ next = pushOrder c := by
  rw [FMap.notMem_keys_iff]
  simp only [visitStored, readChangeBytes, readChange_eq_ok_iff]
  cases hlook : store.lookup id with
  | none => simp [eq_comm]
  | some bytes =>
      cases hdecode : Serde.deserialize bytes with
      | none => simp [hdecode]
      | some change =>
          by_cases hid : change.id = id
          · subst hid
            simp [hdecode, eq_comm]
          · simp only [hdecode, hid, ne_eq, not_false_eq_true, if_true, reduceCtorEq, false_and,
              false_or, Option.some.injEq, exists_eq_left', false_iff, not_exists]
            rintro c ⟨⟨rfl, hc⟩, -⟩
            exact hid hc

theorem mem_pushed_visitStored {x d : Blake3Hash} :
    d ∈ DepthFirst.pushed store.visitStored x ↔ store.DependsOn x d := by
  cases hvisit : store.visitStored x with
  | error e =>
      have hpushed : DepthFirst.pushed store.visitStored x = [] := by
        rw [DepthFirst.pushed, hvisit]
        rfl
      rw [hpushed]
      refine iff_of_false (by simp) ?_
      rintro ⟨c, hc, -⟩
      have hok := visitStored_eq_ok_iff.mpr (.inr ⟨c, hc, rfl⟩)
      rw [hvisit] at hok
      cases hok
  | ok next =>
      rw [DepthFirst.pushed_of_ok hvisit]
      rcases visitStored_eq_ok_iff.mp hvisit with ⟨hx, rfl⟩ | ⟨c, hc, rfl⟩
      · refine iff_of_false (by simp) ?_
        rintro ⟨c, hc, -⟩
        exact hx (mem_keys_of_readChange hc)
      · rw [mem_pushOrder]
        constructor
        · exact fun hd => ⟨c, hc, hd⟩
        · rintro ⟨c', hc', hd⟩
          rw [hc] at hc'
          exact Except.ok.inj hc' ▸ hd

theorem reaches_iff_reflTransGen {x a : Blake3Hash} :
    Relation.ReflTransGen (fun x y => y ∈ DepthFirst.pushed store.visitStored x) x a
      ↔ store.Reaches x a := by
  simp only [mem_pushed_visitStored]
  rfl

theorem search_isSome {ε : Type} {visit : Blake3Hash → Except ε (List Blake3Hash)}
    (hvisit : ∀ id next, visit id = .ok next → next.length ≤ (store.recordedDeps id).length)
    (stack : List Blake3Hash) :
    ∃ out, DepthFirst.search visit (store.searchFuel stack) stack.reverse [] = some out := by
  have hpushed : ∀ id, (DepthFirst.pushed visit id).length ≤ (store.recordedDeps id).length := by
    intro id
    cases hid : visit id with
    | error e =>
        rw [DepthFirst.pushed, hid]
        exact Nat.zero_le _
    | ok next =>
        rw [DepthFirst.pushed_of_ok hid]
        exact hvisit id next hid
  have hsupport : ∀ id, id ∉ store.keys → DepthFirst.pushed visit id = [] := by
    intro id hid
    have hle := hpushed id
    rw [recordedDeps_of_notMem hid] at hle
    exact List.length_eq_zero_iff.mp (Nat.le_zero.mp hle)
  refine DepthFirst.search_isSome hsupport ?_
  rw [DepthFirst.potential, searchFuel, List.length_reverse, List.toFinset_nil,
    Finset.sdiff_empty]
  have hsum : ∑ id ∈ store.keys, (DepthFirst.pushed visit id).length
      ≤ ∑ id ∈ store.keys, (store.recordedDeps id).length :=
    Finset.sum_le_sum fun id _ => hpushed id
  omega

/-! ## The missing hashes -/

/-- One step of `compute_missing_hashes`, which does not go on below the reachable set. -/
def visitMissing (store : ObjectStore) (reachable : List Blake3Hash) (id : Blake3Hash) :
    Except SearchError (List Blake3Hash) :=
  if id ∈ reachable then .ok [] else store.visitStored id

def missingOf (reachable seen : List Blake3Hash) : List Blake3Hash :=
  seen.filter fun id => decide (id ∉ reachable)

omit [Serde] in
theorem missingOf_append_of_mem {reachable : List Blake3Hash} {id : Blake3Hash}
    (h : id ∈ reachable) (seen : List Blake3Hash) :
    missingOf reachable (seen ++ [id]) = missingOf reachable seen := by
  simp [missingOf, h]

omit [Serde] in
theorem missingOf_append_of_notMem {reachable : List Blake3Hash} {id : Blake3Hash}
    (h : id ∉ reachable) (seen : List Blake3Hash) :
    missingOf reachable (seen ++ [id]) = missingOf reachable seen ++ [id] := by
  simp [missingOf, h]

variable (store) in
theorem missingLoop_eq (reachable : List Blake3Hash) (fuel : ℕ) (stack queued : List Blake3Hash) :
    store.missingLoop reachable fuel stack queued (missingOf reachable queued)
      = (DepthFirst.search (store.visitMissing reachable) fuel stack queued).map fun out =>
          out.map fun seen => (missingOf reachable seen).reverse := by
  induction fuel generalizing stack queued with
  | zero => rfl
  | succ fuel ih =>
      cases stack with
      | nil => rfl
      | cons current stack =>
          rw [missingLoop, DepthFirst.search]
          split_ifs with hqueued hreachable
          · exact ih stack queued
          · rw [visitMissing, if_pos hreachable, ← missingOf_append_of_mem hreachable]
            exact ih stack _
          · rw [visitMissing, if_neg hreachable, visitStored,
              ← missingOf_append_of_notMem hreachable]
            cases store.readChangeBytes current with
            | error e => exact ih stack _
            | ok raw =>
                dsimp only
                cases Serde.deserialize raw with
                | none => rfl
                | some change =>
                    dsimp only
                    split_ifs with hid
                    · rfl
                    · exact ih _ _

theorem dependsOn_of_mem_pushed_visitMissing {reachable : List Blake3Hash} {x d : Blake3Hash}
    (h : d ∈ DepthFirst.pushed (store.visitMissing reachable) x) : store.DependsOn x d := by
  rw [DepthFirst.pushed, visitMissing] at h
  split_ifs at h with hx
  · simp [Except.toOption] at h
  · exact mem_pushed_visitStored.mp h

theorem Closed.eq_of_reaches (hclosed : store.Closed) {q a : Blake3Hash} (h : store.Reaches q a)
    (ha : a ∉ store.keys) : q = a := by
  rcases Relation.ReflTransGen.cases_tail h with rfl | ⟨b, -, c, hc, hd⟩
  · rfl
  · exact absurd (hclosed b c hc a hd) ha

theorem mem_reachableSet {frontier reachable : List Blake3Hash}
    (h : store.reachableSet frontier = some (.ok reachable)) (a : Blake3Hash) :
    a ∈ reachable ↔ ∃ q ∈ frontier, store.Reaches q a := by
  rw [(DepthFirst.search_ok h).2.2 a]
  simp only [List.mem_reverse, reaches_iff_reflTransGen]

/-- **The missing hashes of a closed store.** Of the records that the store lacks, the heads of
the remote frontier are requested and no others. -/
theorem mem_computeMissingHashes (hclosed : store.Closed)
    {localFrontier remoteFrontier missing : List Blake3Hash}
    (h : store.computeMissingHashes localFrontier remoteFrontier = some (.ok missing))
    {a : Blake3Hash} (ha : a ∉ store.keys) :
    a ∈ missing ↔ a ∈ remoteFrontier ∧ a ∉ localFrontier := by
  rw [computeMissingHashes] at h
  cases hreached : store.reachableSet localFrontier with
  | none => simp [hreached] at h
  | some reached =>
      cases reached with
      | error e => simp [hreached] at h
      | ok reachable =>
          have hlocal : a ∈ reachable ↔ a ∈ localFrontier := by
            rw [mem_reachableSet hreached]
            constructor
            · rintro ⟨q, hq, hpath⟩
              exact hclosed.eq_of_reaches hpath ha ▸ hq
            · exact fun hmem => ⟨a, hmem, .refl⟩
          have hloop := store.missingLoop_eq reachable
            (store.searchFuel remoteFrontier) remoteFrontier.reverse []
          simp only [hreached] at h
          rw [show missingOf reachable [] = [] from rfl, h] at hloop
          obtain ⟨out, hsearch, hout⟩ := Option.map_eq_some_iff.mp hloop.symm
          cases out with
          | error e => simp [Except.map] at hout
          | ok seen =>
              obtain rfl : (missingOf reachable seen).reverse = missing := Except.ok.inj hout
              have hseen : a ∈ seen ↔ a ∈ remoteFrontier := by
                rw [(DepthFirst.search_ok hsearch).2.2 a]
                constructor
                · rintro ⟨q, hq, hpath⟩
                  have hreaches : store.Reaches q a := Relation.ReflTransGen.mono
                    (fun _ _ => dependsOn_of_mem_pushed_visitMissing) _ _ hpath
                  rw [← hclosed.eq_of_reaches hreaches ha]
                  exact List.mem_reverse.mp hq
                · exact fun hmem => ⟨a, List.mem_reverse.mpr hmem, .refl⟩
              rw [List.mem_reverse, missingOf, List.mem_filter, hseen, decide_eq_true_iff, hlocal]

variable [Crypto] [Ed25519]

theorem visitVerified_eq_ok_iff {id : Blake3Hash} {next : List Blake3Hash} :
    store.visitVerified id = .ok next
      ↔ ∃ c, store.readChange id = .ok c ∧ c.verifySignature = true ∧ next = pushOrder c := by
  simp only [visitVerified, readChangeBytes, readChange_eq_ok_iff]
  cases hlook : store.lookup id with
  | none => simp
  | some bytes =>
      cases hdecode : Serde.deserialize bytes with
      | none => simp [hdecode]
      | some change =>
          by_cases hid : change.id = id
          · subst hid
            by_cases hverify : change.verifySignature = true
            · simp only [hdecode, ne_eq, not_true_eq_false, if_false, hverify, Bool.true_eq_false,
                Except.ok.injEq, Option.some.injEq, exists_eq_left']
              constructor
              · rintro rfl
                exact ⟨change, ⟨rfl, rfl⟩, hverify, rfl⟩
              · rintro ⟨c, ⟨rfl, -⟩, -, h⟩
                exact h.symm
            · simp [hdecode, hverify]
          · simp only [hdecode, hid, ne_eq, not_false_eq_true, if_true, reduceCtorEq,
              Option.some.injEq, exists_eq_left', false_iff, not_exists]
            rintro c ⟨⟨rfl, hc⟩, -⟩
            exact hid hc

theorem exists_ensureDependencyClosurePresent (store : ObjectStore) (heads : List Blake3Hash) :
    ∃ out, store.ensureDependencyClosurePresent heads = some out := by
  refine search_isSome (fun id next hvisit => ?_) heads
  obtain ⟨c, hc, -, rfl⟩ := visitVerified_eq_ok_iff.mp hvisit
  rw [recordedDeps_of_readChange hc]

end ObjectStore

end ArcVcs
