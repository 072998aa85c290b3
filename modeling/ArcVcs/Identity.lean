import ArcVcs.Apply
import ArcVcs.Lib.Encoding

/-!
# Identity and effect

The id of a change is computed from its canonical atoms, where the sides of a conflict are
sorted. Replay stores a token with the sides as they stand. So two changes with one identity
have the same outcome, and leave the same state unless an entry keeps a conflict whose sides
they list in different orders.
-/

namespace ArcVcs

/-! ## Stored tokens -/

theorem Blake3Hash.asBytes_injective : Function.Injective Blake3Hash.asBytes := by
  intro h h' heq
  have hlt (h : Blake3Hash) : h.toNat < 256 ^ 32 := lt_of_lt_of_eq (Fin.isLt h) rfl
  exact @Fin.ext (2 ^ 256) h h' (Nat.eq_of_bigEndian (hlt h) (hlt h') heq)

@[simp] theorem Blake3Hash.length_asBytes (h : Blake3Hash) : h.asBytes.length = 32 := by
  simp [asBytes]

theorem sides_eq_of_conflictToken {bases sides sides' : List Blake3Hash} {at_ : NodePath}
    (hlen : sides.length = sides'.length)
    (h : conflictToken bases sides at_ = conflictToken bases sides' at_) : sides = sides' := by
  have hvec : Bincode.vec Blake3Hash.asBytes sides = Bincode.vec Blake3Hash.asBytes sides' := by
    simpa [conflictToken, Bincode.conflict] using h
  apply List.flatMap_inj_of_width Blake3Hash.asBytes_injective Blake3Hash.length_asBytes hlen
  simpa [Bincode.vec, hlen] using hvec

/-! ## Atoms with one canonical form -/

namespace Atom

/-- The form in which an atom enters the identity of its change. -/
def canonical : Atom → Atom
  | conflict bases sides at_ => conflict bases (sides.insertionSort (· ≤ ·)) at_
  | atom => atom

/-- The key at which a successful atom replaces whatever was there. -/
def replacedKey : Atom → Option NodePath
  | insert at_ _ => some at_
  | delete at_ _ => some at_
  | move .. => none
  | semanticsPreserving .. => none
  | directory _ => none
  | blob path _ _ => some ["file", path]
  | mount path _ => some path
  | conflict _ _ at_ => some at_

/-- The atom lies inside the sparse boundary and replaces the entry at `key`. -/
def Replaces (sparse : Option SparseMatcher) (key : NodePath) (atom : Atom) : Prop :=
  isSkipped sparse atom = false ∧ atom.replacedKey = some key

/-- The atom fails on the states that have entries exactly at the keys in `live`. -/
def failsAt (env : ApplyEnv) (author : Author) (live : Finset NodePath) (atom : Atom) : Bool :=
  (author.isAi && atom.isRestricted env.agentIgnore) ||
    (!isSkipped env.sparse atom &&
      match atom with
      | insert _ contentHash => (env.store contentHash).toOption.isNone
      | delete at_ _ => at_ ∉ live
      | move .. => true
      | semanticsPreserving .. => true
      | _ => false)

/-- The keys with an entry after an atom that does not fail. -/
def liveAfter (sparse : Option SparseMatcher) (live : Finset NodePath) (atom : Atom) :
    Finset NodePath :=
  if isSkipped sparse atom then live
  else
    match atom with
    | delete at_ _ => live.erase at_
    | directory path => Insert.insert path live
    | _ => (atom.replacedKey.map fun key => Insert.insert key live).getD live

end Atom

/-- The atoms that run before the first one that fails. -/
def executed (env : ApplyEnv) (author : Author) : Finset NodePath → List Atom → List Atom
  | _, [] => []
  | live, atom :: atoms =>
      if atom.failsAt env author live then []
      else atom :: executed env author (atom.liveAfter env.sparse live) atoms

/-- An atom of the first list that replaces the entry at `key` is the same in the second list,
or a later atom of the first list replaces the entry again. -/
def SameOrReplaced (sparse : Option SparseMatcher) (key : NodePath) : List Atom → List Atom → Prop
  | atom :: atoms, atom' :: atoms' =>
      (atom.Replaces sparse key → atom = atom' ∨ ∃ b ∈ atoms, b.Replaces sparse key)
        ∧ SameOrReplaced sparse key atoms atoms'
  | _, _ => True

/-! ## Two changes with one identity run in lockstep -/

namespace Change

theorem canonicalizeAtomsForId_eq (atoms : List Atom) :
    canonicalizeAtomsForId atoms = atoms.map Atom.canonical := by
  refine List.map_congr_left fun atom _ => ?_
  cases atom <;> rfl

theorem forall₂_canonical_of_payload_eq {c c' : Change} (h : c.payload = c'.payload) :
    List.Forall₂ (fun a a' => a.canonical = a'.canonical) c.atoms c'.atoms := by
  have hatoms : c.atoms.map Atom.canonical = c'.atoms.map Atom.canonical := by
    rw [← canonicalizeAtomsForId_eq, ← canonicalizeAtomsForId_eq]
    exact congrArg IdPayload.atoms h
  rw [← List.forall₂_eq_eq_eq, List.forall₂_map_left_iff, List.forall₂_map_right_iff] at hatoms
  exact hatoms

end Change

namespace Atom

theorem eq_or_conflict_of_canonical_eq {a a' : Atom} (h : a.canonical = a'.canonical) :
    a = a' ∨ ∃ bases sides sides' at_, a = conflict bases sides at_
      ∧ a' = conflict bases sides' at_ ∧ sides.length = sides'.length := by
  cases a with
  | conflict bases sides at_ =>
      cases a' with
      | conflict bases' sides' at_' =>
          simp only [canonical, conflict.injEq] at h
          obtain ⟨rfl, hsides, rfl⟩ := h
          refine .inr ⟨bases, sides, sides', at_, rfl, rfl, ?_⟩
          simpa using congrArg List.length hsides
      | _ => simp [canonical] at h
  | _ => cases a' <;> simp_all [canonical]

end Atom

/-- Two atoms step in lockstep: both fail with one error, or both succeed, and an entry is the
same afterwards iff it was before or the atoms replace it alike. -/
inductive Lockstep (env : ApplyEnv) (author : Author) (r r' : Replay) (a a' : Atom) :
    Except ApplyError Replay → Except ApplyError Replay → Prop
  | fail (h : a.failsAt env author r.state.keys = true) (e : ApplyError) :
      Lockstep env author r r' a a' (.error e) (.error e)
  | step (h : a.failsAt env author r.state.keys = false) (q q' : Replay)
      (hkeys : q.state.keys = a.liveAfter env.sparse r.state.keys)
      (hkeys' : q'.state.keys = q.state.keys)
      (hlookup : ∀ key, q.state.lookup key = q'.state.lookup key
        ↔ (a.Replaces env.sparse key → a = a')
          ∧ (¬ a.Replaces env.sparse key → r.state.lookup key = r'.state.lookup key)) :
      Lockstep env author r r' a a' (.ok q) (.ok q')

theorem Replay.keys_write (r : Replay) (path : NodePath) (bytes : Bytes) (change : Blake3Hash) :
    (r.write path bytes change).state.keys = insert path r.state.keys := by
  ext key
  by_cases hkey : key = path <;> simp [Replay.write, FMap.mem_keys_iff, hkey]

theorem Replay.keys_remove (r : Replay) (path : NodePath) :
    (r.remove path).state.keys = r.state.keys.erase path := by
  ext key
  by_cases hkey : key = path <;> simp [Replay.remove, FMap.mem_keys_iff, hkey]

section Step

variable {env : ApplyEnv} {author : Author} {r r' : Replay}

theorem Atom.failsAt_of_check {a : Atom} {e : ApplyError}
    (h : checkAgentIgnore env.agentIgnore author a = .error e) (live : Finset NodePath) :
    a.failsAt env author live = true := by
  have hcheck := checkAgentIgnore_toOption env.agentIgnore author a
  rw [h] at hcheck
  by_cases hbad : (author.isAi && a.isRestricted env.agentIgnore) = true
  · simp [Atom.failsAt, hbad]
  · rw [if_neg hbad] at hcheck
    simp [Except.toOption] at hcheck

theorem Atom.failsAt_of_check_ok {a : Atom} {u : Unit}
    (h : checkAgentIgnore env.agentIgnore author a = .ok u) :
    (author.isAi && a.isRestricted env.agentIgnore) = false := by
  have hcheck := checkAgentIgnore_toOption env.agentIgnore author a
  rw [h] at hcheck
  by_contra hbad
  rw [if_pos (Bool.eq_true_of_not_eq_false hbad)] at hcheck
  simp [Except.toOption] at hcheck

theorem Lockstep.write {a a' : Atom} (hfails : a.failsAt env author r.state.keys = false)
    (hkeys : r.state.keys = r'.state.keys) {path : NodePath} {bytes bytes' : Bytes}
    {id id' : Blake3Hash}
    (hlive : a.liveAfter env.sparse r.state.keys = insert path r.state.keys)
    (hreplaces : ∀ key, a.Replaces env.sparse key ↔ path = key)
    (hbytes : bytes = bytes' ↔ a = a') :
    Lockstep env author r r' a a' (.ok (r.write path bytes id))
      (.ok (r'.write path bytes' id')) := by
  refine .step hfails _ _ ((r.keys_write path bytes id).trans hlive.symm) ?_ fun key => ?_
  · rw [Replay.keys_write, Replay.keys_write, hkeys]
  · rw [hreplaces]
    by_cases hkey : path = key
    · subst hkey
      simp [Replay.write, hbytes]
    · simp [Replay.write, hkey, Ne.symm hkey]

theorem lookup_eq_none_iff_of_keys_eq (hkeys : r.state.keys = r'.state.keys) (key : NodePath) :
    r.state.lookup key = none ↔ r'.state.lookup key = none := by
  rw [← FMap.notMem_keys_iff, ← FMap.notMem_keys_iff, hkeys]

/-- The `match` on the kind of an atom, for one atom in both replays. -/
theorem lockstep_executeAtom {a : Atom} (id id' : Blake3Hash)
    (hsecure : (author.isAi && a.isRestricted env.agentIgnore) = false)
    (hskip : isSkipped env.sparse a = false) (hkeys : r.state.keys = r'.state.keys) :
    Lockstep env author r r' a a (executeAtom env.store id r a)
      (executeAtom env.store id' r' a) := by
  cases a with
  | insert at_ contentHash =>
      cases hstore : env.store contentHash with
      | error e =>
          simp only [executeAtom, hstore]
          apply Lockstep.fail
          simp [Atom.failsAt, hskip, hstore, Except.toOption]
      | ok bytes =>
          simp only [executeAtom, hstore]
          apply Lockstep.write _ hkeys
          · simp [Atom.liveAfter, hskip, Atom.replacedKey]
          · simp [Atom.Replaces, hskip, Atom.replacedKey]
          · simp
          · simp [Atom.failsAt, hsecure, hstore, Except.toOption]
  | delete at_ priorHash =>
      have hnone := lookup_eq_none_iff_of_keys_eq hkeys at_
      cases hentry : r.state.lookup at_ with
      | none =>
          simp only [executeAtom, hentry, hnone.mp hentry]
          apply Lockstep.fail
          simp [Atom.failsAt, hskip, FMap.notMem_keys_iff.mpr hentry]
      | some bytes =>
          cases hentry' : r'.state.lookup at_ with
          | none => simp [hnone.mpr hentry'] at hentry
          | some bytes' =>
              simp only [executeAtom, hentry, hentry']
              refine .step ?_ _ _ ?_ ?_ fun key => ?_
              · simp [Atom.failsAt, hsecure, FMap.mem_keys_of_lookup hentry]
              · simp [Replay.keys_remove, Atom.liveAfter, hskip]
              · rw [Replay.keys_remove, Replay.keys_remove, hkeys]
              · by_cases hkey : at_ = key
                · subst hkey
                  simp [Replay.remove, Atom.Replaces, hskip, Atom.replacedKey]
                · simp [Replay.remove, Atom.Replaces, Atom.replacedKey, hkey, Ne.symm hkey]
  | directory path =>
      simp only [executeAtom]
      refine .step ?_ _ _ ?_ ?_ fun key => ?_
      · simp [Atom.failsAt, hsecure]
      · simp [Replay.keys_write, Atom.liveAfter, hskip]
      · rw [Replay.keys_write, Replay.keys_write, hkeys]
      · by_cases hkey : path = key
        · subst hkey
          have hnone := lookup_eq_none_iff_of_keys_eq hkeys path
          cases hentry : r.state.lookup path <;> cases hentry' : r'.state.lookup path <;>
            simp_all [Replay.write, Atom.Replaces, Atom.replacedKey]
        · simp [Replay.write, Atom.Replaces, Atom.replacedKey, Ne.symm hkey]
  | move from_ to_ =>
      apply Lockstep.fail
      simp [Atom.failsAt, hskip]
  | semanticsPreserving at_ description =>
      apply Lockstep.fail
      simp [Atom.failsAt, hskip]
  | _ =>
      simp only [executeAtom]
      apply Lockstep.write _ hkeys
      · simp [Atom.liveAfter, hskip, Atom.replacedKey]
      · simp [Atom.Replaces, hskip, Atom.replacedKey]
      · simp
      · simp [Atom.failsAt, hsecure]

variable (env) in
theorem lockstep_applyAtom {c c' : Change} (hauthor : c.author = c'.author)
    (hkeys : r.state.keys = r'.state.keys) {a a' : Atom} (h : a.canonical = a'.canonical) :
    Lockstep env c.author r r' a a' (applyAtom env c r a) (applyAtom env c' r' a') := by
  have hpaths : a.paths = a'.paths := by
    rcases Atom.eq_or_conflict_of_canonical_eq h with rfl | ⟨_, _, _, _, rfl, rfl, -⟩ <;> rfl
  have hcheck' : checkAgentIgnore env.agentIgnore c'.author a'
      = checkAgentIgnore env.agentIgnore c.author a := by
    rw [checkAgentIgnore, checkAgentIgnore, hauthor, hpaths]
  have hskip' : isSkipped env.sparse a' = isSkipped env.sparse a := by
    unfold isSkipped SparseMatcher.matchesAtom
    rw [hpaths]
  unfold applyAtom
  rw [hcheck', hskip']
  cases hcheck : checkAgentIgnore env.agentIgnore c.author a with
  | error e => exact .fail (Atom.failsAt_of_check hcheck _) e
  | ok u =>
      have hsecure := Atom.failsAt_of_check_ok hcheck
      dsimp only
      by_cases hskip : isSkipped env.sparse a = true
      · rw [if_pos hskip, if_pos hskip]
        refine .step ?_ r r' ?_ hkeys.symm fun key => ?_
        · simp [Atom.failsAt, hsecure, hskip]
        · exact (if_pos hskip).symm
        · simp [Atom.Replaces, hskip]
      · rw [if_neg hskip, if_neg hskip]
        have hskip := Bool.eq_false_of_not_eq_true hskip
        rcases Atom.eq_or_conflict_of_canonical_eq h with
          rfl | ⟨bases, sides, sides', at_, rfl, rfl, hlen⟩
        · exact lockstep_executeAtom _ _ hsecure hskip hkeys
        · apply Lockstep.write _ hkeys
          · simp [Atom.liveAfter, hskip, Atom.replacedKey]
          · simp [Atom.Replaces, hskip, Atom.replacedKey]
          · constructor
            · intro htoken
              rw [sides_eq_of_conflictToken hlen htoken]
            · intro heq
              simp only [Atom.conflict.injEq, true_and, and_true] at heq
              rw [heq]
          · simp [Atom.failsAt, hsecure]

variable (env) in
theorem applyAtoms_lockstep {c c' : Change} (hauthor : c.author = c'.author)
    {atoms atoms' : List Atom}
    (h : List.Forall₂ (fun a a' => a.canonical = a'.canonical) atoms atoms')
    (hkeys : r.state.keys = r'.state.keys) :
    (applyAtoms env c atoms r).1 = (applyAtoms env c' atoms' r').1
      ∧ ∀ key, (applyAtoms env c atoms r).2.state.lookup key
            = (applyAtoms env c' atoms' r').2.state.lookup key
          ↔ SameOrReplaced env.sparse key (executed env c.author r.state.keys atoms) atoms'
            ∧ (r.state.lookup key = r'.state.lookup key
              ∨ ∃ b ∈ executed env c.author r.state.keys atoms, b.Replaces env.sparse key) := by
  induction h generalizing r r' with
  | nil => exact ⟨rfl, fun key => by simp [applyAtoms, executed, SameOrReplaced]⟩
  | @cons a a' atoms atoms' hcanonical hrest ih =>
      have hlock := lockstep_applyAtom env hauthor hkeys hcanonical
      rw [applyAtoms, applyAtoms, executed]
      generalize applyAtom env c r a = out at hlock
      generalize applyAtom env c' r' a' = out' at hlock
      cases hlock with
      | fail hfails e =>
          rw [if_pos hfails]
          exact ⟨rfl, fun key => by simp [SameOrReplaced]⟩
      | step hfails q q' hq hq' hlookup =>
          obtain ⟨hout, hfinal⟩ := ih hq'.symm
          rw [hfails, if_neg Bool.false_ne_true]
          refine ⟨hout, fun key => ?_⟩
          rw [hfinal, hlookup, hq]
          -- an atom that replaces the entry decides alone unless a later one does
          by_cases hreplaces : a.Replaces env.sparse key
          · simp only [SameOrReplaced, hreplaces, List.mem_cons, exists_eq_or_imp]
            tauto
          · simp only [SameOrReplaced, hreplaces, List.mem_cons, exists_eq_or_imp]
            tauto

end Step

/-! ## The effect of an identity -/

def SameEffect (env : ApplyEnv) (c c' : Change) (r : Replay) : Prop :=
  (applyChangeScoped env c r).1 = (applyChangeScoped env c' r).1
    ∧ (applyChangeScoped env c r).2.state = (applyChangeScoped env c' r).2.state

/-- **Identity and effect.** Changes with one id, whose payloads do not collide, have the same
effect iff every conflict that runs has its sides in the same order in both or is replaced. -/
theorem sameEffect_iff [Crypto] {c c' : Change}
    (hid : Change.computeId c.deps c.atoms c.intent c.author
      = Change.computeId c'.deps c'.atoms c'.intent c'.author)
    (hinj : Set.InjOn Crypto.hashPayload {c.payload, c'.payload}) (env : ApplyEnv) (r : Replay) :
    SameEffect env c c' r
      ↔ ∀ key, SameOrReplaced env.sparse key (executed env c.author r.state.keys c.atoms)
          c'.atoms := by
  have hpayload : c.payload = c'.payload := hinj (by simp) (by simp) hid
  have hauthor : c.author = c'.author := congrArg IdPayload.author hpayload
  obtain ⟨hout, hlookup⟩ := applyAtoms_lockstep env (r := r) hauthor
    (Change.forall₂_canonical_of_payload_eq hpayload) rfl
  constructor
  · rintro ⟨-, hstate⟩ key
    exact ((hlookup key).mp (congrArg (Finmap.lookup key) hstate)).1
  · intro h
    refine ⟨hout, Finmap.ext_lookup fun key => (hlookup key).mpr ⟨h key, ?_⟩⟩
    exact .inl rfl

/-- Two changes that record a conflict with the sides in either order and then resolve it. -/
theorem sameEffect_resolved :
    let env : ApplyEnv := ⟨fun _ => .ok [1], fun _ _ => false, none⟩
    let at_ : NodePath := ["file", "a.rs", "fn_x"]
    let c := Change.bare 1 ∅ [.conflict [] [1, 2] at_, .insert at_ 3]
    let c' := Change.bare 1 ∅ [.conflict [] [2, 1] at_, .insert at_ 3]
    SameEffect env c c' ⟨∅, none⟩
      ↔ ∀ key, SameOrReplaced none key (executed env c.author ∅ c.atoms) c'.atoms := by
  intro env at_ c c'
  have hpayload : c.payload = c'.payload := by decide
  have hid := congrArg (@Crypto.hashPayload Crypto.sample) hpayload
  exact @sameEffect_iff Crypto.sample c c' hid (by rw [hpayload]; simp) env ⟨∅, none⟩

/-- Two changes that record a conflict with the sides in either order. -/
theorem conflict_sides_escape_identity :
    ¬ ∀ (c c' : Change) (env : ApplyEnv) (r : Replay),
      @Change.computeId Crypto.sample c.deps c.atoms c.intent c.author
        = @Change.computeId Crypto.sample c'.deps c'.atoms c'.intent c'.author →
      Set.InjOn (@Crypto.hashPayload Crypto.sample) {c.payload, c'.payload} →
      SameEffect env c c' r := by
  intro h
  let at_ : NodePath := ["file", "a.rs", "fn_x"]
  let c := Change.bare 1 ∅ [.conflict [] [1, 2] at_]
  let c' := Change.bare 1 ∅ [.conflict [] [2, 1] at_]
  have hpayload : c.payload = c'.payload := by decide
  have hid := congrArg (@Crypto.hashPayload Crypto.sample) hpayload
  obtain ⟨-, hstate⟩ := h c c' ⟨fun _ => .ok [1], fun _ _ => false, none⟩ ⟨∅, none⟩ hid
    (by rw [hpayload]; simp)
  have hentry := congrArg (Finmap.lookup at_) hstate
  revert hentry
  decide +kernel

end ArcVcs
