import ArcVcs.ReorderSteps

/-!
# Commuting a pair twice

`commute_pair` rewrites the paths of either change forward through the moves of the other one.
Doing it again brings a path back only if the moves, rewritten as well, lead back to it.
-/

namespace ArcVcs

open Mutator (hasMove rewritePaths_of_not_hasMove)

def Atom.rewrittenPaths : Atom → List NodePath
  | .insert at_ _ => [at_]
  | .delete at_ _ => [at_]
  | .move from_ to_ => [from_, to_]
  | .semanticsPreserving at_ _ => [at_]
  | _ => []

def rewriteMoves (through moves : List (NodePath × NodePath)) : List (NodePath × NodePath) :=
  moves.map fun m => (rewritePath through m.1, rewritePath through m.2)

/-- Rewriting a path through the moves of `b`, and then through these moves as rewritten through
those of `a`, gives the path back. -/
def PathReturns (a b : List Atom) (path : NodePath) : Prop :=
  rewritePath (rewriteMoves (movePairs a) (movePairs b)) (rewritePath (movePairs b) path) = path

/-! ## Rewriting atoms -/

@[simp] theorem rewritePath_nil (path : NodePath) : rewritePath [] path = path := rfl

theorem rewritePath_of_not_covered {moves : List (NodePath × NodePath)} {path : NodePath}
    (h : ∀ m ∈ moves, ¬ m.1 <+: path) : rewritePath moves path = path := by
  have hfind : moves.find? (fun m => m.1.isPrefixOf path) = none := by
    rw [List.find?_eq_none]
    intro m hm hprefix
    exact h m hm (List.isPrefixOf_iff_prefix.mp hprefix)
  rw [rewritePath, hfind]

/-- A path stays where it is when no move covers it, as it is or rewritten. -/
theorem PathReturns.of_not_covered {a b : List Atom} {path : NodePath}
    (hmoves : ∀ m ∈ movePairs b, ¬ m.1 <+: path)
    (hrewritten : ∀ m ∈ rewriteMoves (movePairs a) (movePairs b), ¬ m.1 <+: path) :
    PathReturns a b path := by
  rw [PathReturns, rewritePath_of_not_covered hmoves, rewritePath_of_not_covered hrewritten]

theorem rewriteAtomPaths_comp_eq_iff {through back : List (NodePath × NodePath)} (atom : Atom) :
    rewriteAtomPaths back (rewriteAtomPaths through atom) = atom
      ↔ ∀ path ∈ atom.rewrittenPaths, rewritePath back (rewritePath through path) = path := by
  cases atom <;> simp [rewriteAtomPaths, Atom.rewrittenPaths]

theorem rewritePathsThroughMoves_eq (atoms moves : List Atom) :
    rewritePathsThroughMoves atoms moves = atoms.map (rewriteAtomPaths (movePairs moves)) := by
  unfold rewritePathsThroughMoves
  split_ifs with hempty
  · have hid : rewriteAtomPaths [] = id := by
      funext atom
      cases atom <;> rfl
    rw [List.isEmpty_iff.mp hempty, hid, List.map_id]
  · rfl

theorem movePairs_rewritePathsThroughMoves (atoms moves : List Atom) :
    movePairs (rewritePathsThroughMoves atoms moves)
      = rewriteMoves (movePairs moves) (movePairs atoms) := by
  rw [rewritePathsThroughMoves_eq]
  induction atoms with
  | nil => rfl
  | cons atom atoms ih =>
      cases atom with
      | move from_ to_ => exact congrArg (_ :: ·) ih
      | _ => exact ih

theorem rewritten_twice_eq_iff (a b : List Atom) :
    rewritePathsThroughMoves (rewritePathsThroughMoves a b) (rewritePathsThroughMoves b a) = a
      ↔ ∀ atom ∈ a, ∀ path ∈ atom.rewrittenPaths, PathReturns a b path := by
  rw [rewritePathsThroughMoves_eq, movePairs_rewritePathsThroughMoves, rewritePathsThroughMoves_eq,
    List.map_map]
  calc a.map (rewriteAtomPaths (rewriteMoves (movePairs a) (movePairs b))
          ∘ rewriteAtomPaths (movePairs b)) = a
      ↔ a.map (rewriteAtomPaths (rewriteMoves (movePairs a) (movePairs b))
          ∘ rewriteAtomPaths (movePairs b)) = a.map id := by rw [List.map_id]
    _ ↔ _ := by
      rw [List.map_inj_left]
      exact forall₂_congr fun atom _ => rewriteAtomPaths_comp_eq_iff atom

/-! ## The gates -/

theorem not_atomPairDisjoint_of_deleteInsert {del ins : Atom}
    (h : isDeleteInsertSameTerminal del ins = true) :
    atomPairDisjoint del ins = false ∧ atomPairDisjoint ins del = false := by
  cases del with
  | delete delAt priorHash =>
      cases ins with
      | insert insAt contentHash =>
          obtain rfl : delAt = insAt := by simpa [isDeleteInsertSameTerminal] using h
          simp [atomPairDisjoint, Atom.isMove, Atom.paths]
      | _ => simp [isDeleteInsertSameTerminal] at h
  | _ => simp [isDeleteInsertSameTerminal] at h

theorem ghostConflict_of_atomsDisjoint {a b : List Atom} (h : atomsDisjoint a b = true) :
    ghostConflict a b = false := by
  by_contra hghost
  obtain ⟨x, hx, hxb⟩ := List.any_eq_true.mp (Bool.eq_true_of_not_eq_false hghost)
  obtain ⟨y, hy, hxy⟩ := List.any_eq_true.mp hxb
  have hdisjoint := List.all_eq_true.mp (List.all_eq_true.mp h x hx) y hy
  rcases Bool.or_eq_true_iff.mp hxy with hdel | hdel
  · simp [(not_atomPairDisjoint_of_deleteInsert hdel).1] at hdisjoint
  · simp [(not_atomPairDisjoint_of_deleteInsert hdel).2] at hdisjoint

section Pair

variable [Crypto] {a b : Change} {signer : Author × SigningKey}

/-- The change that `commute_pair` makes of `a` next to `b`. -/
def commuted (a b : Change) (signer : Author × SigningKey) : Change :=
  .new (a.deps.erase b.id) (rewritePathsThroughMoves a.atoms b.atoms) a.intent signer.1 signer.2

theorem commutePair_eq_some_iff {pair : Change × Change} :
    commutePair a b signer = some pair
      ↔ commutes a b = true ∧ pair = (commuted b a signer, commuted a b signer) := by
  unfold commutePair commutes
  by_cases hdep : a.id ∈ b.deps ∨ b.id ∈ a.deps
  · simp [hdep]
  · rw [if_neg hdep, if_neg hdep]
    cases hdisjoint : atomsDisjoint a.atoms b.atoms with
    | false => simp
    | true =>
        simp only [ghostConflict_of_atomsDisjoint hdisjoint, commuted, Bool.not_true,
          Bool.false_eq_true, if_false, Option.some_inj, true_and]
        exact eq_comm

/-- **The two gates agree**: a pair is made exactly of changes that commute, and without moves it
keeps the atoms. -/
theorem commutePair_agrees_with_commutes (a b : Change) (signer : Author × SigningKey) :
    ((∃ pair, commutePair a b signer = some pair) ↔ commutes a b = true)
      ∧ (hasMove a.atoms = false → hasMove b.atoms = false →
        ∀ b' a', commutePair a b signer = some (b', a') →
          b'.atoms = b.atoms ∧ a'.atoms = a.atoms) := by
  constructor
  · constructor
    · rintro ⟨pair, hpair⟩
      exact (commutePair_eq_some_iff.mp hpair).1
    · intro hcommutes
      exact ⟨_, commutePair_eq_some_iff.mpr ⟨hcommutes, rfl⟩⟩
  · intro ha hb b' a' hpair
    obtain ⟨-, hpair⟩ := commutePair_eq_some_iff.mp hpair
    obtain ⟨rfl, rfl⟩ := Prod.mk.inj hpair
    exact ⟨rewritePaths_of_not_hasMove ha, rewritePaths_of_not_hasMove hb⟩

/-- Swapping back is possible and gives the atoms and the dependencies again. -/
def SwapsBack (a b a' b' : Change) (signer : Author × SigningKey) : Prop :=
  ∃ a'' b'', commutePair b' a' signer = some (a'', b'') ∧ a''.atoms = a.atoms
    ∧ b''.atoms = b.atoms ∧ a''.deps = a.deps ∧ b''.deps = b.deps

/-- The rewriting moves no path for good and brings no two atoms together, and neither change
depends on the other one as re-signed. -/
structure Reversible (a b : Change) (signer : Author × SigningKey) : Prop where
  independent : (commuted a b signer).id ∉ b.deps ∧ (commuted b a signer).id ∉ a.deps
  disjoint : atomsDisjoint (rewritePathsThroughMoves b.atoms a.atoms)
    (rewritePathsThroughMoves a.atoms b.atoms) = true
  returns_left : ∀ atom ∈ a.atoms, ∀ path ∈ atom.rewrittenPaths, PathReturns a.atoms b.atoms path
  returns_right : ∀ atom ∈ b.atoms, ∀ path ∈ atom.rewrittenPaths, PathReturns b.atoms a.atoms path

/-- **Commuting twice.** A commuted pair swaps back to the atoms and the dependencies of the
original changes iff the pair is reversible. -/
theorem swapsBack_iff {a' b' : Change} (h : commutePair a b signer = some (b', a'))
    (signer' : Author × SigningKey) : SwapsBack a b a' b' signer' ↔ Reversible a b signer := by
  obtain ⟨hcommutes, hpair⟩ := commutePair_eq_some_iff.mp h
  obtain ⟨rfl, rfl⟩ := Prod.mk.inj hpair
  have hdeps : a.id ∉ b.deps ∧ b.id ∉ a.deps := by
    unfold commutes at hcommutes
    by_contra hdep
    rw [if_pos (by tauto)] at hcommutes
    exact Bool.false_ne_true hcommutes
  have hadeps : (commuted a b signer).deps = a.deps := Finset.erase_eq_of_notMem hdeps.2
  have hbdeps : (commuted b a signer).deps = b.deps := Finset.erase_eq_of_notMem hdeps.1
  have hgates : commutes (commuted b a signer) (commuted a b signer) = true
      ↔ ((commuted a b signer).id ∉ b.deps ∧ (commuted b a signer).id ∉ a.deps)
        ∧ atomsDisjoint (rewritePathsThroughMoves b.atoms a.atoms)
          (rewritePathsThroughMoves a.atoms b.atoms) = true := by
    rw [commutes, hadeps, hbdeps]
    by_cases hid : (commuted b a signer).id ∈ a.deps ∨ (commuted a b signer).id ∈ b.deps
    · rw [if_pos hid]
      tauto
    · rw [if_neg hid]
      exact (and_iff_right (by tauto)).symm
  constructor
  · rintro ⟨a'', b'', hback, haatoms, hbatoms, -, -⟩
    obtain ⟨hopen, hpair⟩ := commutePair_eq_some_iff.mp hback
    obtain ⟨rfl, rfl⟩ := Prod.mk.inj hpair
    obtain ⟨hindependent, hdisjoint⟩ := hgates.mp hopen
    exact ⟨hindependent, hdisjoint, (rewritten_twice_eq_iff a.atoms b.atoms).mp haatoms,
      (rewritten_twice_eq_iff b.atoms a.atoms).mp hbatoms⟩
  · rintro ⟨hindependent, hdisjoint, hleft, hright⟩
    refine ⟨_, _, commutePair_eq_some_iff.mpr ⟨hgates.mpr ⟨hindependent, hdisjoint⟩, rfl⟩,
      ?_, ?_, ?_, ?_⟩
    · exact (rewritten_twice_eq_iff a.atoms b.atoms).mpr hleft
    · exact (rewritten_twice_eq_iff b.atoms a.atoms).mpr hright
    · exact (Finset.erase_eq_of_notMem (hadeps ▸ hindependent.2)).trans hadeps
    · exact (Finset.erase_eq_of_notMem (hbdeps ▸ hindependent.1)).trans hbdeps

end Pair

/-- A change to one file and a change that renames another one. -/
theorem swapsBack_two_files :
    let a := Change.sample ∅ "a.rs" "a"
    let b := Change.bare 1 ∅ [.move ["file", "b.rs"] ["file", "c.rs"]]
    let signer : Author × SigningKey := (.human "" "" 0, 0)
    ∃ a' b', @commutePair Crypto.sample a b signer = some (b', a')
      ∧ @Reversible Crypto.sample a b signer ∧ @SwapsBack Crypto.sample a b a' b' signer := by
  intro a b signer
  have hreversible : @Reversible Crypto.sample a b signer := by
    refine @Reversible.mk Crypto.sample a b signer (by decide) (by decide) ?_ ?_
    · intro atom hatom path hpath
      obtain rfl := List.mem_singleton.mp hatom
      obtain rfl := List.mem_singleton.mp hpath
      exact .of_not_covered (by decide) (by decide)
    · intro atom hatom path hpath
      exact .of_not_covered (by simp [a, Change.sample, movePairs, Change.newWithMetadata])
        (by simp [a, Change.sample, movePairs, rewriteMoves, Change.newWithMetadata])
  exact ⟨_, _, rfl, hreversible, (@swapsBack_iff Crypto.sample _ _ _ _ _ rfl _).mpr hreversible⟩

/-- An insertion into a directory that the other change renames stays in the new directory. -/
theorem commutePair_keeps_renamed_path :
    ¬ ∀ (a b a' b' : Change) (signer signer' : Author × SigningKey),
      @commutePair Crypto.sample a b signer = some (b', a') →
      @SwapsBack Crypto.sample a b a' b' signer' := by
  intro h
  let a := Change.bare 1 ∅ [.insert ["old_mod", "fn_x"] 1]
  let b := Change.bare 2 ∅ [.move ["old_mod"] ["new_mod"]]
  let signer : Author × SigningKey := (.human "" "" 0, 0)
  have hback := (@swapsBack_iff Crypto.sample a b signer _ _ rfl signer).mp
    (h a b _ _ signer signer rfl)
  have hpath : PathReturns a.atoms b.atoms ["old_mod", "fn_x"] :=
    @Reversible.returns_left Crypto.sample a b signer hback _ (List.mem_singleton_self _) _
      (List.mem_singleton_self _)
  revert hpath
  unfold PathReturns
  decide

end ArcVcs
