import ArcVcs.Apply

/-!
# Commutation of changes

The commutation test of `arc-algebra`, the rewriting of a commuting pair, and the soundness
of the test: commuting changes have commuting effects.
-/

namespace ArcVcs

/-! ## The test -/

def Atom.isMove : Atom → Bool
  | .move .. => true
  | _ => false

def pathsOverlap (a b : NodePath) : Bool :=
  let minLen := min a.length b.length
  a.take minLen = b.take minLen

def fileOfPath : NodePath → Option String
  | kind :: path :: _ => if kind = "file" then some path else none
  | _ => none

def filePathForAtom : Atom → Option String
  | .insert at_ _ => fileOfPath at_
  | .delete at_ _ => fileOfPath at_
  | .semanticsPreserving at_ _ => fileOfPath at_
  | .conflict _ _ at_ => fileOfPath at_
  | .move from_ to_ => (fileOfPath from_).or (fileOfPath to_)
  | .directory path => fileOfPath path
  | .mount path _ => fileOfPath path
  | .blob .. => none

def blobConflicts : Atom → Atom → Bool
  | .blob pathA hashA sizeA, .blob pathB hashB sizeB =>
      pathA = pathB && (hashA ≠ hashB || sizeA ≠ sizeB)
  | .blob path _ _, other => filePathForAtom other = some path
  | other, .blob path _ _ => filePathForAtom other = some path
  | _, _ => false

/-- Two atoms touch no common path. Moves are left to path rewriting. -/
def atomPairDisjoint (a b : Atom) : Bool :=
  a.isMove || b.isMove ||
    (!blobConflicts a b && a.paths.all fun pa => b.paths.all fun pb => !pathsOverlap pa pb)

def atomsDisjoint (atomsA atomsB : List Atom) : Bool :=
  atomsA.all fun a => atomsB.all fun b => atomPairDisjoint a b

/-- Neither change depends on the other and their atoms touch disjoint subtrees. -/
def commutes (a b : Change) : Bool :=
  if a.id ∈ b.deps ∨ b.id ∈ a.deps then false else atomsDisjoint a.atoms b.atoms

/-! ## Rewriting a pair -/

def isDeleteInsertSameTerminal : Atom → Atom → Bool
  | .delete delAt _, .insert insAt _ => delAt = insAt
  | _, _ => false

def ghostConflict (atomsA atomsB : List Atom) : Bool :=
  atomsA.any fun a => atomsB.any fun b =>
    isDeleteInsertSameTerminal a b || isDeleteInsertSameTerminal b a

def movePairs (moves : List Atom) : List (NodePath × NodePath) :=
  moves.filterMap fun
    | .move from_ to_ => some (from_, to_)
    | _ => none

def rewritePath (moves : List (NodePath × NodePath)) (path : NodePath) : NodePath :=
  match moves.find? fun m => m.1.isPrefixOf path with
  | some (from_, to_) => to_ ++ path.drop from_.length
  | none => path

def rewriteAtomPaths (moves : List (NodePath × NodePath)) : Atom → Atom
  | .insert at_ contentHash => .insert (rewritePath moves at_) contentHash
  | .delete at_ priorHash => .delete (rewritePath moves at_) priorHash
  | .move from_ to_ => .move (rewritePath moves from_) (rewritePath moves to_)
  | .semanticsPreserving at_ description =>
      .semanticsPreserving (rewritePath moves at_) description
  | other => other

def rewritePathsThroughMoves (atoms moves : List Atom) : List Atom :=
  if (movePairs moves).isEmpty then atoms else atoms.map (rewriteAtomPaths (movePairs moves))

/-- The commuted pair `(b', a')`, each re-signed by the signer. -/
def commutePair [Crypto] (a b : Change) (signer : Author × SigningKey) :
    Option (Change × Change) :=
  if a.id ∈ b.deps ∨ b.id ∈ a.deps then none
  else if !atomsDisjoint a.atoms b.atoms then none
  else if ghostConflict a.atoms b.atoms then none
  else
    let bAtoms := rewritePathsThroughMoves b.atoms a.atoms
    let aAtoms := rewritePathsThroughMoves a.atoms b.atoms
    some
      (Change.new (b.deps.erase a.id) bAtoms b.intent signer.1 signer.2,
        Change.new (a.deps.erase b.id) aAtoms a.intent signer.1 signer.2)

/-! ## Soundness -/

@[simp] theorem pathsOverlap_self (p : NodePath) : pathsOverlap p p = true := by
  simp [pathsOverlap]

namespace Atom

theorem key_of_keyedOp {store : BlobStore} {atom : Atom} {op : KeyedOp NodePath Bytes}
    (h : atom.keyedOp store = some op) :
    (∃ path hash size, atom = .blob path hash size ∧ op.key = ["file", path])
      ∨ (op.key ∈ atom.paths ∧ filePathForAtom atom = fileOfPath op.key) := by
  cases atom with
  | blob path hash size =>
      obtain rfl : _ = op := Option.some_inj.mp h
      exact .inl ⟨path, hash, size, rfl, rfl⟩
  | insert at_ contentHash =>
      obtain ⟨bytes, -, rfl⟩ := Option.map_eq_some_iff.mp h
      exact .inr ⟨List.mem_singleton_self _, rfl⟩
  | move from_ to_ => simp [keyedOp] at h
  | semanticsPreserving at_ description => simp [keyedOp] at h
  | _ =>
      obtain rfl : _ = op := Option.some_inj.mp h
      exact .inr ⟨List.mem_singleton_self _, rfl⟩

theorem keyedOp_of_isMove {store : BlobStore} {atom : Atom} (h : atom.isMove = true) :
    atom.keyedOp store = none := by
  cases atom <;> simp_all [isMove, keyedOp]

theorem blobs_of_key_eq {store : BlobStore} {a b : Atom} {opA opB : KeyedOp NodePath Bytes}
    (hA : a.keyedOp store = some opA) (hB : b.keyedOp store = some opB)
    (hdisj : atomPairDisjoint a b = true) (hkey : opA.key = opB.key) :
    ∃ path hash size, a = .blob path hash size ∧ b = .blob path hash size := by
  have hmoveA : a.isMove = false := by
    by_contra h
    simp [keyedOp_of_isMove (Bool.eq_true_of_not_eq_false h)] at hA
  have hmoveB : b.isMove = false := by
    by_contra h
    simp [keyedOp_of_isMove (Bool.eq_true_of_not_eq_false h)] at hB
  simp only [atomPairDisjoint, hmoveA, hmoveB, Bool.false_or, Bool.and_eq_true,
    Bool.not_eq_true'] at hdisj
  obtain ⟨hblob, hpaths⟩ := hdisj
  rcases key_of_keyedOp hA with ⟨pathA, hashA, sizeA, rfl, hkeyA⟩ | ⟨hmemA, hfileA⟩
  · rcases key_of_keyedOp hB with ⟨pathB, hashB, sizeB, rfl, hkeyB⟩ | ⟨hmemB, hfileB⟩
    · obtain rfl : pathA = pathB := by
        rw [hkeyA, hkeyB] at hkey
        simpa using hkey
      have hsame : hashA = hashB ∧ sizeA = sizeB := by simpa [blobConflicts] using hblob
      obtain ⟨rfl, rfl⟩ := hsame
      exact ⟨pathA, hashA, sizeA, rfl, rfl⟩
    · rw [← hkey, hkeyA] at hfileB
      have : filePathForAtom b = some pathA := hfileB
      cases b <;> simp_all [blobConflicts, paths]
  · rcases key_of_keyedOp hB with ⟨pathB, hashB, sizeB, rfl, hkeyB⟩ | ⟨hmemB, -⟩
    · rw [hkey, hkeyB] at hfileA
      have : filePathForAtom a = some pathB := hfileA
      cases a <;> simp_all [blobConflicts, paths]
    · have hover := List.all_eq_true.mp (List.all_eq_true.mp hpaths _ hmemA) _ hmemB
      rw [hkey, pathsOverlap_self] at hover
      simp at hover

theorem keyedOp_disjoint {store : BlobStore} {a b : Atom} {opA opB : KeyedOp NodePath Bytes}
    (hA : a.keyedOp store = some opA) (hB : b.keyedOp store = some opB)
    (hdisj : atomPairDisjoint a b = true) : opA.key ≠ opB.key ∨ opA = opB := by
  by_cases hkey : opA.key = opB.key
  · obtain ⟨path, hash, size, rfl, rfl⟩ := blobs_of_key_eq hA hB hdisj hkey
    exact .inr (Option.some_inj.mp (hA.symm.trans hB))
  · exact .inl hkey

theorem effect_cases (env : ApplyEnv) (author : Author) (atom : Atom) :
    atom.effect env author = 0 ∨ atom.effect env author = 1
      ∨ ∃ op, atom.keyedOp env.store = some op ∧ atom.effect env author = op.act := by
  unfold effect plainEffect
  split_ifs
  · exact .inl rfl
  · exact .inr (.inl rfl)
  · cases h : atom.keyedOp env.store with
    | none => exact .inl rfl
    | some op => exact .inr (.inr ⟨op, rfl, rfl⟩)

theorem effect_commute {env : ApplyEnv} {authorA authorB : Author} {a b : Atom}
    (hdisj : atomPairDisjoint a b = true) :
    Commute (a.effect env authorA) (b.effect env authorB) := by
  rcases effect_cases env authorA a with hA | hA | ⟨opA, hopA, hA⟩
  · rw [hA]
    exact Commute.zero_left _
  · rw [hA]
    exact Commute.one_left _
  rcases effect_cases env authorB b with hB | hB | ⟨opB, hopB, hB⟩
  · rw [hB]
    exact Commute.zero_right _
  · rw [hB]
    exact Commute.one_right _
  rw [hA, hB]
  rcases keyedOp_disjoint hopA hopB hdisj with hkey | rfl
  · exact KeyedOp.commute_of_key_ne hkey
  · exact Commute.refl _

end Atom

theorem effect_commute_of_atomsDisjoint {env : ApplyEnv} {a b : Change}
    (h : atomsDisjoint a.atoms b.atoms = true) : Commute (a.effect env) (b.effect env) := by
  refine Commute.list_prod_left _ _ fun x hx => Commute.list_prod_right _ _ fun y hy => ?_
  obtain ⟨atomA, hA, rfl⟩ := List.mem_map.mp hx
  obtain ⟨atomB, hB, rfl⟩ := List.mem_map.mp hy
  exact Atom.effect_commute (List.all_eq_true.mp (List.all_eq_true.mp h atomA hA) atomB hB)

theorem atomsDisjoint_of_commutes {a b : Change} (h : commutes a b = true) :
    atomsDisjoint a.atoms b.atoms = true := by
  unfold commutes at h
  split_ifs at h
  exact h

theorem effect_commute_of_commutes {env : ApplyEnv} {a b : Change} (h : commutes a b = true) :
    Commute (a.effect env) (b.effect env) :=
  effect_commute_of_atomsDisjoint (atomsDisjoint_of_commutes h)

/-- **Soundness of commutation.** Applying `a` then `b` succeeds with a state iff applying `b`
then `a` succeeds with that state. -/
theorem applySequence_swap_of_commutes (env : ApplyEnv) {a b : Change}
    (h : commutes a b = true) (s s' : MaterializedState) :
    applySequence env [a, b] s = .ok s' ↔ applySequence env [b, a] s = .ok s' := by
  have hswap : ([a, b].map (Change.effect env)).prod = ([b, a].map (Change.effect env)).prod := by
    have hcomm : Commute (a.effect env) (b.effect env) := effect_commute_of_commutes h
    simpa using hcomm.eq
  rw [applySequence_eq_ok_iff, applySequence_eq_ok_iff, hswap]

/-- Two files inserted on independent branches, the second as a tracked asset. -/
theorem applySequence_swap_two_files :
    let a := Change.bare 1 ∅ [.insert ["file", "a.rs", "fn_x"] 7]
    let b := Change.bare 2 ∅ [.blob "b.png" 8 3, .delete ["dir", "src"] 0]
    let env : ApplyEnv := ⟨fun _ => .ok [1, 2], fun _ _ => false, none⟩
    commutes a b = true
      ∧ ∀ s s', applySequence env [a, b] s = .ok s' ↔ applySequence env [b, a] s = .ok s' := by
  refine ⟨by decide, fun s s' => ?_⟩
  exact applySequence_swap_of_commutes _ (by decide) s s'

end ArcVcs
