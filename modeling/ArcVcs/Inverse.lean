import ArcVcs.Repo

/-!
# Inversion

`invert_change` turns every `Insert` into a `Delete` of its content and back, in reverse order.
On a state where each atom inserts at an absent path or deletes the content it names, the
inverse restores the state.
-/

namespace ArcVcs

inductive InvertError where
  | casMissing (hash : Blake3Hash)
  | unsupported
deriving DecidableEq

def invertAtom (containsBlob : Blake3Hash → Bool) : Atom → Except InvertError Atom
  | .insert at_ contentHash =>
      if containsBlob contentHash then .ok (.delete at_ contentHash)
      else .error (.casMissing contentHash)
  | .delete at_ priorHash =>
      if containsBlob priorHash then .ok (.insert at_ priorHash) else .error (.casMissing priorHash)
  | .move from_ to_ => .ok (.move to_ from_)
  | _ => .error .unsupported

/-- The inverted atoms, the last one first. -/
def invertAtoms (containsBlob : Blake3Hash → Bool) (atoms : List Atom) :
    Except InvertError (List Atom) :=
  atoms.reverse.mapM (invertAtom containsBlob)

def invertChange [Crypto] (containsBlob : Blake3Hash → Bool) (change : Change)
    (signer : Author × SigningKey) : Except InvertError Change := do
  let invertedAtoms ← invertAtoms containsBlob change.atoms
  pure (.new {change.id} invertedAtoms ("Revert: " ++ change.intent) signer.1 signer.2)

/-- The object store holds a file under the hash. -/
def containsBlob (blobs : FMap Blake3Hash Bytes) (hash : Blake3Hash) : Bool := hash ∈ blobs.keys

/-- From `state` on, each atom inserts readable content at an absent path, or deletes the readable
content that it names. An atom outside the sparse boundary changes nothing. -/
def ExactFrom (env : ApplyEnv) : MaterializedState → List Atom → Prop
  | _, [] => True
  | state, .insert at_ contentHash :: atoms =>
      ∃ bytes, env.store contentHash = .ok bytes ∧
        if isSkipped env.sparse (.insert at_ contentHash) then ExactFrom env state atoms
        else state.lookup at_ = none ∧ ExactFrom env (state.insert at_ bytes) atoms
  | state, .delete at_ priorHash :: atoms =>
      ∃ bytes, env.store priorHash = .ok bytes ∧
        if isSkipped env.sparse (.delete at_ priorHash) then ExactFrom env state atoms
        else state.lookup at_ = some bytes ∧ ExactFrom env (state.erase at_) atoms
  | _, _ => False

/-! ## The inverse atoms -/

namespace Atom

def inverse : Atom → Atom
  | insert at_ contentHash => delete at_ contentHash
  | delete at_ priorHash => insert at_ priorHash
  | atom => atom

@[simp] theorem inverse_comp_inverse : inverse ∘ inverse = id := by
  funext atom
  cases atom <;> rfl

@[simp] theorem paths_inverse (atom : Atom) : atom.inverse.paths = atom.paths := by
  cases atom <;> rfl

/-- An `Insert` or a `Delete` whose content is in the store. -/
def Invertible (containsBlob : Blake3Hash → Bool) : Atom → Prop
  | insert _ contentHash => containsBlob contentHash = true
  | delete _ priorHash => containsBlob priorHash = true
  | _ => False

theorem Invertible.inverse {containsBlob : Blake3Hash → Bool} {atom : Atom}
    (h : atom.Invertible containsBlob) : atom.inverse.Invertible containsBlob := by
  cases atom <;> exact h

theorem Invertible.invertAtom_eq {containsBlob : Blake3Hash → Bool} {atom : Atom}
    (h : atom.Invertible containsBlob) : invertAtom containsBlob atom = .ok atom.inverse := by
  cases atom with
  | insert at_ contentHash => exact if_pos h
  | delete at_ priorHash => exact if_pos h
  | _ => exact absurd h id

end Atom

theorem mapM_invertAtom {containsBlob : Blake3Hash → Bool} {atoms : List Atom}
    (h : ∀ atom ∈ atoms, atom.Invertible containsBlob) :
    atoms.mapM (invertAtom containsBlob) = .ok (atoms.map Atom.inverse) := by
  induction atoms with
  | nil => rfl
  | cons atom atoms ih =>
      obtain ⟨hatom, hatoms⟩ := List.forall_mem_cons.mp h
      rw [List.mapM_cons, hatom.invertAtom_eq, ih hatoms]
      rfl

theorem invertAtoms_eq {containsBlob : Blake3Hash → Bool} {atoms : List Atom}
    (h : ∀ atom ∈ atoms, atom.Invertible containsBlob) :
    invertAtoms containsBlob atoms = .ok (atoms.reverse.map Atom.inverse) :=
  mapM_invertAtom fun atom hatom => h atom (List.mem_reverse.mp hatom)

theorem invertAtoms_invertAtoms {containsBlob : Blake3Hash → Bool} {atoms : List Atom}
    (h : ∀ atom ∈ atoms, atom.Invertible containsBlob) :
    invertAtoms containsBlob (atoms.reverse.map Atom.inverse) = .ok atoms := by
  have hinverse : ∀ atom ∈ atoms.reverse.map Atom.inverse, atom.Invertible containsBlob := by
    intro atom hatom
    obtain ⟨original, horiginal, rfl⟩ := List.mem_map.mp hatom
    exact (h original (List.mem_reverse.mp horiginal)).inverse
  rw [invertAtoms_eq hinverse, ← List.map_reverse, List.reverse_reverse, List.map_map]
  simp

/-! ## Restoring the state -/

section Restore

variable [Crypto] {blobs : FMap Blake3Hash Bytes} {agentIgnore : Gitignore}
  {sparse : Option SparseMatcher}

theorem containsBlob_of_readBlob {hash : Blake3Hash} {bytes : Bytes}
    (h : Repo.readBlob blobs hash = .ok bytes) : containsBlob blobs hash = true := by
  unfold Repo.readBlob at h
  cases hentry : blobs.lookup hash with
  | none => simp [hentry] at h
  | some content => exact decide_eq_true (FMap.mem_keys_of_lookup hentry)

theorem ExactFrom.invertible {state : MaterializedState} {atoms : List Atom}
    (h : ExactFrom ⟨Repo.readBlob blobs, agentIgnore, sparse⟩ state atoms) {atom : Atom}
    (hatom : atom ∈ atoms) : atom.Invertible (containsBlob blobs) := by
  induction atoms generalizing state with
  | nil => simp at hatom
  | cons head atoms ih =>
      cases head with
      | insert at_ hash | delete at_ hash =>
          obtain ⟨bytes, hread, hrest⟩ := h
          rcases List.mem_cons.mp hatom with rfl | hmem
          · exact containsBlob_of_readBlob hread
          · split_ifs at hrest
            · exact ih hrest hmem
            · exact ih hrest.2 hmem
      | _ => exact absurd h id

end Restore

theorem exists_run_inverse {env : ApplyEnv} {state : MaterializedState} {atom : Atom}
    {atoms : List Atom} (h : ExactFrom env state (atom :: atoms)) :
    ∃ next, (atom.plainEffect env).run state = some next ∧ ExactFrom env next atoms
      ∧ (atom.inverse.plainEffect env).run next = some state := by
  have hskip : isSkipped env.sparse atom.inverse = isSkipped env.sparse atom := by
    simp [isSkipped, SparseMatcher.matchesAtom]
  unfold Atom.plainEffect
  rw [hskip]
  cases atom with
  | insert at_ contentHash =>
      obtain ⟨bytes, hread, hrest⟩ := h
      by_cases hout : isSkipped env.sparse (.insert at_ contentHash) = true
      · rw [if_pos hout] at hrest
        exact ⟨state, by rw [if_pos hout]; rfl, hrest, by rw [if_pos hout]; rfl⟩
      · rw [if_neg hout] at hrest
        refine ⟨state.insert at_ bytes, ?_, hrest.2, ?_⟩
        · simp [hout, Atom.keyedOp, hread, Except.toOption]
        · have hrestore : (state.insert at_ bytes).erase at_ = state := by
            refine Finmap.ext_lookup fun key => ?_
            by_cases hkey : key = at_
            · subst hkey
              simp [hrest.1]
            · simp [hkey]
          simp [hout, Atom.keyedOp, Atom.inverse, hrestore]
  | delete at_ priorHash =>
      obtain ⟨bytes, hread, hrest⟩ := h
      by_cases hout : isSkipped env.sparse (.delete at_ priorHash) = true
      · rw [if_pos hout] at hrest
        exact ⟨state, by rw [if_pos hout]; rfl, hrest, by rw [if_pos hout]; rfl⟩
      · rw [if_neg hout] at hrest
        refine ⟨state.erase at_, ?_, hrest.2, ?_⟩
        · simp [hout, Atom.keyedOp, hrest.1]
        · have hrestore : (state.erase at_).insert at_ bytes = state := by
            refine Finmap.ext_lookup fun key => ?_
            by_cases hkey : key = at_
            · subst hkey
              simp [hrest.1]
            · simp [hkey]
          simp [hout, Atom.keyedOp, Atom.inverse, hread, Except.toOption, hrestore]
  | _ => exact absurd h id

theorem exists_run_inverses {env : ApplyEnv} {state : MaterializedState} {atoms : List Atom}
    (h : ExactFrom env state atoms) :
    ∃ next, (atoms.map (Atom.plainEffect env)).prod.run state = some next
      ∧ ((atoms.reverse.map Atom.inverse).map (Atom.plainEffect env)).prod.run next
        = some state := by
  induction atoms generalizing state with
  | nil => exact ⟨state, rfl, rfl⟩
  | cons atom atoms ih =>
      obtain ⟨next, hrun, hexact, hback⟩ := exists_run_inverse h
      obtain ⟨last, hruns, hbacks⟩ := ih hexact
      refine ⟨last, ?_, ?_⟩
      · rw [List.map_cons]
        exact PartialAction.run_prod_eq_some_cons.mpr ⟨next, hrun, hruns⟩
      · rw [List.reverse_cons, List.map_append, List.map_append, PartialAction.run_prod_append,
          hbacks]
        simpa using hback

theorem Change.isRestricted_inverse (env : ApplyEnv) (atoms : List Atom) :
    (atoms.reverse.map Atom.inverse).any (Atom.isRestricted env.agentIgnore)
      = atoms.any (Atom.isRestricted env.agentIgnore) := by
  have hatom (atom : Atom) :
      atom.inverse.isRestricted env.agentIgnore = atom.isRestricted env.agentIgnore := by
    simp [Atom.isRestricted]
  rw [List.any_map, List.any_reverse]
  exact congrArg atoms.any (funext hatom)

/-- **Inversion is exact** unless the AI restriction stops the change or its inverse: applying both
restores the state, and inverting twice gives the atoms back. -/
theorem invertChange_restores [Crypto] {blobs : FMap Blake3Hash Bytes} {agentIgnore : Gitignore}
    {sparse : Option SparseMatcher} {change : Change} {state : MaterializedState}
    (hexact : ExactFrom ⟨Repo.readBlob blobs, agentIgnore, sparse⟩ state change.atoms)
    (hviolates : change.violates ⟨Repo.readBlob blobs, agentIgnore, sparse⟩ = false)
    (signer signer' : Author × SigningKey)
    (hsigner : (signer.1.isAi
      && change.isRestricted ⟨Repo.readBlob blobs, agentIgnore, sparse⟩) = false) :
    ∃ inverse, invertChange (containsBlob blobs) change signer = .ok inverse
      ∧ applySequence ⟨Repo.readBlob blobs, agentIgnore, sparse⟩ [change, inverse] state = .ok state
      ∧ ∃ back, invertChange (containsBlob blobs) inverse signer' = .ok back
        ∧ back.atoms = change.atoms := by
  have hinvertible (atom) (hatom : atom ∈ change.atoms) := hexact.invertible hatom
  refine ⟨.new {change.id} (change.atoms.reverse.map Atom.inverse) ("Revert: " ++ change.intent)
    signer.1 signer.2, ?_, ?_, ?_⟩
  · rw [invertChange, invertAtoms_eq hinvertible]
    rfl
  · obtain ⟨next, hrun, hback⟩ := exists_run_inverses hexact
    rw [applySequence_eq_ok_iff]
    apply PartialAction.run_prod_eq_some_cons.mpr
    refine ⟨next, ?_, PartialAction.run_prod_eq_some_cons.mpr ⟨state, ?_, rfl⟩⟩
    · rwa [Change.effect_eq, hviolates]
    · have hinverse : Change.violates ⟨Repo.readBlob blobs, agentIgnore, sparse⟩
          (.new {change.id} (change.atoms.reverse.map Atom.inverse) ("Revert: " ++ change.intent)
            signer.1 signer.2) = false := by
        rw [← hsigner, Change.violates, Change.isRestricted, Change.new_author, Change.new_atoms,
          Change.isRestricted_inverse]
        rfl
      rwa [Change.effect_eq, hinverse]
  · set inverse := Change.new {change.id} (change.atoms.reverse.map Atom.inverse)
      ("Revert: " ++ change.intent) signer.1 signer.2
    refine ⟨.new {inverse.id} change.atoms ("Revert: " ++ inverse.intent) signer'.1 signer'.2, ?_,
      rfl⟩
    rw [invertChange, Change.new_atoms, invertAtoms_invertAtoms hinvertible]
    rfl

/-- An item that is deleted, inserted again with other content and deleted again. -/
theorem invertChange_restores_item :
    let at_ : NodePath := ["file", "a.rs", "fn_x"]
    let blobs : FMap Blake3Hash Bytes := FMap.insertAll ∅ [(2, [1]), (3, [2])]
    let env : ApplyEnv := ⟨@Repo.readBlob Crypto.sample blobs, fun _ _ => false, none⟩
    let change := Change.bare 1 ∅ [.delete at_ 2, .insert at_ 3, .delete at_ 3]
    let state : MaterializedState := Finmap.singleton at_ [1]
    let signer : Author × SigningKey := (.human "" "" 0, 0)
    ∃ inverse, @invertChange Crypto.sample (containsBlob blobs) change signer = .ok inverse
      ∧ applySequence env [change, inverse] state = .ok state
      ∧ ∃ back, @invertChange Crypto.sample (containsBlob blobs) inverse signer = .ok back
        ∧ back.atoms = change.atoms := by
  intro at_ blobs env change state signer
  have hexact : ExactFrom env state change.atoms := by
    refine ⟨[1], rfl, ?_⟩
    rw [if_neg (by decide)]
    refine ⟨rfl, [2], rfl, ?_⟩
    rw [if_neg (by decide)]
    refine ⟨rfl, [2], rfl, ?_⟩
    rw [if_neg (by decide)]
    exact ⟨rfl, trivial⟩
  exact @invertChange_restores Crypto.sample _ _ _ _ _ hexact rfl signer signer rfl

/-- An AI author cannot insert an item of `.agentignore`. -/
theorem invertChange_stopped_by_agentignore :
    ¬ ∀ (blobs : FMap Blake3Hash Bytes) (agentIgnore : Gitignore) (sparse : Option SparseMatcher)
      (change : Change) (state : MaterializedState) (signer signer' : Author × SigningKey),
      ExactFrom ⟨@Repo.readBlob Crypto.sample blobs, agentIgnore, sparse⟩ state change.atoms →
      ∃ inverse, @invertChange Crypto.sample (containsBlob blobs) change signer = .ok inverse
        ∧ applySequence ⟨@Repo.readBlob Crypto.sample blobs, agentIgnore, sparse⟩ [change, inverse]
          state = .ok state
        ∧ ∃ back, @invertChange Crypto.sample (containsBlob blobs) inverse signer' = .ok back
          ∧ back.atoms = change.atoms := by
  intro h
  let change := { Change.bare 1 ∅ [.insert ["file", ".agentignore", "x"] 2] with
    author := .ai "model" 0 }
  let blobs : FMap Blake3Hash Bytes := Finmap.singleton 2 [1]
  have hexact : ExactFrom ⟨@Repo.readBlob Crypto.sample blobs, fun _ _ => false, none⟩ ∅
      change.atoms := by
    refine ⟨[1], rfl, ?_⟩
    rw [if_neg (by decide)]
    exact ⟨rfl, trivial⟩
  obtain ⟨inverse, -, hrun, -⟩ := h blobs (fun _ _ => false) none change ∅ (.human "" "" 0, 0)
    (.human "" "" 0, 0) hexact
  have hstopped : applySequence ⟨@Repo.readBlob Crypto.sample blobs, fun _ _ => false, none⟩
      [change, inverse] ∅ = .error (.securityViolation ".agentignore") := rfl
  rw [hstopped] at hrun
  cases hrun

end ArcVcs
