import Mathlib.Data.List.Lex
import Mathlib.Data.String.Basic
import ArcVcs.Replay

/-!
# Merging heads

The algebraic part of `merge_heads`: the changes exclusive to each side of the lowest common
ancestors, the pairs of them that do not commute, and the conflict atoms recorded for these.
-/

namespace ArcVcs

/-! ## Overlapping paths -/

def longerPath (pa pb : NodePath) : NodePath := if pb.length ≤ pa.length then pa else pb

def findOverlappingPath (atomsA atomsB : List Atom) : Option NodePath :=
  atomsA.findSome? fun a => atomsB.findSome? fun b =>
    a.paths.findSome? fun pa => b.paths.findSome? fun pb =>
      if pathsOverlap pa pb then some (longerPath pa pb) else none

inductive MergeError where
  | missing
  | replay (error : ReplayError)
  | noOverlappingPath
  | noConflictAtoms
deriving DecidableEq

/-- The heads that a merge saves for the view, with the recorded conflict change if any. -/
structure MergeOutcome where
  heads : Finset Blake3Hash
  recorded : Option Change
deriving DecidableEq

def MergeOutcome.HasConflictAt (out : MergeOutcome) (path : NodePath) : Prop :=
  ∃ c ∈ out.recorded, ∃ bases sides, Atom.conflict bases sides path ∈ c.atoms

namespace ChangeGraph

/-! ## The two sides -/

def lcaAncestors (g : ChangeGraph) (current target : Finset Blake3Hash) : Finset Blake3Hash :=
  let lcaHeads := g.mergeBasesOrdered current target
  if lcaHeads = ∅ then ∅ else g.ancestors lcaHeads

/-- The changes of one side outside the ancestry of the lowest common ancestors. -/
def delta (g : ChangeGraph) (current target side : Finset Blake3Hash) : Finset Blake3Hash :=
  g.ancestors side \ g.lcaAncestors current target

/-- The inner loop of the commutation check. -/
def conflictsOf (g : ChangeGraph) (idA : Blake3Hash) (changeA : Change) :
    List Blake3Hash → Except MergeError (List (Blake3Hash × Blake3Hash))
  | [] => .ok []
  | idB :: deltaB =>
      match g.get idB with
      | none => .error .missing
      | some changeB =>
          match conflictsOf g idA changeA deltaB with
          | .error e => .error e
          | .ok pairs => .ok (if commutes changeA changeB then pairs else (idA, idB) :: pairs)

/-- The cross-product commutation check. -/
def conflictingPairs (g : ChangeGraph) (deltaB : List Blake3Hash) :
    List Blake3Hash → Except MergeError (List (Blake3Hash × Blake3Hash))
  | [] => .ok []
  | idA :: deltaA =>
      match g.get idA with
      | none => .error .missing
      | some changeA =>
          match conflictsOf g idA changeA deltaB with
          | .error e => .error e
          | .ok pairs =>
              match conflictingPairs g deltaB deltaA with
              | .error e => .error e
              | .ok rest => .ok (pairs ++ rest)

/-! ## The conflict change -/

/-- The first overlap of each pair, without repetition. -/
def conflictPaths (g : ChangeGraph) :
    List (Blake3Hash × Blake3Hash) → List NodePath → Except MergeError (List NodePath)
  | [], seen => .ok seen
  | (idA, idB) :: pairs, seen =>
      match g.get idA, g.get idB with
      | some changeA, some changeB =>
          match findOverlappingPath changeA.atoms changeB.atoms with
          | none => .error .noOverlappingPath
          | some overlap =>
              conflictPaths g pairs (if overlap ∈ seen then seen else seen ++ [overlap])
      | _, _ => .error .missing

def extractContentAtPath (state : MaterializedState) (path : NodePath) : Bytes :=
  (state.lookup path).getD []

/-- The three states that a conflict atom is built from. -/
structure ConflictStates where
  base : MaterializedState
  ours : MaterializedState
  theirs : MaterializedState

/-- The base, our and their content at a path, as written to the blob store. -/
def ConflictStates.blobs (states : ConflictStates) (path : NodePath) : List Bytes :=
  [extractContentAtPath states.base path, extractContentAtPath states.ours path,
    extractContentAtPath states.theirs path]

variable [Crypto]

def ConflictStates.atom (states : ConflictStates) (path : NodePath) : Atom :=
  .conflict [Crypto.hashBytes (extractContentAtPath states.base path)]
    ([Crypto.hashBytes (extractContentAtPath states.ours path),
      Crypto.hashBytes (extractContentAtPath states.theirs path)].insertionSort (· ≤ ·)) path

def ConflictStates.atoms (states : ConflictStates) (paths : List NodePath) : List Atom :=
  (paths.insertionSort (· ≤ ·)).map states.atom

/-- The state at the lowest common ancestors, empty when there are none. -/
def lcaState (g : ChangeGraph) (env : ApplyEnv) (current target : Finset Blake3Hash) :
    Except ReplayError MaterializedState :=
  let lcaHeads := g.mergeBasesOrdered current target
  if lcaHeads = ∅ then .ok ∅ else g.materializeHeads env lcaHeads

/-- What a merge found: no conflict, or the conflict paths of so many pairs. -/
inductive MergePlan where
  | union
  | conflict (pairs : ℕ) (states : ConflictStates) (paths : List NodePath)

/-- From the materialized current heads to the conflict atoms. -/
def mergePlan (g : ChangeGraph) (env : ApplyEnv) (current target : Finset Blake3Hash)
    (currentState : MaterializedState) : Except MergeError MergePlan :=
  match conflictingPairs g (g.delta current target target).sorted
      (g.delta current target current).sorted with
  | .error e => .error e
  | .ok pairs =>
      if pairs = [] then .ok .union
      else
        match g.materializeHeads env target with
        | .error e => .error (.replay e)
        | .ok targetState =>
            match g.lcaState env current target with
            | .error e => .error (.replay e)
            | .ok lcaState =>
                match conflictPaths g pairs [] with
                | .error e => .error e
                | .ok paths =>
                    if paths = [] then .error .noConflictAtoms
                    else .ok (.conflict pairs.length ⟨lcaState, currentState, targetState⟩ paths)

def mergeIntent (pairs : ℕ) : String := "merge conflict: " ++ toString pairs ++ " pair(s)"

def MergePlan.outcome (plan : MergePlan) (current target : Finset Blake3Hash)
    (signer : Author × SigningKey) : MergeOutcome :=
  match plan with
  | .union => ⟨current ∪ target, none⟩
  | .conflict pairs states paths =>
      let change := Change.new (current ∪ target) (states.atoms paths) (mergeIntent pairs)
        signer.1 signer.2
      ⟨{change.id}, some change⟩

def mergeHeads (g : ChangeGraph) (env : ApplyEnv) (current target : Finset Blake3Hash)
    (signer : Author × SigningKey) : Except MergeError MergeOutcome :=
  match g.materializeHeads env current with
  | .error e => .error (.replay e)
  | .ok currentState =>
      match g.mergePlan env current target currentState with
      | .error e => .error e
      | .ok plan => .ok (plan.outcome current target signer)

theorem exists_mergePlan_of_mergeHeads {g : ChangeGraph} {env : ApplyEnv}
    {current target : Finset Blake3Hash} {signer : Author × SigningKey} {out : MergeOutcome}
    (h : g.mergeHeads env current target signer = .ok out) :
    ∃ currentState plan, g.materializeHeads env current = .ok currentState
      ∧ g.mergePlan env current target currentState = .ok plan
      ∧ plan.outcome current target signer = out := by
  rw [mergeHeads] at h
  cases hcur : g.materializeHeads env current with
  | error e => simp [hcur] at h
  | ok currentState =>
      cases hplan : g.mergePlan env current target currentState with
      | error e => simp [hcur, hplan] at h
      | ok plan => exact ⟨currentState, plan, rfl, hplan, by simpa [hcur, hplan] using h⟩

end ChangeGraph

end ArcVcs
