import ArcVcs.Commute
import ArcVcs.Graph

/-!
# The history mutator

`squash_into` and `reorder` of `arc-engine`, with the validation of the spine and of the
selected chain.
-/

namespace ArcVcs

inductive MutatorError where
  | targetNotFound (id : Blake3Hash)
  | targetNotAncestor (id : Blake3Hash)
  | nonLinearChain
  | invalidReorderSet
  | nonCommutingPair (left right : Blake3Hash)
  /-- The panic of `topological_sort`, which an indexed graph does not reach. -/
  | topologicalSort
deriving DecidableEq

structure SquashOutcome where
  squashed : Change
  rewriteMap : FMap Blake3Hash Blake3Hash
deriving DecidableEq

structure ReorderOutcome where
  rewritten : List Change
  rewriteMap : FMap Blake3Hash Blake3Hash
  newHead : Blake3Hash
deriving DecidableEq

namespace Mutator

/-! ## Squash -/

def childrenInSpine (g : ChangeGraph) (spine : List Blake3Hash) (id : Blake3Hash) :
    List Blake3Hash :=
  (g.childIds id).filter (· ∈ spine)

/-- The last member of the spine has no child in it and every other member has one. -/
def isLinearSpine (g : ChangeGraph) (spine : List Blake3Hash) : Bool :=
  spine.all fun id =>
    (childrenInSpine g spine id).length = if spine.getLast? = some id then 0 else 1

/-- The part of a topological order from the target on. -/
def spineOf (topo : List Blake3Hash) (targetId : Blake3Hash) : List Blake3Hash :=
  topo.drop (topo.idxOf targetId)

def collectLinearSpine (g : ChangeGraph) (viewHeads : Finset Blake3Hash)
    (targetId : Blake3Hash) : Except MutatorError (List Blake3Hash) :=
  if targetId ∉ g.ancestors viewHeads ∧ targetId ∉ viewHeads then
    .error (.targetNotAncestor targetId)
  else
    match g.topologicalSort viewHeads with
    | none => .error .topologicalSort
    | some topo =>
        if targetId ∉ topo then .error (.targetNotFound targetId)
        else
          let spine := spineOf topo targetId
          if spine.length < 2 then .ok spine
          else if isLinearSpine g spine then .ok spine
          else .error .nonLinearChain

def spineAtoms (g : ChangeGraph) : List Blake3Hash → Except MutatorError (List Atom)
  | [] => .ok []
  | id :: ids =>
      match g.get id with
      | none => .error (.targetNotFound id)
      | some change =>
          match spineAtoms g ids with
          | .error e => .error e
          | .ok atoms => .ok (change.atoms ++ atoms)

def squashIntent (count : ℕ) (intent : String) : String :=
  "Squash: " ++ toString count ++ " changes into \"" ++ intent ++ "\""

def squashInto [Crypto] (g : ChangeGraph) (viewHeads : Finset Blake3Hash)
    (targetId : Blake3Hash) (signer : Author × SigningKey) :
    Except MutatorError SquashOutcome :=
  match g.get targetId with
  | none => .error (.targetNotFound targetId)
  | some target =>
      match collectLinearSpine g viewHeads targetId with
      | .error e => .error e
      | .ok spine =>
          match spineAtoms g spine with
          | .error e => .error e
          | .ok atoms =>
              let squashed := Change.rewrittenOrResigned target target.deps atoms
                (squashIntent spine.length target.intent) signer.1 signer.2
              .ok ⟨squashed, FMap.insertAll ∅ (spine.map fun id => (id, squashed.id))⟩

/-! ## Reorder -/

def parentsInSelected (g : ChangeGraph) (selected : Finset Blake3Hash) (id : Blake3Hash) :
    List Blake3Hash :=
  (g.parentIds id).filter (· ∈ selected)

def childrenInSelected (g : ChangeGraph) (selected : Finset Blake3Hash) (id : Blake3Hash) :
    List Blake3Hash :=
  (g.childIds id).filter (· ∈ selected)

/-- Follow the only child inside the selection. A repeated change is an error, so the walk ends
within the size of the selection. -/
def walkChain (g : ChangeGraph) (selected : Finset Blake3Hash) :
    ℕ → Blake3Hash → List Blake3Hash → Except MutatorError (List Blake3Hash)
  | 0, _, _ => .error .nonLinearChain
  | fuel + 1, current, ordered =>
      if current ∈ ordered then .error .nonLinearChain
      else
        match childrenInSelected g selected current with
        | [] => .ok (ordered ++ [current])
        | child :: _ => walkChain g selected fuel child (ordered ++ [current])

def resolveLinearChain (g : ChangeGraph) (selected : Finset Blake3Hash) :
    Except MutatorError (List Blake3Hash) :=
  if selected.sorted.any fun id =>
      1 < (parentsInSelected g selected id).length
        || 1 < (childrenInSelected g selected id).length then
    .error .nonLinearChain
  else
    match selected.sorted.filter fun id => (parentsInSelected g selected id).isEmpty with
    | [root] =>
        match walkChain g selected (selected.card + 1) root [] with
        | .error e => .error e
        | .ok ordered =>
            if ordered.length ≠ selected.card then .error .nonLinearChain else .ok ordered
    | _ => .error .nonLinearChain

/-- Swap two neighbours, dropping the direct dependency of the right one on the left one. -/
def commuteLinearPair [Crypto] (left right : Change) (signer : Author × SigningKey) :
    Option (Change × Change) :=
  if left.id ∈ right.deps then
    commutePair left { right with deps := right.deps.erase left.id } signer
  else commutePair left right signer

structure WorkingChange where
  origin : Blake3Hash
  change : Change

/-- One pass of the bubble sort, with whether it swapped anything. The current element is
compared with the head of the rest. -/
def bubblePass [Crypto] (pos : Blake3Hash → ℕ) (signer : Author × SigningKey)
    (current : WorkingChange) :
    List WorkingChange → Except MutatorError (List WorkingChange × Bool)
  | [] => .ok ([current], false)
  | next :: rest =>
      if pos current.origin ≤ pos next.origin then
        match bubblePass pos signer next rest with
        | .error e => .error e
        | .ok (ws, swapped) => .ok (current :: ws, swapped)
      else
        match commuteLinearPair current.change next.change signer with
        | none => .error (.nonCommutingPair current.origin next.origin)
        | some (newLeft, newRight) =>
            match bubblePass pos signer ⟨current.origin, newRight⟩ rest with
            | .error e => .error e
            | .ok (ws, _) => .ok (⟨next.origin, newLeft⟩ :: ws, true)

/-- Passes until one swaps nothing, at most `fuel` of them. -/
def bubbleSort [Crypto] (pos : Blake3Hash → ℕ) (signer : Author × SigningKey) :
    ℕ → List WorkingChange → Except MutatorError (List WorkingChange)
  | 0, ws => .ok ws
  | _ + 1, [] => .ok []
  | fuel + 1, w :: ws =>
      match bubblePass pos signer w ws with
      | .error e => .error e
      | .ok (ws', swapped) => if swapped then bubbleSort pos signer fuel ws' else .ok ws'

/-- The dependencies of a rewritten change: external ones stay, selected ones are mapped when
already rewritten and dropped otherwise, and the previous change of the chain is added. -/
def rewrittenDeps (selected : Finset Blake3Hash) (raw : FMap Blake3Hash Blake3Hash)
    (prev : Option Blake3Hash) (deps : Finset Blake3Hash) : Finset Blake3Hash :=
  (deps.filter fun dep => dep ∉ selected)
    ∪ ((deps.filter fun dep => dep ∈ selected).biUnion fun dep => (raw.lookup dep).toFinset)
    ∪ prev.toFinset

def rewriteChain [Crypto] (selected : Finset Blake3Hash) (signer : Author × SigningKey) :
    List WorkingChange → FMap Blake3Hash Blake3Hash → Option Blake3Hash →
      List Change × FMap Blake3Hash Blake3Hash
  | [], raw, _ => ([], raw)
  | w :: ws, raw, prev =>
      let change := Change.rewrittenOrResigned w.change
        (rewrittenDeps selected raw prev w.change.deps) w.change.atoms w.change.intent
        signer.1 signer.2
      let rest := rewriteChain selected signer ws (raw.insert w.origin change.id) (some change.id)
      (change :: rest.1, rest.2)

/-- The selected changes as the bubble sort starts on them. -/
def workingChanges (g : ChangeGraph) (order : List Blake3Hash) : List WorkingChange :=
  order.filterMap fun id => (g.get id).map fun change => ⟨id, change⟩

def reorder [Crypto] (g : ChangeGraph) (desiredOrder : List Blake3Hash)
    (signer : Author × SigningKey) : Except MutatorError ReorderOutcome :=
  if desiredOrder.length < 2 then .error .invalidReorderSet
  else if ¬ desiredOrder.Nodup ∨ desiredOrder.any (fun id => (g.get id).isNone) then
    .error .invalidReorderSet
  else
    match resolveLinearChain g desiredOrder.toFinset with
    | .error e => .error e
    | .ok currentOrder =>
        if currentOrder.toFinset ≠ desiredOrder.toFinset then .error .invalidReorderSet
        else
          match bubbleSort desiredOrder.idxOf signer currentOrder.length
              (workingChanges g currentOrder) with
          | .error e => .error e
          | .ok working =>
              if working.map WorkingChange.origin ≠ desiredOrder then .error .nonLinearChain
              else
                let (rewritten, rewriteMap) :=
                  rewriteChain desiredOrder.toFinset signer working ∅ none
                match rewritten.getLast? with
                | none => .error .invalidReorderSet
                | some last => .ok ⟨rewritten, rewriteMap, last.id⟩

end Mutator

end ArcVcs
