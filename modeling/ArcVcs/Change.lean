import ArcVcs.Atom
import ArcVcs.Lib.Collections

/-!
# Changes

The unit of history of `arc-change`. The identity of a change is a hash of its sorted
dependencies, its canonical atoms, its intent and its author.
-/

namespace ArcVcs

abbrev PublicKeyBytes := Fin (2 ^ 256)

abbrev Signature := Fin (2 ^ 512)

abbrev SigningKey := Fin (2 ^ 256)

inductive Author where
  | human (name email : String) (key : PublicKeyBytes)
  | ai (model : String) (humanSponsor : PublicKeyBytes)
  | server (canonicalId : String) (key : PublicKeyBytes)
  | transient (sessionId : String) (key : PublicKeyBytes)
deriving DecidableEq

def Author.isAi : Author → Bool
  | ai .. => true
  | _ => false

/-- Author classification of ghost-node governance. The confidence is kept as its bits. -/
inductive AuthorType where
  | human
  | ai (confidence : UInt32) (humanSponsor : Option PublicKeyBytes)
deriving DecidableEq

/-- What is serialized and hashed to identify a change. -/
structure IdPayload where
  sortedDeps : List Blake3Hash
  atoms : List Atom
  intent : String
  author : Author
deriving DecidableEq

/-- The primitives of `blake3`, `bincode` and `ed25519_dalek` that the model uses. -/
class Crypto where
  /-- `blake3::hash` of the serialized identity payload. -/
  hashPayload : IdPayload → Blake3Hash
  /-- `blake3::hash` of raw content. -/
  hashBytes : Bytes → Blake3Hash
  sign : SigningKey → Blake3Hash → Signature

/-- Primitives that are easy to evaluate. An id is larger than those of its dependencies. -/
@[reducible] def Crypto.sample : Crypto where
  hashPayload p := .ofNat
    ((p.intent.toList.map Char.toNat).sum + 997 * p.atoms.length
      + 1009 * (p.sortedDeps.map fun d => d.toNat + 1).sum)
  hashBytes b := .ofNat (b.foldl (fun acc x => 257 * acc + x.toNat + 1) 0)
  sign key id := Fin.ofNat _ (key.val + id.toNat)

structure Change where
  id : Blake3Hash
  deps : Finset Blake3Hash
  atoms : List Atom
  intent : String
  author : Author
  signature : Signature
  collapsedFrom : Option Blake3Hash
  authorType : AuthorType
  isGhost : Bool
deriving DecidableEq

namespace Change

/-- A human change with a given id, for small graphs. -/
def bare (id : Blake3Hash) (deps : Finset Blake3Hash) (atoms : List Atom) : Change :=
  ⟨id, deps, atoms, "", .human "" "" 0, 0, none, .human, false⟩

/-- Conflict sides are sorted so that merge order does not affect the identity. -/
def canonicalizeAtomsForId (atoms : List Atom) : List Atom :=
  atoms.map fun
    | .conflict bases sides at_ => .conflict bases (sides.insertionSort (· ≤ ·)) at_
    | atom => atom

/-- What the id of a change is a hash of. -/
def payload (change : Change) : IdPayload :=
  ⟨change.deps.sorted, canonicalizeAtomsForId change.atoms, change.intent, change.author⟩

theorem deps_eq_of_payload_eq {c c' : Change} (h : c.payload = c'.payload) : c.deps = c'.deps := by
  have hs : c.deps.sorted = c'.deps.sorted := congrArg IdPayload.sortedDeps h
  exact Finset.ext fun x => by rw [← Finset.mem_sorted, hs, Finset.mem_sorted]

/-- The tombstone of a change: its id without its content. -/
def erased (change : Change) : Change :=
  { change with deps := ∅, atoms := [], intent := "" }

variable [Crypto]

def computeId (deps : Finset Blake3Hash) (atoms : List Atom) (intent : String)
    (author : Author) : Blake3Hash :=
  Crypto.hashPayload ⟨deps.sorted, canonicalizeAtomsForId atoms, intent, author⟩

def newWithMetadata (deps : Finset Blake3Hash) (atoms : List Atom) (intent : String)
    (author : Author) (authorType : AuthorType) (isGhost : Bool) (signingKey : SigningKey) :
    Change :=
  let id := computeId deps atoms intent author
  { id, deps, atoms, intent, author, signature := Crypto.sign signingKey id,
    collapsedFrom := none, authorType, isGhost }

def new (deps : Finset Blake3Hash) (atoms : List Atom) (intent : String) (author : Author)
    (signingKey : SigningKey) : Change :=
  newWithMetadata deps atoms intent author .human false signingKey

/-- A signed change that inserts one item, as `Crypto.sample` identifies it. -/
def sample (deps : Finset Blake3Hash) (item intent : String) : Change :=
  @newWithMetadata Crypto.sample deps [.insert ["file", item] 1] intent (.human "" "" 0) .human
    false 0

/-- A rewritten change, which keeps the signature only when the payload is identical. -/
def rewrittenOrResigned (original : Change) (deps : Finset Blake3Hash) (atoms : List Atom)
    (intent : String) (author : Author) (signingKey : SigningKey) : Change :=
  let id := computeId deps atoms intent author
  if id = original.id ∧ author = original.author then
    { id, deps, atoms, intent, author, signature := original.signature,
      collapsedFrom := original.collapsedFrom, authorType := original.authorType,
      isGhost := original.isGhost }
  else
    { id, deps, atoms, intent, author, signature := Crypto.sign signingKey id,
      collapsedFrom := original.collapsedFrom, authorType := original.authorType,
      isGhost := original.isGhost }

/-- A change re-signed under a new author, which names the original in `collapsed_from`. -/
def newCanonical (deps : Finset Blake3Hash) (atoms : List Atom) (intent : String)
    (author : Author) (signingKey : SigningKey) (originalId : Blake3Hash) : Change :=
  let id := computeId deps atoms intent author
  { id, deps, atoms, intent, author, signature := Crypto.sign signingKey id,
    collapsedFrom := some originalId, authorType := .human, isGhost := false }

section Fields

variable (original : Change) (deps : Finset Blake3Hash) (atoms : List Atom) (intent : String)
  (author : Author) (key : SigningKey)

@[simp] theorem new_id : (new deps atoms intent author key).id
    = computeId deps atoms intent author := rfl

@[simp] theorem new_deps : (new deps atoms intent author key).deps = deps := rfl

@[simp] theorem new_atoms : (new deps atoms intent author key).atoms = atoms := rfl

@[simp] theorem new_intent : (new deps atoms intent author key).intent = intent := rfl

@[simp] theorem new_author : (new deps atoms intent author key).author = author := rfl

@[simp] theorem rewrittenOrResigned_id :
    (rewrittenOrResigned original deps atoms intent author key).id
      = computeId deps atoms intent author := by
  unfold rewrittenOrResigned
  dsimp only
  split_ifs <;> rfl

@[simp] theorem rewrittenOrResigned_deps :
    (rewrittenOrResigned original deps atoms intent author key).deps = deps := by
  unfold rewrittenOrResigned
  dsimp only
  split_ifs <;> rfl

@[simp] theorem rewrittenOrResigned_atoms :
    (rewrittenOrResigned original deps atoms intent author key).atoms = atoms := by
  unfold rewrittenOrResigned
  dsimp only
  split_ifs <;> rfl

@[simp] theorem rewrittenOrResigned_intent :
    (rewrittenOrResigned original deps atoms intent author key).intent = intent := by
  unfold rewrittenOrResigned
  dsimp only
  split_ifs <;> rfl

@[simp] theorem rewrittenOrResigned_author :
    (rewrittenOrResigned original deps atoms intent author key).author = author := by
  unfold rewrittenOrResigned
  dsimp only
  split_ifs <;> rfl

end Fields

end Change

end ArcVcs
