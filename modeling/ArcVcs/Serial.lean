import ArcVcs.Verify

/-!
# Serialized changes

The bytes that `bincode` writes for a change and for the payload that identifies it. A record
holds its payload and four more fields, so it is longer, whatever the change.
-/

namespace ArcVcs

/-- What `serde` leaves to other code: how `blake3::Hash` serializes itself, the iteration order
of a `HashSet`, and the reading of a record. -/
class Serde where
  hash : Blake3Hash → Bytes
  iter : Finset Blake3Hash → List Blake3Hash
  iter_perm : ∀ s, (iter s).Perm s.sorted
  deserialize : Bytes → Option Change

namespace Bincode

/-- `n` as an array of `width` bytes, most significant first. -/
def array (width n : ℕ) : Bytes :=
  (List.range width).map fun i => UInt8.ofNat (n / 256 ^ (width - 1 - i))

def key (k : PublicKeyBytes) : Bytes := array 32 k.val

def signature (s : Signature) : Bytes := array 64 s.val

def bool (b : Bool) : Bytes := le 1 b.toNat

def option {α : Type*} (enc : α → Bytes) : Option α → Bytes
  | none => le 1 0
  | some a => le 1 1 ++ enc a

/-- A variant is its index and its fields. -/
def author : Author → Bytes
  | .human name email k => le 4 0 ++ str name ++ str email ++ key k
  | .ai model humanSponsor => le 4 1 ++ str model ++ key humanSponsor
  | .server canonicalId k => le 4 2 ++ str canonicalId ++ key k
  | .transient sessionId k => le 4 3 ++ str sessionId ++ key k

def authorType : AuthorType → Bytes
  | .human => le 4 0
  | .ai confidence humanSponsor =>
      le 4 1 ++ le 4 confidence.toNat ++ option key humanSponsor

@[simp] theorem length_le (width n : ℕ) : (le width n).length = width := by simp [le]

theorem length_vec {α : Type*} (enc : α → Bytes) (xs : List α) :
    (vec enc xs).length = 8 + (xs.map fun x => (enc x).length).sum := by
  simp [vec, List.length_flatMap]

theorem length_vec_perm {α : Type*} (enc : α → Bytes) {xs ys : List α} (h : xs.Perm ys) :
    (vec enc xs).length = (vec enc ys).length := by
  rw [length_vec, length_vec, (h.map _).sum_eq]

variable [Serde]

def coordinate (c : SpacetimeCoordinate) : Bytes := str c.ns ++ str c.repo ++ Serde.hash c.hash

def atom : Atom → Bytes
  | .insert at_ contentHash => le 4 0 ++ vec str at_ ++ contentHash.asBytes
  | .delete at_ priorHash => le 4 1 ++ vec str at_ ++ priorHash.asBytes
  | .move from_ to_ => le 4 2 ++ vec str from_ ++ vec str to_
  | .semanticsPreserving at_ description => le 4 3 ++ vec str at_ ++ str description
  | .directory path => le 4 4 ++ vec str path
  | .blob path hash size => le 4 5 ++ str path ++ Serde.hash hash ++ le 8 size.toNat
  | .mount path c => le 4 6 ++ vec str path ++ coordinate c
  | .conflict bases sides at_ => conflict bases sides at_

/-- The tuple that `compute_id` hashes. -/
def idPayload (p : IdPayload) : Bytes :=
  vec Blake3Hash.asBytes p.sortedDeps ++ vec atom p.atoms ++ str p.intent ++ author p.author

/-- A change, with its dependencies in the order in which the set iterates. -/
def change (deps : List Blake3Hash) (c : Change) : Bytes :=
  c.id.asBytes ++ vec Blake3Hash.asBytes deps ++ vec atom c.atoms ++ str c.intent
    ++ author c.author ++ signature c.signature ++ option Blake3Hash.asBytes c.collapsedFrom
    ++ authorType c.authorType ++ bool c.isGhost

/-- The bytes are those of the change, for some iteration order. -/
def Encodes (c : Change) (bytes : Bytes) : Prop :=
  ∃ deps : List Blake3Hash, deps.Perm c.deps.sorted ∧ bytes = change deps c

/-- `bincode::serialize` of a change. -/
def serialize (c : Change) : Bytes := change (Serde.iter c.deps) c

theorem encodes_serialize (c : Change) : Encodes c (serialize c) :=
  ⟨_, Serde.iter_perm c.deps, rfl⟩

/-! ## A record is longer than its payload -/

theorem length_atom_canonical (a : Atom) : (atom a.canonical).length = (atom a).length := by
  cases a with
  | conflict bases sides at_ =>
      have hsides := length_vec_perm Blake3Hash.asBytes (sides.perm_insertionSort (· ≤ ·))
      simp only [Atom.canonical, atom, conflict, List.length_append, hsides]
  | _ => rfl

theorem length_atoms_canonical (atoms : List Atom) :
    (vec atom (Change.canonicalizeAtomsForId atoms)).length = (vec atom atoms).length := by
  rw [Change.canonicalizeAtomsForId_eq, length_vec, length_vec, List.map_map]
  simp only [Function.comp_def, length_atom_canonical]

theorem length_payload_lt {c : Change} {bytes : Bytes} (h : Encodes c bytes) :
    (idPayload c.payload).length < bytes.length := by
  obtain ⟨deps, hperm, rfl⟩ := h
  have hdeps := length_vec_perm Blake3Hash.asBytes hperm
  have hatoms := length_atoms_canonical c.atoms
  simp only [idPayload, change, Change.payload, List.length_append, Blake3Hash.length_asBytes]
  omega

/-- **The record of a change is not its payload.** -/
theorem ne_payload {c : Change} {bytes : Bytes} (h : Encodes c bytes) :
    bytes ≠ idPayload c.payload := by
  rintro rfl
  exact lt_irrefl _ (length_payload_lt h)

end Bincode

/-- Ids are hashes of serialized payloads. -/
class LawfulCrypto [Crypto] [Serde] : Prop where
  hashPayload_eq : ∀ p, Crypto.hashPayload p = Crypto.hashBytes (Bincode.idPayload p)

theorem hashBytes_ne_id [Crypto] [Ed25519] [Serde] [LawfulCrypto] {c : Change} {bytes : Bytes}
    (hbytes : Bincode.Encodes c bytes) (hc : c.verifySignature = true)
    (hinj : Set.InjOn Crypto.hashBytes {bytes, Bincode.idPayload c.payload}) :
    Crypto.hashBytes bytes ≠ c.id := by
  intro heq
  have hid : Crypto.hashBytes (Bincode.idPayload c.payload) = c.id := by
    rw [← LawfulCrypto.hashPayload_eq, (Change.verifySignature_iff.mp hc).1]
  exact Bincode.ne_payload hbytes (hinj (by simp) (by simp) (heq.trans hid.symm))

/-! ## An instance that is easy to evaluate -/

/-- Sets iterate in order. A record is read back where it is one of those listed. -/
@[reducible] def Serde.sample (records : List (Bytes × Change)) : Serde where
  hash := Blake3Hash.asBytes
  iter := Finset.sorted
  iter_perm _ := List.Perm.refl _
  deserialize bytes := (records.find? fun record => decide (record.1 = bytes)).map Prod.snd

/-- Hashes of bytes, also for the payloads. -/
@[reducible] def Crypto.ofBytes [Serde] : Crypto where
  hashPayload p := Crypto.sample.hashBytes (Bincode.idPayload p)
  hashBytes := Crypto.sample.hashBytes
  sign := Crypto.sample.sign

theorem Crypto.ofBytes_lawful [Serde] : @LawfulCrypto Crypto.ofBytes _ :=
  @LawfulCrypto.mk Crypto.ofBytes _ fun _ => rfl

/-- A change signed with the sample primitives, whose ids are hashes of bytes. -/
def recordedChange : Change :=
  @Change.newWithMetadata (@Crypto.ofBytes (Serde.sample [])) ∅ [.directory ["src"]] "add"
    (.human "" "" 7) .human false 7

def recordedBytes : Bytes := @Bincode.serialize (Serde.sample []) recordedChange

end ArcVcs
