import ArcVcs.Lib.SelfDelimiting
import ArcVcs.Serial

/-!
# The preimage of a change id

Every part of the payload that `compute_id` hashes can be read off the front of the bytes that
`bincode` writes for it. So the bytes determine the payload, and the id determines the content of
the change up to the order of conflict sides.
-/

namespace ArcVcs

/-- `blake3::Hash` is serialized as an array of its bytes. -/
class LawfulSerde [Serde] : Prop where
  hash_injective : Function.Injective Serde.hash
  length_hash : ∀ h h', (Serde.hash h).length = (Serde.hash h').length

/-! ## Lengths in memory -/

/-- A length that a `Vec` or a `String` can have. -/
def FitsLength (n : ℕ) : Prop := n < 256 ^ 8

def FitsStr (s : String) : Prop := FitsLength (utf8 s).length

def FitsPath (path : NodePath) : Prop :=
  (∀ segment ∈ path, FitsStr segment) ∧ FitsLength path.length

def SpacetimeCoordinate.Fits (c : SpacetimeCoordinate) : Prop := FitsStr c.ns ∧ FitsStr c.repo

def Atom.Fits : Atom → Prop
  | insert at_ _ | delete at_ _ => FitsPath at_
  | move from_ to_ => FitsPath from_ ∧ FitsPath to_
  | semanticsPreserving at_ description => FitsPath at_ ∧ FitsStr description
  | directory path => FitsPath path
  | blob path _ _ => FitsStr path
  | mount path coordinate => FitsPath path ∧ coordinate.Fits
  | conflict bases sides at_ => FitsLength bases.length ∧ FitsLength sides.length ∧ FitsPath at_

def Author.Fits : Author → Prop
  | human name email _ => FitsStr name ∧ FitsStr email
  | ai model _ => FitsStr model
  | server canonicalId _ => FitsStr canonicalId
  | transient sessionId _ => FitsStr sessionId

structure IdPayload.Fits (p : IdPayload) : Prop where
  deps : FitsLength p.sortedDeps.length
  atoms : (∀ a ∈ p.atoms, a.Fits) ∧ FitsLength p.atoms.length
  intent : FitsStr p.intent
  author : p.author.Fits

/-- The parts of a change that its id covers fit into memory. -/
structure Change.Fits (c : Change) : Prop where
  deps : FitsLength c.deps.card
  atoms : (∀ a ∈ c.atoms, a.Fits) ∧ FitsLength c.atoms.length
  intent : FitsStr c.intent
  author : c.author.Fits

instance : DecidablePred FitsLength := fun n => inferInstanceAs (Decidable (n < 256 ^ 8))

instance : DecidablePred FitsStr := fun s =>
  inferInstanceAs (Decidable (FitsLength (utf8 s).length))

instance : DecidablePred FitsPath := fun _ => inferInstanceAs (Decidable (_ ∧ _))

instance : DecidablePred SpacetimeCoordinate.Fits := fun _ => inferInstanceAs (Decidable (_ ∧ _))

instance : DecidablePred Atom.Fits
  | .insert at_ _ | .delete at_ _ | .directory at_ => inferInstanceAs (Decidable (FitsPath at_))
  | .move _ _ | .semanticsPreserving _ _ | .mount _ _ => inferInstanceAs (Decidable (_ ∧ _))
  | .blob path _ _ => inferInstanceAs (Decidable (FitsStr path))
  | .conflict _ _ _ => inferInstanceAs (Decidable (_ ∧ _ ∧ _))

instance : DecidablePred Author.Fits
  | .human _ _ _ => inferInstanceAs (Decidable (_ ∧ _))
  | .ai name _ | .server name _ | .transient name _ => inferInstanceAs (Decidable (FitsStr name))

instance : DecidablePred Change.Fits := fun c =>
  decidable_of_iff (FitsLength c.deps.card ∧ ((∀ a ∈ c.atoms, a.Fits) ∧ FitsLength c.atoms.length)
      ∧ FitsStr c.intent ∧ c.author.Fits)
    ⟨fun ⟨hdeps, hatoms, hintent, hauthor⟩ => ⟨hdeps, hatoms, hintent, hauthor⟩,
      fun h => ⟨h.deps, h.atoms, h.intent, h.author⟩⟩

theorem Atom.Fits.canonical {a : Atom} (h : a.Fits) : a.canonical.Fits := by
  cases a with
  | conflict bases sides at_ =>
      rw [Fits] at h
      rw [Atom.canonical, Fits, List.length_insertionSort]
      exact h
  | _ => exact h

theorem Change.Fits.payload {c : Change} (h : c.Fits) : c.payload.Fits where
  deps := by
    rw [Change.payload, Finset.length_sorted]
    exact h.deps
  atoms := by
    rw [Change.payload, canonicalizeAtomsForId_eq, List.length_map]
    refine ⟨fun a ha => ?_, h.atoms.2⟩
    obtain ⟨b, hb, rfl⟩ := List.mem_map.mp ha
    exact (h.atoms.1 b hb).canonical
  intent := h.intent
  author := h.author

namespace Bincode

/-! ## Numbers, texts and lists -/

theorem selfDelimiting_le (width : ℕ) : SelfDelimiting (le width) (· < 256 ^ width) :=
  .of_length (fun _ hn _ hm heq => Nat.eq_of_littleEndian hn hm heq) fun n _ => length_le width n

theorem selfDelimiting_array (width : ℕ) : SelfDelimiting (array width) (· < 256 ^ width) :=
  .of_length (n := width) (fun _ hn _ hm heq => Nat.eq_of_bigEndian hn hm heq)
    fun n _ => by simp [array]

theorem selfDelimiting_asBytes : SelfDelimiting Blake3Hash.asBytes fun _ => True :=
  .of_length Blake3Hash.asBytes_injective.injOn fun h _ => h.length_asBytes

theorem selfDelimiting_key : SelfDelimiting key fun _ => True :=
  ((selfDelimiting_array 32).comap Fin.val_injective).mono fun k _ => k.isLt

theorem selfDelimiting_str : SelfDelimiting str FitsStr :=
  ((selfDelimiting_le 8).variants (P := fun _ => True) fun s =>
    .of_length (n := (utf8 s).length) utf8_injective.injOn fun _ h => h.2).mono
      fun _ h => ⟨trivial, h⟩

theorem selfDelimiting_vec {α : Type} {enc : α → Bytes} {P : α → Prop}
    (h : SelfDelimiting enc P) :
    SelfDelimiting (vec enc) fun l => (∀ a ∈ l, P a) ∧ FitsLength l.length :=
  h.prefixed (selfDelimiting_le 8)

theorem selfDelimiting_hashes :
    SelfDelimiting (vec Blake3Hash.asBytes) fun l => FitsLength l.length :=
  (selfDelimiting_vec selfDelimiting_asBytes).mono fun _ h => ⟨fun _ _ => trivial, h⟩

theorem selfDelimiting_path : SelfDelimiting (vec str) FitsPath :=
  selfDelimiting_vec selfDelimiting_str

/-! ## Authors and atoms -/

def authorIndex : Author → ℕ
  | .human .. => 0
  | .ai .. => 1
  | .server .. => 2
  | .transient .. => 3

def authorFields : Author → Bytes
  | .human name email k => str name ++ (str email ++ key k)
  | .ai model k => str model ++ key k
  | .server canonicalId k => str canonicalId ++ key k
  | .transient sessionId k => str sessionId ++ key k

theorem author_eq (a : Author) : author a = le 4 (authorIndex a) ++ authorFields a := by
  cases a <;> simp [author, authorIndex, authorFields]

theorem authorIndex_lt (a : Author) : authorIndex a < 256 ^ 4 := by
  cases a <;> simp [authorIndex]

theorem selfDelimiting_authorFields (author : Author) :
    SelfDelimiting authorFields fun a => a.Fits ∧ authorIndex a = authorIndex author := by
  have hnamed := selfDelimiting_str.append selfDelimiting_key
  cases author with
  | human =>
      refine (selfDelimiting_str.append hnamed).image (fun p => .human p.1 p.2.1 p.2.2)
        (fun _ => rfl) fun a ha => ?_
      cases a with
      | human name email k => exact ⟨(name, email, k), ⟨ha.1.1, ha.1.2, trivial⟩, rfl⟩
      | _ => cases ha.2
  | ai =>
      refine hnamed.image (fun p => .ai p.1 p.2) (fun _ => rfl) fun a ha => ?_
      cases a with
      | ai model k => exact ⟨(model, k), ⟨ha.1, trivial⟩, rfl⟩
      | _ => cases ha.2
  | server =>
      refine hnamed.image (fun p => .server p.1 p.2) (fun _ => rfl) fun a ha => ?_
      cases a with
      | server canonicalId k => exact ⟨(canonicalId, k), ⟨ha.1, trivial⟩, rfl⟩
      | _ => cases ha.2
  | transient =>
      refine hnamed.image (fun p => .transient p.1 p.2) (fun _ => rfl) fun a ha => ?_
      cases a with
      | transient sessionId k => exact ⟨(sessionId, k), ⟨ha.1, trivial⟩, rfl⟩
      | _ => cases ha.2

theorem selfDelimiting_author : SelfDelimiting author Author.Fits := by
  rw [show author = fun a => le 4 (authorIndex a) ++ authorFields a from funext author_eq]
  exact ((selfDelimiting_le 4).variants selfDelimiting_authorFields).mono
    fun a h => ⟨h, authorIndex_lt a⟩

section Atoms

variable [Serde]

def atomIndex : Atom → ℕ
  | .insert .. => 0
  | .delete .. => 1
  | .move .. => 2
  | .semanticsPreserving .. => 3
  | .directory .. => 4
  | .blob .. => 5
  | .mount .. => 6
  | .conflict .. => 7

def atomFields : Atom → Bytes
  | .insert at_ contentHash => vec str at_ ++ contentHash.asBytes
  | .delete at_ priorHash => vec str at_ ++ priorHash.asBytes
  | .move from_ to_ => vec str from_ ++ vec str to_
  | .semanticsPreserving at_ description => vec str at_ ++ str description
  | .directory path => vec str path
  | .blob path hash size => str path ++ (Serde.hash hash ++ le 8 size.toNat)
  | .mount path c => vec str path ++ coordinate c
  | .conflict bases sides at_ =>
      vec Blake3Hash.asBytes bases ++ (vec Blake3Hash.asBytes sides ++ vec str at_)

theorem atom_eq (a : Atom) : atom a = le 4 (atomIndex a) ++ atomFields a := by
  cases a <;> simp [atom, conflict, atomIndex, atomFields]

omit [Serde] in
theorem atomIndex_lt (a : Atom) : atomIndex a < 256 ^ 4 := by
  cases a <;> simp [atomIndex]

variable [LawfulSerde]

theorem selfDelimiting_hash : SelfDelimiting Serde.hash fun _ => True :=
  .of_length LawfulSerde.hash_injective.injOn fun h _ => LawfulSerde.length_hash h 0

theorem selfDelimiting_coordinate : SelfDelimiting coordinate SpacetimeCoordinate.Fits := by
  refine (selfDelimiting_str.append (selfDelimiting_str.append selfDelimiting_hash)).image
    (fun p => ⟨p.1, p.2.1, p.2.2⟩) (fun _ => List.append_assoc ..) fun c hc => ?_
  exact ⟨(c.ns, c.repo, c.hash), ⟨hc.1, hc.2, trivial⟩, rfl⟩

theorem selfDelimiting_atomFields (atom : Atom) :
    SelfDelimiting atomFields fun a => a.Fits ∧ atomIndex a = atomIndex atom := by
  have hhashed := selfDelimiting_path.append selfDelimiting_asBytes
  cases atom with
  | insert =>
      refine hhashed.image (fun p => .insert p.1 p.2) (fun _ => rfl) fun a ha => ?_
      cases a with
      | insert at_ hash => exact ⟨(at_, hash), ⟨ha.1, trivial⟩, rfl⟩
      | _ => cases ha.2
  | delete =>
      refine hhashed.image (fun p => .delete p.1 p.2) (fun _ => rfl) fun a ha => ?_
      cases a with
      | delete at_ hash => exact ⟨(at_, hash), ⟨ha.1, trivial⟩, rfl⟩
      | _ => cases ha.2
  | move =>
      refine (selfDelimiting_path.append selfDelimiting_path).image (fun p => .move p.1 p.2)
        (fun _ => rfl) fun a ha => ?_
      cases a with
      | move from_ to_ => exact ⟨(from_, to_), ha.1, rfl⟩
      | _ => cases ha.2
  | semanticsPreserving =>
      refine (selfDelimiting_path.append selfDelimiting_str).image
        (fun p => .semanticsPreserving p.1 p.2) (fun _ => rfl) fun a ha => ?_
      cases a with
      | semanticsPreserving at_ description => exact ⟨(at_, description), ha.1, rfl⟩
      | _ => cases ha.2
  | directory =>
      refine selfDelimiting_path.image .directory (fun _ => rfl) fun a ha => ?_
      cases a with
      | directory path => exact ⟨path, ha.1, rfl⟩
      | _ => cases ha.2
  | blob =>
      refine (selfDelimiting_str.append (selfDelimiting_hash.append
        ((selfDelimiting_le 8).comap fun _ _ => UInt64.toNat_inj.mp))).image
        (fun p => .blob p.1 p.2.1 p.2.2) (fun _ => rfl) fun a ha => ?_
      cases a with
      | blob path hash size => exact ⟨(path, hash, size), ⟨ha.1, trivial, size.toNat_lt⟩, rfl⟩
      | _ => cases ha.2
  | mount =>
      refine (selfDelimiting_path.append selfDelimiting_coordinate).image (fun p => .mount p.1 p.2)
        (fun _ => rfl) fun a ha => ?_
      cases a with
      | mount path coordinate => exact ⟨(path, coordinate), ha.1, rfl⟩
      | _ => cases ha.2
  | conflict =>
      refine (selfDelimiting_hashes.append (selfDelimiting_hashes.append selfDelimiting_path)).image
        (fun p => .conflict p.1 p.2.1 p.2.2) (fun _ => rfl) fun a ha => ?_
      cases a with
      | conflict bases sides at_ => exact ⟨(bases, sides, at_), ha.1, rfl⟩
      | _ => cases ha.2

theorem selfDelimiting_atom : SelfDelimiting atom Atom.Fits := by
  rw [show atom = fun a => le 4 (atomIndex a) ++ atomFields a from funext atom_eq]
  exact ((selfDelimiting_le 4).variants selfDelimiting_atomFields).mono
    fun a h => ⟨h, atomIndex_lt a⟩

/-- **The bytes of a payload determine it.** -/
theorem idPayload_injOn : Set.InjOn idPayload {p | p.Fits} := by
  have h := selfDelimiting_hashes.append ((selfDelimiting_vec selfDelimiting_atom).append
    (selfDelimiting_str.append selfDelimiting_author))
  refine (h.image (P := IdPayload.Fits) (fun p => ⟨p.1, p.2.1, p.2.2.1, p.2.2.2⟩)
    (fun _ => by simp [idPayload]) fun p hp => ?_).injOn
  exact ⟨(p.sortedDeps, p.atoms, p.intent, p.author),
    ⟨hp.deps, hp.atoms, hp.intent, hp.author⟩, rfl⟩

end Atoms

end Bincode

namespace Change

variable [Crypto] [Serde] [LawfulCrypto] [LawfulSerde]

/-- **The preimage of a change id is injective.** Unless their payloads collide, changes have one
id exactly when they have the same dependencies, intent and author, and the same atoms up to the
order of conflict sides. -/
theorem computeId_eq_iff {c c' : Change} (hc : c.Fits) (hc' : c'.Fits)
    (hinj : Set.InjOn Crypto.hashBytes
      {Bincode.idPayload c.payload, Bincode.idPayload c'.payload}) :
    computeId c.deps c.atoms c.intent c.author = computeId c'.deps c'.atoms c'.intent c'.author
      ↔ c.SameContent c' := by
  change Crypto.hashPayload c.payload = Crypto.hashPayload c'.payload ↔ _
  rw [LawfulCrypto.hashPayload_eq, LawfulCrypto.hashPayload_eq, ← payload_eq_iff]
  constructor
  · intro h
    have hbytes := hinj (by simp) (by simp) h
    exact Bincode.idPayload_injOn hc.payload hc'.payload hbytes
  · exact fun h => by rw [h]

end Change

/-! ## Conflicts that list their sides in two orders -/

theorem Serde.sample_lawful (records : List (Bytes × Change)) : @LawfulSerde (sample records) :=
  @LawfulSerde.mk (sample records) Blake3Hash.asBytes_injective fun h h' =>
    h.length_asBytes.trans h'.length_asBytes.symm

def sidesChange (sides : List Blake3Hash) : Change :=
  .bare 0 {5} [.conflict [3] sides ["file", "a.rs"]]

theorem sameContent_sides :
    let _ := Serde.sample []
    let _ := Crypto.ofBytes
    Change.computeId {5} (sidesChange [1, 2]).atoms "" (.human "" "" 0)
        = Change.computeId {5} (sidesChange [2, 1]).atoms "" (.human "" "" 0)
      ∧ (sidesChange [1, 2]).SameContent (sidesChange [2, 1]) := by
  intro serde crypto
  have := Serde.sample_lawful []
  have := Crypto.ofBytes_lawful
  have hpayload : (sidesChange [1, 2]).payload = (sidesChange [2, 1]).payload := by decide
  have hinj : Set.InjOn Crypto.hashBytes {Bincode.idPayload (sidesChange [1, 2]).payload,
      Bincode.idPayload (sidesChange [2, 1]).payload} := by
    rw [hpayload, Set.pair_eq_singleton]
    exact Set.injOn_singleton _ _
  have hid := congrArg Crypto.hashPayload hpayload
  exact ⟨hid, (Change.computeId_eq_iff (by decide +kernel) (by decide +kernel) hinj).mp hid⟩

end ArcVcs
