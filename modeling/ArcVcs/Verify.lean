import ArcVcs.Identity

/-!
# Verification of changes

`verify_signature` recomputes the id of a change from its payload and checks the signature of
the id. So the id and the signature of a verified change fix its payload, and nothing else.
-/

namespace ArcVcs

/-- `VerifyingKey::from_bytes` and `verify` of `ed25519_dalek`. -/
class Ed25519 where
  verify : PublicKeyBytes → Blake3Hash → Signature → Bool

/-- Accepts what `Crypto.sample` signs with the key itself. -/
@[reducible] def Ed25519.sample : Ed25519 where
  verify key id signature := decide (signature = @Crypto.sign Crypto.sample key id)

/-- The key that checks the signatures of an author. An AI is checked by its sponsor's. -/
def Author.verifyingKey : Author → PublicKeyBytes
  | human _ _ key => key
  | ai _ humanSponsor => humanSponsor
  | server _ key => key
  | transient _ key => key

/-- The content against the id, then the signature against the id. -/
def Change.verifySignature [Crypto] [Ed25519] (change : Change) : Bool :=
  let expectedId := Change.computeId change.deps change.atoms change.intent change.author
  if expectedId ≠ change.id then false
  else Ed25519.verify change.author.verifyingKey change.id change.signature

/-! ## What the id of a change covers -/

namespace Atom

/-- Equal atoms, or conflicts that list the same sides in any order. -/
inductive SameUpToSides : Atom → Atom → Prop
  | refl (atom : Atom) : SameUpToSides atom atom
  | conflict (bases : List Blake3Hash) {sides sides' : List Blake3Hash} (at_ : NodePath)
      (h : sides.Perm sides') :
      SameUpToSides (.conflict bases sides at_) (.conflict bases sides' at_)

theorem insertionSort_eq_iff {l l' : List Blake3Hash} :
    l.insertionSort (· ≤ ·) = l'.insertionSort (· ≤ ·) ↔ l.Perm l' := by
  constructor
  · intro h
    exact ((l.perm_insertionSort _).symm.trans (List.Perm.of_eq h)).trans (l'.perm_insertionSort _)
  · intro h
    exact List.Perm.eq_of_pairwise' (l.pairwise_insertionSort _) (l'.pairwise_insertionSort _)
      (((l.perm_insertionSort _).trans h).trans (l'.perm_insertionSort _).symm)

theorem canonical_eq_iff {a a' : Atom} : a.canonical = a'.canonical ↔ a.SameUpToSides a' := by
  constructor
  · intro h
    rcases eq_or_conflict_of_canonical_eq h with rfl | ⟨bases, sides, sides', at_, rfl, rfl, -⟩
    · exact .refl a
    · refine .conflict bases at_ (insertionSort_eq_iff.mp ?_)
      simpa [canonical] using h
  · intro h
    cases h with
    | refl => rfl
    | conflict bases at_ h => simp [canonical, insertionSort_eq_iff.mpr h]

end Atom

namespace Change

/-- The same dependencies, intent and author, and the same atoms up to the order of conflict
sides. -/
structure SameContent (c c' : Change) : Prop where
  deps : c.deps = c'.deps
  atoms : List.Forall₂ Atom.SameUpToSides c.atoms c'.atoms
  intent : c.intent = c'.intent
  author : c.author = c'.author

theorem payload_eq_iff {c c' : Change} : c.payload = c'.payload ↔ c.SameContent c' := by
  constructor
  · intro h
    refine ⟨deps_eq_of_payload_eq h, ?_, congrArg IdPayload.intent h, congrArg IdPayload.author h⟩
    exact (forall₂_canonical_of_payload_eq h).imp fun _ _ => Atom.canonical_eq_iff.mp
  · intro h
    have hatoms : c.atoms.map Atom.canonical = c'.atoms.map Atom.canonical := by
      rw [← List.forall₂_eq_eq_eq, List.forall₂_map_left_iff, List.forall₂_map_right_iff]
      exact h.atoms.imp fun _ _ => Atom.canonical_eq_iff.mpr
    rw [payload, payload, canonicalizeAtomsForId_eq, canonicalizeAtomsForId_eq, h.deps, hatoms,
      h.intent, h.author]

variable [Crypto] [Ed25519]

theorem verifySignature_iff {c : Change} :
    c.verifySignature = true
      ↔ Crypto.hashPayload c.payload = c.id
        ∧ Ed25519.verify c.author.verifyingKey c.id c.signature = true := by
  change (if Crypto.hashPayload c.payload ≠ c.id then false
    else Ed25519.verify c.author.verifyingKey c.id c.signature) = true ↔ _
  split_ifs with h
  · exact ⟨fun hf => absurd hf (by simp), fun hv => absurd hv.1 h⟩
  · exact ⟨fun hv => ⟨not_not.mp h, hv⟩, fun hv => hv.2⟩

/-- **Tamper evidence.** Unless their payloads collide, a change that carries the id and the
signature of a verified change is verified exactly when it has the same content. -/
theorem verified_iff_sameContent {c c' : Change} (hc : c.verifySignature = true)
    (hinj : Set.InjOn Crypto.hashPayload {c.payload, c'.payload}) (hid : c'.id = c.id)
    (hsignature : c'.signature = c.signature) : c'.verifySignature = true ↔ c.SameContent c' := by
  obtain ⟨hhash, hverify⟩ := verifySignature_iff.mp hc
  rw [verifySignature_iff, hid, hsignature]
  constructor
  · rintro ⟨hhash', -⟩
    exact payload_eq_iff.mp (hinj (by simp) (by simp) (hhash.trans hhash'.symm))
  · intro h
    rw [← payload_eq_iff.mpr h, ← h.author]
    exact ⟨hhash, hverify⟩

end Change

/-- Reordering the sides of a conflict keeps a signed change verified. -/
theorem Change.verified_reordered_conflict :
    letI := Crypto.sample
    letI := Ed25519.sample
    let c := newWithMetadata {5} [.conflict [] [1, 2] ["f"]] "merge" (.human "" "" 7) .human false 7
    let c' : Change := { c with atoms := [.conflict [] [2, 1] ["f"]] }
    c'.verifySignature = true ∧ c.SameContent c' := by
  intro c c'
  have hc : @verifySignature Crypto.sample Ed25519.sample c = true := by decide +kernel
  have hc' : @verifySignature Crypto.sample Ed25519.sample c' = true := by decide +kernel
  have hinj : Set.InjOn Crypto.sample.hashPayload {c.payload, c'.payload} := by
    rw [show c'.payload = c.payload by decide, Set.pair_eq_singleton]
    exact Set.injOn_singleton _ _
  exact ⟨hc', (@verified_iff_sameContent Crypto.sample Ed25519.sample c c' hc hinj rfl rfl).mp hc'⟩

/-- The ghost flag and the author type of a verified change can be replaced, with the same
payload, id and signature. -/
theorem Change.ghost_flag_escapes_verification :
    letI := Crypto.sample
    letI := Ed25519.sample
    let c := newWithMetadata ∅ [.insert ["file", "a.rs"] 1] "add" (.human "" "" 7) .human false 7
    let c' : Change := { c with isGhost := true, authorType := .ai 0 none }
    c.verifySignature = true ∧ c'.verifySignature = true ∧ c'.payload = c.payload ∧ c'.id = c.id
      ∧ c'.signature = c.signature ∧ c'.isGhost ≠ c.isGhost ∧ c'.authorType ≠ c.authorType := by
  decide +kernel

end ArcVcs
