import ArcVcs.ReorderSort

/-!
# Governance metadata

`commute_pair` builds its changes with `Change::new`, which fills in the metadata of a plain human
change. The rewriting at the end of a reorder keeps what it finds. So a rewritten change has the
metadata of its original unless it was exchanged and its original is not plain.
-/

namespace ArcVcs

/-- What a rewrite is to keep of a change. -/
structure Governance where
  isGhost : Bool
  authorType : AuthorType
  intent : String
  collapsedFrom : Option Blake3Hash
deriving DecidableEq

/-- All of an atom but the paths that a commute rewrites. -/
def Atom.pathless : Atom → Atom
  | insert _ contentHash => insert [] contentHash
  | delete _ priorHash => delete [] priorHash
  | move _ _ => move [] []
  | semanticsPreserving _ description => semanticsPreserving [] description
  | other => other

namespace Change

def governance (c : Change) : Governance := ⟨c.isGhost, c.authorType, c.intent, c.collapsedFrom⟩

/-- The metadata that `Change::new` fills in. -/
def IsPlain (c : Change) : Prop :=
  c.isGhost = false ∧ c.authorType = .human ∧ c.collapsedFrom = none

instance (c : Change) : Decidable c.IsPlain := inferInstanceAs (Decidable (_ ∧ _))

variable [Crypto] {deps : Finset Blake3Hash} {atoms : List Atom} {author : Author}
  {key : SigningKey}

theorem isPlain_new (intent : String) : (Change.new deps atoms intent author key).IsPlain :=
  ⟨rfl, rfl, rfl⟩

omit [Crypto] in
theorem governance_eq_iff {c c' : Change} (hintent : c'.intent = c.intent) (hplain : c'.IsPlain) :
    c'.governance = c.governance ↔ c.IsPlain := by
  obtain ⟨hghost, htype, hcollapsed⟩ := hplain
  simp only [governance, Governance.mk.injEq, hghost, htype, hintent, hcollapsed, true_and, IsPlain]
  constructor
  · rintro ⟨h, h', h''⟩
    exact ⟨h.symm, h'.symm, h''.symm⟩
  · rintro ⟨h, h', h''⟩
    exact ⟨h.symm, h'.symm, h''.symm⟩

/-- The change stands for the other one: a new id, the author `author`, other dependencies and
paths, and nothing else. -/
def StandsFor (author : Author) (c' c : Change) : Prop :=
  c'.governance = c.governance ∧ c'.author = author
    ∧ c'.atoms.map Atom.pathless = c.atoms.map Atom.pathless

theorem standsFor_new_iff {c : Change}
    (hatoms : atoms.map Atom.pathless = c.atoms.map Atom.pathless) :
    (Change.new deps atoms c.intent author key).StandsFor author c ↔ c.IsPlain := by
  rw [StandsFor, governance_eq_iff (new_intent ..) (isPlain_new _)]
  exact and_iff_left ⟨rfl, hatoms⟩

/-- What the rewriting at the end of a reorder keeps. -/
def rest (c : Change) : Governance × List Atom := (c.governance, c.atoms)

theorem rest_rewrittenOrResigned (c : Change) :
    (rewrittenOrResigned c deps c.atoms c.intent author key).rest = c.rest
      ∧ (rewrittenOrResigned c deps c.atoms c.intent author key).author = author := by
  unfold rewrittenOrResigned
  dsimp only
  split_ifs <;> exact ⟨rfl, rfl⟩

end Change

namespace Mutator

open BubbleSort ChangeGraph

variable [Crypto] {g : ChangeGraph} {signer : Author × SigningKey}
  {desired chain : List Blake3Hash} {pos : Blake3Hash → ℕ}

def IsMovedPast (desired chain : List Blake3Hash) (x : Blake3Hash) : Prop :=
  ∃ y, Inverted desired.idxOf x y chain ∨ Inverted desired.idxOf y x chain

theorem bubbleSort_eq_sort {fuel : ℕ} {ws working : List WorkingChange}
    (h : bubbleSort pos signer fuel ws = .ok working) :
    working = sort WorkingChange.origin pos (exchangePair signer) fuel ws := by
  by_cases hall : ∀ p ∈ allExchanges WorkingChange.origin pos (exchangePair signer) fuel ws,
      LinearlyCommute p.1.change p.2.change
  · rw [bubbleSort_of_commute hall] at h
    exact (Except.ok.inj h).symm
  · push Not at hall
    obtain ⟨left, right, herror⟩ := bubbleSort_of_not_commute hall
    simp [herror] at h

omit [Crypto] in
theorem map_pathless_rewritePaths (atoms moves : List Atom) :
    (rewritePathsThroughMoves atoms moves).map Atom.pathless = atoms.map Atom.pathless := by
  unfold rewritePathsThroughMoves
  split_ifs
  · rfl
  · rw [List.map_map]
    refine List.map_congr_left fun atom _ => ?_
    cases atom <;> rfl

omit [Crypto] in
theorem SortedAtoms.map_pathless {selected : Finset Blake3Hash} {x : Blake3Hash}
    {atoms : List Atom} (h : SortedAtoms g selected x atoms) {c : Change} (hc : g.get x = some c) :
    atoms.map Atom.pathless = c.atoms.map Atom.pathless := by
  induction h with
  | original _ hc' => rw [Option.some_inj.mp (hc.symm.trans hc')]
  | rewritten _ _ ih _ => rw [map_pathless_rewritePaths, ih hc]

theorem isPlain_of_isExchanged {w : WorkingChange} (h : IsExchanged (exchangePair signer) w) :
    w.change.IsPlain := by
  obtain ⟨left, right, rfl | rfl⟩ := h
  · exact Change.isPlain_new _
  · exact Change.isPlain_new _

theorem rewriteChain_rest {selected : Finset Blake3Hash} (ws : List WorkingChange)
    (raw : FMap Blake3Hash Blake3Hash) (prev : Option Blake3Hash) :
    (rewriteChain selected signer ws raw prev).1.map (fun r => (r.rest, r.author))
      = ws.map fun w => (w.change.rest, signer.1) := by
  induction ws generalizing raw prev with
  | nil => rfl
  | cons w ws ih =>
      obtain ⟨hrest, hauthor⟩ := @Change.rest_rewrittenOrResigned _
        (rewrittenDeps selected raw prev w.change.deps) signer.1 signer.2 w.change
      rw [rewriteChain, List.map_cons, List.map_cons, ih, hrest, hauthor]

theorem isMovedPast_iff (signer : Author × SigningKey)
    (hpresent : ∀ x ∈ chain, ∃ c, g.get x = some c) (x : Blake3Hash) :
    IsMovedPast desired chain x ↔
      Moved WorkingChange.origin x (neededSwaps g signer desired chain) := by
  simp only [IsMovedPast, ← exists_neededSwaps_iff signer hpresent]
  constructor
  · rintro ⟨y, ⟨p, hp, hx, -⟩ | ⟨p, hp, -, hx⟩⟩
    · exact ⟨p, hp, .inl hx⟩
    · exact ⟨p, hp, .inr hx⟩
  · rintro ⟨p, hp, hx | hx⟩
    · exact ⟨p.2.origin, .inl ⟨p, hp, hx, rfl⟩⟩
    · exact ⟨p.1.origin, .inr ⟨p, hp, rfl, hx⟩⟩

/-- **A rewritten change** stands for its original exactly if that was not moved or was plain. -/
theorem standsFor_rewritten_iff (hg : g.Indexed) {out : ReorderOutcome}
    (hok : reorder g desired signer = .ok out)
    (hchain : resolveLinearChain g desired.toFinset = .ok chain) {k : ℕ} {x : Blake3Hash}
    {c r : Change} (hx : desired[k]? = some x) (hc : g.get x = some c)
    (hr : out.rewritten[k]? = some r) :
    r.StandsFor signer.1 c ↔ (IsMovedPast desired chain x → c.IsPlain) := by
  obtain ⟨hnodup, hpresent, chain', working, hchain', hsort, horigins, hrewritten, -, -⟩ :=
    bubbleSort_of_reorder_ok hok
  obtain rfl : chain = chain' := Except.ok.inj (hchain.symm.trans hchain')
  have hselected := resolveLinearChain_eq_ok hg hchain
  have hmem : ∀ y, y ∈ chain → y ∈ desired := fun y hy =>
    List.mem_toFinset.mp ((hselected.mem_iff y).mp hy)
  have hpresent' : ∀ y ∈ chain, ∃ c, g.get y = some c := fun y hy => hpresent y (hmem y hy)
  -- The change that the sort leaves in the place of the rewritten one.
  obtain ⟨w, hw, hworigin⟩ : ∃ w, working[k]? = some w ∧ w.origin = x := by
    rwa [← horigins, List.getElem?_map, Option.map_eq_some_iff] at hx
  obtain ⟨⟨hgovernance, hatoms⟩, hauthor⟩ : (r.governance = w.change.governance
      ∧ r.atoms = w.change.atoms) ∧ r.author = signer.1 := by
    have hmaps := @rewriteChain_rest _ signer desired.toFinset working ∅ none
    rw [← hrewritten] at hmaps
    have hk := congrArg (·[k]?) hmaps
    simpa [hr, hw, Change.rest] using hk
  obtain ⟨c', hderived⟩ := derived_of_swapSteps (bubbleSort_swapSteps hsort)
    (derived_workingChanges hg fun y hy => (hselected.mem_iff y).mp hy) w
    (List.mem_of_getElem? hw)
  obtain rfl : c = c' := by
    have hget := hderived.get
    rw [hworigin, hc] at hget
    exact Option.some.inj hget
  have hsorted := List.mem_of_getElem? hw
  rw [bubbleSort_eq_sort hsort] at hsorted
  have htags : ((workingChanges g chain).map WorkingChange.origin).Nodup := by
    rw [map_origin_workingChanges hpresent']
    exact hselected.nodup
  have hpathless : r.atoms.map Atom.pathless = c.atoms.map Atom.pathless := by
    rw [hatoms]
    exact hderived.atoms.map_pathless (hworigin ▸ hc)
  rw [Change.StandsFor, and_iff_left ⟨hauthor, hpathless⟩, hgovernance,
    isMovedPast_iff signer hpresent', ← hworigin]
  rcases mem_sort_cases (keepsTags_exchangePair signer) _ _ htags hsorted with
    ⟨hkept, hnot⟩ | ⟨hexchanged, hmoved⟩
  · obtain ⟨y, -, hy⟩ := List.mem_filterMap.mp hkept
    obtain ⟨cy, hcy, rfl⟩ := Option.map_eq_some_iff.mp hy
    obtain rfl : c = cy := by
      rw [← hworigin] at hc
      exact Option.some.inj (hc.symm.trans hcy)
    exact iff_of_true rfl fun hmoved => absurd hmoved hnot
  · rw [Change.governance_eq_iff hderived.intent (isPlain_of_isExchanged hexchanged)]
    exact ⟨fun hplain _ => hplain, fun hplain => hplain hmoved⟩

/-! ## Main result -/

/-- **Metadata under rewriting.** The changes of a commuted pair stand for their originals exactly
if both are plain, and those of a reorder exactly if the ones that it moves are. -/
theorem rewrites_keep_governance_iff (signer : Author × SigningKey) :
    (∀ a b a' b', commutePair a b signer = some (b', a') →
        (b'.StandsFor signer.1 b ∧ a'.StandsFor signer.1 a ↔ b.IsPlain ∧ a.IsPlain))
      ∧ ∀ (g : ChangeGraph) (desired chain : List Blake3Hash) (out : ReorderOutcome), g.Indexed →
        reorder g desired signer = .ok out →
        resolveLinearChain g desired.toFinset = .ok chain →
        ((∀ (k : ℕ) (x : Blake3Hash) (c r : Change), desired[k]? = some x → g.get x = some c →
            out.rewritten[k]? = some r → r.StandsFor signer.1 c) ↔
          ∀ x ∈ desired, ∀ c, g.get x = some c → IsMovedPast desired chain x → c.IsPlain) := by
  constructor
  · intro a b a' b' hpair
    obtain ⟨-, rfl, rfl⟩ := commutePair_eq_some hpair
    rw [Change.standsFor_new_iff (map_pathless_rewritePaths ..),
      Change.standsFor_new_iff (map_pathless_rewritePaths ..)]
  · intro g desired chain out hg hok hchain
    constructor
    · intro h x hx c hc
      obtain ⟨k, hk⟩ := List.mem_iff_getElem?.mp hx
      have hlength := (reorderedInto_of_ok hg (resolveLinearChain_eq_ok hg hchain) hok).length_eq
      obtain ⟨hlt, -⟩ := List.getElem?_eq_some_iff.mp hk
      have hr := List.getElem?_eq_getElem (hlength.symm ▸ hlt)
      exact (standsFor_rewritten_iff hg hok hchain hk hc hr).mp (h k x c _ hk hc hr)
    · intro h k x c r hx hc hr
      exact (standsFor_rewritten_iff hg hok hchain hx hc hr).mpr
        (h x (List.mem_of_getElem? hx) c hc)

omit [Crypto] in
/-- Two plain changes turned round. -/
theorem rewrites_keep_governance_plain :
    let a := Change.sample ∅ "a.rs" "a"
    let b := Change.sample {a.id} "b.rs" "b"
    let g := ofChanges [a, b]
    let signer : Author × SigningKey := (.human "" "" 0, 0)
    ∃ out, @reorder Crypto.sample g [b.id, a.id] signer = .ok out
      ∧ ∀ (k : ℕ) (x : Blake3Hash) (c r : Change), [b.id, a.id][k]? = some x → g.get x = some c →
        out.rewritten[k]? = some r → r.StandsFor signer.1 c := by
  intro a b g signer
  have hg : g.Indexed := indexed_ofChanges (by decide)
  have hchain : resolveLinearChain g [b.id, a.id].toFinset = .ok [a.id, b.id] := by decide
  have hplain : ∀ x ∈ [b.id, a.id], ∀ c ∈ g.get x, c.IsPlain := by decide
  obtain ⟨out, hout⟩ : ∃ out, @reorder Crypto.sample g [b.id, a.id] signer = .ok out := by
    have hok : (@reorder Crypto.sample g [b.id, a.id] signer).toOption.isSome := by decide
    cases hres : @reorder Crypto.sample g [b.id, a.id] signer with
    | error e => simp [hres, Except.toOption] at hok
    | ok out => exact ⟨out, rfl⟩
  exact ⟨out, hout, ((@rewrites_keep_governance_iff Crypto.sample signer).2 g _ _ out hg hout
    hchain).mpr fun x hx c hc _ => hplain x hx c hc⟩

omit [Crypto] in
/-- A ghost commutes with another change and is no ghost any more. -/
theorem commuted_ghost_is_solid :
    let a := { Change.sample ∅ "a.rs" "a" with isGhost := true }
    let b := Change.sample ∅ "b.rs" "b"
    ∃ a' b', @commutePair Crypto.sample a b (.human "" "" 0, 0) = some (b', a')
      ∧ a.governance.isGhost = true ∧ a'.governance.isGhost = false := by
  intro a b
  have hpair : @commutePair Crypto.sample a b (.human "" "" 0, 0) = some (_, _) :=
    (@commutePair_eq Crypto.sample _ a b).trans (if_pos (by decide))
  exact ⟨_, _, hpair, rfl, rfl⟩

end Mutator

end ArcVcs
