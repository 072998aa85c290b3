import ArcVcs.Mutator

/-!
# The steps of a reorder

What a successful `reorder` did: it found a chain, sorted it by swaps of commuting
neighbours and rewrote the dependencies along the result.
-/

namespace ArcVcs

namespace Mutator

open ChangeGraph

variable {g : ChangeGraph}

/-! ## The selected chain -/

/-- The selection as a list in which each change depends on the one before it, which is its
only dependency in the selection. -/
structure IsSelectedChain (g : ChangeGraph) (selected : Finset Blake3Hash)
    (chain : List Blake3Hash) : Prop where
  nodup : chain.Nodup
  mem_iff : ∀ x, x ∈ chain ↔ x ∈ selected
  isChain : chain.IsChain fun a b => a ∈ g.deps b
  root : ∃ root rest, chain = root :: rest ∧ ∀ p ∈ selected, p ∉ g.deps root
  one_parent : ∀ x ∈ selected, ∀ p ∈ selected, ∀ q ∈ selected,
    p ∈ g.deps x → q ∈ g.deps x → p = q

theorem mem_parentsInSelected {selected : Finset Blake3Hash} {x p : Blake3Hash} :
    p ∈ parentsInSelected g selected x ↔ p ∈ g.deps x ∧ p ∈ selected := by
  simp [parentsInSelected, parentIds]

theorem mem_childrenInSelected (hg : g.Indexed) {selected : Finset Blake3Hash}
    {x c : Blake3Hash} : c ∈ childrenInSelected g selected x ↔ x ∈ g.deps c ∧ c ∈ selected := by
  simp [childrenInSelected, childIds, hg.mem_children]

theorem walkChain_eq_ok (hg : g.Indexed) {selected : Finset Blake3Hash} {fuel : ℕ}
    {current : Blake3Hash} {ordered out : List Blake3Hash}
    (h : walkChain g selected fuel current ordered = .ok out) (hnodup : ordered.Nodup)
    (hsub : ∀ x ∈ ordered, x ∈ selected) (hcur : current ∈ selected)
    (hchain : (ordered ++ [current]).IsChain fun a b => a ∈ g.deps b) :
    out.Nodup ∧ (∀ x ∈ out, x ∈ selected) ∧ (out.IsChain fun a b => a ∈ g.deps b)
      ∧ ordered ++ [current] <+: out := by
  induction fuel generalizing current ordered with
  | zero => simp [walkChain] at h
  | succ fuel ih =>
      rw [walkChain] at h
      split_ifs at h with hmem
      have hnodup' : (ordered ++ [current]).Nodup :=
        List.nodup_append.mpr ⟨hnodup, List.nodup_singleton _, fun a ha b hb => by
          rintro rfl
          exact hmem (List.mem_singleton.mp hb ▸ ha)⟩
      have hsub' : ∀ x ∈ ordered ++ [current], x ∈ selected := fun x hx => by
        rcases List.mem_append.mp hx with hx | hx
        · exact hsub x hx
        · exact List.mem_singleton.mp hx ▸ hcur
      cases hch : childrenInSelected g selected current with
      | nil =>
          obtain rfl : ordered ++ [current] = out := by simpa [hch] using h
          exact ⟨hnodup', hsub', hchain, List.prefix_refl _⟩
      | cons child rest =>
          simp only [hch] at h
          obtain ⟨hdep, hsel⟩ := (mem_childrenInSelected hg).mp (hch ▸ List.mem_cons_self)
          have hchain' : ((ordered ++ [current]) ++ [child]).IsChain fun a b => a ∈ g.deps b := by
            refine List.isChain_append.mpr ⟨hchain, List.isChain_singleton _, ?_⟩
            intro a ha b hb
            simp only [List.getLast?_append, List.getLast?_singleton, Option.some_or,
              Option.mem_def, Option.some_inj] at ha
            simp only [List.head?_cons, Option.mem_def, Option.some_inj] at hb
            exact ha ▸ hb ▸ hdep
          obtain ⟨h₁, h₂, h₃, h₄⟩ := ih h hnodup' hsub' hsel hchain'
          exact ⟨h₁, h₂, h₃, (List.prefix_append _ _).trans h₄⟩

theorem resolveLinearChain_eq_ok (hg : g.Indexed) {selected : Finset Blake3Hash}
    {chain : List Blake3Hash} (h : resolveLinearChain g selected = .ok chain) :
    IsSelectedChain g selected chain := by
  unfold resolveLinearChain at h
  split_ifs at h with hany
  have hparents : ∀ x ∈ selected, (parentsInSelected g selected x).length ≤ 1 := by
    intro x hx
    by_contra hlen
    refine hany (List.any_eq_true.mpr ⟨x, Finset.mem_sorted.mpr hx, ?_⟩)
    simp only [Bool.or_eq_true, decide_eq_true_eq]
    exact .inl (by omega)
  match hroots : selected.sorted.filter fun id => (parentsInSelected g selected id).isEmpty with
  | [] => simp [hroots] at h
  | _ :: _ :: _ => simp [hroots] at h
  | [root] =>
      simp only [hroots] at h
      obtain ⟨hrsel, hrempty⟩ := List.mem_filter.mp (hroots ▸ List.mem_singleton_self root)
      cases hwalk : walkChain g selected (selected.card + 1) root [] with
      | error e => simp [hwalk] at h
      | ok ordered =>
          simp only [hwalk] at h
          split_ifs at h with hlen
          obtain rfl : ordered = chain := by simpa using h
          obtain ⟨hnodup, hsub, hchain, hprefix⟩ := walkChain_eq_ok hg hwalk List.nodup_nil
            (by simp) (Finset.mem_sorted.mp hrsel) (List.isChain_singleton _)
          obtain ⟨rest, rfl⟩ := hprefix
          have hset : (([] ++ [root]) ++ rest).toFinset = selected := by
            refine Finset.eq_of_subset_of_card_le (fun x hx => hsub x (List.mem_toFinset.mp hx)) ?_
            rw [List.toFinset_card_of_nodup hnodup]
            omega
          refine ⟨hnodup, fun x => ?_, hchain, ⟨root, rest, rfl, fun p hp hdep => ?_⟩, ?_⟩
          · rw [← hset, List.mem_toFinset]
          · have hmem := mem_parentsInSelected.mpr ⟨hdep, hp⟩
            rw [List.isEmpty_iff.mp hrempty] at hmem
            simp at hmem
          · intro x hx p hp q hq hpx hqx
            have hp' := mem_parentsInSelected.mpr ⟨hpx, hp⟩
            have hq' := mem_parentsInSelected.mpr ⟨hqx, hq⟩
            have hle := hparents x hx
            match hl : parentsInSelected g selected x with
            | [] => simp [hl] at hp'
            | [d] =>
                rw [hl, List.mem_singleton] at hp' hq'
                rw [hp', hq']
            | _ :: _ :: _ => simp [hl] at hle

/-! ## Rewriting through moves -/

def hasMove (atoms : List Atom) : Bool := atoms.any Atom.isMove

theorem movePairs_eq_nil {moves : List Atom} (h : hasMove moves = false) :
    movePairs moves = [] := by
  refine List.filterMap_eq_nil_iff.mpr fun atom hatom => ?_
  have hnot : atom.isMove = false := by
    simpa using List.any_eq_false.mp h atom hatom
  cases atom <;> simp_all [Atom.isMove]

theorem rewritePaths_of_not_hasMove {atoms moves : List Atom} (h : hasMove moves = false) :
    rewritePathsThroughMoves atoms moves = atoms := by
  rw [rewritePathsThroughMoves, movePairs_eq_nil h]
  rfl

theorem hasMove_rewritePaths (atoms moves : List Atom) :
    hasMove (rewritePathsThroughMoves atoms moves) = hasMove atoms := by
  unfold rewritePathsThroughMoves
  split_ifs
  · rfl
  · rw [hasMove, List.any_map]
    refine List.any_congr rfl fun atom => ?_
    cases atom <;> rfl

/-- The atoms that a selected change may have during the sort: its own, rewritten through the
moves of others. -/
inductive SortedAtoms (g : ChangeGraph) (selected : Finset Blake3Hash) :
    Blake3Hash → List Atom → Prop
  | original {x : Blake3Hash} {c : Change} (hx : x ∈ selected) (hc : g.get x = some c) :
      SortedAtoms g selected x c.atoms
  | rewritten {x y : Blake3Hash} {atoms moves : List Atom} (hx : SortedAtoms g selected x atoms)
      (hy : SortedAtoms g selected y moves) :
      SortedAtoms g selected x (rewritePathsThroughMoves atoms moves)

theorem SortedAtoms.hasMove_eq {selected : Finset Blake3Hash} {x : Blake3Hash}
    {atoms : List Atom} (h : SortedAtoms g selected x atoms) {c : Change} (hc : g.get x = some c) :
    hasMove atoms = hasMove c.atoms := by
  induction h with
  | original _ hc' => rw [Option.some_inj.mp (hc.symm.trans hc')]
  | rewritten _ _ ih _ => rw [hasMove_rewritePaths, ih hc]

theorem SortedAtoms.eq_of_not_hasMove {selected : Finset Blake3Hash} {x : Blake3Hash}
    {atoms : List Atom} (h : SortedAtoms g selected x atoms)
    (hsel : ∀ y ∈ selected, ∀ c, g.get y = some c → hasMove c.atoms = false) :
    ∃ c, x ∈ selected ∧ g.get x = some c ∧ atoms = c.atoms := by
  induction h with
  | original hx hc => exact ⟨_, hx, hc, rfl⟩
  | rewritten _ _ ih ih' =>
      obtain ⟨c, hx, hc, rfl⟩ := ih
      obtain ⟨c', hy, hc', rfl⟩ := ih'
      exact ⟨c, hx, hc, rewritePaths_of_not_hasMove (hsel _ hy c' hc')⟩

/-! ## The bubble sort -/

variable [Crypto] {pos : Blake3Hash → ℕ} {signer : Author × SigningKey}

/-- Two neighbours in the wrong order are exchanged for their commuted pair. -/
inductive SwapStep (signer : Author × SigningKey) :
    List WorkingChange → List WorkingChange → Prop
  | swap (pre post : List WorkingChange) (left right : WorkingChange) (newLeft newRight : Change)
      (hpair : commuteLinearPair left.change right.change signer = some (newLeft, newRight)) :
      SwapStep signer (pre ++ left :: right :: post)
        (pre ++ ⟨right.origin, newLeft⟩ :: ⟨left.origin, newRight⟩ :: post)

theorem SwapStep.cons {ws ws' : List WorkingChange} (w : WorkingChange)
    (h : SwapStep signer ws ws') : SwapStep signer (w :: ws) (w :: ws') := by
  obtain ⟨pre, post, left, right, newLeft, newRight, hpair⟩ := h
  exact .swap (w :: pre) post left right newLeft newRight hpair

theorem swapSteps_cons {ws ws' : List WorkingChange} (w : WorkingChange)
    (h : Relation.ReflTransGen (SwapStep signer) ws ws') :
    Relation.ReflTransGen (SwapStep signer) (w :: ws) (w :: ws') :=
  Relation.ReflTransGen.lift (w :: ·) (fun _ _ hstep => hstep.cons w) _ _ h

theorem bubblePass_swapSteps {current : WorkingChange} {rest ws : List WorkingChange}
    {swapped : Bool} (h : bubblePass pos signer current rest = .ok (ws, swapped)) :
    Relation.ReflTransGen (SwapStep signer) (current :: rest) ws := by
  induction rest generalizing current ws swapped with
  | nil =>
      obtain ⟨rfl, -⟩ : [current] = ws ∧ false = swapped := by simpa [bubblePass] using h
      exact .refl
  | cons next rest ih =>
      rw [bubblePass] at h
      split_ifs at h with hpos
      · cases hrec : bubblePass pos signer next rest with
        | error e => simp [hrec] at h
        | ok r =>
            obtain ⟨rfl, -⟩ : current :: r.1 = ws ∧ r.2 = swapped := by simpa [hrec] using h
            exact swapSteps_cons current (ih hrec)
      · cases hpair : commuteLinearPair current.change next.change signer with
        | none => simp [hpair] at h
        | some p =>
            simp only [hpair] at h
            cases hrec : bubblePass pos signer ⟨current.origin, p.2⟩ rest with
            | error e => simp [hrec] at h
            | ok r =>
                obtain ⟨rfl, -⟩ : ⟨next.origin, p.1⟩ :: r.1 = ws ∧ true = swapped := by
                  simpa [hrec] using h
                have hswap : SwapStep signer (current :: next :: rest)
                    (⟨next.origin, p.1⟩ :: ⟨current.origin, p.2⟩ :: rest) :=
                  .swap [] rest current next p.1 p.2 hpair
                exact .head hswap (swapSteps_cons _ (ih hrec))

theorem bubbleSort_swapSteps {fuel : ℕ} {ws ws' : List WorkingChange}
    (h : bubbleSort pos signer fuel ws = .ok ws') :
    Relation.ReflTransGen (SwapStep signer) ws ws' := by
  induction fuel generalizing ws with
  | zero =>
      obtain rfl : ws = ws' := by simpa [bubbleSort] using h
      exact .refl
  | succ fuel ih =>
      cases ws with
      | nil =>
          obtain rfl : [] = ws' := by simpa [bubbleSort] using h
          exact .refl
      | cons w ws =>
          rw [bubbleSort] at h
          cases hpass : bubblePass pos signer w ws with
          | error e => simp [hpass] at h
          | ok r =>
              have hsteps := bubblePass_swapSteps hpass
              simp only [hpass] at h
              split_ifs at h
              · exact hsteps.trans (ih h)
              · obtain rfl : r.1 = ws' := by simpa using h
                exact hsteps

theorem commutePair_eq_some {a b a' b' : Change} (h : commutePair a b signer = some (b', a')) :
    atomsDisjoint a.atoms b.atoms = true
      ∧ b' = Change.new (b.deps.erase a.id) (rewritePathsThroughMoves b.atoms a.atoms) b.intent
          signer.1 signer.2
      ∧ a' = Change.new (a.deps.erase b.id) (rewritePathsThroughMoves a.atoms b.atoms) a.intent
          signer.1 signer.2 := by
  unfold commutePair at h
  split_ifs at h with hdep hdisj hghost
  simp only [Option.some.injEq, Prod.mk.injEq] at h
  exact ⟨by simpa using hdisj, h.1.symm, h.2.symm⟩

theorem commuteLinearPair_eq_some {left right newLeft newRight : Change}
    (h : commuteLinearPair left right signer = some (newLeft, newRight)) :
    atomsDisjoint left.atoms right.atoms = true
      ∧ newLeft = Change.new (right.deps.erase left.id)
          (rewritePathsThroughMoves right.atoms left.atoms) right.intent signer.1 signer.2
      ∧ newRight = Change.new (left.deps.erase right.id)
          (rewritePathsThroughMoves left.atoms right.atoms) left.intent signer.1 signer.2 := by
  unfold commuteLinearPair at h
  split_ifs at h with hdep
  · have hpair := commutePair_eq_some h
    rwa [Finset.erase_idem] at hpair
  · exact commutePair_eq_some h

/-! ## What the swaps keep -/

/-- An id that the sort may compute for a selected change. -/
def IsWorkingId (g : ChangeGraph) (selected : Finset Blake3Hash) (signer : Author)
    (id : Blake3Hash) : Prop :=
  ∃ x c atoms deps, g.get x = some c ∧ SortedAtoms g selected x atoms ∧ deps ⊆ c.deps
    ∧ id = Change.computeId deps atoms c.intent signer

/-- What remains of a selected change during the sort. Only dependencies on the selection or on
ids computed by the sort may be missing. -/
structure Derived (g : ChangeGraph) (selected : Finset Blake3Hash) (signer : Author)
    (w : WorkingChange) (c : Change) : Prop where
  get : g.get w.origin = some c
  intent : w.change.intent = c.intent
  atoms : SortedAtoms g selected w.origin w.change.atoms
  deps_subset : w.change.deps ⊆ c.deps
  external : ∀ d ∈ c.deps, d ∉ selected → ¬ IsWorkingId g selected signer d → d ∈ w.change.deps
  id : w.change.id ∈ selected ∨ IsWorkingId g selected signer w.change.id

variable {selected : Finset Blake3Hash}

theorem Derived.swapped {w v : WorkingChange} {c cv : Change} {change : Change}
    (hw : Derived g selected signer.1 w c) (hv : Derived g selected signer.1 v cv)
    (hchange : change = Change.new (w.change.deps.erase v.change.id)
      (rewritePathsThroughMoves w.change.atoms v.change.atoms) w.change.intent
      signer.1 signer.2) :
    Derived g selected signer.1 ⟨w.origin, change⟩ c := by
  subst hchange
  have hsub : w.change.deps.erase v.change.id ⊆ c.deps :=
    (Finset.erase_subset _ _).trans hw.deps_subset
  refine ⟨hw.get, hw.intent, .rewritten hw.atoms hv.atoms, hsub, fun d hd hsel hid => ?_, .inr ?_⟩
  · refine Finset.mem_erase.mpr ⟨?_, hw.external d hd hsel hid⟩
    rintro rfl
    exact hv.id.elim hsel hid
  · exact ⟨w.origin, c, _, _, hw.get, .rewritten hw.atoms hv.atoms, hsub, by
      rw [Change.new_id, hw.intent]⟩

theorem SwapStep.derived {ws ws' : List WorkingChange} (h : SwapStep signer ws ws')
    (hws : ∀ w ∈ ws, ∃ c, Derived g selected signer.1 w c) :
    ∀ w ∈ ws', ∃ c, Derived g selected signer.1 w c := by
  obtain ⟨pre, post, left, right, newLeft, newRight, hpair⟩ := h
  obtain ⟨-, hleft, hright⟩ := commuteLinearPair_eq_some hpair
  obtain ⟨cl, hcl⟩ := hws left (by simp)
  obtain ⟨cr, hcr⟩ := hws right (by simp)
  intro w hw
  rcases List.mem_append.mp hw with hw | hw
  · exact hws w (List.mem_append_left _ hw)
  rcases List.mem_cons.mp hw with rfl | hw
  · exact ⟨cr, hcr.swapped hcl hleft⟩
  rcases List.mem_cons.mp hw with rfl | hw
  · exact ⟨cl, hcl.swapped hcr hright⟩
  · exact hws w (by simp [hw])

theorem derived_of_swapSteps {ws ws' : List WorkingChange}
    (h : Relation.ReflTransGen (SwapStep signer) ws ws')
    (hws : ∀ w ∈ ws, ∃ c, Derived g selected signer.1 w c) :
    ∀ w ∈ ws', ∃ c, Derived g selected signer.1 w c := by
  induction h with
  | refl => exact hws
  | tail _ hstep ih => exact hstep.derived ih

theorem derived_workingChanges {chain : List Blake3Hash} (hg : g.Indexed)
    (hchain : ∀ x ∈ chain, x ∈ selected) :
    ∀ w ∈ workingChanges g chain, ∃ c, Derived g selected signer.1 w c := by
  intro w hw
  obtain ⟨x, hx, hmap⟩ := List.mem_filterMap.mp hw
  obtain ⟨c, hc, rfl⟩ := Option.map_eq_some_iff.mp hmap
  refine ⟨c, hc, rfl, .original (hchain x hx) hc, subset_rfl, fun d hd _ _ => hd, .inl ?_⟩
  rw [hg.node_id x c hc]
  exact hchain x hx

/-- The product of the effects of the part of a sequence that `p` selects. -/
def partAction (env : ApplyEnv) (p : Blake3Hash → Bool) (ws : List WorkingChange) :
    PartialAction MaterializedState :=
  ((ws.filter fun w => p w.origin).map fun w => w.change.plainEffect env).prod

omit [Crypto] in
theorem plainEffect_commute {env : ApplyEnv} {a b : Change}
    (h : atomsDisjoint a.atoms b.atoms = true) :
    Commute (a.plainEffect env) (b.plainEffect env) := by
  have hhuman : ∀ c : Change,
      ({ c with author := .human "" "" 0 } : Change).effect env = c.plainEffect env := fun c => by
    rw [Change.effect_eq, Change.violates]
    rfl
  rw [← hhuman a, ← hhuman b]
  exact effect_commute_of_atomsDisjoint h

theorem SwapStep.partAction_eq {env : ApplyEnv} (p : Blake3Hash → Bool)
    {ws ws' : List WorkingChange} (h : SwapStep signer ws ws')
    (hmove : ∀ w ∈ ws, hasMove w.change.atoms = false) :
    partAction env p ws' = partAction env p ws := by
  obtain ⟨pre, post, left, right, newLeft, newRight, hpair⟩ := h
  obtain ⟨hdisj, hleft, hright⟩ := commuteLinearPair_eq_some hpair
  have hl : newLeft.plainEffect env = right.change.plainEffect env := by
    rw [hleft, Change.plainEffect, Change.new_atoms,
      rewritePaths_of_not_hasMove (hmove left (by simp))]
    rfl
  have hr : newRight.plainEffect env = left.change.plainEffect env := by
    rw [hright, Change.plainEffect, Change.new_atoms,
      rewritePaths_of_not_hasMove (hmove right (by simp))]
    rfl
  have hcomm : Commute (left.change.plainEffect env) (right.change.plainEffect env) :=
    plainEffect_commute hdisj
  simp only [partAction, List.filter_append, List.map_append, List.prod_append]
  congr 1
  cases hpl : p left.origin <;> cases hpr : p right.origin <;>
    simp [hpl, hpr, hl, hr, ← mul_assoc, hcomm.eq]

theorem partAction_of_swapSteps {env : ApplyEnv} (p : Blake3Hash → Bool)
    {ws ws' : List WorkingChange} (h : Relation.ReflTransGen (SwapStep signer) ws ws')
    (hws : ∀ w ∈ ws, ∃ c, Derived g selected signer.1 w c)
    (hsel : ∀ y ∈ selected, ∀ c, g.get y = some c → hasMove c.atoms = false) :
    partAction env p ws' = partAction env p ws := by
  induction h with
  | refl => rfl
  | tail hsteps hstep ih =>
      have hmid := derived_of_swapSteps hsteps hws
      refine (hstep.partAction_eq p fun w hw => ?_).trans ih
      obtain ⟨c, hc⟩ := hmid w hw
      obtain ⟨c', hx, hc', heq⟩ := hc.atoms.eq_of_not_hasMove hsel
      rw [heq]
      exact hsel _ hx c' hc'

/-! ## The rewritten chain -/

/-- A change rewritten after the `earlier` ones, which are listed with their new ids. -/
structure RewrittenFrom (selected : Finset Blake3Hash) (signer : Author)
    (earlier : List (Blake3Hash × Blake3Hash)) (w : WorkingChange) (r : Change) : Prop where
  author : r.author = signer
  atoms : r.atoms = w.change.atoms
  intent : r.intent = w.change.intent
  id : r.id = Change.computeId r.deps r.atoms r.intent signer
  external : ∀ d ∈ w.change.deps, d ∉ selected → d ∈ r.deps
  deps_cases : ∀ d ∈ r.deps, (d ∈ w.change.deps ∧ d ∉ selected)
    ∨ (∃ e ∈ w.change.deps, e ∈ selected ∧ (e, d) ∈ earlier)
    ∨ (earlier.map Prod.snd).getLast? = some d
  previous : ∀ p, (earlier.map Prod.snd).getLast? = some p → p ∈ r.deps

def rewrittenPairs (ws : List WorkingChange) (rs : List Change) :
    List (Blake3Hash × Blake3Hash) :=
  List.zipWith (fun w r => (w.origin, r.id)) ws rs

omit [Crypto] in
theorem snd_rewrittenPairs {ws : List WorkingChange} {rs : List Change}
    (h : rs.length = ws.length) : (rewrittenPairs ws rs).map Prod.snd = rs.map Change.id := by
  induction ws generalizing rs with
  | nil => simp [rewrittenPairs, List.length_eq_zero_iff.mp h]
  | cons w ws ih =>
      cases rs with
      | nil => simp at h
      | cons r rs => simpa [rewrittenPairs] using ih (by simpa using h)

theorem rewriteChain_spec {ws : List WorkingChange} {raw : FMap Blake3Hash Blake3Hash}
    {earlier : List (Blake3Hash × Blake3Hash)}
    (hraw : ∀ o x, raw.lookup o = some x → (o, x) ∈ earlier) :
    let out := (rewriteChain selected signer ws raw (earlier.map Prod.snd).getLast?).1
    out.length = ws.length ∧ ∀ k w r, ws[k]? = some w → out[k]? = some r →
      RewrittenFrom selected signer.1 (earlier ++ rewrittenPairs (ws.take k) (out.take k)) w r := by
  induction ws generalizing raw earlier with
  | nil => exact ⟨rfl, by simp⟩
  | cons w ws ih =>
      let change := Change.rewrittenOrResigned w.change
        (rewrittenDeps selected raw (earlier.map Prod.snd).getLast? w.change.deps) w.change.atoms
        w.change.intent signer.1 signer.2
      have hchain : (rewriteChain selected signer (w :: ws) raw (earlier.map Prod.snd).getLast?).1
          = change :: (rewriteChain selected signer ws (raw.insert w.origin change.id)
              ((earlier ++ [(w.origin, change.id)]).map Prod.snd).getLast?).1 := by
        rw [List.map_append, List.getLast?_append, List.map_singleton, List.getLast?_singleton]
        rfl
      have hraw' : ∀ o x, (raw.insert w.origin change.id).lookup o = some x →
          (o, x) ∈ earlier ++ [(w.origin, change.id)] := fun o x hx => by
        rw [FMap.lookup_insert_eq] at hx
        split_ifs at hx with ho
        · rw [← Option.some_inj.mp hx, ho]
          simp
        · exact List.mem_append_left _ (hraw o x hx)
      obtain ⟨hlen, hspec⟩ := ih hraw'
      dsimp only
      rw [hchain]
      refine ⟨by rw [List.length_cons, hlen, List.length_cons], fun k v r hv hr => ?_⟩
      cases k with
      | zero =>
          obtain rfl : w = v := by simpa using hv
          obtain rfl : change = r := by simpa using hr
          refine ⟨by simp [change], by simp [change], by simp [change], by simp [change],
            ?_, ?_, ?_⟩
          · intro d hd hsel
            simp [change, rewrittenDeps, hd, hsel]
          · intro d hd
            simp only [change, Change.rewrittenOrResigned_deps, rewrittenDeps, Finset.mem_union,
              Finset.mem_filter, Finset.mem_biUnion, Option.mem_toFinset] at hd
            simp only [List.take_zero, rewrittenPairs, List.zipWith_nil_left, List.append_nil]
            rcases hd with (hd | ⟨e, he, hed⟩) | hd
            · exact .inl hd
            · exact .inr (.inl ⟨e, he.1, he.2, hraw e d hed⟩)
            · exact .inr (.inr hd)
          · intro p hp
            simp only [List.take_zero, rewrittenPairs, List.zipWith_nil_left, List.append_nil] at hp
            simp [change, rewrittenDeps, hp]
      | succ k =>
          have hrest := hspec k v r (by simpa using hv) (by simpa using hr)
          simpa [rewrittenPairs] using hrest

theorem lookup_rewriteChain_of_notMem {ws : List WorkingChange}
    {raw : FMap Blake3Hash Blake3Hash} {prev : Option Blake3Hash} {o : Blake3Hash}
    (ho : o ∉ ws.map WorkingChange.origin) :
    (rewriteChain selected signer ws raw prev).2.lookup o = raw.lookup o := by
  induction ws generalizing raw prev with
  | nil => rfl
  | cons w ws ih =>
      simp only [List.map_cons, List.mem_cons, not_or] at ho
      rw [rewriteChain]
      dsimp only
      rw [ih ho.2, FMap.lookup_insert_eq, if_neg ho.1]

theorem lookup_rewriteChain {ws : List WorkingChange} {raw : FMap Blake3Hash Blake3Hash}
    {prev : Option Blake3Hash} (hnodup : (ws.map WorkingChange.origin).Nodup) {k : ℕ}
    {w : WorkingChange} {r : Change} (hw : ws[k]? = some w)
    (hr : (rewriteChain selected signer ws raw prev).1[k]? = some r) :
    (rewriteChain selected signer ws raw prev).2.lookup w.origin = some r.id := by
  induction ws generalizing raw prev k with
  | nil => simp at hw
  | cons v ws ih =>
      obtain ⟨hv, hnodup⟩ := List.nodup_cons.mp hnodup
      cases k with
      | zero =>
          obtain rfl : v = w := by simpa using hw
          rw [rewriteChain] at hr ⊢
          dsimp only at hr ⊢
          rw [List.getElem?_cons_zero, Option.some_inj] at hr
          rw [lookup_rewriteChain_of_notMem hv, FMap.lookup_insert_eq, if_pos rfl, hr]
      | succ k =>
          exact ih hnodup (by simpa using hw) (by simpa [rewriteChain] using hr)

/-! ## The whole reorder -/

theorem bubbleSort_of_reorder_ok {desired : List Blake3Hash} {out : ReorderOutcome}
    (h : reorder g desired signer = .ok out) :
    desired.Nodup ∧ (∀ x ∈ desired, ∃ c, g.get x = some c) ∧ ∃ chain working,
      resolveLinearChain g desired.toFinset = .ok chain
      ∧ bubbleSort desired.idxOf signer chain.length (workingChanges g chain) = .ok working
      ∧ working.map WorkingChange.origin = desired
      ∧ out.rewritten = (rewriteChain desired.toFinset signer working ∅ none).1
      ∧ out.rewriteMap = (rewriteChain desired.toFinset signer working ∅ none).2
      ∧ ∃ last, out.rewritten.getLast? = some last ∧ out.newHead = last.id := by
  unfold reorder at h
  split_ifs at h with hlen hset
  simp only [not_or, not_not, List.any_eq_true, not_exists, not_and] at hset
  refine ⟨hset.1, fun x hx => ?_, ?_⟩
  · cases hget : g.get x with
    | none => exact absurd (by simp [hget]) (hset.2 x hx)
    | some c => exact ⟨c, rfl⟩
  · cases hchain : resolveLinearChain g desired.toFinset with
    | error e => simp [hchain] at h
    | ok chain =>
        simp only [hchain] at h
        split_ifs at h with hsame
        cases hsort : bubbleSort desired.idxOf signer chain.length (workingChanges g chain) with
        | error e => simp [hsort] at h
        | ok working =>
            simp only [hsort] at h
            split_ifs at h with horder
            cases hlast : (rewriteChain desired.toFinset signer working ∅ none).1.getLast? with
            | none => simp [hlast] at h
            | some last =>
                simp only [hlast, Except.ok.injEq] at h
                refine ⟨chain, working, rfl, hsort, not_not.mp horder, ?_, ?_, last, ?_, ?_⟩
                · rw [← h]
                · rw [← h]
                · rw [← h]
                  exact hlast
                · rw [← h]

theorem reorder_eq_ok {desired : List Blake3Hash} {out : ReorderOutcome}
    (h : reorder g desired signer = .ok out) :
    desired.Nodup ∧ (∀ x ∈ desired, ∃ c, g.get x = some c) ∧ ∃ chain working,
      resolveLinearChain g desired.toFinset = .ok chain
      ∧ Relation.ReflTransGen (SwapStep signer) (workingChanges g chain) working
      ∧ working.map WorkingChange.origin = desired
      ∧ out.rewritten = (rewriteChain desired.toFinset signer working ∅ none).1
      ∧ out.rewriteMap = (rewriteChain desired.toFinset signer working ∅ none).2
      ∧ ∃ last, out.rewritten.getLast? = some last ∧ out.newHead = last.id := by
  obtain ⟨hnodup, hpresent, chain, working, hchain, hsort, hrest⟩ := bubbleSort_of_reorder_ok h
  exact ⟨hnodup, hpresent, chain, working, hchain, bubbleSort_swapSteps hsort, hrest⟩

end Mutator

end ArcVcs
