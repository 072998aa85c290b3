import ArcVcs.Lib.BubbleSort
import ArcVcs.Reorder

/-!
# When a reorder succeeds

The sort of `reorder` exchanges the inverted pairs of the chain, each with the changes as they have
been rewritten by then, and stops at the first pair that does not commute. If it does not stop the
order is the requested one.
-/

namespace ArcVcs

namespace Mutator

open BubbleSort ChangeGraph

variable {g : ChangeGraph}

/-! ## The exchange of a pair -/

/-- The direct dependency of the right change on the left one apart, the two commute. -/
def LinearlyCommute (left right : Change) : Prop :=
  commutes left { right with deps := right.deps.erase left.id } = true

instance (left right : Change) : Decidable (LinearlyCommute left right) :=
  inferInstanceAs (Decidable (_ = true))

theorem atomPairDisjoint_of_sameTerminal {a b : Atom}
    (h : isDeleteInsertSameTerminal a b = true) :
    atomPairDisjoint a b = false ∧ atomPairDisjoint b a = false := by
  unfold isDeleteInsertSameTerminal at h
  split at h
  · obtain rfl := of_decide_eq_true h
    simp [atomPairDisjoint, Atom.isMove, Atom.paths]
  · simp at h

theorem ghostConflict_eq_false {atomsA atomsB : List Atom}
    (h : atomsDisjoint atomsA atomsB = true) : ghostConflict atomsA atomsB = false := by
  refine List.any_eq_false.mpr fun a ha => ?_
  simp only [List.any_eq_true, not_exists, not_and, Bool.not_eq_true]
  intro b hb
  have hdisj := List.all_eq_true.mp (List.all_eq_true.mp h a ha) b hb
  rw [Bool.or_eq_false_iff]
  constructor
  · by_contra hab
    simp [(atomPairDisjoint_of_sameTerminal (by simpa using hab)).1] at hdisj
  · by_contra hba
    simp [(atomPairDisjoint_of_sameTerminal (by simpa using hba)).2] at hdisj

variable [Crypto] {pos : Blake3Hash → ℕ} {signer : Author × SigningKey}

/-- The pair after the exchange, whether it commutes or not. -/
def exchangePair (signer : Author × SigningKey) (left right : WorkingChange) :
    WorkingChange × WorkingChange :=
  (⟨right.origin, Change.new (right.change.deps.erase left.change.id)
      (rewritePathsThroughMoves right.change.atoms left.change.atoms) right.change.intent
      signer.1 signer.2⟩,
    ⟨left.origin, Change.new (left.change.deps.erase right.change.id)
      (rewritePathsThroughMoves left.change.atoms right.change.atoms) left.change.intent
      signer.1 signer.2⟩)

theorem keepsTags_exchangePair (signer : Author × SigningKey) :
    KeepsTags WorkingChange.origin (exchangePair signer) :=
  ⟨fun _ _ => rfl, fun _ _ => rfl⟩

theorem commutePair_eq (a b : Change) :
    commutePair a b signer = if commutes a b = true then
      some (Change.new (b.deps.erase a.id) (rewritePathsThroughMoves b.atoms a.atoms) b.intent
          signer.1 signer.2,
        Change.new (a.deps.erase b.id) (rewritePathsThroughMoves a.atoms b.atoms) a.intent
          signer.1 signer.2)
    else none := by
  unfold commutePair commutes
  by_cases hdep : a.id ∈ b.deps ∨ b.id ∈ a.deps
  · simp [hdep]
  · cases hdisj : atomsDisjoint a.atoms b.atoms with
    | false => simp [hdep]
    | true => simp [hdep, ghostConflict_eq_false hdisj]

theorem commuteLinearPair_eq (left right : WorkingChange) :
    commuteLinearPair left.change right.change signer
      = if LinearlyCommute left.change right.change then
          some ((exchangePair signer left right).1.change,
            (exchangePair signer left right).2.change)
        else none := by
  have hpair : commuteLinearPair left.change right.change signer
      = commutePair left.change
        { right.change with deps := right.change.deps.erase left.change.id } signer := by
    unfold commuteLinearPair
    split_ifs with hdep
    · rfl
    · rw [Finset.erase_eq_of_notMem hdep]
  rw [hpair, commutePair_eq, Finset.erase_idem]
  rfl

/-! ## The sort -/

theorem bubblePass_of_commute {current : WorkingChange} {rest : List WorkingChange}
    (h : ∀ p ∈ exchanges WorkingChange.origin pos (exchangePair signer) current rest,
      LinearlyCommute p.1.change p.2.change) :
    bubblePass pos signer current rest
      = .ok (BubbleSort.pass WorkingChange.origin pos (exchangePair signer) current rest,
        !(exchanges WorkingChange.origin pos (exchangePair signer) current rest).isEmpty) := by
  induction rest generalizing current with
  | nil => rfl
  | cons next rest ih =>
      rw [exchanges] at h
      rw [bubblePass, exchanges, BubbleSort.pass]
      split_ifs at h ⊢ with hle
      · rw [ih h]
      · obtain ⟨hpair, hrest⟩ := List.forall_mem_cons.mp h
        rw [commuteLinearPair_eq, if_pos hpair]
        dsimp only
        rw [show (⟨current.origin, (exchangePair signer current next).2.change⟩ : WorkingChange)
          = (exchangePair signer current next).2 from rfl, ih hrest]
        rfl

theorem bubblePass_of_not_commute {current : WorkingChange} {rest : List WorkingChange}
    (h : ∃ p ∈ exchanges WorkingChange.origin pos (exchangePair signer) current rest,
      ¬ LinearlyCommute p.1.change p.2.change) :
    ∃ left right, bubblePass pos signer current rest = .error (.nonCommutingPair left right) := by
  induction rest generalizing current with
  | nil => simp [exchanges] at h
  | cons next rest ih =>
      rw [exchanges] at h
      rw [bubblePass]
      split_ifs at h ⊢ with hle
      · obtain ⟨left, right, herror⟩ := ih h
        exact ⟨left, right, by rw [herror]⟩
      · by_cases hpair : LinearlyCommute current.change next.change
        · rw [commuteLinearPair_eq, if_pos hpair]
          obtain ⟨p, hp, hnot⟩ := h
          rcases List.mem_cons.mp hp with rfl | hp
          · exact absurd hpair hnot
          · obtain ⟨left, right, herror⟩ := ih ⟨p, hp, hnot⟩
            refine ⟨left, right, ?_⟩
            dsimp only
            rw [show (⟨current.origin, (exchangePair signer current next).2.change⟩ : WorkingChange)
              = (exchangePair signer current next).2 from rfl, herror]
        · rw [commuteLinearPair_eq, if_neg hpair]
          exact ⟨_, _, rfl⟩

theorem bubbleSort_of_commute {fuel : ℕ} {ws : List WorkingChange}
    (h : ∀ p ∈ allExchanges WorkingChange.origin pos (exchangePair signer) fuel ws,
      LinearlyCommute p.1.change p.2.change) :
    bubbleSort pos signer fuel ws
      = .ok (sort WorkingChange.origin pos (exchangePair signer) fuel ws) := by
  induction fuel generalizing ws with
  | zero => rfl
  | succ fuel ih =>
      cases ws with
      | nil => rfl
      | cons w ws =>
          rw [allExchanges] at h
          obtain ⟨hpass, hrest⟩ := List.forall_mem_append.mp h
          rw [bubbleSort, bubblePass_of_commute hpass, sort]
          dsimp only
          cases hnil : (exchanges WorkingChange.origin pos (exchangePair signer) w ws).isEmpty with
          | true => rfl
          | false => exact ih hrest

theorem bubbleSort_of_not_commute {fuel : ℕ} {ws : List WorkingChange}
    (h : ∃ p ∈ allExchanges WorkingChange.origin pos (exchangePair signer) fuel ws,
      ¬ LinearlyCommute p.1.change p.2.change) :
    ∃ left right, bubbleSort pos signer fuel ws = .error (.nonCommutingPair left right) := by
  induction fuel generalizing ws with
  | zero => simp [allExchanges] at h
  | succ fuel ih =>
      cases ws with
      | nil => simp [allExchanges] at h
      | cons w ws =>
          rw [allExchanges] at h
          rw [bubbleSort]
          by_cases hpass : ∀ p ∈ exchanges WorkingChange.origin pos (exchangePair signer) w ws,
              LinearlyCommute p.1.change p.2.change
          · rw [bubblePass_of_commute hpass]
            obtain ⟨p, hp, hnot⟩ := h
            have hlater := (List.mem_append.mp hp).resolve_left fun hp => hnot (hpass p hp)
            dsimp only
            cases hnil :
                (exchanges WorkingChange.origin pos (exchangePair signer) w ws).isEmpty with
            | true =>
                have hchain := exchanges_eq_nil_iff.mp (List.isEmpty_iff.mp hnil)
                rw [pass_of_isChain hchain, allExchanges_eq_nil fuel hchain] at hlater
                simp at hlater
            | false => exact ih ⟨p, hlater, hnot⟩
          · push Not at hpass
            obtain ⟨left, right, herror⟩ := bubblePass_of_not_commute hpass
            rw [herror]
            exact ⟨left, right, rfl⟩

/-! ## The chain -/

section Chain

variable {selected : Finset Blake3Hash} {chain : List Blake3Hash} {x p : Blake3Hash}

omit [Crypto] in
theorem IsSelectedChain.exists_successor (h : IsSelectedChain g selected chain)
    (hx : x ∈ selected) (hp : p ∈ selected) (hdep : p ∈ g.deps x) :
    ∃ (i : ℕ) (_ : i + 1 < chain.length), chain[i] = p ∧ chain[i + 1] = x := by
  obtain ⟨j, hj, rfl⟩ := List.mem_iff_getElem.mp ((h.mem_iff x).mpr hx)
  cases j with
  | zero =>
      obtain ⟨root, rest, rfl, hroot⟩ := h.root
      exact absurd hdep (hroot p hp)
  | succ i =>
      have hprev : chain[i] ∈ g.deps chain[i + 1] := List.isChain_iff_getElem.mp h.isChain i hj
      have hsel : chain[i] ∈ selected := (h.mem_iff _).mp (List.getElem_mem _)
      exact ⟨i, hj, h.one_parent _ hx _ hsel _ hp hprev hdep, rfl⟩

omit [Crypto] in
theorem length_filter_sorted_le_one {s : Finset Blake3Hash}
    (h : ∀ a ∈ s, a ∈ selected → ∀ b ∈ s, b ∈ selected → a = b) :
    (s.sorted.filter (· ∈ selected)).length ≤ 1 := by
  rw [Finset.filter_sorted, Finset.length_sorted, Finset.card_le_one]
  intro a ha b hb
  obtain ⟨has, hsel⟩ := Finset.mem_filter.mp ha
  obtain ⟨hbs, hsel'⟩ := Finset.mem_filter.mp hb
  exact h a has hsel b hbs hsel'

omit [Crypto] in
theorem IsSelectedChain.mem_children_iff (hg : g.Indexed) (h : IsSelectedChain g selected chain)
    {i : ℕ} (hi : i < chain.length) :
    x ∈ childrenInSelected g selected chain[i] ↔ ∃ _ : i + 1 < chain.length, chain[i + 1] = x := by
  rw [mem_childrenInSelected hg]
  have hsel {j : ℕ} (hj : j < chain.length) : chain[j] ∈ selected :=
    (h.mem_iff _).mp (List.getElem_mem _)
  constructor
  · rintro ⟨hdep, hx⟩
    obtain ⟨j, hj, heq, rfl⟩ := h.exists_successor hx (hsel hi) hdep
    obtain rfl := (h.nodup.getElem_inj_iff).mp heq
    exact ⟨hj, rfl⟩
  · rintro ⟨hnext, rfl⟩
    exact ⟨List.isChain_iff_getElem.mp h.isChain i hnext, hsel hnext⟩

omit [Crypto] in
theorem walkChain_of_isSelectedChain (hg : g.Indexed) (h : IsSelectedChain g selected chain)
    {i fuel : ℕ} (hi : i < chain.length) (hfuel : chain.length < fuel + i) :
    walkChain g selected fuel chain[i] (chain.take i) = .ok chain := by
  induction fuel generalizing i with
  | zero => omega
  | succ fuel ih =>
      have hnew : chain[i] ∉ chain.take i := by
        intro hmem
        obtain ⟨j, hj, heq⟩ := List.mem_take_iff_getElem.mp hmem
        have hij := (h.nodup.getElem_inj_iff).mp heq
        omega
      rw [walkChain, if_neg hnew, ← List.take_succ_eq_append_getElem hi]
      cases hch : childrenInSelected g selected chain[i] with
      | nil =>
          have hlast : ¬ i + 1 < chain.length := by
            intro hnext
            have hmem := (h.mem_children_iff hg hi).mpr ⟨hnext, rfl⟩
            simp [hch] at hmem
          dsimp only
          rw [List.take_of_length_le (by omega)]
      | cons child rest =>
          obtain ⟨hnext, rfl⟩ := (h.mem_children_iff hg hi).mp (hch ▸ List.mem_cons_self)
          exact ih hnext (by omega)

omit [Crypto] in
theorem resolveLinearChain_of_isSelectedChain (hg : g.Indexed)
    (h : IsSelectedChain g selected chain) : resolveLinearChain g selected = .ok chain := by
  obtain ⟨root, rest, hchain, hroot⟩ := h.root
  have hcard : selected.card = chain.length := by
    rw [← List.toFinset_card_of_nodup h.nodup]
    congr 1
    ext x
    rw [List.mem_toFinset, h.mem_iff]
  have hparents : ∀ x ∈ selected, (parentsInSelected g selected x).length ≤ 1 :=
    fun x hx => length_filter_sorted_le_one fun p hp hps q hq hqs =>
      h.one_parent x hx p hps q hqs hp hq
  have hchildren : ∀ x ∈ selected, (childrenInSelected g selected x).length ≤ 1 := by
    intro x hx
    refine length_filter_sorted_le_one fun a ha has b hb hbs => ?_
    obtain ⟨i, hi, hxi, rfl⟩ := h.exists_successor has hx ((hg.mem_children x a).mp ha)
    obtain ⟨j, hj, hxj, rfl⟩ := h.exists_successor hbs hx ((hg.mem_children x b).mp hb)
    obtain rfl := (h.nodup.getElem_inj_iff).mp (hxi.trans hxj.symm)
    rfl
  have hany : (selected.sorted.any fun id =>
      1 < (parentsInSelected g selected id).length
        || 1 < (childrenInSelected g selected id).length) = false := by
    refine List.any_eq_false.mpr fun x hx => ?_
    have hx := Finset.mem_sorted.mp hx
    simp [hparents x hx, hchildren x hx]
  have hroots : (selected.sorted.filter fun id => (parentsInSelected g selected id).isEmpty)
      = [root] := by
    refine List.perm_singleton.mp ((List.perm_ext_iff_of_nodup
      ((Finset.nodup_sorted selected).filter _) (List.nodup_singleton root)).mpr fun x => ?_)
    rw [List.mem_filter, Finset.mem_sorted, List.isEmpty_iff, List.mem_singleton]
    constructor
    · rintro ⟨hx, hnone⟩
      obtain ⟨i, hi, rfl⟩ := List.mem_iff_getElem.mp ((h.mem_iff x).mpr hx)
      cases i with
      | zero => simp [hchain]
      | succ i =>
          have hmem : chain[i] ∈ parentsInSelected g selected chain[i + 1] :=
            mem_parentsInSelected.mpr ⟨List.isChain_iff_getElem.mp h.isChain i hi,
              (h.mem_iff _).mp (List.getElem_mem _)⟩
          simp [hnone] at hmem
    · rintro rfl
      refine ⟨(h.mem_iff x).mp (by simp [hchain]),
        List.eq_nil_iff_forall_not_mem.mpr fun p hp => ?_⟩
      obtain ⟨hdep, hsel⟩ := mem_parentsInSelected.mp hp
      exact hroot p hsel hdep
  rw [resolveLinearChain, hany, if_neg Bool.false_ne_true, hroots]
  dsimp only
  have hlen : 0 < chain.length := by simp [hchain]
  have hwalk : walkChain g selected (selected.card + 1) chain[0] (chain.take 0) = .ok chain :=
    walkChain_of_isSelectedChain hg h hlen (by omega)
  have hzero : chain[0] = root := by simp [hchain]
  rw [List.take_zero, hzero] at hwalk
  rw [hwalk]
  dsimp only
  rw [if_neg (by simpa using hcard.symm)]

end Chain

/-! ## The reorder -/

variable {desired chain : List Blake3Hash}

/-- The exchanges that bring the chain into the requested order, with the changes that each one
finds when those before it have been made. -/
def neededSwaps (g : ChangeGraph) (signer : Author × SigningKey) (desired chain : List Blake3Hash) :
    List (WorkingChange × WorkingChange) :=
  allExchanges WorkingChange.origin desired.idxOf (exchangePair signer) chain.length
    (workingChanges g chain)

/-- The rewritten changes are those of the requested order, each with its intent, its atoms
rewritten through the moves of others and the one before it as a dependency. -/
structure ReorderedInto (g : ChangeGraph) (signer : Author × SigningKey)
    (desired chain : List Blake3Hash) (out : ReorderOutcome) : Prop where
  length_eq : out.rewritten.length = desired.length
  origins : ∀ (k : ℕ) (x : Blake3Hash) (r : Change), desired[k]? = some x →
    out.rewritten[k]? = some r → out.rewriteMap.lookup x = some r.id ∧ r.author = signer.1
      ∧ ∃ c, g.get x = some c ∧ r.intent = c.intent ∧ SortedAtoms g desired.toFinset x r.atoms
  previous : ∀ (k : ℕ) (p r : Change), out.rewritten[k]? = some p →
    out.rewritten[k + 1]? = some r → p.id ∈ r.deps
  domain : ∀ x, x ∈ out.rewriteMap.keys ↔ x ∈ chain
  head : ∀ x, desired.getLast? = some x → out.rewriteMap.lookup x = some out.newHead

omit [Crypto] in
theorem map_origin_workingChanges (hpresent : ∀ x ∈ chain, ∃ c, g.get x = some c) :
    (workingChanges g chain).map WorkingChange.origin = chain := by
  induction chain with
  | nil => rfl
  | cons x chain ih =>
      obtain ⟨⟨c, hc⟩, hrest⟩ := List.forall_mem_cons.mp hpresent
      rw [workingChanges, List.filterMap_cons, hc]
      exact congrArg (x :: ·) (ih hrest)

omit [Crypto] in
theorem pairwise_idxOf {l : List Blake3Hash} (h : l.Nodup) :
    l.Pairwise fun x y => l.idxOf x ≤ l.idxOf y := by
  refine List.pairwise_iff_getElem.mpr fun i j hi hj hij => ?_
  rw [h.idxOf_getElem, h.idxOf_getElem]
  exact hij.le

theorem map_origin_sort (signer : Author × SigningKey)
    (hpresent : ∀ x ∈ chain, ∃ c, g.get x = some c) (hnodup : desired.Nodup)
    (hperm : chain.Perm desired) :
    (sort WorkingChange.origin desired.idxOf (exchangePair signer) chain.length
      (workingChanges g chain)).map WorkingChange.origin = desired := by
  have horigins := map_origin_workingChanges hpresent
  have hlen : chain.length = (workingChanges g chain).length := by
    rw [← List.length_map WorkingChange.origin, horigins]
  rw [hlen]
  refine map_sort_eq (keepsTags_exchangePair signer) (by rw [horigins]; exact hperm)
    (pairwise_idxOf hnodup) fun x hx y hy hxy => ?_
  exact (List.idxOf_inj hx).mp hxy

theorem reorder_of_isSelectedChain (signer : Author × SigningKey) (hg : g.Indexed)
    (hchain : IsSelectedChain g desired.toFinset chain)
    (hpresent : ∀ x ∈ chain, ∃ c, g.get x = some c) (hnodup : desired.Nodup)
    (hlen : 2 ≤ desired.length) :
    ((∀ p ∈ neededSwaps g signer desired chain, LinearlyCommute p.1.change p.2.change) →
        ∃ out, reorder g desired signer = .ok out)
      ∧ ((∃ p ∈ neededSwaps g signer desired chain, ¬ LinearlyCommute p.1.change p.2.change) →
        ∃ left right, reorder g desired signer = .error (.nonCommutingPair left right)) := by
  have hmem (x : Blake3Hash) : x ∈ chain ↔ x ∈ desired := by
    rw [hchain.mem_iff, List.mem_toFinset]
  have hperm : chain.Perm desired := (List.perm_ext_iff_of_nodup hchain.nodup hnodup).mpr hmem
  have hset : ¬ (¬ desired.Nodup ∨ desired.any (fun id => (g.get id).isNone) = true) := by
    rw [not_or, not_not, List.any_eq_true]
    refine ⟨hnodup, ?_⟩
    rintro ⟨x, hx, hnone⟩
    obtain ⟨c, hc⟩ := hpresent x ((hmem x).mpr hx)
    simp [hc] at hnone
  have hsame : chain.toFinset = desired.toFinset := by
    ext x
    rw [List.mem_toFinset, List.mem_toFinset, hmem]
  unfold reorder
  rw [if_neg (by omega), if_neg hset, resolveLinearChain_of_isSelectedChain hg hchain]
  dsimp only
  rw [if_neg (not_not_intro hsame)]
  constructor
  · intro hall
    rw [bubbleSort_of_commute hall]
    dsimp only
    have horigins := map_origin_sort signer hpresent hnodup hperm
    rw [if_neg (not_not_intro horigins)]
    cases hlast : (rewriteChain desired.toFinset signer (sort WorkingChange.origin desired.idxOf
        (exchangePair signer) chain.length (workingChanges g chain)) ∅ none).1.getLast? with
    | some last => exact ⟨_, rfl⟩
    | none =>
        have hrewritten := (@rewriteChain_spec _ signer desired.toFinset
          (sort WorkingChange.origin desired.idxOf (exchangePair signer) chain.length
            (workingChanges g chain)) ∅ [] (by simp)).1
        rw [List.map_nil, List.getLast?_nil, List.getLast?_eq_none_iff.mp hlast,
          ← List.length_map WorkingChange.origin, horigins, List.length_nil] at hrewritten
        omega
  · intro hnot
    obtain ⟨left, right, herror⟩ := bubbleSort_of_not_commute hnot
    rw [herror]
    exact ⟨left, right, rfl⟩

/-! ## The result -/

theorem reorderedInto_of_ok (hg : g.Indexed) (hchain : IsSelectedChain g desired.toFinset chain)
    {out : ReorderOutcome} (hok : reorder g desired signer = .ok out) :
    ReorderedInto g signer desired chain out := by
  have hresolve := resolveLinearChain_of_isSelectedChain hg hchain
  obtain ⟨working, h, hmap, last, hlast, hnew⟩ := isReordered_of_ok hg hok hresolve
  have hlen : out.rewritten.length = desired.length := by
    rw [h.length_eq, ← h.origins, List.length_map]
  refine ⟨hlen, fun k x r hx hr => ?_, fun k p r hp hr => h.mem_deps_previous hg hp hr, fun x => ?_,
    fun x hx => ?_⟩
  · obtain ⟨w, c, -, rfl, hget, hder, hrew⟩ := h.exists_rewrittenFrom hg hx hr
    refine ⟨hmap k _ r hx hr, hrew.author, c, hget, hrew.intent.trans hder.intent, ?_⟩
    rw [hrew.atoms]
    exact hder.atoms
  · have hmem : x ∈ chain ↔ x ∈ desired := by rw [hchain.mem_iff, List.mem_toFinset]
    rw [hmem, FMap.mem_keys_iff]
    constructor
    · rintro ⟨id, hid⟩
      obtain ⟨-, -, -, sorted, -, -, horigins, -, hmapped, -⟩ := reorder_eq_ok hok
      by_contra hx
      rw [hmapped, lookup_rewriteChain_of_notMem (by rwa [horigins]), Finmap.lookup_empty] at hid
      exact Option.some_ne_none id hid.symm
    · intro hx
      obtain ⟨k, hk⟩ := List.mem_iff_getElem?.mp hx
      obtain ⟨hlt, -⟩ := List.getElem?_eq_some_iff.mp hk
      exact ⟨_, hmap k x _ hk (List.getElem?_eq_getElem (hlen.symm ▸ hlt))⟩
  · rw [List.getLast?_eq_getElem?] at hx hlast
    rw [hlen] at hlast
    rw [hnew]
    exact hmap _ x last hx hlast

theorem exists_neededSwaps_iff (signer : Author × SigningKey)
    (hpresent : ∀ x ∈ chain, ∃ c, g.get x = some c) (x y : Blake3Hash) :
    (∃ p ∈ neededSwaps g signer desired chain, p.1.origin = x ∧ p.2.origin = y)
      ↔ Inverted desired.idxOf x y chain := by
  have horigins := map_origin_workingChanges hpresent
  have hlength : chain.length = (workingChanges g chain).length := by
    rw [← List.length_map WorkingChange.origin, horigins]
  have hinv := allExchanges_iff desired.idxOf (keepsTags_exchangePair signer)
    (workingChanges g chain) x y
  rw [horigins, ← hlength] at hinv
  rw [← hinv, neededSwaps, List.mem_map]
  simp only [Prod.map, Prod.mk.injEq]

/-- **A reorder is a bubble sort.** The exchanges that it needs are those of the pairs that the
requested order turns round. It succeeds exactly when the changes of each of them commute, and what
it returns is in the requested order. -/
theorem reorder_sorts (hg : g.Indexed) (hchain : IsSelectedChain g chain.toFinset chain)
    (hpresent : ∀ x ∈ chain, ∃ c, g.get x = some c) (hlen : 2 ≤ chain.length)
    (hperm : desired.Perm chain) :
    ((∃ out, reorder g desired signer = .ok out)
        ↔ ∀ p ∈ neededSwaps g signer desired chain, LinearlyCommute p.1.change p.2.change)
      ∧ (∀ x y, (∃ p ∈ neededSwaps g signer desired chain, p.1.origin = x ∧ p.2.origin = y)
        ↔ Inverted desired.idxOf x y chain)
      ∧ reorder g desired signer ≠ .error .nonLinearChain
      ∧ ∀ out, reorder g desired signer = .ok out → ReorderedInto g signer desired chain out := by
  rw [← List.toFinset_eq_of_perm _ _ hperm] at hchain
  have hnodup := hperm.nodup_iff.mpr hchain.nodup
  obtain ⟨hok, herror⟩ := reorder_of_isSelectedChain signer hg hchain hpresent hnodup
    (hperm.length_eq.symm ▸ hlen)
  refine ⟨⟨fun ⟨out, hout⟩ p hp => ?_, hok⟩, fun x y => ?_, fun hnonlinear => ?_, fun out hout =>
    reorderedInto_of_ok hg hchain hout⟩
  · by_contra hnot
    obtain ⟨left, right, heq⟩ := herror ⟨p, hp, hnot⟩
    simp [hout] at heq
  · exact exists_neededSwaps_iff signer hpresent x y
  · by_cases hall : ∀ p ∈ neededSwaps g signer desired chain,
        LinearlyCommute p.1.change p.2.change
    · obtain ⟨out, hout⟩ := hok hall
      simp [hout] at hnonlinear
    · push Not at hall
      obtain ⟨left, right, heq⟩ := herror hall
      simp [heq] at hnonlinear

omit [Crypto] in
/-- A chain of two insertions is turned round. -/
theorem reorder_sorts_two_changes :
    let a := Change.sample ∅ "a.rs" "a"
    let b := Change.sample {a.id} "b.rs" "b"
    let g := ofChanges [a, b]
    let signer : Author × SigningKey := (.human "" "" 0, 0)
    ∃ out, @reorder Crypto.sample g [b.id, a.id] signer = .ok out
      ∧ ReorderedInto g signer [b.id, a.id] [a.id, b.id] out := by
  intro a b g signer
  have hg : g.Indexed := indexed_ofChanges (by decide)
  have hchain : IsSelectedChain g [a.id, b.id].toFinset [a.id, b.id] :=
    resolveLinearChain_eq_ok hg (by decide)
  have hpresent : ∀ x ∈ [a.id, b.id], ∃ c, g.get x = some c := fun x hx =>
    Option.isSome_iff_exists.mp ((show ∀ x ∈ [a.id, b.id], (g.get x).isSome by decide) x hx)
  have hsorts := @reorder_sorts g Crypto.sample signer [b.id, a.id] [a.id, b.id] hg hchain hpresent
    le_rfl (.swap _ _ _)
  obtain ⟨out, hout⟩ := hsorts.1.mpr (by decide)
  exact ⟨out, hout, hsorts.2.2.2 out hout⟩

omit [Crypto] in
/-- A chain of one change is in the requested order, but it is no reorder. -/
theorem reorder_refuses_single_change :
    let a := Change.sample ∅ "a.rs" "a"
    let g := ofChanges [a]
    let signer : Author × SigningKey := (.human "" "" 0, 0)
    g.Indexed ∧ IsSelectedChain g [a.id].toFinset [a.id] ∧ (g.get a.id).isSome
      ∧ @neededSwaps Crypto.sample g signer [a.id] [a.id] = []
      ∧ @reorder Crypto.sample g [a.id] signer = .error .invalidReorderSet := by
  intro a g signer
  have hg : g.Indexed := indexed_ofChanges (by decide)
  exact ⟨hg, resolveLinearChain_eq_ok hg (by decide), by decide, rfl, rfl⟩

end Mutator

end ArcVcs
