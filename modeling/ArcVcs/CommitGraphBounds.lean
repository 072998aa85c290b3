import ArcVcs.PackIndex

/-!
# Bounds in the commit graph

The checks that are made when the file is opened do not read the fanout as a whole, so the bounds of
a lookup can be so large that their sum overflows. The list of further parents is only compared with
the end of its chunk after a word without the flag, so its last word can lie behind the chunk.
-/

namespace ArcVcs.GitIngress

open Git (GitOid)

namespace CommitGraphIndex

variable {index : CommitGraphIndex} {oid : GitOid} {pos : ℕ}

/-- What the id is compared with at a position of the table. -/
def compareAt (index : CommitGraphIndex) (oid : GitOid) (mid : ℕ) : Option Ordering :=
  if index.commitCount ≤ mid then none
  else
    (slice index.data (index.oidLookupOffset + mid * 20)
      (index.oidLookupOffset + mid * 20 + 20)).map fun bytes =>
        cmp (key oid) (bytes.map UInt8.toNat)

def fanBounds (index : CommitGraphIndex) (oid : GitOid) : ℕ × ℕ :=
  (if firstByte oid = 0 then 0 else index.fan.getD (firstByte oid - 1) 0,
    index.fan.getD (firstByte oid) 0)

/-- Each two bounds that the lookup comes to have a sum of 32 bits. -/
def SumsFit (index : CommitGraphIndex) (oid : GitOid) : Prop :=
  ∀ l u, BinarySearch.Visits (fun l u => (.ok ((l + u) / 2) : Except GitFault ℕ))
    (index.compareAt oid) (index.fanBounds oid).1 (index.fanBounds oid).2 l u →
    l < u → l + u < 2 ^ 32

/-- The list of further parents is in order up to its last word, but this one lies behind the end
of the chunk. -/
inductive EndsPast (data : Bytes) (count stop : ℕ) : ℕ → Prop
  | last {cursor word : ℕ} (hread : HasUint 4 data cursor word)
      (hflag : word &&& extendedEdgeMask ≠ 0) (hcount : word &&& positionMask < count)
      (hpast : stop < cursor + 4) : EndsPast data count stop cursor
  | next {cursor word : ℕ} (hread : HasUint 4 data cursor word)
      (hflag : word &&& extendedEdgeMask = 0) (hcount : word < count)
      (hstop : cursor + 4 ≤ stop) (hrest : EndsPast data count stop (cursor + 4)) :
      EndsPast data count stop cursor

def firstParent (word : ℕ) : List ℕ := if word = noParent then [] else [word]

/-- The entry of a commit is in order, but its list of further parents ends past the chunk. -/
def EdgesPast (index : CommitGraphIndex) (pos : ℕ) : Prop :=
  pos < index.commitCount ∧ ∃ parent1 parent2 range,
    HasUint 4 index.data (index.commitDataOffset + pos * 36 + 20) parent1
    ∧ HasUint 4 index.data (index.commitDataOffset + pos * 36 + 24) parent2
    ∧ (parent1 = noParent ∨ parent1 &&& extendedEdgeMask = 0 ∧ parent1 < index.commitCount)
    ∧ parent2 &&& extendedEdgeMask ≠ 0
    ∧ index.edgeChunkRange = some range
    ∧ EndsPast index.data index.commitCount range.2 (range.1 + (parent2 &&& positionMask) * 4)

/-- Reading stays in bounds: nothing panics, the parents are positions of commits, and the further
parents of a merge are words inside of the `EDGE` chunk, up to one with the flag. -/
structure InBounds (index : CommitGraphIndex) (oid : GitOid) (pos : ℕ) : Prop where
  lookupPosition : index.lookupPosition oid ≠ .error .panic
  oidAt : index.oidAt pos ≠ .error .panic
  parentPositionsFor : index.parentPositionsFor pos ≠ .error .panic
  count : ∀ positions, index.parentPositionsFor pos = .ok positions →
    ∀ parent ∈ positions, parent < index.commitCount
  edges : ∀ positions parent2, index.parentPositionsFor pos = .ok positions →
    HasUint 4 index.data (index.commitDataOffset + pos * 36 + 24) parent2 →
    parent2 &&& extendedEdgeMask ≠ 0 → ∃ parent1 range rest,
      HasUint 4 index.data (index.commitDataOffset + pos * 36 + 20) parent1
      ∧ index.edgeChunkRange = some range ∧ positions = firstParent parent1 ++ rest
      ∧ EdgeWords index.data range.2 (range.1 + (parent2 &&& positionMask) * 4) rest

/-! ## The lookup -/

theorem oidAt_ne_panic (index : CommitGraphIndex) (pos : ℕ) :
    index.oidAt pos ≠ .error .panic := by
  unfold oidAt
  dsimp only
  split_ifs
  · simp
  · split
    · simp
    · split <;> simp

theorem compareAt_eq (h : index.Checked) (oid : GitOid) : index.compareAt oid
    = fun mid => (index.oidAt mid).toOption.map fun midOid => cmp (key oid) (key midOid) := by
  funext mid
  rw [compareAt, oidAt, h.hashLen]
  by_cases hmid : index.commitCount ≤ mid
  · rw [if_pos hmid, if_pos hmid]
    rfl
  · rw [if_neg hmid, if_neg hmid]
    dsimp only
    have hend : index.oidLookupOffset + mid * 20 + 20 ≤ index.data.length := by
      have hoidl := h.oidl
      omega
    have hslice : slice index.data (index.oidLookupOffset + mid * 20)
        (index.oidLookupOffset + mid * 20 + 20)
          = some ((index.data.drop (index.oidLookupOffset + mid * 20)).take 20) := by
      rw [slice, if_pos ⟨Nat.le_add_right _ _, hend⟩, Nat.add_sub_cancel_left]
    have hlength : ((index.data.drop (index.oidLookupOffset + mid * 20)).take 20).length = 20 := by
      rw [List.length_take, List.length_drop]
      omega
    rw [hslice]
    dsimp only [Option.map_some]
    rw [GitOid.ofBytes?, dif_pos hlength]
    rfl

/-- **The lookup panics exactly where two bounds of it have a sum that does not fit.** -/
theorem lookupPosition_ne_panic_iff (h : index.Checked) :
    index.lookupPosition oid ≠ .error .panic ↔ index.SumsFit oid := by
  have hmiddle (l u : ℕ) : middle l u = .error .panic ↔ 2 ^ 32 ≤ l + u := by
    unfold middle
    split_ifs with hsum
    · exact iff_of_true rfl hsum
    · exact iff_of_false (by simp) hsum
  have hpivot (l u mid : ℕ) (hlu : l < u) (hmid : middle l u = .ok mid) : l ≤ mid ∧ mid < u := by
    unfold middle at hmid
    split_ifs at hmid
    obtain rfl := Except.ok.inj hmid
    omega
  have htotal (l u : ℕ) : middle l u = .error .panic ∨ middle l u = .ok ((l + u) / 2) := by
    unfold middle
    split_ifs
    · exact .inl rfl
    · exact .inr rfl
  rw [ne_eq, lookupPosition, ← compareAt_eq h, BinarySearch.search_eq_error_iff hpivot le_rfl,
    BinarySearch.exists_visits_iff htotal]
  simp only [hmiddle, not_exists, not_and, not_le]
  rfl

/-! ## The further parents -/

theorem validateParentPosition_eq_ok {word parent : ℕ}
    (h : index.validateParentPosition word = .ok parent) :
    parent = word ∧ word < index.commitCount := by
  unfold validateParentPosition at h
  split_ifs at h with hcount
  exact ⟨(Except.ok.inj h).symm, not_le.mp hcount⟩

theorem validateParentPosition_of_lt {word : ℕ} (h : word < index.commitCount) :
    index.validateParentPosition word = .ok word :=
  if_neg (not_le.mpr h)

theorem validateParentPosition_ne_panic (index : CommitGraphIndex) (word : ℕ) :
    index.validateParentPosition word ≠ .error .panic := by
  unfold validateParentPosition
  split_ifs <;> simp

theorem edgeParents_eq_ok {stop fuel cursor : ℕ} {acc positions : List ℕ}
    (hrun : index.edgeParents stop fuel cursor acc = .ok positions) :
    ∃ rest, positions = acc ++ rest ∧ (∀ parent ∈ rest, parent < index.commitCount)
      ∧ (EdgeWords index.data stop cursor rest
        ∨ EndsPast index.data index.commitCount stop cursor) := by
  induction fuel generalizing cursor acc with
  | zero => cases hrun
  | succ fuel ih =>
      obtain ⟨raw, hraw, hrun⟩ := Except.bind_eq_ok_iff.mp hrun
      have hread : HasUint 4 index.data cursor raw := hasUint_of_read hraw
      by_cases hflag : raw &&& extendedEdgeMask ≠ 0
      · rw [if_pos hflag] at hrun
        obtain ⟨last, hlast, hend⟩ := Except.bind_eq_ok_iff.mp hrun
        obtain ⟨rfl, hcount⟩ := validateParentPosition_eq_ok hlast
        obtain rfl := Except.ok.inj hend
        refine ⟨[raw &&& positionMask], rfl, by simpa using hcount, ?_⟩
        by_cases hstop : cursor + 4 ≤ stop
        · exact .inl ⟨hstop, raw, hraw, hflag, rfl⟩
        · exact .inr (.last hread hflag hcount (not_le.mp hstop))
      · rw [if_neg hflag] at hrun
        obtain ⟨parent, hparent, hend⟩ := Except.bind_eq_ok_iff.mp hrun
        obtain ⟨rfl, hcount⟩ := validateParentPosition_eq_ok hparent
        rw [not_not] at hflag
        by_cases hstop : stop < cursor + 4
        · rw [if_pos hstop] at hend
          cases hend
        rw [if_neg hstop] at hend
        obtain ⟨rest, rfl, hrest, hwords⟩ := ih hend
        refine ⟨parent :: rest, List.append_assoc _ _ _,
          List.forall_mem_cons.mpr ⟨hcount, hrest⟩, ?_⟩
        rcases hwords with hwords | hpast
        · left
          cases rest with
          | nil => exact hwords.elim
          | cons second rest => exact ⟨not_lt.mp hstop, hraw, hflag, hwords⟩
        · exact .inr (.next hread hflag hcount (not_lt.mp hstop) hpast)

theorem EndsPast.edgeParents {stop cursor : ℕ}
    (h : EndsPast index.data index.commitCount stop cursor) (fuel : ℕ) (acc : List ℕ)
    (hfuel : index.data.length < cursor + fuel) :
    ∃ positions, index.edgeParents stop fuel cursor acc = .ok positions := by
  induction h generalizing fuel acc with
  | @last cursor word hread hflag hcount hpast =>
      have hlength := hread.le_length
      obtain ⟨fuel, rfl⟩ := Nat.exists_eq_add_one_of_ne_zero (show fuel ≠ 0 by omega)
      refine ⟨acc ++ [word &&& positionMask], ?_⟩
      rw [CommitGraphIndex.edgeParents, readU32BeAt, hread.read]
      dsimp only [bind, Except.bind]
      rw [if_pos hflag, validateParentPosition_of_lt hcount]
  | @next cursor word hread hflag hcount hstop _ ih =>
      have hlength := hread.le_length
      obtain ⟨fuel, rfl⟩ := Nat.exists_eq_add_one_of_ne_zero (show fuel ≠ 0 by omega)
      obtain ⟨positions, hrest⟩ := ih fuel (acc ++ [word]) (by omega)
      refine ⟨positions, ?_⟩
      rw [CommitGraphIndex.edgeParents, readU32BeAt, hread.read]
      dsimp only [bind, Except.bind]
      rw [if_neg (not_not.mpr hflag), validateParentPosition_of_lt hcount]
      dsimp only
      rw [if_neg (not_lt.mpr hstop)]
      exact hrest

theorem EndsPast.not_edgeWords {data : Bytes} {count stop cursor : ℕ}
    (h : EndsPast data count stop cursor) (rest : List ℕ) : ¬ EdgeWords data stop cursor rest := by
  induction h generalizing rest with
  | last _ _ _ hpast =>
      intro hwords
      match rest, hwords with
      | [_], ⟨hstop, _⟩ => omega
      | _ :: _ :: _, ⟨hstop, _⟩ => omega
  | next hread hflag _ _ _ ih =>
      intro hwords
      match rest with
      | [] => exact hwords
      | [_] =>
          obtain ⟨-, raw, hraw, hflag', -⟩ := hwords
          rw [hasUint_unique (hasUint_of_read hraw) hread] at hflag'
          exact hflag' hflag
      | _ :: second :: rest => exact ih (second :: rest) hwords.2.2.2

theorem edgeParents_ne_panic (index : CommitGraphIndex) (stop fuel cursor : ℕ) (acc : List ℕ) :
    index.edgeParents stop fuel cursor acc ≠ .error .panic := by
  induction fuel generalizing cursor acc with
  | zero => simp [edgeParents]
  | succ fuel ih =>
      intro h
      rcases Except.bind_eq_error_iff.mp h with h | ⟨raw, -, h⟩
      · exact readUintBeAt_ne_panic _ _ _ _ h
      split at h
      · rcases Except.bind_eq_error_iff.mp h with h | ⟨last, -, h⟩
        · exact validateParentPosition_ne_panic _ _ h
        · cases h
      · rcases Except.bind_eq_error_iff.mp h with h | ⟨parent, -, h⟩
        · exact validateParentPosition_ne_panic _ _ h
        · split at h
          · cases h
          · exact ih _ _ h

/-! ## The entries -/

theorem parentPositionsFor_eq (h : index.Checked) (hpos : pos < index.commitCount) :
    ∃ parent1 parent2, HasUint 4 index.data (index.commitDataOffset + pos * 36 + 20) parent1
      ∧ HasUint 4 index.data (index.commitDataOffset + pos * 36 + 24) parent2
      ∧ index.parentPositionsFor pos = (if parent1 = noParent then index.laterParents parent2 []
        else if parent1 &&& extendedEdgeMask ≠ 0 then
          .error (.error "commit-graph parent1 cannot reference EDGE list")
        else do
          let parent ← index.validateParentPosition parent1
          index.laterParents parent2 [parent]) := by
  have hend : index.commitDataOffset + pos * 36 + 36 ≤ index.data.length := by
    have hcdat := h.cdat
    omega
  obtain ⟨parent1, hfirst⟩ :=
    @hasUint_of_le 4 (index.commitDataOffset + pos * 36 + 20) index.data (by omega)
  obtain ⟨parent2, hsecond⟩ :=
    @hasUint_of_le 4 (index.commitDataOffset + pos * 36 + 24) index.data (by omega)
  refine ⟨parent1, parent2, hfirst, hsecond, ?_⟩
  obtain ⟨entry, hentry⟩ : ∃ entry, slice index.data (index.commitDataOffset + pos * 36)
      (index.commitDataOffset + pos * 36 + 36) = some entry :=
    ⟨_, if_pos ⟨Nat.le_add_right _ _, hend⟩⟩
  rw [CommitGraphIndex.parentPositionsFor, if_neg (not_le.mpr hpos), h.hashLen]
  dsimp only [commitDataSansHash, Nat.reduceAdd]
  rw [hentry]
  dsimp only
  rw [readU32From, readUintBeAt_slice hentry (by omega) (hfirst.read "commit-graph parent1"),
    readUintBeAt_slice hentry (by omega) (hsecond.read "commit-graph parent2")]
  rfl

/-- What stands behind the first parent. -/
inductive LaterWords (index : CommitGraphIndex) (parent2 : ℕ) : List ℕ → Prop
  | none (hword : parent2 = noParent) : LaterWords index parent2 []
  | one (hflag : parent2 &&& extendedEdgeMask = 0) (hcount : parent2 < index.commitCount) :
      LaterWords index parent2 [parent2]
  | edges {range : ℕ × ℕ} {rest : List ℕ} (hflag : parent2 &&& extendedEdgeMask ≠ 0)
      (hrange : index.edgeChunkRange = some range)
      (hcount : ∀ parent ∈ rest, parent < index.commitCount)
      (hwords : EdgeWords index.data range.2 (range.1 + (parent2 &&& positionMask) * 4) rest
        ∨ EndsPast index.data index.commitCount range.2
          (range.1 + (parent2 &&& positionMask) * 4)) :
      LaterWords index parent2 rest

theorem laterParents_eq_ok {parent2 : ℕ} {acc positions : List ℕ}
    (hrun : index.laterParents parent2 acc = .ok positions) :
    ∃ rest, positions = acc ++ rest ∧ LaterWords index parent2 rest := by
  unfold laterParents at hrun
  split_ifs at hrun with hword hflag
  · obtain rfl := Except.ok.inj hrun
    exact ⟨[], (List.append_nil _).symm, .none hword⟩
  · obtain ⟨parent, hparent, hend⟩ := Except.bind_eq_ok_iff.mp hrun
    obtain ⟨rfl, hcount⟩ := validateParentPosition_eq_ok hparent
    exact ⟨[parent], (Except.ok.inj hend).symm, .one hflag hcount⟩
  · cases hrange : index.edgeChunkRange with
    | none =>
        rw [hrange] at hrun
        cases hrun
    | some range =>
        rw [hrange] at hrun
        obtain ⟨rest, hpositions, hcount, hwords⟩ := edgeParents_eq_ok hrun
        exact ⟨rest, hpositions, .edges hflag hrange hcount hwords⟩

theorem laterParents_ne_panic (index : CommitGraphIndex) (parent2 : ℕ) (acc : List ℕ) :
    index.laterParents parent2 acc ≠ .error .panic := by
  intro h
  unfold laterParents at h
  split_ifs at h with hword hflag
  · rcases Except.bind_eq_error_iff.mp h with h | ⟨parent, -, h⟩
    · exact validateParentPosition_ne_panic _ _ h
    · cases h
  · split at h
    · cases h
    · exact edgeParents_ne_panic _ _ _ _ _ h

theorem parentPositionsFor_ne_panic (h : index.Checked) (pos : ℕ) :
    index.parentPositionsFor pos ≠ .error .panic := by
  by_cases hpos : pos < index.commitCount
  · obtain ⟨parent1, parent2, -, -, heq⟩ := parentPositionsFor_eq h hpos
    rw [heq]
    split_ifs
    · exact laterParents_ne_panic _ _ _
    · simp
    · intro h
      rcases Except.bind_eq_error_iff.mp h with h | ⟨parent, -, h⟩
      · exact validateParentPosition_ne_panic _ _ h
      · exact laterParents_ne_panic _ _ _ h
  · rw [CommitGraphIndex.parentPositionsFor, if_pos (not_lt.mp hpos)]
    simp

theorem parentPositionsFor_eq_ok (h : index.Checked) {positions : List ℕ}
    (hrun : index.parentPositionsFor pos = .ok positions) : pos < index.commitCount
      ∧ ∃ parent1 parent2 rest,
        HasUint 4 index.data (index.commitDataOffset + pos * 36 + 20) parent1
        ∧ HasUint 4 index.data (index.commitDataOffset + pos * 36 + 24) parent2
        ∧ (parent1 = noParent ∨ parent1 &&& extendedEdgeMask = 0 ∧ parent1 < index.commitCount)
        ∧ positions = firstParent parent1 ++ rest ∧ LaterWords index parent2 rest := by
  by_cases hpos : pos < index.commitCount
  · refine ⟨hpos, ?_⟩
    obtain ⟨parent1, parent2, hfirst, hsecond, heq⟩ := parentPositionsFor_eq h hpos
    rw [heq] at hrun
    split_ifs at hrun with hword hflag
    · obtain ⟨rest, hpositions, hlater⟩ := laterParents_eq_ok hrun
      rw [show [] = firstParent parent1 from (if_pos hword).symm] at hpositions
      exact ⟨parent1, parent2, rest, hfirst, hsecond, .inl hword, hpositions, hlater⟩
    · obtain ⟨parent, hparent, hend⟩ := Except.bind_eq_ok_iff.mp hrun
      obtain ⟨rfl, hcount⟩ := validateParentPosition_eq_ok hparent
      obtain ⟨rest, hpositions, hlater⟩ := laterParents_eq_ok hend
      rw [show [parent] = firstParent parent from (if_neg hword).symm] at hpositions
      exact ⟨parent, parent2, rest, hfirst, hsecond, .inr ⟨not_not.mp hflag, hcount⟩, hpositions,
        hlater⟩
  · rw [CommitGraphIndex.parentPositionsFor, if_pos (not_lt.mp hpos)] at hrun
    cases hrun

theorem EdgesPast.parentPositionsFor (hpast : index.EdgesPast pos) (h : index.Checked) :
    ∃ positions, index.parentPositionsFor pos = .ok positions := by
  obtain ⟨hpos, parent1, parent2, range, hfirst, hsecond, hparent1, hflag, hrange, hends⟩ := hpast
  obtain ⟨parent1', parent2', hfirst', hsecond', heq⟩ := parentPositionsFor_eq h hpos
  obtain rfl := hasUint_unique hfirst hfirst'
  obtain rfl := hasUint_unique hsecond hsecond'
  have hword : parent2 ≠ noParent := by
    rintro rfl
    exact hflag (by decide)
  have hlater (acc : List ℕ) : ∃ positions, index.laterParents parent2 acc = .ok positions := by
    rw [laterParents, if_neg hword, if_neg hflag, hrange]
    exact hends.edgeParents _ acc (by omega)
  rw [heq]
  by_cases hnone : parent1 = noParent
  · rw [if_pos hnone]
    exact hlater []
  · obtain ⟨hplain, hcount⟩ := hparent1.resolve_left hnone
    rw [if_neg hnone, if_neg (not_not.mpr hplain), validateParentPosition_of_lt hcount]
    exact hlater [parent1]

theorem EdgesPast.not_inBounds (hpast : index.EdgesPast pos) (h : index.Checked) :
    ¬ index.InBounds oid pos := by
  intro hbounds
  obtain ⟨positions, hrun⟩ := hpast.parentPositionsFor h
  obtain ⟨-, -, parent2, range, -, hsecond, -, hflag, hrange, hends⟩ := hpast
  obtain ⟨parent1, range', rest, -, hrange', -, hwords⟩ :=
    hbounds.edges positions parent2 hrun hsecond hflag
  obtain rfl := Option.some_inj.mp (hrange.symm.trans hrange')
  exact hends.not_edgeWords rest hwords

theorem inBounds_of_sumsFit (h : index.Checked) (hsums : index.SumsFit oid)
    (hpast : ¬ index.EdgesPast pos) : index.InBounds oid pos := by
  refine ⟨(lookupPosition_ne_panic_iff h).mpr hsums, oidAt_ne_panic index pos,
    parentPositionsFor_ne_panic h pos, fun positions hrun => ?_,
    fun positions parent2 hrun hsecond hflag => ?_⟩
  · obtain ⟨-, parent1, parent2, rest, -, -, hparent1, rfl, hlater⟩ :=
      parentPositionsFor_eq_ok h hrun
    have hrest : ∀ parent ∈ rest, parent < index.commitCount := by
      cases hlater with
      | none => simp
      | one _ hcount => simpa using hcount
      | edges _ _ hcount => exact hcount
    intro parent hparent
    rcases List.mem_append.mp hparent with hparent | hparent
    · unfold firstParent at hparent
      split_ifs at hparent with hword
      · cases hparent
      · obtain rfl := List.mem_singleton.mp hparent
        exact (hparent1.resolve_left hword).2
    · exact hrest parent hparent
  · obtain ⟨hpos, parent1, parent2', rest, hfirst, hsecond', hparent1, rfl, hlater⟩ :=
      parentPositionsFor_eq_ok h hrun
    obtain rfl := hasUint_unique hsecond hsecond'
    cases hlater with
    | none hword =>
        rw [hword] at hflag
        exact absurd (by decide) hflag
    | one hplain => exact absurd hplain hflag
    | @edges range rest _ hrange _ hwords =>
        refine ⟨parent1, range, rest, hfirst, hrange, rfl, hwords.resolve_right fun hends => ?_⟩
        exact hpast ⟨hpos, parent1, parent2, range, hfirst, hsecond, hparent1, hflag, hrange,
          hends⟩

/-- **Where reading stays in bounds.** Of a file that was opened, no lookup has bounds with a sum
that does not fit, and no list of further parents has its last word behind its chunk. -/
theorem inBounds_iff {data : Bytes} (hopen : fromMmap data = .ok index) (oid : GitOid) (pos : ℕ) :
    index.InBounds oid pos ↔ index.SumsFit oid ∧ ¬ index.EdgesPast pos := by
  have h := checked_fromMmap hopen
  constructor
  · intro hbounds
    exact ⟨(lookupPosition_ne_panic_iff h).mp hbounds.lookupPosition,
      fun hpast => hpast.not_inBounds h hbounds⟩
  · rintro ⟨hsums, hpast⟩
    exact inBounds_of_sumsFit h hsums hpast

/-! ### Files that record a history -/

theorem sumsFit_of_le (h : (index.fanBounds oid).2 ≤ 2 ^ 31) : index.SumsFit oid := by
  intro l u hvisits hlu
  have hpivot (l u mid : ℕ) (hlu : l < u)
      (hmid : (.ok ((l + u) / 2) : Except GitFault ℕ) = .ok mid) : l ≤ mid ∧ mid < u := by
    obtain rfl := Except.ok.inj hmid
    omega
  have hupper := hvisits.le_upper hpivot
  omega

theorem WellFormed.sumsFit {oids : List GitOid} {parents : GitOid → List GitOid}
    (h : index.WellFormed oids parents) (oid : GitOid) : index.SumsFit oid := by
  refine sumsFit_of_le ?_
  rw [fanBounds, h.fan _ (firstByte_lt oid)]
  exact List.countP_le_length.trans h.small

theorem WellFormed.not_edgesPast {oids : List GitOid} {parents : GitOid → List GitOid}
    (h : index.WellFormed oids parents) (hchecked : index.Checked) (pos : ℕ) :
    ¬ index.EdgesPast pos := by
  rintro ⟨hpos, -, parent2, range, -, hsecond, -, hflag, hrange, hends⟩
  rw [h.lists.count hchecked] at hpos
  obtain ⟨parent1', parent2', positions, -, hsecond', hwords, -⟩ :=
    h.entries pos _ (List.getElem?_eq_getElem hpos)
  obtain rfl := hasUint_unique hsecond (hasUint_of_read hsecond')
  cases hwords with
  | none => exact hflag (by decide)
  | one => exact hflag (by decide)
  | two _ hplain => exact hflag hplain.2
  | more _ _ hrange' hwords =>
      obtain rfl := Option.some_inj.mp (hrange.symm.trans hrange')
      exact hends.not_edgeWords _ hwords

/-- The last commit of the octopus is looked up and its parents are read in bounds. -/
theorem inBounds_iff_octopus : octopusIndex.InBounds (oidWith 4) 3 :=
  (inBounds_iff fromMmap_octopusFile (oidWith 4) 3).mpr ⟨wellFormed_octopus.sumsFit (oidWith 4),
    wellFormed_octopus.not_edgesPast (checked_fromMmap fromMmap_octopusFile) 3⟩

/-! ## Files out of bounds -/

/-- A fanout that does not increase. -/
def steepWords : List ℕ := [2 ^ 31, 2 ^ 32 - 1] ++ List.replicate 254 4

/-- The further parents of the last commit begin at the end of their chunk. -/
def pastTables : Bytes :=
  octopus.flatMap GitOid.bytes
    ++ (List.replicate 3 (List.replicate 20 0 ++ [0x70, 0, 0, 0, 0x70, 0, 0, 0]
      ++ List.replicate 8 0)).flatten
    ++ List.replicate 20 0 ++ [0, 0, 0, 0, 0x80, 0, 0, 2] ++ List.replicate 8 0
    ++ [0, 0, 0, 1, 0x80, 0, 0, 2] ++ [0x80, 0, 0, 1]

def pastFile : Bytes := octopusToc ++ steepWords.flatMap (Nat.toBigEndian 4) ++ pastTables

def pastIndex : CommitGraphIndex :=
  ⟨pastFile, 20, steepWords, 1092, 1172, some (1316, 1324), 4⟩

theorem length_steepWords : steepWords.length = 256 := by
  rw [steepWords, List.length_append, List.length_replicate]
  rfl

theorem fromMmap_pastFile : fromMmap pastFile = .ok pastIndex := by
  have hlast : steepWords.getD 255 0 = 4 := by
    rw [steepWords, List.getD_eq_getElem?_getD, List.getElem?_append_right (by decide),
      List.getElem?_replicate, if_pos (by decide), Option.getD_some]
  have htables : pastTables.length = 236 := rfl
  refine fromMmap_octopusToc length_steepWords hlast
    (fun n hn => ⟨Nat.length_toBigEndian 4 n, ?_⟩) (by omega)
  have hlt : n < 2 ^ 32 := by
    rcases List.mem_append.mp hn with hn | hn
    · simp only [List.mem_cons, List.not_mem_nil, or_false] at hn
      omega
    · rw [List.eq_of_mem_replicate hn]
      decide
  exact (Nat.ofBigEndian_toBigEndian 4 n).trans (Nat.mod_eq_of_lt hlt)

theorem slice_pastTables {start stop : ℕ} {bytes : Bytes}
    (h : slice pastTables start stop = some bytes) :
    slice pastFile (1092 + start) (1092 + stop) = some bytes := by
  have hfront : (octopusToc ++ steepWords.flatMap (Nat.toBigEndian 4)).length = 1092 := by
    simp only [List.length_append, List.length_flatMap, Nat.length_toBigEndian, List.map_const',
      List.sum_replicate, length_steepWords]
    rfl
  rw [pastFile, ← hfront, slice_append_right]
  exact h

theorem edgesPast_pastIndex : pastIndex.EdgesPast 3 := by
  refine ⟨by decide, 0, 2 ^ 31 + 2, (1316, 1324), ?_, ?_, .inr ⟨by decide, by decide⟩, by decide,
    rfl, ?_⟩
  · exact ⟨[0, 0, 0, 0], @slice_pastTables 208 212 _ (by decide +kernel), rfl⟩
  · exact ⟨[0x80, 0, 0, 2], @slice_pastTables 212 216 _ (by decide +kernel), rfl⟩
  · have hread : HasUint 4 pastFile 1324 (2 ^ 31 + 1) :=
      ⟨[0x80, 0, 0, 1], @slice_pastTables 232 236 _ (by decide +kernel), rfl⟩
    have hcount : (2 ^ 31 + 1) &&& positionMask < 4 := by decide
    exact .last hread (by decide) hcount (by decide)

theorem not_sumsFit_pastIndex : ¬ pastIndex.SumsFit ⟨1 :: List.replicate 19 0, rfl⟩ := by
  intro h
  have hbounds : pastIndex.fanBounds ⟨1 :: List.replicate 19 0, rfl⟩ = (2 ^ 31, 2 ^ 32 - 1) := rfl
  have hsum := h _ _ (.start _ _)
  rw [hbounds] at hsum
  omega

/-- **Reading goes out of bounds** in an accepted file, in the lookup of an id and in the list of
further parents. -/
theorem not_inBounds_pastIndex : fromMmap pastFile = .ok pastIndex
    ∧ (∀ pos, ¬ pastIndex.InBounds ⟨1 :: List.replicate 19 0, rfl⟩ pos)
    ∧ ∀ oid, ¬ pastIndex.InBounds oid 3 := by
  have h := checked_fromMmap fromMmap_pastFile
  refine ⟨fromMmap_pastFile, fun pos hbounds => not_sumsFit_pastIndex ?_, fun oid =>
    edgesPast_pastIndex.not_inBounds h⟩
  exact (lookupPosition_ne_panic_iff h).mp hbounds.lookupPosition

end CommitGraphIndex

end ArcVcs.GitIngress
