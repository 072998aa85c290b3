import ArcVcs.PackResolution

/-!
# Malformed packs

The size of an object, the offset of a base and the sizes of a delta are read into 64 bits without a
check, and the operands of a copy instruction are read without a look at the length of the delta.
Each theorem here says for which bytes nothing goes wrong.
-/

namespace ArcVcs.GitIngress

open Git (GitOid)

/-! ## The size of an object -/

/-- The size in the header, without a bound. -/
def headerSize (pack : Bytes) (pos : ℕ) : Option ℕ :=
  match pack.drop pos with
  | [] => none
  | b :: rest =>
      if b &&& 0x80 = 0 then some (b &&& 0x0F).toNat
      else (Varint.split (b &&& 0x0F).toNat 4 rest).map Prod.fst

def SizeFits (pack : Bytes) (pos : ℕ) : Prop :=
  match pack.drop pos with
  | [] => True
  | b :: rest => b &&& 0x80 = 0 ∨ Varint.Fits 64 4 rest

instance (pack : Bytes) (pos : ℕ) : Decidable (SizeFits pack pos) := by
  unfold SizeFits
  split <;> infer_instance

/-- The header is read without a fault, and the size as it is. -/
def SizeExact (pack : Bytes) (pos : ℕ) : Prop :=
  parsePackHeader pack pos ≠ .error .panic ∧ ∀ objType size next,
    parsePackHeader pack pos = .ok (objType, size, next) → headerSize pack pos = some size

theorem sizeExact_iff (pack : Bytes) (pos : ℕ) : SizeExact pack pos ↔ SizeFits pack pos := by
  unfold SizeExact SizeFits headerSize parsePackHeader
  cases pack.drop pos with
  | nil => simp
  | cons b rest =>
      dsimp only
      by_cases hlast : b &&& 0x80 = 0
      · rw [if_pos hlast, if_pos hlast]
        refine iff_of_true ⟨by simp, fun objType size next h => ?_⟩ (.inl hlast)
        obtain ⟨-, h⟩ := Prod.mk.inj (Except.ok.inj h)
        rw [(Prod.mk.inj h).1]
      · have hval : (b &&& 0x0F).toNat < 2 ^ 4 := by
          rw [UInt8.toNat_and]
          exact Nat.lt_of_le_of_lt Nat.and_le_right (by decide)
        have hexact := @Varint.exact_iff_fits GitFault (.error "truncated pack header") .panic 64
          (b &&& 0x0F).toNat 4 (pos + 1) (by simp) hval rest
        rw [if_neg hlast, if_neg hlast, or_iff_right hlast, ← hexact]
        unfold Varint.Exact
        cases Varint.decodeFrom 64 (.error "truncated pack header") GitFault.panic (pos + 1)
            (b &&& 0x0F).toNat 4 rest with
        | error fault => simp [bind, Except.bind]
        | ok found =>
            obtain ⟨v, p⟩ := found
            simp only [bind, Except.bind, ne_eq, reduceCtorEq, not_false_eq_true, true_and,
              Except.ok.injEq, Prod.mk.injEq, Option.map_eq_some_iff, Prod.exists]
            constructor
            · rintro h _ _ ⟨rfl, rfl⟩
              obtain ⟨_, rest, hsplit, rfl⟩ := h _ _ _ ⟨rfl, rfl, rfl⟩
              exact ⟨rest, hsplit⟩
            · rintro h _ _ _ ⟨rfl, rfl, rfl⟩
              obtain ⟨rest, hsplit⟩ := h _ _ ⟨rfl, rfl⟩
              exact ⟨_, rest, hsplit, rfl⟩

/-! ## The offset of a base -/

/-- The offset that the groups add up to, without a bound. -/
def groupsOffset : ℕ → Bytes → Option ℕ
  | _, [] => none
  | off, c :: rest =>
      let off := (off + 1) * 128 + (c &&& 0x7F).toNat
      if c &&& 0x80 = 0 then some off else groupsOffset off rest

/-- No number before a group has 64 bits that are all set, and the last number has 64 bits. -/
def GroupsFit : ℕ → Bytes → Prop
  | _, [] => True
  | off, c :: rest => (off + 1) % 2 ^ 64 ≠ 0
      ∧ let off := (off + 1) * 128 + (c &&& 0x7F).toNat
        if c &&& 0x80 = 0 then off < 2 ^ 64 else GroupsFit off rest

instance decidableGroupsFit : (off : ℕ) → (bytes : Bytes) → Decidable (GroupsFit off bytes)
  | _, [] => isTrue trivial
  | off, c :: rest =>
      have := decidableGroupsFit ((off + 1) * 128 + (c &&& 0x7F).toNat) rest
      inferInstanceAs (Decidable (_ ∧ ite (c &&& 0x80 = 0) _ _))

theorem shift_or_mod (off : ℕ) (c : UInt8) :
    ((off % 2 ^ 64 + 1) <<< 7) % 2 ^ 64 ||| (c &&& 0x7F).toNat
      = ((off + 1) * 128 + (c &&& 0x7F).toNat) % 2 ^ 64 := by
  have hgroup := Varint.group_lt c
  have hhigh : ((off % 2 ^ 64 + 1) <<< 7) % 2 ^ 64 = ((off + 1) % 2 ^ 57) <<< 7 := by
    rw [Nat.shiftLeft_eq, Nat.shiftLeft_eq]
    omega
  rw [hhigh, ← Nat.shiftLeft_add_eq_or_of_lt hgroup, Nat.shiftLeft_eq]
  omega

/-- The groups are read without a fault and as they are. By induction on the bytes. -/
theorem ofsDeltaGroups_exact_iff (off pos : ℕ) (bytes : Bytes) :
    (ofsDeltaGroups (off % 2 ^ 64) pos bytes ≠ .error .panic ∧ ∀ negOff next,
      ofsDeltaGroups (off % 2 ^ 64) pos bytes = .ok (negOff, next) →
        groupsOffset off bytes = some negOff) ↔ GroupsFit off bytes := by
  induction bytes generalizing off pos with
  | nil => simp [ofsDeltaGroups, GroupsFit]
  | cons c rest ih =>
      rw [ofsDeltaGroups, groupsOffset, GroupsFit]
      by_cases hfull : (off + 1) % 2 ^ 64 = 0
      · rw [if_pos (by omega)]
        exact iff_of_false (fun h => h.1 rfl) fun h => h.1 hfull
      rw [if_neg (by omega), and_iff_right hfull]
      dsimp only
      rw [shift_or_mod]
      by_cases hlast : c &&& 0x80 = 0
      · rw [if_pos hlast, if_pos hlast, if_pos hlast]
        constructor
        · rintro ⟨-, h⟩
          rw [Option.some_inj.mp (h _ _ rfl)]
          exact Nat.mod_lt _ (by decide)
        · intro hlt
          refine ⟨by simp, fun negOff next h => ?_⟩
          rw [Nat.mod_eq_of_lt hlt] at h
          rw [(Prod.mk.inj (Except.ok.inj h)).1]
      · rw [if_neg hlast, if_neg hlast, if_neg hlast]
        exact ih _ _

/-- The offset in the header, without a bound. -/
def headerOffset (pack : Bytes) (pos : ℕ) : Option ℕ :=
  match pack.drop pos with
  | [] => none
  | b :: rest =>
      if b &&& 0x80 = 0 then some (b &&& 0x7F).toNat else groupsOffset (b &&& 0x7F).toNat rest

def OffsetFits (pack : Bytes) (pos : ℕ) : Prop :=
  match pack.drop pos with
  | [] => True
  | b :: rest => b &&& 0x80 = 0 ∨ GroupsFit (b &&& 0x7F).toNat rest

instance (pack : Bytes) (pos : ℕ) : Decidable (OffsetFits pack pos) := by
  unfold OffsetFits
  split <;> infer_instance

def OffsetExact (pack : Bytes) (pos : ℕ) : Prop :=
  parseOfsDeltaHeader pack pos ≠ .error .panic ∧ ∀ negOff next,
    parseOfsDeltaHeader pack pos = .ok (negOff, next) → headerOffset pack pos = some negOff

theorem offsetExact_iff (pack : Bytes) (pos : ℕ) : OffsetExact pack pos ↔ OffsetFits pack pos := by
  unfold OffsetExact OffsetFits headerOffset parseOfsDeltaHeader
  cases pack.drop pos with
  | nil => simp
  | cons b rest =>
      dsimp only
      by_cases hlast : b &&& 0x80 = 0
      · rw [if_pos hlast, if_pos hlast]
        refine iff_of_true ⟨by simp, fun negOff next h => ?_⟩ (.inl hlast)
        rw [(Prod.mk.inj (Except.ok.inj h)).1]
      · have hsmall : (b &&& 0x7F).toNat % 2 ^ 64 = (b &&& 0x7F).toNat :=
          Nat.mod_eq_of_lt ((Varint.group_lt b).trans (by decide))
        have hgroups := ofsDeltaGroups_exact_iff (b &&& 0x7F).toNat (pos + 1) rest
        rw [hsmall] at hgroups
        rw [if_neg hlast, if_neg hlast, or_iff_right hlast]
        exact hgroups

/-! ## The instructions of a delta -/

def fieldCount (cmd : UInt8) (bit : ℕ) (is : List ℕ) : ℕ :=
  is.countP fun i => cmd &&& UInt8.ofNat (1 <<< (bit + i)) ≠ 0

theorem copyField_cases (cmd : UInt8) (bit : ℕ) (is : List ℕ) (val : ℕ) (delta : Bytes) :
    (fieldCount cmd bit is ≤ delta.length
        ∧ ∃ v, copyField cmd bit is val delta = .ok (v, delta.drop (fieldCount cmd bit is)))
      ∨ delta.length < fieldCount cmd bit is ∧ copyField cmd bit is val delta = .error .panic := by
  induction is generalizing val delta with
  | nil => exact .inl ⟨Nat.zero_le _, val, rfl⟩
  | cons i is ih =>
      rw [copyField.eq_def, fieldCount, List.countP_cons]
      dsimp only
      by_cases hclear : cmd &&& UInt8.ofNat (1 <<< (bit + i)) = 0
      · rw [if_pos hclear, if_neg (by simpa using hclear), Nat.add_zero]
        exact ih val delta
      · rw [if_neg hclear, if_pos (by simpa using hclear)]
        cases delta with
        | nil => exact .inr ⟨Nat.succ_pos _, rfl⟩
        | cons b delta =>
            dsimp only
            rw [List.length_cons, List.drop_succ_cons]
            rcases ih (val ||| b.toNat <<< (8 * i)) delta with ⟨hle, hread⟩ | ⟨hlt, hread⟩
            · exact .inl ⟨Nat.succ_le_succ hle, hread⟩
            · exact .inr ⟨Nat.succ_lt_succ hlt, hread⟩

/-- The instructions on a base of this length come to a copy whose operands are cut off. -/
inductive CutOff (n : ℕ) : Bytes → Prop
  | operands {cmd : UInt8} {delta : Bytes} (hcopy : cmd &&& 0x80 ≠ 0)
      (hlt : delta.length < fieldCount cmd 0 [0, 1, 2, 3] + fieldCount cmd 4 [0, 1, 2]) :
      CutOff n (cmd :: delta)
  | copy {cmd : UInt8} {delta behind rest : Bytes} {off len : ℕ} (hcopy : cmd &&& 0x80 ≠ 0)
      (hoff : copyField cmd 0 [0, 1, 2, 3] 0 delta = .ok (off, behind))
      (hlen : copyField cmd 4 [0, 1, 2] 0 behind = .ok (len, rest))
      (hbounds : off + (if len = 0 then 0x10000 else len) ≤ n) (hrest : CutOff n rest) :
      CutOff n (cmd :: delta)
  | insert {cmd : UInt8} {delta : Bytes} (hinsert : cmd &&& 0x80 = 0) (hzero : cmd ≠ 0)
      (hle : cmd.toNat ≤ delta.length) (hrest : CutOff n (delta.drop cmd.toNat)) :
      CutOff n (cmd :: delta)

theorem cutOff_copy_iff {n off len : ℕ} {cmd : UInt8} {delta behind rest : Bytes}
    (hcopy : cmd &&& 0x80 ≠ 0) (hoff : copyField cmd 0 [0, 1, 2, 3] 0 delta = .ok (off, behind))
    (hlen : copyField cmd 4 [0, 1, 2] 0 behind = .ok (len, rest)) :
    CutOff n (cmd :: delta)
      ↔ off + (if len = 0 then 0x10000 else len) ≤ n ∧ CutOff n rest := by
  constructor
  · intro h
    cases h with
    | operands _ hlt =>
        rcases copyField_cases cmd 0 [0, 1, 2, 3] 0 delta with ⟨hle, _, hread⟩ | ⟨-, hread⟩
        · rw [hoff] at hread
          obtain ⟨-, rfl⟩ := Prod.mk.inj (Except.ok.inj hread)
          rcases copyField_cases cmd 4 [0, 1, 2] 0 (delta.drop (fieldCount cmd 0 [0, 1, 2, 3]))
            with ⟨hle', -⟩ | ⟨-, hread'⟩
          · rw [List.length_drop] at hle'
            omega
          · rw [hlen] at hread'
            cases hread'
        · rw [hoff] at hread
          cases hread
    | copy _ hoff' hlen' hbounds hrest =>
        rw [hoff] at hoff'
        cases hoff'
        rw [hlen] at hlen'
        cases hlen'
        exact ⟨hbounds, hrest⟩
    | insert hinsert => exact absurd hinsert hcopy
  · rintro ⟨hbounds, hrest⟩
    exact .copy hcopy hoff hlen hbounds hrest

/-- **The instructions panic exactly where they are cut off.** By induction on the fuel, which is
enough for one instruction a byte. -/
theorem applyInstructions_eq_panic_iff (base : Bytes) {fuel : ℕ} {delta out : Bytes}
    (hfuel : delta.length ≤ fuel) :
    applyInstructions base fuel delta out = .error .panic ↔ CutOff base.length delta := by
  induction fuel generalizing delta out with
  | zero =>
      rw [List.length_eq_zero_iff.mp (Nat.le_zero.mp hfuel), applyInstructions]
      exact iff_of_false (by simp) fun h => by cases h
  | succ fuel ih =>
      cases delta with
      | nil =>
          rw [applyInstructions]
          exact iff_of_false (by simp) fun h => by cases h
      | cons cmd delta =>
          rw [List.length_cons] at hfuel
          rw [applyInstructions]
          by_cases hcopy : cmd &&& 0x80 ≠ 0
          · rw [if_pos hcopy]
            rcases copyField_cases cmd 0 [0, 1, 2, 3] 0 delta with ⟨hle, off, hoff⟩ | ⟨hlt, hoff⟩
            · rw [hoff]
              dsimp only [bind, Except.bind]
              rcases copyField_cases cmd 4 [0, 1, 2] 0 (delta.drop (fieldCount cmd 0 [0, 1, 2, 3]))
                with ⟨hle', len, hlen⟩ | ⟨hlt, hlen⟩
              · rw [hlen, cutOff_copy_iff hcopy hoff hlen]
                dsimp only
                by_cases hbounds : off + (if len = 0 then 0x10000 else len) ≤ base.length
                · rw [if_pos hbounds, and_iff_right hbounds]
                  refine ih ?_
                  rw [List.length_drop, List.length_drop]
                  omega
                · rw [if_neg hbounds]
                  exact iff_of_false (by simp) fun h => hbounds h.1
              · rw [hlen]
                rw [List.length_drop] at hlt
                exact iff_of_true rfl (.operands hcopy (by omega))
            · rw [hoff]
              exact iff_of_true rfl (.operands hcopy (by omega))
          · rw [if_neg hcopy]
            have hinsert : cmd &&& 0x80 = 0 := not_not.mp hcopy
            by_cases hzero : cmd ≠ 0
            · rw [if_pos hzero]
              by_cases hle : cmd.toNat ≤ delta.length
              · rw [if_pos hle, ih (by rw [List.length_drop]; omega)]
                constructor
                · exact .insert hinsert hzero hle
                · intro h
                  cases h with
                  | operands h | copy h => exact absurd hinsert h
                  | insert _ _ _ hrest => exact hrest
              · rw [if_neg hle]
                refine iff_of_false (by simp) fun h => ?_
                cases h with
                | operands h | copy h => exact absurd hinsert h
                | insert _ _ h => exact hle h
            · rw [if_neg hzero]
              refine iff_of_false (by simp) fun h => ?_
              cases h with
              | operands h | copy h => exact absurd hinsert h
              | insert _ h => exact hzero h

/-! ## A delta as a whole -/

/-- Both sizes fit. Where the first is that of the base, a vector has room for the second, and no
copy is cut off. -/
def DeltaFits (n : ℕ) (delta : Bytes) : Prop :=
  Varint.Fits 64 0 delta ∧ ∀ src behind, Varint.split 0 0 delta = some (src, behind) →
    Varint.Fits 64 0 behind ∧ ∀ tgt instructions,
      Varint.split 0 0 behind = some (tgt, instructions) → src = n →
        tgt < 2 ^ 63 ∧ ¬ CutOff n instructions

/-- The size is read without a fault and as it is. -/
def VarintExact (buf : Bytes) (pos : ℕ) : Prop :=
  readVarintLe buf pos ≠ .error .panic ∧ ∀ v next, readVarintLe buf pos = .ok (v, next) →
    ∃ rest, Varint.split 0 0 (buf.drop pos) = some (v, rest)

/-- The delta is applied without a fault, and its sizes are read as they are. -/
def DeltaExact (base delta : Bytes) : Prop :=
  applyDelta base delta ≠ .error .panic ∧ VarintExact delta 0
    ∧ ∀ src pos, readVarintLe delta 0 = .ok (src, pos) → VarintExact delta pos

theorem varintExact_iff (buf : Bytes) (pos : ℕ) :
    VarintExact buf pos ↔ Varint.Fits 64 0 (buf.drop pos) :=
  Varint.exact_iff_fits (by simp) (by decide) _

theorem readVarintLe_of_split {buf rest : Bytes} {pos v : ℕ}
    (hfits : Varint.Fits 64 0 (buf.drop pos))
    (hsplit : Varint.split 0 0 (buf.drop pos) = some (v, rest)) :
    ∃ next, readVarintLe buf pos = .ok (v, next) ∧ buf.drop next = rest := by
  refine ⟨pos + ((buf.drop pos).length - rest.length), ?_, ?_⟩
  · rw [readVarintLe, Varint.decodeFrom_of_fits (by decide) hfits, hsplit]
  · obtain ⟨front, hfront⟩ := Varint.split_eq_some hsplit
    rw [← List.drop_drop, hfront, List.length_append, Nat.add_sub_cancel, List.drop_left]

theorem readVarintLe_of_none {buf : Bytes} {pos : ℕ} (hfits : Varint.Fits 64 0 (buf.drop pos))
    (hsplit : Varint.split 0 0 (buf.drop pos) = none) :
    readVarintLe buf pos = .error (.error "truncated varint") := by
  rw [readVarintLe, Varint.decodeFrom_of_fits (by decide) hfits, hsplit]

theorem applyDelta_eq_panic_iff {base delta : Bytes} {src pos tgt next : ℕ}
    (hsrc : readVarintLe delta 0 = .ok (src, pos))
    (htgt : readVarintLe delta pos = .ok (tgt, next)) : applyDelta base delta = .error .panic
      ↔ src = base.length ∧ (2 ^ 63 ≤ tgt ∨ CutOff base.length (delta.drop next)) := by
  rw [applyDelta, hsrc]
  dsimp only [bind, Except.bind]
  rw [htgt]
  dsimp only
  by_cases hne : src ≠ base.length
  · rw [if_pos hne]
    exact iff_of_false (by simp) fun h => hne h.1
  rw [if_neg hne, and_iff_right (not_not.mp hne)]
  by_cases hlarge : 2 ^ 63 ≤ tgt
  · rw [if_pos hlarge]
    exact iff_of_true rfl (.inl hlarge)
  have hfuel : (delta.drop next).length ≤ delta.length := by
    rw [List.length_drop]
    exact Nat.sub_le _ _
  rw [if_neg hlarge, or_iff_right hlarge, ← applyInstructions_eq_panic_iff base hfuel]
  cases applyInstructions base delta.length (delta.drop next) [] with
  | error fault => simp
  | ok out =>
      dsimp only
      split_ifs <;> simp

/-- **A delta is applied without a fault exactly where it fits.** -/
theorem deltaExact_iff (base delta : Bytes) :
    DeltaExact base delta ↔ DeltaFits base.length delta := by
  rw [DeltaExact, DeltaFits, varintExact_iff, List.drop_zero, and_left_comm]
  refine and_congr_right fun hfits => ?_
  cases hsplit : Varint.split 0 0 delta with
  | none =>
      have hread := @readVarintLe_of_none delta 0 hfits hsplit
      rw [applyDelta, hread]
      exact iff_of_true ⟨by simp [bind, Except.bind], by simp⟩ (by simp)
  | some found =>
      obtain ⟨src, behind⟩ := found
      obtain ⟨pos, hsrc, rfl⟩ := @readVarintLe_of_split delta _ 0 _ hfits hsplit
      have hall : (∀ src' pos', readVarintLe delta 0 = .ok (src', pos') → VarintExact delta pos')
          ↔ Varint.Fits 64 0 (delta.drop pos) := by
        rw [← varintExact_iff, hsrc]
        exact ⟨fun h => h src pos rfl, fun h _ _ heq => by cases heq; exact h⟩
      have hsizes : (∀ src' behind', some (src, delta.drop pos) = some (src', behind') →
          Varint.Fits 64 0 behind' ∧ ∀ tgt instructions,
            Varint.split 0 0 behind' = some (tgt, instructions) → src' = base.length →
              tgt < 2 ^ 63 ∧ ¬ CutOff base.length instructions)
          ↔ Varint.Fits 64 0 (delta.drop pos) ∧ ∀ tgt instructions,
            Varint.split 0 0 (delta.drop pos) = some (tgt, instructions) → src = base.length →
              tgt < 2 ^ 63 ∧ ¬ CutOff base.length instructions :=
        ⟨fun h => h _ _ rfl, fun h _ _ heq => by cases heq; exact h⟩
      rw [hall, hsizes, and_comm]
      refine and_congr_right fun hfits' => ?_
      cases hsplit' : Varint.split 0 0 (delta.drop pos) with
      | none =>
          have hread := readVarintLe_of_none hfits' hsplit'
          rw [applyDelta, hsrc]
          dsimp only [bind, Except.bind]
          rw [hread]
          exact iff_of_true (by simp) (by simp)
      | some found =>
          obtain ⟨tgt, instructions⟩ := found
          obtain ⟨next, htgt, rfl⟩ := readVarintLe_of_split hfits' hsplit'
          rw [ne_eq, applyDelta_eq_panic_iff hsrc htgt, not_and, not_or, not_le]
          exact ⟨fun h _ _ heq => by cases heq; exact h, fun h => h _ _ rfl⟩

/-! ## A lookup as a whole -/

theorem packOffset_ne_panic (idx : Bytes) (oid : GitOid) : packOffset idx oid ≠ .error .panic := by
  have hmiddle (l u : ℕ) : entryMiddle idx l u ≠ .error .panic := by
    unfold entryMiddle
    dsimp only
    split <;> simp
  have hpivot (l u mid : ℕ) (hlu : l < u) (hmid : entryMiddle idx l u = .ok mid) :
      l ≤ mid ∧ mid < u := by
    unfold entryMiddle at hmid
    dsimp only at hmid
    split at hmid
    · cases hmid
    · obtain rfl := Except.ok.inj hmid
      omega
  have hfind (lo hi : ℕ) : findEntry idx oid lo hi ≠ .error .panic := by
    intro h
    rcases Except.bind_eq_error_iff.mp h with h | ⟨found, -, h⟩
    · obtain ⟨l, u, -, -, h⟩ := (BinarySearch.search_eq_error_iff hpivot le_rfl).mp h
      exact hmiddle l u h
    · split at h <;> cases h
  intro h
  unfold packOffset at h
  split at h
  · cases h
  rcases Except.bind_eq_error_iff.mp h with h | ⟨ver, -, h⟩
  · exact readUintBeAt_ne_panic _ _ _ _ h
  split at h
  · cases h
  rcases Except.bind_eq_error_iff.mp h with h | ⟨total, -, h⟩
  · exact readUintBeAt_ne_panic _ _ _ _ h
  rcases Except.bind_eq_error_iff.mp h with h | ⟨lo, -, h⟩
  · unfold fanoutBelow at h
    split at h
    · cases h
    · exact readUintBeAt_ne_panic _ _ _ _ h
  rcases Except.bind_eq_error_iff.mp h with h | ⟨hi, -, h⟩
  · exact readUintBeAt_ne_panic _ _ _ _ h
  split at h
  · cases h
  dsimp only at h
  split at h
  · cases h
  rcases Except.bind_eq_error_iff.mp h with h | ⟨idxPos, -, h⟩
  · exact hfind _ _ h
  rcases Except.bind_eq_error_iff.mp h with h | ⟨rawOff, -, h⟩
  · exact readUintBeAt_ne_panic _ _ _ _ h
  split at h
  · exact readUintBeAt_ne_panic _ _ _ _ h
  · cases h

namespace GitDir

variable [Zlib] {dir : GitDir} {n m : Call} {idx pack stream : Bytes} {oid : GitOid} {offset : ℕ}

/-- The numbers of an entry are read without a fault and as they are, and the delta in it is applied
without a fault. -/
def EntryExact (dir : GitDir) (pack : Bytes) (offset : ℕ) : Prop :=
  SizeExact pack offset
    ∧ (∀ size dataPos, parsePackHeader pack offset = .ok (6, size, dataPos) →
      OffsetExact pack dataPos)
    ∧ ∀ m stream base delta, HasBase pack offset m stream → dir.Ends m (.ok base) →
      Zlib.decompress stream = .ok delta → DeltaExact base.data delta

/-- The numbers of an entry fit, and so does the delta in it. -/
def EntryFits (dir : GitDir) (pack : Bytes) (offset : ℕ) : Prop :=
  SizeFits pack offset
    ∧ (∀ size dataPos, parsePackHeader pack offset = .ok (6, size, dataPos) →
      OffsetFits pack dataPos)
    ∧ ∀ m stream base delta, HasBase pack offset m stream → dir.Ends m (.ok base) →
      Zlib.decompress stream = .ok delta → DeltaFits base.data.length delta

theorem entryExact_iff (dir : GitDir) (pack : Bytes) (offset : ℕ) :
    dir.EntryExact pack offset ↔ dir.EntryFits pack offset := by
  unfold EntryExact EntryFits
  simp only [sizeExact_iff, offsetExact_iff, deltaExact_iff]

theorem readLooseObject_ne_panic (hzlib : ∀ stream, Zlib.decompress stream ≠ .error .panic)
    (dir : GitDir) (oid : GitOid) : dir.readLooseObject oid ≠ .error .panic := by
  intro h
  unfold readLooseObject at h
  split at h
  · cases h
  rcases Except.bind_eq_error_iff.mp h with h | ⟨buf, -, h⟩
  · exact hzlib _ h
  split at h
  · cases h
  split at h
  · cases h
  rcases Except.bind_eq_error_iff.mp h with h | ⟨kind, -, h⟩
  · unfold parseObjKind at h
    split_ifs at h
    all_goals cases h
  · cases h

omit [Zlib] in
theorem sound_tryPacks (oid : GitOid) (files : List (Except String (Bytes × Bytes))) :
    (tryPacks oid files).Sound (.error .panic) (.error .panic) := by
  induction files with
  | nil => simp [tryPacks, CallTree.Sound]
  | cons file files ih =>
      match file with
      | .error text => simp [tryPacks, CallTree.Sound]
      | .ok (idx, pack) =>
          intro r hr
          match r with
          | .error (.error _) => exact ih
          | .error .panic => exact absurd rfl hr
          | .ok obj => exact fun h => by cases h

omit [Zlib] in
theorem sound_tryBackends (oid : GitOid) (backends : List PackLookupBackend)
    (errors : List String) :
    (dir.tryBackends oid backends errors).Sound (.error .panic) (.error .panic) := by
  induction backends generalizing errors with
  | nil => simp [tryBackends, CallTree.Sound]
  | cons backend backends ih =>
      have hpacks : (dir.readPackedFrom oid backend).Sound (.error .panic) (.error .panic) := by
        unfold readPackedFrom
        split
        · simp [CallTree.Sound]
        · exact sound_tryPacks oid _
      refine hpacks.bind fun attempt hattempt => ?_
      match attempt with
      | .error (.error _) => exact ih _
      | .error .panic => exact absurd rfl hattempt
      | .ok obj => exact fun h => by cases h

theorem sound_readObject (hzlib : ∀ stream, Zlib.decompress stream ≠ .error .panic)
    (dir : GitDir) (oid : GitOid) :
    (dir.readObject oid).Sound (.error .panic) (.error .panic) := by
  have hloose := dir.readLooseObject_ne_panic hzlib oid
  unfold readObject
  split
  · refine CallTree.Sound.bind (sound_tryBackends oid _ _) fun found hfound => ?_
    match found with
    | .error (.error _) => exact fun h => by cases h
    | .error .panic => exact absurd rfl hfound
    | .ok obj => exact fun h => by cases h
  · exact hloose

omit [Zlib] in
theorem sound_lookupInPack (idx pack : Bytes) (oid : GitOid) :
    (lookupInPack idx pack oid).Sound (.error .panic) (.error .panic) := by
  have hoffset := packOffset_ne_panic idx oid
  unfold lookupInPack
  split
  · rename_i heq
    exact fun h => hoffset (by rw [heq, Except.error.inj h])
  · exact fun r hr => hr

theorem readWhole_ne_panic (hzlib : ∀ stream, Zlib.decompress stream ≠ .error .panic)
    (objType : UInt8) (stream : Bytes) : readWhole objType stream ≠ .error .panic := by
  intro h
  rcases Except.bind_eq_error_iff.mp h with h | ⟨data, -, h⟩
  · exact hzlib _ h
  rcases Except.bind_eq_error_iff.mp h with h | ⟨kind, -, h⟩
  · unfold typeToKind at h
    split_ifs at h
    all_goals cases h
  · cases h

theorem not_entryExact_of_done (hzlib : ∀ stream, Zlib.decompress stream ≠ .error .panic)
    (h : readPackEntry pack offset = .done (.error .panic)) : ¬ dir.EntryExact pack offset := by
  rintro ⟨hsize, hoffset, -⟩
  unfold readPackEntry at h
  cases hheader : parsePackHeader pack offset with
  | error fault =>
      rw [hheader] at h
      obtain rfl := Except.error.inj (CallTree.done.inj h)
      exact hsize.1 hheader
  | ok header =>
      obtain ⟨objType, size, dataPos⟩ := header
      rw [hheader] at h
      dsimp only at h
      split_ifs at h with hwhole hofs
      · exact readWhole_ne_panic hzlib _ _ (CallTree.done.inj h)
      · subst hofs
        split at h
        · rename_i hneg
          obtain rfl := Except.error.inj (CallTree.done.inj h)
          exact (hoffset size dataPos hheader).1 hneg
        · split_ifs at h
          cases h
      · split at h
        · cases h
        · cases h
      · cases h

/-- **A panic comes from an entry that is read**, whose numbers are not read as they are or whose
delta is not applied without a fault. -/
theorem exists_not_entryExact (hzlib : ∀ stream, Zlib.decompress stream ≠ .error .panic)
    {r : Except GitFault RawObj} (h : dir.Ends n r) (hpanic : r = .error .panic) :
    ∃ pack offset, dir.Reaches n (.readPackEntry pack offset) ∧ ¬ dir.EntryExact pack offset := by
  let P (n : Call) (r : Except GitFault RawObj) : Prop := r = .error .panic →
    ∃ pack offset, dir.Reaches n (.readPackEntry pack offset) ∧ ¬ dir.EntryExact pack offset
  refine CallTree.Ends.rec_on_body (P := P) (fun n r h hpanic => ?_) h hpanic
  subst hpanic
  have hcall {m : Call} (hcalls : dir.Calls n m) (hm : P m (.error .panic)) :
      ∃ pack offset, dir.Reaches n (.readPackEntry pack offset) ∧ ¬ dir.EntryExact pack offset := by
    obtain ⟨pack, offset, hreach, hexact⟩ := hm rfl
    exact ⟨pack, offset, hreach.head hcalls, hexact⟩
  have hsound (hsound : (dir.body n).Sound (.error .panic) (.error .panic)) :
      ∃ pack offset, dir.Reaches n (.readPackEntry pack offset) ∧ ¬ dir.EntryExact pack offset := by
    obtain ⟨m, hasks, -, hm⟩ := hsound.exists_asks h
    exact hcall (hasks.mono fun _ _ h => h.1) hm
  cases n with
  | readObject oid => exact hsound (sound_readObject hzlib dir oid)
  | lookupInPack idx pack oid => exact hsound (sound_lookupInPack idx pack oid)
  | readPackEntry pack offset =>
      change (readPackEntry pack offset).Returns _ _ at h
      rcases readPackEntry_cases pack offset with ⟨r, hdone, -⟩ | ⟨m, stream, hbase, htree⟩
      · rw [hdone] at h
        obtain rfl : .error .panic = r := h
        exact ⟨pack, offset, .refl, not_entryExact_of_done hzlib hdone⟩
      · rw [htree] at h
        obtain ⟨base, ⟨hends, hm⟩, hresolve⟩ := h
        rcases Except.bind_eq_error_iff.mp hresolve.symm with rfl | ⟨obj, rfl, hdelta⟩
        · exact hcall (calls_readPackEntry_iff.mpr ⟨stream, hbase⟩) hm
        · refine ⟨pack, offset, .refl, fun hexact => ?_⟩
          rcases Except.bind_eq_error_iff.mp hdelta with hdelta | ⟨delta, hstream, hdelta⟩
          · exact hzlib _ hdelta
          · rcases Except.bind_eq_error_iff.mp hdelta with hdelta | ⟨data, -, hdelta⟩
            · exact (hexact.2.2 m stream obj delta hbase hends hstream).1 hdelta
            · cases hdelta

/-- The call returns a result or an error, and the numbers of the entries that it reads are read as
they are. -/
def ReadsExactly (dir : GitDir) (n : Call) : Prop :=
  (∃ r, dir.Ends n r ∧ r ≠ .error .panic)
    ∧ ∀ pack offset, dir.Reaches n (.readPackEntry pack offset) → dir.EntryExact pack offset

theorem readsExactly_iff (hzlib : ∀ stream, Zlib.decompress stream ≠ .error .panic)
    (dir : GitDir) (n : Call) : dir.ReadsExactly n ↔ dir.NoReturn n
      ∧ ∀ pack offset, dir.Reaches n (.readPackEntry pack offset) → dir.EntryFits pack offset := by
  simp only [← entryExact_iff]
  refine and_congr_left fun hexact => ?_
  rw [← ends_iff_noReturn]
  constructor
  · rintro ⟨r, hends, -⟩
    exact ⟨r, hends⟩
  · rintro ⟨r, hends⟩
    refine ⟨r, hends, fun hpanic => ?_⟩
    obtain ⟨pack, offset, hreach, hnot⟩ := exists_not_entryExact hzlib hends hpanic
    exact hnot (hexact pack offset hreach)

end GitDir

/-- **Malformed packs are rejected exactly where** the numbers in them fit, no copy is cut off and
no chain of bases returns. The decompressor gives data or an error. -/
theorem rejects_iff [Zlib] (hzlib : ∀ stream, Zlib.decompress stream ≠ .error .panic) :
    (∀ pack pos, SizeExact pack pos ↔ SizeFits pack pos)
      ∧ (∀ pack pos, OffsetExact pack pos ↔ OffsetFits pack pos)
      ∧ (∀ base delta, DeltaExact base delta ↔ DeltaFits base.length delta)
      ∧ ∀ (dir : GitDir) (idx pack : Bytes) (oid : GitOid),
        dir.ReadsExactly (.lookupInPack idx pack oid) ↔ dir.NoReturn (.lookupInPack idx pack oid)
          ∧ ∀ pack' offset, dir.Reaches (.lookupInPack idx pack oid) (.readPackEntry pack' offset) →
            dir.EntryFits pack' offset :=
  ⟨sizeExact_iff, offsetExact_iff, deltaExact_iff, fun dir idx pack oid =>
    dir.readsExactly_iff hzlib (.lookupInPack idx pack oid)⟩

/-- The delta copies the whole base, behind a size that fits. -/
theorem rejects_iff_hello :
    SizeExact [0x35] 0 ∧ DeltaExact GitPack.hello [5, 5, 0x90, 5] := by
  have hzlib : ∀ stream, GitPack.helloZlib.decompress stream ≠ .error .panic := by
    intro stream h
    unfold GitPack.helloZlib at h
    dsimp only at h
    split_ifs at h
    split at h <;> cases h
  obtain ⟨hsize, -, hdelta, -⟩ := @rejects_iff GitPack.helloZlib hzlib
  refine ⟨(hsize _ _).mpr (by decide), (hdelta _ _).mpr ⟨by decide, fun src behind h => ?_⟩⟩
  cases h
  refine ⟨by decide, fun tgt instructions h _ => ?_⟩
  cases h
  refine ⟨by decide, ?_⟩
  rw [cutOff_copy_iff (by decide) rfl rfl]
  rintro ⟨-, h⟩
  cases h

/-- A size of `2 ^ 64` is read as zero, an offset of more than 64 bits without its high bits, and a
copy without operands panics. -/
theorem not_rejects :
    let _ := GitPack.helloZlib
    ¬ SizeExact ([0x90] ++ List.replicate 8 0x80 ++ [0x10]) 0
      ∧ ¬ OffsetExact (List.replicate 9 0xFF ++ [0x7F]) 0
      ∧ ¬ DeltaExact [] [0, 0, 0x91]
      ∧ ¬ (GitDir.onePackDir ([0x90] ++ List.replicate 9 0x80 ++ [0])).ReadsExactly
        (.lookupInPack twoObjects (GitDir.onePack ([0x90] ++ List.replicate 9 0x80 ++ [0]))
          GitDir.zeroOid) := by
  intro zlib
  rw [sizeExact_iff, offsetExact_iff]
  refine ⟨by decide, by decide, fun h => h.1 rfl, fun h => ?_⟩
  have hoffset : packOffset twoObjects GitDir.zeroOid = .ok 12 :=
    listsObjects_twoObjects.packOffset_of_mem (i := 0) rfl rfl
  have hsize := (h.2 _ 12 (GitDir.reaches_of_packOffset hoffset)).1
  rw [sizeExact_iff] at hsize
  exact absurd hsize (by decide)

end ArcVcs.GitIngress
