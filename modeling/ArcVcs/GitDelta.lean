import ArcVcs.GitPack

/-!
# Deltas

A delta is two sizes and a list of instructions, which copy a part of the base or insert new bytes.
What git writes as a delta, as the size of an object and as the offset of a base is read back here.
-/

namespace ArcVcs.GitDelta

open GitIngress

/-! ## The format -/

/-- An instruction of a delta. -/
inductive Instruction where
  | copy (offset size : ℕ)
  | insert (data : Bytes)
deriving DecidableEq

namespace Instruction

/-- What an instruction adds to the target. -/
def piece (base : Bytes) : Instruction → Bytes
  | copy offset size => (base.drop offset).take size
  | insert data => data

/-- A copy is within the base, and both kinds have a size that can be written. -/
def Valid (base : Bytes) : Instruction → Prop
  | copy offset size => 1 ≤ size ∧ size < 2 ^ 24 ∧ offset < 2 ^ 32 ∧ offset + size ≤ base.length
  | insert data => 1 ≤ data.length ∧ data.length ≤ 127

instance (base : Bytes) (instruction : Instruction) : Decidable (instruction.Valid base) := by
  cases instruction <;> exact inferInstanceAs (Decidable (_ ∧ _))

end Instruction

/-- The bytes of a number that are there: those whose bit in the command is set. -/
def operandBytes (cmd : UInt8) (bit first count value : ℕ) : Bytes :=
  ((List.range' first count).filter fun i => cmd.toNat.testBit (bit + i)).map fun i =>
    UInt8.ofNat (value / 256 ^ i)

/-- Only zero bytes are left out. -/
def OmitsZeros (cmd : UInt8) (bit count value : ℕ) : Prop :=
  ∀ i < count, cmd.toNat.testBit (bit + i) = false → value / 256 ^ i % 256 = 0

/-- The bytes of an instruction. The size `0x10000` is also written as the length zero. -/
inductive Encodes : Instruction → Bytes → Prop
  | copy {offset size length : ℕ} {cmd : UInt8} (command : cmd.toNat.testBit 7 = true)
      (length_eq : length = size ∨ length = 0 ∧ size = 0x10000)
      (offset_omits : OmitsZeros cmd 0 4 offset) (length_omits : OmitsZeros cmd 4 3 length) :
      Encodes (.copy offset size)
        (cmd :: (operandBytes cmd 0 0 4 offset ++ operandBytes cmd 4 0 3 length))
  | insert {data : Bytes} : Encodes (.insert data) (UInt8.ofNat data.length :: data)

/-- One instruction after the other. -/
inductive EncodesAll : List Instruction → Bytes → Prop
  | nil : EncodesAll [] []
  | cons {instruction : Instruction} {bytes rest : Bytes} {instructions : List Instruction}
      (head : Encodes instruction bytes) (tail : EncodesAll instructions rest) :
      EncodesAll (instruction :: instructions) (bytes ++ rest)

def objectSize (objType : UInt8) (size : ℕ) : Bytes :=
  if size < 16 then [(objType <<< 4) ||| UInt8.ofNat size]
  else ((objType <<< 4) ||| UInt8.ofNat (size % 16) ||| 0x80) :: Varint.encode (size / 16)

/-- The groups before the last one. Each counts from one, as it is there at all. -/
def offsetGroups (n : ℕ) : Bytes :=
  if n = 0 then []
  else offsetGroups ((n - 1) / 128) ++ [UInt8.ofNat ((n - 1) % 128) ||| 0x80]
termination_by n
decreasing_by omega

/-- The offset of a base, with the most significant group first. -/
def negativeOffset (n : ℕ) : Bytes := offsetGroups (n / 128) ++ [UInt8.ofNat (n % 128)]

example : negativeOffset 0 = [0] := by decide +kernel

/-! ## Operands -/

theorem and_bit_eq_zero_iff (cmd : UInt8) {bit : ℕ} (h : bit < 8) :
    cmd &&& UInt8.ofNat (1 <<< bit) = 0 ↔ cmd.toNat.testBit bit = false := by
  have hlt : 2 ^ bit < 256 := Nat.pow_lt_pow_right (by decide) h
  rw [← UInt8.toNat_inj, UInt8.toNat_and, UInt8.toNat_ofNat', Nat.one_shiftLeft,
    Nat.mod_eq_of_lt hlt, Nat.and_two_pow]
  cases cmd.toNat.testBit bit <;> simp

/-- **An operand is read as it was written**, behind the bytes that are read already. By induction
on the number of bytes. -/
theorem copyField_operandBytes {cmd : UInt8} {bit first count value : ℕ}
    (hbit : bit + (first + count) ≤ 8)
    (homits : ∀ i < first + count, cmd.toNat.testBit (bit + i) = false → value / 256 ^ i % 256 = 0)
    (rest : Bytes) :
    copyField cmd bit (List.range' first count) (value % 256 ^ first)
        (operandBytes cmd bit first count value ++ rest)
      = .ok (value % 256 ^ (first + count), rest) := by
  induction count generalizing first with
  | zero => rfl
  | succ count ih =>
      have hnext : value % 256 ^ (first + 1)
          = value % 256 ^ first + value / 256 ^ first % 256 * 256 ^ first := by
        rw [Nat.pow_succ, Nat.mod_mul, Nat.mul_comm (256 ^ first)]
      have htail := @ih (first + 1) (by omega) fun i hi => homits i (by omega)
      rw [show first + 1 + count = first + (count + 1) by omega] at htail
      rw [List.range'_succ, copyField.eq_def, operandBytes, List.range'_succ, List.filter_cons]
      dsimp only
      by_cases hset : cmd.toNat.testBit (bit + first) = true
      · rw [if_neg (by rw [and_bit_eq_zero_iff cmd (by omega), hset]; exact Bool.noConfusion),
          if_pos hset, List.map_cons, List.cons_append]
        dsimp only
        have hor : value % 256 ^ first
            ||| (UInt8.ofNat (value / 256 ^ first)).toNat <<< (8 * first)
            = value % 256 ^ (first + 1) := by
          have hpow : 256 ^ first = 2 ^ (8 * first) := by rw [Nat.pow_mul]
          have hlt : value % 256 ^ first < 2 ^ (8 * first) :=
            hpow ▸ Nat.mod_lt _ (Nat.pow_pos (by decide))
          rw [UInt8.toNat_ofNat', Nat.or_comm, ← Nat.shiftLeft_add_eq_or_of_lt hlt,
            Nat.shiftLeft_eq, ← hpow, hnext, Nat.add_comm]
        rw [hor]
        exact htail
      · have hclear : cmd.toNat.testBit (bit + first) = false := by simpa using hset
        rw [if_pos ((and_bit_eq_zero_iff cmd (by omega)).mpr hclear), if_neg hset]
        have hzero := homits first (by omega) hclear
        rw [hzero, Nat.zero_mul] at hnext
        rw [hnext] at htail
        exact htail

theorem copyField_eq {cmd : UInt8} {bit count value : ℕ} (hbit : bit + count ≤ 8)
    (homits : OmitsZeros cmd bit count value) (hvalue : value < 256 ^ count) (rest : Bytes) :
    copyField cmd bit (List.range' 0 count) 0 (operandBytes cmd bit 0 count value ++ rest)
      = .ok (value, rest) := by
  have hfield := @copyField_operandBytes cmd bit 0 count value (by omega)
    (fun i hi => homits i (by omega)) rest
  rwa [Nat.pow_zero, Nat.mod_one, Nat.zero_add, Nat.mod_eq_of_lt hvalue] at hfield

/-! ## Instructions -/

theorem and_high_eq_zero_iff (cmd : UInt8) : cmd &&& 0x80 = 0 ↔ cmd.toNat.testBit 7 = false :=
  @and_bit_eq_zero_iff cmd 7 (by decide)

/-- **One instruction adds its piece.** -/
theorem applyInstructions_encodes {base : Bytes} {instruction : Instruction} {bytes : Bytes}
    (hvalid : instruction.Valid base) (h : Encodes instruction bytes) (fuel : ℕ)
    (rest out : Bytes) :
    applyInstructions base (fuel + 1) (bytes ++ rest) out
      = applyInstructions base fuel rest (out ++ instruction.piece base) := by
  cases h with
  | @copy offset size length cmd command length_eq offset_omits length_omits =>
      obtain ⟨hpos, hsize, hoffset, hbound⟩ := hvalid
      have hlength : (if length = 0 then 0x10000 else length) = size := by
        rcases length_eq with rfl | ⟨rfl, rfl⟩
        · rw [if_neg (by omega)]
        · rw [if_pos rfl]
      have hoffsetField : copyField cmd 0 [0, 1, 2, 3] 0
          (operandBytes cmd 0 0 4 offset ++ (operandBytes cmd 4 0 3 length ++ rest))
            = .ok (offset, operandBytes cmd 4 0 3 length ++ rest) :=
        copyField_eq (by decide) offset_omits (by omega) _
      have hlengthField : copyField cmd 4 [0, 1, 2] 0 (operandBytes cmd 4 0 3 length ++ rest)
          = .ok (length, rest) := copyField_eq (by decide) length_omits (by omega) rest
      have hhigh : cmd &&& 0x80 ≠ 0 := by
        rw [Ne, and_high_eq_zero_iff, command]
        exact Bool.noConfusion
      rw [List.cons_append, List.append_assoc, applyInstructions, if_pos hhigh, hoffsetField]
      dsimp only [bind, Except.bind]
      rw [hlengthField]
      dsimp only
      rw [hlength, if_pos hbound]
      rfl
  | @insert data =>
      obtain ⟨hpos, hlength⟩ := hvalid
      have htoNat : (UInt8.ofNat data.length).toNat = data.length := by
        rw [UInt8.toNat_ofNat', Nat.mod_eq_of_lt (by omega)]
      have hlow : ¬ UInt8.ofNat data.length &&& 0x80 ≠ 0 := by
        rw [not_not, and_high_eq_zero_iff, htoNat]
        exact Nat.testBit_lt_two_pow (by omega)
      have hne : UInt8.ofNat data.length ≠ 0 := by
        intro hzero
        rw [hzero] at htoNat
        exact absurd hpos (htoNat ▸ by decide)
      rw [List.cons_append, applyInstructions, if_neg hlow, if_pos hne, htoNat, if_pos (by simp),
        List.drop_left, List.take_left]
      rfl

theorem length_pos_of_encodes {instruction : Instruction} {bytes : Bytes}
    (h : Encodes instruction bytes) : 0 < bytes.length := by
  cases h <;> simp

/-- **All instructions add their pieces, one after the other.** -/
theorem applyInstructions_encodesAll {base : Bytes} {instructions : List Instruction}
    {bytes : Bytes} (hvalid : ∀ instruction ∈ instructions, instruction.Valid base)
    (h : EncodesAll instructions bytes) {fuel : ℕ} (hfuel : bytes.length ≤ fuel) (out : Bytes) :
    applyInstructions base fuel bytes out
      = .ok (out ++ instructions.flatMap (Instruction.piece base)) := by
  induction h generalizing fuel out with
  | nil => cases fuel <;> simp [applyInstructions]
  | @cons instruction bytes rest instructions head tail ih =>
      obtain ⟨hhead, htail⟩ := List.forall_mem_cons.mp hvalid
      have hpos := length_pos_of_encodes head
      rw [List.length_append] at hfuel
      obtain ⟨fuel, rfl⟩ : ∃ n, fuel = n + 1 := ⟨fuel - 1, by omega⟩
      rw [applyInstructions_encodes hhead head, ih htail (by omega), List.flatMap_cons,
        List.append_assoc]

/-! ## Numbers -/

/-- **A size is read as it was written**, and the reader stops behind it. -/
theorem readVarintLe_encode {n : ℕ} (hn : n < 2 ^ 64) (before rest : Bytes) :
    readVarintLe (before ++ (Varint.encode n ++ rest)) before.length
      = .ok (n, before.length + (Varint.encode n).length) := by
  rw [readVarintLe, List.drop_left, Varint.decodeFrom_encode (by decide) (by decide) (by omega)]
  simp

theorem objectSize_eq {objType : UInt8} (h : objType < 8) (size : ℕ) :
    objectSize objType size = GitPack.objectHeader objType size := by
  have hmask : size &&& 0x0F = size % 16 := Nat.and_two_pow_sub_one_eq_mod size 4
  have hshift : size >>> 4 = size / 16 := Nat.shiftRight_eq_div_pow size 4
  have htype : objType &&& 0x07 = objType := by
    have hall : ∀ t < 8, UInt8.ofNat t &&& 0x07 = UInt8.ofNat t := by decide
    have hspec := hall objType.toNat h
    rwa [UInt8.ofNat_toNat] at hspec
  rw [objectSize, GitPack.objectHeader, hmask, hshift, GitPack.headerGroups_eq, htype]
  by_cases hsmall : size < 16
  · have hzero : size / 16 = 0 := Nat.div_eq_of_lt hsmall
    rw [if_pos hsmall, hzero, if_pos rfl, if_neg (by decide), Nat.mod_eq_of_lt hsmall]
  · have hpos : 0 < size / 16 := by omega
    rw [if_neg hsmall, if_neg hpos.ne', if_pos hpos]

theorem shift_or_group {m x : ℕ} (hx : x < 128) (hlt : m * 128 + x < 2 ^ 64) :
    (m <<< 7) % 2 ^ 64 ||| x = m * 128 + x := by
  have hor := Nat.shiftLeft_add_eq_or_of_lt (i := 7) hx m
  rw [Nat.shiftLeft_eq] at hor ⊢
  rw [Nat.mod_eq_of_lt (by omega), ← hor]

/-- What is read before the last group is one less than the number it stands for. By induction on
the number. -/
theorem ofsDeltaGroups_offsetGroups {n : ℕ} (hn : 0 < n) (hlt : n < 2 ^ 64) :
    ∃ first groups, offsetGroups n = first :: groups ∧ first &&& 0x80 ≠ 0
      ∧ ∀ pos rest, ofsDeltaGroups (first &&& 0x7F).toNat pos (groups ++ rest)
        = ofsDeltaGroups (n - 1) (pos + groups.length) rest := by
  induction n using Nat.strongRecOn with
  | ind n ih =>
      obtain ⟨-, -, hlow, hhigh⟩ := Varint.group_spec ((n - 1) % 128) (Nat.mod_lt _ (by decide))
      rw [offsetGroups, if_neg hn.ne']
      by_cases hsmall : (n - 1) / 128 = 0
      · refine ⟨_, [], by rw [hsmall, offsetGroups, if_pos rfl]; rfl, hhigh, fun pos rest => ?_⟩
        rw [hlow, Nat.mod_eq_of_lt (by omega)]
        rfl
      · obtain ⟨first, groups, heq, hfirst, hread⟩ := ih ((n - 1) / 128) (by omega) (by omega)
          (by omega)
        have hnext : ((n - 1) / 128 - 1 + 1) = (n - 1) / 128 := by omega
        refine ⟨first, groups ++ [UInt8.ofNat ((n - 1) % 128) ||| 0x80], by rw [heq]; rfl, hfirst,
          fun pos rest => ?_⟩
        rw [List.append_assoc, hread, List.singleton_append, ofsDeltaGroups, if_neg (by omega),
          hlow, if_neg hhigh, hnext, shift_or_group (Nat.mod_lt _ (by decide)) (by omega),
          Nat.div_add_mod', List.length_append, List.length_singleton, Nat.add_assoc]

/-- **An offset is read as it was written**, and the reader stops behind it. -/
theorem parseOfsDeltaHeader_negativeOffset {n : ℕ} (hn : n < 2 ^ 64) (before rest : Bytes) :
    parseOfsDeltaHeader (before ++ (negativeOffset n ++ rest)) before.length
      = .ok (n, before.length + (negativeOffset n).length) := by
  obtain ⟨hlow, hhigh, -, -⟩ := Varint.group_spec (n % 128) (Nat.mod_lt _ (by decide))
  rw [parseOfsDeltaHeader, List.drop_left, negativeOffset]
  by_cases hsmall : n / 128 = 0
  · rw [hsmall, offsetGroups, if_pos rfl, List.nil_append, List.singleton_append]
    dsimp only
    rw [if_pos hhigh, hlow, Nat.mod_eq_of_lt (by omega)]
    rfl
  · obtain ⟨first, groups, heq, hfirst, hread⟩ := ofsDeltaGroups_offsetGroups
      (n := n / 128) (by omega) (by omega)
    have hnext : n / 128 - 1 + 1 = n / 128 := by omega
    rw [heq, List.cons_append, List.cons_append, List.append_assoc]
    dsimp only
    rw [if_neg hfirst, hread, List.singleton_append, ofsDeltaGroups, if_neg (by omega), hlow,
      if_pos hhigh, hnext, shift_or_group (Nat.mod_lt _ (by decide)) (by omega),
      Nat.div_add_mod', List.length_cons, List.length_append, List.length_singleton]
    congr 2
    omega

/-! ## Deltas -/

/-- **Deltas are decoded**, and so are the sizes and offsets of git. A base is a slice and a target
a vector, so both are shorter than `2 ^ 63`. -/
theorem applyDelta_encodes :
    (∀ (base : Bytes) (instructions : List Instruction) (bytes : Bytes), base.length < 2 ^ 63 →
      (instructions.flatMap (Instruction.piece base)).length < 2 ^ 63 →
      (∀ instruction ∈ instructions, instruction.Valid base) → EncodesAll instructions bytes →
      applyDelta base (Varint.encode base.length
        ++ Varint.encode (instructions.flatMap (Instruction.piece base)).length ++ bytes)
        = .ok (instructions.flatMap (Instruction.piece base)))
    ∧ ∀ n < 2 ^ 64, ∀ before rest : Bytes,
      readVarintLe (before ++ (Varint.encode n ++ rest)) before.length
        = .ok (n, before.length + (Varint.encode n).length)
      ∧ (∀ objType < 8,
        parsePackHeader (before ++ (objectSize objType n ++ rest)) before.length
          = .ok (objType, n, before.length + (objectSize objType n).length))
      ∧ parseOfsDeltaHeader (before ++ (negativeOffset n ++ rest)) before.length
        = .ok (n, before.length + (negativeOffset n).length) := by
  refine ⟨fun base instructions bytes hbase htarget hvalid hencodes => ?_,
    fun n hn before rest => ⟨readVarintLe_encode hn before rest, fun objType htype => ?_,
      parseOfsDeltaHeader_negativeOffset hn before rest⟩⟩
  · set target := instructions.flatMap (Instruction.piece base) with htargetDef
    have hsource := readVarintLe_encode (n := base.length) (by omega) []
      (Varint.encode target.length ++ bytes)
    have hsize := readVarintLe_encode (n := target.length) (by omega)
      (Varint.encode base.length) bytes
    have hdrop : (Varint.encode base.length ++ (Varint.encode target.length ++ bytes)).drop
        ((Varint.encode base.length).length + (Varint.encode target.length).length) = bytes := by
      rw [← List.append_assoc]
      exact List.drop_left' List.length_append
    have hfuel : bytes.length
        ≤ (Varint.encode base.length ++ (Varint.encode target.length ++ bytes)).length := by
      rw [List.length_append, List.length_append]
      omega
    have hinstructions := applyInstructions_encodesAll hvalid hencodes hfuel []
    rw [List.nil_append, List.length_nil, Nat.zero_add] at hsource
    rw [applyDelta, List.append_assoc, hsource]
    dsimp only [bind, Except.bind]
    rw [hsize]
    dsimp only
    rw [if_neg (by simp), if_neg (by omega), hdrop, hinstructions, List.nil_append, ← htargetDef]
    dsimp only
    rw [if_neg (by simp)]
  · rw [objectSize_eq htype]
    exact GitPack.parsePackHeader_append htype hn before rest

/-- Two bytes of the base and a new one. -/
theorem applyDelta_encodes_copy :
    applyDelta [1, 2, 3] [3, 3, 0x91, 1, 2, 1, 9] = .ok [2, 3, 9] := by
  have hcopy : Encodes (.copy 1 2) [0x91, 1, 2] := by
    refine @Encodes.copy 1 2 2 0x91 (by decide) (.inl rfl) ?_ ?_
    · rw [OmitsZeros]
      decide
    · rw [OmitsZeros]
      decide
  have hencodes : EncodesAll [.copy 1 2, .insert [9]] ([0x91, 1, 2] ++ ([1, 9] ++ [])) :=
    .cons hcopy (.cons .insert .nil)
  have hread := applyDelta_encodes.1 [1, 2, 3] [.copy 1 2, .insert [9]] _ (by decide) (by decide)
    (by decide) hencodes
  have hsize : Varint.encode 3 = [3] := by
    rw [Varint.encode]
    rfl
  rwa [show ([1, 2, 3] : Bytes).length = 3 from rfl,
    show ([Instruction.copy 1 2, .insert [9]].flatMap (Instruction.piece [1, 2, 3])).length = 3
      from rfl, hsize] at hread

end ArcVcs.GitDelta
