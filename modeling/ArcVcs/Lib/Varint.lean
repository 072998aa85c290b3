import Mathlib.Data.Nat.Bitwise

/-!
# Groups of seven bits

A number is written in groups of seven bits, the least significant first, each but the last one with
its high bit set. It is read into an accumulator of a fixed width, behind the bits that the
accumulator holds already.
-/

namespace Varint

variable {ε : Type*} {short wide : ε} {width n val shift pos : ℕ} {rest : List UInt8}

def encode (n : ℕ) : List UInt8 :=
  if n < 128 then [UInt8.ofNat n] else (UInt8.ofNat (n % 128) ||| 0x80) :: encode (n / 128)
termination_by n
decreasing_by omega

/-- The value, and the position behind it. The list may end too soon, and a shift by the width or
more is a fault of its own. -/
def decodeFrom (width : ℕ) (short wide : ε) (pos val shift : ℕ) :
    List UInt8 → Except ε (ℕ × ℕ)
  | [] => .error short
  | b :: rest =>
      if width ≤ shift then .error wide
      else
        let val := val ||| ((b &&& 0x7F).toNat <<< shift) % 2 ^ width
        if b &&& 0x80 = 0 then .ok (val, pos + 1)
        else decodeFrom width short wide (pos + 1) val (shift + 7) rest

theorem group_spec : ∀ x < 128, let b := UInt8.ofNat x
    (b &&& 0x7F).toNat = x ∧ b &&& 0x80 = 0
      ∧ ((b ||| 0x80) &&& 0x7F).toNat = x ∧ (b ||| 0x80) &&& 0x80 ≠ 0 := by
  decide +kernel

theorem or_shift_eq_add (hval : val < 2 ^ shift) {x : ℕ} (hlt : val + x * 2 ^ shift < 2 ^ width) :
    val ||| (x <<< shift) % 2 ^ width = val + x * 2 ^ shift := by
  rw [Nat.shiftLeft_eq, Nat.mod_eq_of_lt (by omega), Nat.or_comm, ← Nat.shiftLeft_eq,
    ← Nat.shiftLeft_add_eq_or_of_lt hval, Nat.shiftLeft_eq, Nat.add_comm]

/-- **A number is read as it was written**, if there is room for it. By induction on the number,
one group at a time. -/
theorem decodeFrom_encode (hval : val < 2 ^ shift) (hshift : shift < width)
    (hlt : val + n * 2 ^ shift < 2 ^ width) :
    decodeFrom width short wide pos val shift (encode n ++ rest)
      = .ok (val + n * 2 ^ shift, pos + (encode n).length) := by
  induction n using Nat.strongRecOn generalizing pos val shift with
  | ind n ih =>
      rw [encode]
      split_ifs with hsmall
      · obtain ⟨hlow, hhigh, -, -⟩ := group_spec n hsmall
        rw [List.singleton_append, decodeFrom, if_neg (Nat.not_le.mpr hshift), hlow, if_pos hhigh,
          or_shift_eq_add hval hlt]
        rfl
      · obtain ⟨-, -, hlow, hhigh⟩ := group_spec (n % 128) (Nat.mod_lt n (by decide))
        have hn : n % 128 * 2 ^ shift + n / 128 * 2 ^ (shift + 7) = n * 2 ^ shift := by
          rw [pow_add, mul_comm (2 ^ shift), ← mul_assoc, ← add_mul]
          congr 1
          omega
        have hpos : 2 ^ (shift + 7) ≤ n / 128 * 2 ^ (shift + 7) :=
          Nat.le_mul_of_pos_left _ (by omega)
        have hgroup : val + n % 128 * 2 ^ shift < 2 ^ (shift + 7) := by
          have hmod : n % 128 * 2 ^ shift ≤ 127 * 2 ^ shift :=
            Nat.mul_le_mul_right _ (by omega)
          rw [pow_add]
          omega
        have hroom : shift + 7 < width := by
          rw [← Nat.pow_lt_pow_iff_right (show 1 < 2 by decide)]
          omega
        rw [List.cons_append, decodeFrom, if_neg (Nat.not_le.mpr hshift), hlow, if_neg hhigh,
          or_shift_eq_add hval (by omega), ih (n / 128) (by omega) hgroup hroom (by omega),
          List.length_cons]
        congr 2
        · omega
        · omega

/-! ## Numbers without a bound -/

/-- The number at the start of the bytes and what stands behind it, if they do not end too soon. -/
def split (val shift : ℕ) : List UInt8 → Option (ℕ × List UInt8)
  | [] => none
  | b :: rest =>
      let val := val + (b &&& 0x7F).toNat * 2 ^ shift
      if b &&& 0x80 = 0 then some (val, rest) else split val (shift + 7) rest

/-- Each group begins within the width, and the last one ends within it. -/
def Fits (width shift : ℕ) : List UInt8 → Prop
  | [] => True
  | b :: rest => shift < width
      ∧ if b &&& 0x80 = 0 then (b &&& 0x7F).toNat < 2 ^ (width - shift)
        else Fits width (shift + 7) rest

instance decidableFits (width : ℕ) : (shift : ℕ) → (bytes : List UInt8) →
    Decidable (Fits width shift bytes)
  | _, [] => isTrue trivial
  | shift, b :: rest =>
      have := decidableFits width (shift + 7) rest
      inferInstanceAs (Decidable (_ ∧ ite (b &&& 0x80 = 0) _ _))

theorem group_lt (b : UInt8) : (b &&& 0x7F).toNat < 2 ^ 7 := by
  rw [UInt8.toNat_and]
  exact Nat.lt_of_le_of_lt Nat.and_le_right (by decide)

theorem add_group_lt_iff (hval : val < 2 ^ shift) (hshift : shift ≤ width) {x : ℕ} :
    val + x * 2 ^ shift < 2 ^ width ↔ x < 2 ^ (width - shift) := by
  have hpow : 2 ^ width = 2 ^ (width - shift) * 2 ^ shift := by
    rw [← pow_add, Nat.sub_add_cancel hshift]
  rw [hpow]
  constructor
  · intro h
    by_contra hx
    have hle := Nat.mul_le_mul_right (2 ^ shift) (not_lt.mp hx)
    omega
  · intro h
    have hle : (x + 1) * 2 ^ shift ≤ 2 ^ (width - shift) * 2 ^ shift :=
      Nat.mul_le_mul_right (2 ^ shift) h
    rw [Nat.add_mul, Nat.one_mul] at hle
    omega

theorem add_group_lt (hval : val < 2 ^ shift) (b : UInt8) :
    val + (b &&& 0x7F).toNat * 2 ^ shift < 2 ^ (shift + 7) := by
  rw [add_group_lt_iff hval (Nat.le_add_right shift 7), Nat.add_sub_cancel_left]
  exact group_lt b

/-- The number that is read is the number in the bytes, up to the fault of a group that begins
behind the width. -/
def Exact (width val shift pos : ℕ) (short wide : ε) (bytes : List UInt8) : Prop :=
  decodeFrom width short wide pos val shift bytes ≠ .error wide
    ∧ ∀ v next, decodeFrom width short wide pos val shift bytes = .ok (v, next) →
      ∃ rest, split val shift bytes = some (v, rest)

/-- **Reading is exact where the number fits.** By induction on the bytes. -/
theorem exact_iff_fits (hne : short ≠ wide) (hval : val < 2 ^ shift) (bytes : List UInt8) :
    Exact width val shift pos short wide bytes ↔ Fits width shift bytes := by
  induction bytes generalizing pos val shift with
  | nil => simp [Exact, decodeFrom, Fits, hne]
  | cons b rest ih =>
      unfold Exact
      rw [decodeFrom, split, Fits]
      by_cases hshift : width ≤ shift
      · rw [if_pos hshift]
        exact iff_of_false (fun h => h.1 rfl) fun h => absurd h.1 (not_lt.mpr hshift)
      rw [if_neg hshift, and_iff_right (not_le.mp hshift)]
      dsimp only
      by_cases hlast : b &&& 0x80 = 0
      · rw [if_pos hlast, if_pos hlast, if_pos hlast,
          ← add_group_lt_iff hval (not_le.mp hshift).le]
        constructor
        · rintro ⟨-, h⟩
          obtain ⟨_, hsplit⟩ := h _ _ rfl
          have hread : val + (b &&& 0x7F).toNat * 2 ^ shift
              = val ||| ((b &&& 0x7F).toNat <<< shift) % 2 ^ width :=
            congrArg Prod.fst (Option.some_inj.mp hsplit)
          rw [hread]
          exact Nat.or_lt_two_pow (hval.trans (Nat.pow_lt_pow_right (by decide) (not_le.mp hshift)))
            (Nat.mod_lt _ (Nat.two_pow_pos width))
        · intro hlt
          refine ⟨by simp, fun v next h => ⟨rest, ?_⟩⟩
          rw [or_shift_eq_add hval hlt] at h
          cases h
          rfl
      · rw [if_neg hlast, if_neg hlast, if_neg hlast]
        by_cases hroom : shift + 7 ≤ width
        · have hgroup := add_group_lt hval b
          rw [or_shift_eq_add hval (hgroup.trans_le (Nat.pow_le_pow_right (by decide) hroom))]
          exact ih hgroup
        · cases rest with
          | nil => simp [decodeFrom, Fits, hne]
          | cons b' rest =>
              have hwide : width ≤ shift + 7 := by omega
              rw [decodeFrom, if_pos hwide, Fits]
              exact iff_of_false (fun h => h.1 rfl) fun h => absurd h.1 (not_lt.mpr hwide)

theorem split_eq_some {v : ℕ} {bytes : List UInt8} (h : split val shift bytes = some (v, rest)) :
    ∃ front, bytes = front ++ rest := by
  induction bytes generalizing val shift with
  | nil => cases h
  | cons b bytes ih =>
      rw [split] at h
      split_ifs at h
      · obtain ⟨-, rfl⟩ := Prod.mk.inj (Option.some_inj.mp h)
        exact ⟨[b], rfl⟩
      · obtain ⟨front, rfl⟩ := ih h
        exact ⟨b :: front, rfl⟩

/-- **What is read of a number that fits.** -/
theorem decodeFrom_of_fits (hval : val < 2 ^ shift) {bytes : List UInt8}
    (h : Fits width shift bytes) : decodeFrom width short wide pos val shift bytes
      = match split val shift bytes with
        | none => .error short
        | some (v, rest) => .ok (v, pos + (bytes.length - rest.length)) := by
  induction bytes generalizing pos val shift with
  | nil => rfl
  | cons b rest ih =>
      obtain ⟨hshift, hrest⟩ := h
      rw [decodeFrom, split, if_neg (not_le.mpr hshift)]
      dsimp only
      by_cases hlast : b &&& 0x80 = 0
      · rw [if_pos hlast] at hrest
        rw [if_pos hlast, if_pos hlast,
          or_shift_eq_add hval ((add_group_lt_iff hval hshift.le).mpr hrest)]
        have hone : rest.length + 1 - rest.length = 1 := Nat.add_sub_cancel_left _ _
        change _ = Except.ok (_, pos + (rest.length + 1 - rest.length))
        rw [hone]
      · rw [if_neg hlast] at hrest
        rw [if_neg hlast, if_neg hlast]
        by_cases hroom : shift + 7 ≤ width
        · have hgroup := add_group_lt hval b
          rw [or_shift_eq_add hval (hgroup.trans_le (Nat.pow_le_pow_right (by decide) hroom)),
            ih hgroup hrest]
          cases hsplit : split (val + (b &&& 0x7F).toNat * 2 ^ shift) (shift + 7) rest with
          | none => rfl
          | some found =>
              obtain ⟨v, behind⟩ := found
              obtain ⟨front, rfl⟩ := split_eq_some hsplit
              simp only [List.length_append, List.length_cons, Except.ok.injEq, Prod.mk.injEq,
                true_and]
              omega
        · cases rest with
          | nil => rfl
          | cons => exact absurd hrest.1 (by omega)

end Varint
