import Mathlib.Algebra.Group.Nat.Defs
import Mathlib.Data.List.Basic
import Mathlib.Data.Nat.Basic
import Mathlib.Data.Nat.ModEq

/-!
# Fixed-width encodings

A number below a power of the base is known from its digits, and a list from its encoding
when all elements are encoded at one width.
-/

theorem Nat.mod_pow_eq_of_digits {b n m k : ℕ}
    (h : ∀ i < k, n / b ^ i % b = m / b ^ i % b) : n % b ^ k = m % b ^ k := by
  induction k with
  | zero => simp [Nat.mod_one]
  | succ k ih =>
      rw [Nat.mod_pow_succ, Nat.mod_pow_succ, ih fun i hi => h i (hi.trans k.lt_succ_self),
        h k k.lt_succ_self]

theorem Nat.eq_of_bytes {width n m : ℕ} (hn : n < 256 ^ width) (hm : m < 256 ^ width)
    (h : ∀ i < width, UInt8.ofNat (n / 256 ^ i) = UInt8.ofNat (m / 256 ^ i)) : n = m := by
  have hmod : n % 256 ^ width = m % 256 ^ width := by
    refine Nat.mod_pow_eq_of_digits fun i hi => ?_
    simpa using congrArg UInt8.toNat (h i hi)
  rwa [Nat.mod_eq_of_lt hn, Nat.mod_eq_of_lt hm] at hmod

theorem Nat.eq_of_littleEndian {width n m : ℕ} (hn : n < 256 ^ width) (hm : m < 256 ^ width)
    (h : (List.range width).map (fun i => UInt8.ofNat (n / 256 ^ i))
      = (List.range width).map fun i => UInt8.ofNat (m / 256 ^ i)) : n = m :=
  Nat.eq_of_bytes hn hm fun i hi => List.map_inj_left.mp h i (List.mem_range.mpr hi)

theorem Nat.eq_of_bigEndian {width n m : ℕ} (hn : n < 256 ^ width) (hm : m < 256 ^ width)
    (h : (List.range width).map (fun i => UInt8.ofNat (n / 256 ^ (width - 1 - i)))
      = (List.range width).map fun i => UInt8.ofNat (m / 256 ^ (width - 1 - i))) : n = m := by
  refine Nat.eq_of_bytes hn hm fun i hi => ?_
  have hbyte := List.map_inj_left.mp h (width - 1 - i) (List.mem_range.mpr (by omega))
  rwa [show width - 1 - (width - 1 - i) = i by omega] at hbyte

theorem List.flatMap_inj_of_width {α β : Type*} {f : α → List β} (hf : Function.Injective f)
    {w : ℕ} (hw : ∀ a, (f a).length = w) {l l' : List α} (hlen : l.length = l'.length)
    (h : l.flatMap f = l'.flatMap f) : l = l' := by
  induction l generalizing l' with
  | nil => exact (List.length_eq_zero_iff.mp hlen.symm).symm
  | cons a l ih =>
      cases l' with
      | nil => simp at hlen
      | cons a' l' =>
          rw [List.flatMap_cons, List.flatMap_cons] at h
          obtain ⟨hhead, htail⟩ := List.append_inj h ((hw a).trans (hw a').symm)
          rw [hf hhead, ih (by simpa using hlen) htail]

/-! ## Byte arrays -/

theorem ByteArray.toList_loop_eq (bytes : ByteArray) (i : ℕ) (acc : List UInt8) :
    ByteArray.toList.loop bytes i acc = acc.reverse ++ bytes.data.toList.drop i := by
  fun_induction ByteArray.toList.loop bytes i acc with
  | case1 i acc hlt ih =>
      have hlen : i < bytes.data.toList.length := hlt
      have hget : bytes.get! i = bytes.data.toList[i] := by
        change bytes.data[i]! = _
        rw [getElem!_pos bytes.data i hlt]
        rfl
      rw [ih, List.drop_eq_getElem_cons hlen, hget]
      simp
  | case2 i acc hlt =>
      have hlen : bytes.data.toList.length ≤ i := Nat.le_of_not_lt hlt
      rw [List.drop_eq_nil_of_le hlen, List.append_nil]

theorem ByteArray.toList_eq_data_toList (bytes : ByteArray) : bytes.toList = bytes.data.toList := by
  rw [ByteArray.toList, toList_loop_eq]
  rfl

/-!
## Arithmetic that stays in a machine word

Unsigned words of 64 bits as natural numbers. Subtraction of natural numbers saturates already.
-/

namespace Usize

def greatest : ℕ := 2 ^ 64 - 1

def saturatingAdd (a b : ℕ) : ℕ := min (a + b) greatest

def saturatingMul (a b : ℕ) : ℕ := min (a * b) greatest

theorem saturatingAdd_eq {a b : ℕ} (h : a + b ≤ greatest) : saturatingAdd a b = a + b :=
  min_eq_left h

theorem saturatingMul_eq {a b : ℕ} (h : a * b ≤ greatest) : saturatingMul a b = a * b :=
  min_eq_left h

end Usize

/-!
## The bytes of a character

UTF-8 writes an ASCII character as its number, and every other one with bytes from 128 on, of which
the first tells the number of bytes.
-/

namespace Utf8

open String (utf8EncodeChar)

variable {c : Char}

theorem utf8Size_eq_one_iff : c.utf8Size = 1 ↔ c.toNat < 128 := by
  rw [Char.utf8Size_eq_one_iff, UInt32.le_iff_toNat_le]
  exact Nat.lt_succ_iff.symm

theorem encode_ascii (h : c.toNat < 128) : utf8EncodeChar c = [UInt8.ofNat c.toNat] := by
  rw [String.utf8EncodeChar_eq_singleton (utf8Size_eq_one_iff.mpr h)]
  rfl

theorem encode_two (h : c.utf8Size = 2) :
    ∃ b b', utf8EncodeChar c = [b, b'] ∧ 194 ≤ b ∧ b ≤ 223 := by
  refine ⟨_, _, String.utf8EncodeChar_eq_cons_cons h, ?_⟩
  have hlow : ¬ c.toNat < 128 := fun hlt => by
    rw [utf8Size_eq_one_iff.mpr hlt] at h
    omega
  have hhigh : c.toNat < 2048 := by
    by_contra hge
    have hsize : 3 ≤ c.utf8Size := by
      rw [Char.utf8Size, if_neg, if_neg]
      · split <;> omega
      · rw [UInt32.le_iff_toNat_le]
        exact fun hle => hge (Nat.lt_succ_of_le hle)
      · rw [UInt32.le_iff_toNat_le]
        exact fun hle => hlow (Nat.lt_succ_of_le hle)
    omega
  have hshift : (c.val >>> 6).toUInt8 = UInt8.ofNat (c.toNat / 64) := by
    apply UInt8.toNat_inj.mp
    simp [Nat.shiftRight_eq_div_pow]
  have hbounds : ∀ n < 32, 2 ≤ n → 194 ≤ (UInt8.ofNat n &&& 0x1f ||| 0xc0)
      ∧ (UInt8.ofNat n &&& 0x1f ||| 0xc0) ≤ 223 := by decide
  rw [hshift]
  exact hbounds _ (by omega) (by omega)

theorem encode_wide (h : 3 ≤ c.utf8Size) :
    ∃ b b' bs, utf8EncodeChar c = b :: b' :: bs ∧ bs ≠ [] ∧ 224 ≤ b := by
  have hbounds : ∀ n : Fin 256, 224 ≤ (UInt8.ofNat n &&& 0x0f ||| 0xe0)
      ∧ 224 ≤ (UInt8.ofNat n &&& 0x07 ||| 0xf0) := by decide +kernel
  have hfin (b : UInt8) : UInt8.ofNat (⟨b.toNat, b.toNat_lt⟩ : Fin 256) = b := UInt8.ofNat_toNat
  have hmax := c.utf8Size_le_four
  obtain hthree | hfour : c.utf8Size = 3 ∨ c.utf8Size = 4 := by omega
  · refine ⟨_, _, _, String.utf8EncodeChar_eq_cons_cons_cons hthree, List.cons_ne_nil _ _, ?_⟩
    have hbound := (hbounds ⟨_, (c.val >>> 12).toUInt8.toNat_lt⟩).1
    rwa [hfin] at hbound
  · refine ⟨_, _, _, String.utf8EncodeChar_eq_cons_cons_cons_cons hfour, List.cons_ne_nil _ _, ?_⟩
    have hbound := (hbounds ⟨_, (c.val >>> 18).toUInt8.toNat_lt⟩).2
    rwa [hfin] at hbound

theorem encode_of_not_ascii (h : ¬ c.toNat < 128) :
    ∃ b b' bs, utf8EncodeChar c = b :: b' :: bs ∧ 194 ≤ b := by
  have hone : c.utf8Size ≠ 1 := fun heq => h (utf8Size_eq_one_iff.mp heq)
  have hpos := c.utf8Size_pos
  rcases Nat.lt_or_ge c.utf8Size 3 with hlt | hge
  · obtain ⟨b, b', henc, hb, -⟩ := encode_two (c := c) (by omega)
    exact ⟨b, b', [], henc, hb⟩
  · obtain ⟨b, b', bs, henc, -, hb⟩ := encode_wide hge
    exact ⟨b, b', bs, henc, UInt8.le_trans (by decide) hb⟩

end Utf8
