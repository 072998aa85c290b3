import Mathlib.Data.List.Basic
import Mathlib.Data.List.Induction
import Mathlib.Data.Nat.ModEq

/-!
# Readers

A reader takes a value off the front of a list and returns the rest, or fails. A reader that undoes
an encoding does so in front of everything, so readers of fields, lists and length prefixes undo the
encodings built the same way.
-/

/-- What is read, and what is left. -/
abbrev Reader (β α : Type*) := List β → Option (α × List β)

namespace Reader

variable {α γ β : Type*}

/-- One reader after the other, where the second one may depend on what was read. -/
def andThen (first : Reader β α) (next : α → Reader β γ) : Reader β γ := fun input =>
  match first input with
  | none => none
  | some (a, rest) => next a rest

def map (f : α → γ) (reader : Reader β α) : Reader β γ := fun input =>
  (reader input).map fun out => (f out.1, out.2)

/-- The first `n` elements. -/
def take (n : ℕ) : Reader β (List β) := fun input =>
  if n ≤ input.length then some (input.take n, input.drop n) else none

/-- A fixed number of values. -/
def replicate (reader : Reader β α) : ℕ → Reader β (List α)
  | 0, input => some ([], input)
  | n + 1, input =>
      match reader input with
      | none => none
      | some (a, rest) => (replicate reader n rest).map fun out => (a :: out.1, out.2)

/-- As many values as there are, and what comes after the last is dropped. The fuel lasts when every
value takes something. -/
def all (reader : Reader β α) : ℕ → List β → List α
  | 0, _ => []
  | fuel + 1, input =>
      match reader input with
      | none => []
      | some (a, rest) => a :: all reader fuel rest

/-- The reader undoes the encoding of the values with the property, whatever comes after. -/
def Undoes (reader : Reader β α) (enc : α → List β) (P : α → Prop) : Prop :=
  ∀ a, P a → ∀ rest, reader (enc a ++ rest) = some (a, rest)

variable {reader : Reader β α} {enc : α → List β} {P : α → Prop}

theorem take_append {l : List β} {n : ℕ} (hl : l.length = n) (rest : List β) :
    take n (l ++ rest) = some (l, rest) := by
  subst hl
  simp [take]

theorem Undoes.andThen (h : reader.Undoes enc P) {a : α} (ha : P a) (next : α → Reader β γ)
    (rest : List β) : reader.andThen next (enc a ++ rest) = next a rest := by
  rw [Reader.andThen, h a ha rest]

theorem Undoes.replicate (h : reader.Undoes enc P) {l : List α} (hl : ∀ a ∈ l, P a)
    (rest : List β) : reader.replicate l.length (l.flatMap enc ++ rest) = some (l, rest) := by
  induction l with
  | nil => rfl
  | cons a l ih =>
      rw [List.flatMap_cons, List.append_assoc, List.length_cons, Reader.replicate,
        h a (hl a List.mem_cons_self)]
      dsimp only
      rw [ih fun b hb => hl b (.tail _ hb)]
      rfl

theorem Undoes.prefixed (h : reader.Undoes enc P) {len : Reader β ℕ} {lenEnc : ℕ → List β}
    {N : ℕ → Prop} (hlen : len.Undoes lenEnc N) :
    (len.andThen reader.replicate).Undoes (fun l => lenEnc l.length ++ l.flatMap enc)
      fun l => (∀ a ∈ l, P a) ∧ N l.length := by
  rintro l ⟨hl, hn⟩ rest
  rw [List.append_assoc, hlen.andThen hn]
  exact h.replicate hl rest

theorem all_flatMap {f : α → γ} {reader : Reader β γ} {l : List α} {tail : List β} {fuel : ℕ}
    (hread : ∀ a ∈ l, ∀ rest, reader (enc a ++ rest) = some (f a, rest))
    (hne : ∀ a ∈ l, enc a ≠ []) (htail : reader tail = none)
    (hfuel : (l.flatMap enc ++ tail).length ≤ fuel) :
    reader.all fuel (l.flatMap enc ++ tail) = l.map f := by
  induction l generalizing fuel with
  | nil =>
      rw [List.flatMap_nil, List.nil_append]
      cases fuel with
      | zero => rfl
      | succ fuel =>
          rw [all, htail]
          rfl
  | cons a l ih =>
      obtain ⟨hhead, hreads⟩ := List.forall_mem_cons.mp hread
      obtain ⟨hnonempty, hnes⟩ := List.forall_mem_cons.mp hne
      have hpos := List.length_pos_iff.mpr hnonempty
      rw [List.flatMap_cons, List.append_assoc] at hfuel ⊢
      rw [List.length_append] at hfuel
      obtain ⟨fuel, rfl⟩ : ∃ n, fuel = n + 1 := ⟨fuel - 1, by omega⟩
      rw [all, hhead]
      dsimp only
      rw [ih hreads hnes (by omega), List.map_cons]

end Reader

/-! ## Numbers -/

/-- The number with the digits, the least significant one first. -/
def Nat.ofLittleEndian (bytes : List UInt8) : ℕ := bytes.foldr (fun b acc => b.toNat + 256 * acc) 0

theorem Nat.ofLittleEndian_digits (width n : ℕ) :
    Nat.ofLittleEndian ((List.range width).map fun i => UInt8.ofNat (n / 256 ^ i))
      = n % 256 ^ width := by
  induction width generalizing n with
  | zero => simp [Nat.ofLittleEndian, Nat.mod_one]
  | succ width ih =>
      have hshift (i : ℕ) : n / 256 ^ (i + 1) = n / 256 / 256 ^ i := by
        rw [Nat.pow_succ', Nat.div_div_eq_div_mul]
      rw [List.range_succ_eq_map, List.map_cons, List.map_map]
      change (UInt8.ofNat (n / 256 ^ 0)).toNat
        + 256 * Nat.ofLittleEndian ((List.range width).map fun i => UInt8.ofNat (n / 256 ^ (i + 1)))
          = n % 256 ^ (width + 1)
      simp only [hshift]
      rw [ih, Nat.pow_zero, Nat.div_one, Nat.pow_succ', Nat.mod_mul]
      simp

theorem Nat.digits_reverse (width n : ℕ) :
    ((List.range width).map fun i => UInt8.ofNat (n / 256 ^ (width - 1 - i)))
      = ((List.range width).map fun i => UInt8.ofNat (n / 256 ^ i)).reverse := by
  refine List.ext_getElem (by simp) fun i hi _ => ?_
  simp at hi ⊢

theorem Nat.ofBigEndian_digits (width n : ℕ) :
    ((List.range width).map fun i => UInt8.ofNat (n / 256 ^ (width - 1 - i))).foldl
        (fun acc b => 256 * acc + b.toNat) 0
      = n % 256 ^ width := by
  rw [Nat.digits_reverse, List.foldl_reverse, ← Nat.ofLittleEndian_digits, Nat.ofLittleEndian]
  congr 1
  funext b acc
  rw [Nat.add_comm]

/-- The number with the digits, the most significant one first. -/
def Nat.ofBigEndian (bytes : List UInt8) : ℕ := bytes.foldl (fun acc b => 256 * acc + b.toNat) 0

def Nat.toBigEndian (width n : ℕ) : List UInt8 :=
  (List.range width).map fun i => UInt8.ofNat (n / 256 ^ (width - 1 - i))

@[simp] theorem Nat.length_toBigEndian (width n : ℕ) :
    (Nat.toBigEndian width n).length = width := by
  rw [Nat.toBigEndian, List.length_map, List.length_range]

theorem Nat.ofBigEndian_toBigEndian (width n : ℕ) :
    Nat.ofBigEndian (Nat.toBigEndian width n) = n % 256 ^ width :=
  Nat.ofBigEndian_digits width n

theorem Nat.ofBigEndian_concat (bytes : List UInt8) (b : UInt8) :
    Nat.ofBigEndian (bytes ++ [b]) = 256 * Nat.ofBigEndian bytes + b.toNat := by
  rw [Nat.ofBigEndian, List.foldl_append]
  rfl

theorem Nat.ofBigEndian_lt (bytes : List UInt8) :
    Nat.ofBigEndian bytes < 256 ^ bytes.length := by
  induction bytes using List.reverseRecOn with
  | nil => exact Nat.one_pos
  | append_singleton bytes b ih =>
      have hb := b.toNat_lt
      rw [Nat.ofBigEndian_concat, List.length_append, List.length_singleton, Nat.pow_succ]
      omega

theorem Nat.toBigEndian_ofBigEndian {width : ℕ} {bytes : List UInt8} (h : bytes.length = width) :
    Nat.toBigEndian width (Nat.ofBigEndian bytes) = bytes := by
  subst h
  induction bytes using List.reverseRecOn with
  | nil => rfl
  | append_singleton bytes b ih =>
      have hb := b.toNat_lt
      rw [Nat.ofBigEndian_concat, List.length_append, List.length_singleton, Nat.toBigEndian,
        List.range_succ, List.map_append, List.map_singleton]
      congr 1
      · refine Eq.trans (List.map_congr_left fun i hi => ?_) ih
        have hi := List.mem_range.mp hi
        rw [show bytes.length + 1 - 1 - i = bytes.length - 1 - i + 1 by omega, Nat.pow_succ',
          ← Nat.div_div_eq_div_mul]
        congr 2
        omega
      · rw [Nat.add_sub_cancel, Nat.sub_self, Nat.pow_zero, Nat.div_one, UInt8.ofNat_add,
          UInt8.ofNat_mul]
        simp
