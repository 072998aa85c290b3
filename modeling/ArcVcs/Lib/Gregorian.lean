import Mathlib.Algebra.BigOperators.Group.Finset.Basic
import Mathlib.Algebra.Order.BigOperators.Group.Finset
import Mathlib.Logic.Equiv.Basic
import Mathlib.Order.Interval.Finset.Nat

/-!
# The proleptic Gregorian calendar

Blocks of any lengths one after the other, and the calendar from 1970 on as years in which months
lie in which days lie. Every number of seconds is one date and time.
-/

namespace Blocks

variable {len : ℕ → ℕ} {n i j r r' k : ℕ}

def start (len : ℕ → ℕ) (i : ℕ) : ℕ := ∑ j ∈ Finset.range i, len j

/-- The place `n` is in the block `i`, after `r` others. -/
structure HasPlace (len : ℕ → ℕ) (n i r : ℕ) : Prop where
  lt : r < len i
  eq : start len i + r = n

theorem start_succ (len : ℕ → ℕ) (i : ℕ) : start len (i + 1) = start len i + len i :=
  Finset.sum_range_succ len i

theorem start_mono (len : ℕ → ℕ) : Monotone (start len) :=
  monotone_nat_of_le_succ fun i => by
    rw [start_succ]
    exact Nat.le_add_right _ _

theorem HasPlace.lt_start_succ (h : HasPlace len n i r) : n < start len (i + 1) := by
  rw [start_succ, ← h.eq]
  exact Nat.add_lt_add_left h.lt _

theorem HasPlace.le_of_lt_start (h : HasPlace len n i r) (hn : n < start len k) : i < k := by
  by_contra! hk
  have hle := start_mono len hk
  have heq := h.eq
  omega

theorem HasPlace.unique (h : HasPlace len n i r) (h' : HasPlace len n j r') :
    i = j ∧ r = r' := by
  obtain rfl : i = j := le_antisymm (Nat.lt_succ_iff.mp (h.le_of_lt_start h'.lt_start_succ))
    (Nat.lt_succ_iff.mp (h'.le_of_lt_start h.lt_start_succ))
  exact ⟨rfl, Nat.add_left_cancel (h.eq.trans h'.eq.symm)⟩

theorem exists_hasPlace (hpos : ∀ i, 0 < len i) (n : ℕ) : ∃ i r, HasPlace len n i r := by
  induction n with
  | zero => exact ⟨0, 0, hpos 0, rfl⟩
  | succ n ih =>
      obtain ⟨i, r, hr, hn⟩ := ih
      by_cases hlast : r + 1 < len i
      · exact ⟨i, r + 1, hlast, by rw [← hn, Nat.add_assoc]⟩
      · refine ⟨i + 1, 0, hpos _, ?_⟩
        rw [start_succ]
        omega

end Blocks

namespace Gregorian

open Blocks

def IsLeap (year : ℕ) : Prop := year % 4 = 0 ∧ (year % 100 ≠ 0 ∨ year % 400 = 0)

instance (year : ℕ) : Decidable (IsLeap year) := inferInstanceAs (Decidable (_ ∧ _))

def yearLength (year : ℕ) : ℕ := if IsLeap year then 366 else 365

def monthLength (year month : ℕ) : ℕ :=
  if month = 2 then if IsLeap year then 29 else 28
  else if month ∈ [4, 6, 9, 11] then 30 else 31

def yearLengths (i : ℕ) : ℕ := yearLength (1970 + i)

def monthLengths (year i : ℕ) : ℕ := monthLength year (i + 1)

theorem yearLengths_pos (i : ℕ) : 0 < yearLengths i := by
  rw [yearLengths, yearLength]
  split_ifs <;> decide

theorem monthLengths_pos (year i : ℕ) : 0 < monthLengths year i := by
  rw [monthLengths, monthLength]
  split_ifs <;> decide

theorem start_monthLengths_twelve (year : ℕ) :
    start (monthLengths year) 12 = yearLength year := by
  rw [yearLength]
  split_ifs with hleap <;> simp [start, monthLengths, monthLength, Finset.sum_range_succ, hleap]

/-- A date from 1970 on. -/
@[ext] structure Date where
  year : ℕ
  month : ℕ
  day : ℕ
  epoch_le_year : 1970 ≤ year
  month_mem : month ∈ Finset.Icc 1 12
  day_mem : day ∈ Finset.Icc 1 (monthLength year month)

namespace Date

def dayOfYear (date : Date) : ℕ :=
  start (monthLengths date.year) (date.month - 1) + (date.day - 1)

def dayNumber (date : Date) : ℕ := start yearLengths (date.year - 1970) + date.dayOfYear

variable (date : Date)

theorem month_hasPlace :
    HasPlace (monthLengths date.year) date.dayOfYear (date.month - 1) (date.day - 1) := by
  refine ⟨?_, rfl⟩
  have hmonth := Finset.mem_Icc.mp date.month_mem
  have hday := Finset.mem_Icc.mp date.day_mem
  rw [monthLengths, Nat.sub_add_cancel hmonth.1]
  omega

theorem dayOfYear_lt : date.dayOfYear < yearLength date.year := by
  have hmonth := Finset.mem_Icc.mp date.month_mem
  rw [← start_monthLengths_twelve]
  exact date.month_hasPlace.lt_start_succ.trans_le (start_mono _ (by omega))

theorem year_hasPlace :
    HasPlace yearLengths date.dayNumber (date.year - 1970) date.dayOfYear := by
  refine ⟨?_, rfl⟩
  rw [yearLengths, Nat.add_sub_cancel' date.epoch_le_year]
  exact date.dayOfYear_lt

theorem dayNumber_injective : Function.Injective dayNumber := by
  intro a b hab
  have hplace := b.year_hasPlace
  rw [← hab] at hplace
  obtain ⟨hyear, hrest⟩ := a.year_hasPlace.unique hplace
  have ha := a.epoch_le_year
  have hb := b.epoch_le_year
  have hyear' : a.year = b.year := by omega
  have hplace' := a.month_hasPlace
  rw [hyear', hrest] at hplace'
  obtain ⟨hmonth, hday⟩ := hplace'.unique b.month_hasPlace
  have ham := Finset.mem_Icc.mp a.month_mem
  have hbm := Finset.mem_Icc.mp b.month_mem
  have had := Finset.mem_Icc.mp a.day_mem
  have hbd := Finset.mem_Icc.mp b.day_mem
  exact Date.ext hyear' (by omega) (by omega)

theorem dayNumber_surjective : Function.Surjective dayNumber := by
  intro n
  obtain ⟨i, rest, hyear⟩ := exists_hasPlace yearLengths_pos n
  obtain ⟨j, r, hmonth⟩ := exists_hasPlace (monthLengths_pos (1970 + i)) rest
  have hj : j < 12 := by
    refine hmonth.le_of_lt_start ?_
    rw [start_monthLengths_twelve]
    exact hyear.lt
  have hday := hmonth.lt
  rw [monthLengths] at hday
  refine ⟨⟨1970 + i, j + 1, r + 1, Nat.le_add_right _ _, Finset.mem_Icc.mpr ⟨by omega, by omega⟩,
    Finset.mem_Icc.mpr ⟨by omega, by omega⟩⟩, ?_⟩
  rw [dayNumber, dayOfYear, ← hyear.eq, ← hmonth.eq]
  simp

end Date

/-- A date and a time of day, in seconds. -/
@[ext] structure DateTime extends Date where
  hour : ℕ
  minute : ℕ
  second : ℕ
  hour_lt : hour < 24
  minute_lt : minute < 60
  second_lt : second < 60

namespace DateTime

def seconds (t : DateTime) : ℕ := ((t.dayNumber * 24 + t.hour) * 60 + t.minute) * 60 + t.second

theorem seconds_injective : Function.Injective seconds := by
  intro a b hab
  simp only [seconds] at hab
  have ha := a.hour_lt
  have hb := b.hour_lt
  have ha' := a.minute_lt
  have hb' := b.minute_lt
  have ha'' := a.second_lt
  have hb'' := b.second_lt
  have hday : a.toDate = b.toDate := Date.dayNumber_injective (by omega)
  exact DateTime.ext (congrArg _ hday) (congrArg _ hday) (congrArg _ hday) (by omega) (by omega)
    (by omega)

theorem seconds_surjective : Function.Surjective seconds := by
  intro n
  obtain ⟨date, hdate⟩ := Date.dayNumber_surjective (n / 60 / 60 / 24)
  refine ⟨⟨date, n / 60 / 60 % 24, n / 60 % 60, n % 60, Nat.mod_lt _ (by decide),
    Nat.mod_lt _ (by decide), Nat.mod_lt _ (by decide)⟩, ?_⟩
  simp only [seconds, hdate]
  omega

/-- **The date and time of an instant**, given in seconds. -/
noncomputable def ofSeconds : ℕ ≃ DateTime :=
  (Equiv.ofBijective seconds ⟨seconds_injective, seconds_surjective⟩).symm

@[simp] theorem seconds_ofSeconds (n : ℕ) : (ofSeconds n).seconds = n :=
  ofSeconds.symm_apply_apply n

@[simp] theorem ofSeconds_seconds (t : DateTime) : ofSeconds t.seconds = t :=
  ofSeconds.apply_symm_apply t

end DateTime

end Gregorian
