import ArcVcs.Lib.Gregorian
import ArcVcs.Lib.SelfDelimiting
import ArcVcs.OpLogRuns
import Mathlib.Tactic.Ring

/-!
# The time of an operation

`formatted_time` and `days_to_ymd`. The cycles of 400, 100 and 4 years are counted from 1970, so a
date comes out right only if the leap days before it lie at the ends of those cycles.
-/

namespace ArcVcs.OpLog

open Gregorian Blocks

/-! ## The code -/

def splitYears (days : ℕ) : ℕ × ℕ :=
  let year400 := days / 146097
  let days := days % 146097
  let year100 := min (days / 36524) 3
  let days := days - year100 * 36524
  let year4 := days / 1461
  let days := days % 1461
  let year1 := min (days / 365) 3
  let days := days - year1 * 365
  (year400 * 400 + year100 * 100 + year4 * 4 + year1 + 1970, days)

/-- The loop over the lengths of the months. -/
def takeMonths : List ℕ → ℕ → ℕ → ℕ × ℕ
  | [], month, days => (month, days)
  | dim :: dims, month, days =>
      if days < dim then (month, days) else takeMonths dims (month + 1) (days - dim)

def daysToYmd (days : ℕ) : ℕ × ℕ × ℕ :=
  let (year, days) := splitYears days
  let leap := (year % 4 == 0 && year % 100 != 0) || year % 400 == 0
  let dims := [31, if leap then 29 else 28, 31, 30, 31, 30, 31, 31, 30, 31, 30, 31]
  let (month, days) := takeMonths dims 1 days
  (year, month, days + 1)

/-- A number in decimal, filled up with zeros to the width. -/
def zeroPadded (width n : ℕ) : String := .ofList ((Nat.toDigits 10 n).leftpad width '0')

/-- `YYYY-MM-DD HH:MM:SS`. -/
def timeText (year month day hour minute second : ℕ) : String :=
  zeroPadded 4 year ++ "-" ++ zeroPadded 2 month ++ "-" ++ zeroPadded 2 day ++ " "
    ++ zeroPadded 2 hour ++ ":" ++ zeroPadded 2 minute ++ ":" ++ zeroPadded 2 second

def Operation.formattedTime (op : Operation) : String :=
  let second := op.timestamp % 60
  let secs := op.timestamp / 60
  let minute := secs % 60
  let secs := secs / 60
  let hour := secs % 24
  let secs := secs / 24
  let (year, month, day) := daysToYmd secs
  timeText year month day hour minute second

/-! ## Statement -/

def text (t : DateTime) : String := timeText t.year t.month t.day t.hour t.minute t.second

/-- The leap days before the date lie where the cycles from 1970 have them. -/
def FitsCycles (date : Date) : Prop :=
  date.year % 4 ≠ 1 ∧ ¬ (date.year % 4 = 0 ∧ date.month = 12 ∧ date.day = 31)
    ∧ ((date.year - 1970) % 400 < 100 ∨ 32 ≤ (date.year - 1970) % 100)

/-! ## Years -/

theorem start_yearLengths (n : ℕ) :
    start yearLengths n + (n + 69) / 100 = 365 * n + (n + 1) / 4 + (n + 369) / 400 := by
  induction n with
  | zero => rfl
  | succ n ih =>
      rw [start_succ, yearLengths, yearLength]
      split_ifs with hleap
      · obtain ⟨hfour, hcentury⟩ := hleap
        omega
      · rw [IsLeap, not_and_or, not_or, not_not] at hleap
        rcases hleap with hfour | ⟨hcentury, hcycle⟩
        · have hstep : (n + 1 + 1) / 4 = (n + 1) / 4 := by omega
          have hstep' : (n + 1 + 69) / 100 = (n + 69) / 100 := by omega
          have hstep'' : (n + 1 + 369) / 400 = (n + 369) / 400 := by omega
          rw [hstep, hstep', hstep'']
          omega
        · omega

/-- A year with its place in the cycles of 400, 100 and 4 years from 1970. -/
def cycleYear (q c f u : ℕ) : ℕ := 400 * q + 100 * c + 4 * f + u

/-- The days that the cycles of the code count before the year. -/
def cycleDays (q c f u : ℕ) : ℕ := 146097 * q + 36524 * c + 1461 * f + 365 * u

/-- The leap days before the year that the cycles of the code count later. -/
def lateDays (c f u : ℕ) : ℕ := (if u = 3 then 1 else 0) + if c ≠ 0 ∧ 4 * f + u < 31 then 1 else 0

section Cycles

variable {q c f u rest : ℕ}

theorem lateDays_eq_zero_iff (hu : u < 4) :
    lateDays c f u = 0 ↔ u ≠ 3 ∧ (c = 0 ∨ 32 ≤ 4 * f + u) := by
  by_cases hlast : u = 3
  · simp [lateDays, hlast]
  · by_cases hcentury : c ≠ 0 ∧ 4 * f + u < 31
    · simp only [lateDays, if_pos hcentury]
      omega
    · simp only [lateDays, if_neg hlast, if_neg hcentury]
      refine iff_of_true trivial ⟨hlast, ?_⟩
      omega

theorem start_cycleYear (hc : c < 4) (hf : f < 25) (hu : u < 4) :
    start yearLengths (cycleYear q c f u) = cycleDays q c f u + lateDays c f u := by
  have hstart := start_yearLengths (cycleYear q c f u)
  have hfour : (cycleYear q c f u + 1) / 4 = 100 * q + 25 * c + f + (u + 1) / 4 := by
    rw [cycleYear]
    omega
  have hcentury : (cycleYear q c f u + 69) / 100 = 4 * q + c + (4 * f + u + 69) / 100 := by
    rw [cycleYear]
    omega
  have hcycle : (cycleYear q c f u + 369) / 400 = q + (100 * c + 4 * f + u + 369) / 400 := by
    rw [cycleYear]
    omega
  rw [hfour, hcentury, hcycle, cycleYear] at hstart
  rw [cycleYear, cycleDays, lateDays]
  split_ifs <;> omega

theorem cycleYear_inj {q' c' f' u' : ℕ} (hc : c < 4) (hf : f < 25) (hu : u < 4) (hc' : c' < 4)
    (hf' : f' < 25) (hu' : u' < 4) (h : cycleYear q c f u = cycleYear q' c' f' u') :
    q = q' ∧ c = c' ∧ f = f' ∧ u = u' := by
  simp only [cycleYear] at h
  obtain rfl : q = q' := by omega
  obtain rfl : c = c' := by omega
  obtain rfl : f = f' := by omega
  exact ⟨rfl, rfl, rfl, by omega⟩

theorem exists_cycleDays (days : ℕ) :
    ∃ q c f u rest, (c < 4 ∧ f < 25 ∧ u < 4) ∧ days = cycleDays q c f u + rest
      ∧ splitYears days = (1970 + cycleYear q c f u, rest) ∧ (u < 3 → rest < 365) := by
  obtain ⟨c, hc⟩ : ∃ c, c = min (days % 146097 / 36524) 3 := ⟨_, rfl⟩
  obtain ⟨r₁, hr₁⟩ : ∃ r₁, r₁ = days % 146097 - c * 36524 := ⟨_, rfl⟩
  obtain ⟨u, hu⟩ : ∃ u, u = min (r₁ % 1461 / 365) 3 := ⟨_, rfl⟩
  have hr₁' : r₁ ≤ 36524 := by omega
  refine ⟨days / 146097, c, r₁ / 1461, u, r₁ % 1461 - u * 365, ⟨?_, ?_, ?_⟩, ?_, ?_, ?_⟩
  · omega
  · omega
  · omega
  · rw [cycleDays]
    omega
  · simp only [splitYears, ← hc, ← hr₁, ← hu, cycleYear, Prod.mk.injEq]
    exact ⟨by ring, trivial⟩
  · omega

theorem splitYears_cycleDays (hc : c < 4) (hf : f < 25) (hu : u < 4) (hyear : 365 * u + rest < 1461)
    (hrest : u < 3 → rest < 365) (hcycle : f = 24 → u = 3 → rest < 365) :
    splitYears (cycleDays q c f u + rest) = (1970 + cycleYear q c f u, rest) := by
  obtain ⟨days, hdays⟩ : ∃ days, days = cycleDays q c f u + rest := ⟨_, rfl⟩
  rw [← hdays]
  rw [cycleDays] at hdays
  have hq : days / 146097 = q := by omega
  have hc' : min (days % 146097 / 36524) 3 = c := by omega
  have hr₁ : days % 146097 - c * 36524 = 1461 * f + 365 * u + rest := by omega
  have hf' : (1461 * f + 365 * u + rest) / 1461 = f := by omega
  have hr₂ : (1461 * f + 365 * u + rest) % 1461 = 365 * u + rest := by omega
  have hu' : min ((365 * u + rest) / 365) 3 = u := by omega
  simp only [splitYears, hq, hc', hr₁, hf', hr₂, hu', cycleYear, Prod.mk.injEq]
  omega

theorem splitYears_start_iff (hc : c < 4) (hf : f < 25) (hu : u < 4)
    (hrest : rest < yearLengths (cycleYear q c f u)) :
    splitYears (start yearLengths (cycleYear q c f u) + rest)
        = (1970 + cycleYear q c f u, rest) ↔
      lateDays c f u = 0 ∧ (u < 3 → rest < 365) := by
  have hlength : yearLengths (cycleYear q c f u) ≤ 366 := by
    rw [yearLengths, yearLength]
    split_ifs <;> omega
  rw [start_cycleYear hc hf hu]
  constructor
  · intro h
    obtain ⟨q', c', f', u', rest', ⟨hc', hf', hu'⟩, hdays, hsplit, hrest'⟩ :=
      exists_cycleDays (cycleDays q c f u + lateDays c f u + rest)
    obtain ⟨hyear, rfl⟩ := Prod.mk.inj (h.symm.trans hsplit)
    obtain ⟨rfl, rfl, rfl, rfl⟩ :=
      cycleYear_inj hc hf hu hc' hf' hu' (Nat.add_left_cancel hyear)
    exact ⟨by omega, hrest'⟩
  · rintro ⟨hlate, hrest'⟩
    have hu' : u ≠ 3 := by
      rintro rfl
      simp [lateDays] at hlate
    rw [hlate, Nat.add_zero]
    exact splitYears_cycleDays hc hf hu (by omega) hrest' fun _ hu => absurd hu hu'

end Cycles

theorem exists_cycleYear (n : ℕ) :
    ∃ q c f u, (c < 4 ∧ f < 25 ∧ u < 4) ∧ n = cycleYear q c f u := by
  refine ⟨n / 400, n % 400 / 100, n % 100 / 4, n % 4, ⟨?_, ?_, ?_⟩, ?_⟩
  · omega
  · omega
  · omega
  · rw [cycleYear]
    omega

theorem splitYears_eq_iff {n rest : ℕ} (hrest : rest < yearLengths n) :
    splitYears (start yearLengths n + rest) = (1970 + n, rest) ↔
      n % 4 ≠ 3 ∧ ¬ (n % 4 = 2 ∧ rest + 1 = yearLengths n) ∧ (n % 400 < 100 ∨ 32 ≤ n % 100) := by
  obtain ⟨q, c, f, u, ⟨hc, hf, hu⟩, rfl⟩ := exists_cycleYear n
  rw [splitYears_start_iff hc hf hu hrest]
  have hu' : cycleYear q c f u % 4 = u := by rw [cycleYear]; omega
  have hfu : cycleYear q c f u % 100 = 4 * f + u := by rw [cycleYear]; omega
  have hcfu : cycleYear q c f u % 400 = 100 * c + 4 * f + u := by rw [cycleYear]; omega
  have hlength : yearLengths (cycleYear q c f u) =
      if u = 2 ∧ (c = 0 ∨ 30 ≠ 4 * f + u) then 366 else 365 := by
    rw [yearLengths, yearLength, cycleYear]
    refine if_congr ?_ rfl rfl
    rw [IsLeap]
    omega
  rw [lateDays_eq_zero_iff hu, hu', hfu, hcfu]
  rw [hlength] at hrest ⊢
  split_ifs at hrest ⊢ <;> omega

/-! ## Months -/

theorem takeMonths_spec (dims : List ℕ) (month days : ℕ) :
    ∃ k rest, takeMonths dims month days = (month + k, rest) ∧ (dims.take k).sum + rest = days
      ∧ (k = dims.length ∨ ∃ dim, dims[k]? = some dim ∧ rest < dim) := by
  induction dims generalizing month days with
  | nil => exact ⟨0, days, rfl, Nat.zero_add _, .inl rfl⟩
  | cons dim dims ih =>
      rw [takeMonths]
      split_ifs with hdim
      · exact ⟨0, days, rfl, Nat.zero_add _, .inr ⟨dim, rfl, hdim⟩⟩
      · obtain ⟨k, rest, htake, hsum, hend⟩ := ih (month + 1) (days - dim)
        refine ⟨k + 1, rest, by rw [htake, Nat.add_right_comm, Nat.add_assoc], ?_, ?_⟩
        · rw [List.take_succ_cons, List.sum_cons, Nat.add_assoc, hsum]
          exact Nat.add_sub_cancel' (Nat.not_lt.mp hdim)
        · rcases hend with rfl | hend
          · exact .inl rfl
          · exact .inr hend

/-- The lengths that the code has for a year. -/
def monthDims (year : ℕ) : List ℕ := (List.range 12).map (monthLengths year)

theorem daysToYmd_eq (days : ℕ) :
    daysToYmd days = ((splitYears days).1,
      (takeMonths (monthDims (splitYears days).1) 1 (splitYears days).2).1,
      (takeMonths (monthDims (splitYears days).1) 1 (splitYears days).2).2 + 1) := by
  have hdims : ∀ year, monthDims year = [31, if (year % 4 == 0 && year % 100 != 0) ||
      year % 400 == 0 then 29 else 28, 31, 30, 31, 30, 31, 31, 30, 31, 30, 31] := by
    intro year
    have hleap : IsLeap year ↔
        ((year % 4 == 0 && year % 100 != 0) || year % 400 == 0) = true := by
      simp only [IsLeap, Bool.or_eq_true, Bool.and_eq_true, beq_iff_eq, bne_iff_ne]
      omega
    simp [monthDims, List.range_succ, monthLengths, monthLength, hleap]
  rw [hdims]
  rfl

theorem sum_take_monthDims (year : ℕ) {k : ℕ} (hk : k ≤ 12) :
    ((monthDims year).take k).sum = start (monthLengths year) k := by
  rw [monthDims, ← List.map_take, List.take_range, min_eq_left hk]
  rfl

theorem daysToYmd_eq_iff (date : Date) (days : ℕ) :
    daysToYmd days = (date.year, date.month, date.day) ↔
      splitYears days = (date.year, date.dayOfYear) := by
  obtain ⟨⟨year, rest⟩, hsplit⟩ : ∃ p, splitYears days = p := ⟨_, rfl⟩
  obtain ⟨k, left, htake, hsum, hend⟩ := takeMonths_spec (monthDims year) 1 rest
  have hmonth := Finset.mem_Icc.mp date.month_mem
  have hday := Finset.mem_Icc.mp date.day_mem
  have hk : k ≤ 12 := by
    rcases hend with rfl | ⟨dim, hdim, -⟩
    · exact le_rfl
    · exact (List.getElem?_eq_some_iff.mp hdim).1.le
  rw [sum_take_monthDims year hk] at hsum
  rw [daysToYmd_eq, hsplit, htake]
  simp only [Prod.mk.injEq]
  constructor
  · rintro ⟨rfl, hk', hleft⟩
    refine ⟨rfl, ?_⟩
    rw [← hsum, Date.dayOfYear, ← hk', ← hleft, Nat.add_sub_cancel_left, Nat.add_sub_cancel]
  · rintro ⟨rfl, rfl⟩
    have hplace : HasPlace (monthLengths date.year) date.dayOfYear k left := by
      refine ⟨?_, hsum⟩
      rcases hend with rfl | ⟨dim, hdim, hleft⟩
      · -- All months together are longer than the days of the year before the date.
        have hlt := date.dayOfYear_lt
        rw [← start_monthLengths_twelve, ← hsum] at hlt
        exact absurd hlt (Nat.not_lt.mpr (Nat.le_add_right _ _))
      · obtain ⟨hlt, rfl⟩ := List.getElem?_eq_some_iff.mp hdim
        simpa [monthDims] using hleft
    obtain ⟨rfl, rfl⟩ := hplace.unique date.month_hasPlace
    exact ⟨rfl, Nat.add_sub_cancel' hmonth.1, Nat.sub_add_cancel hday.1⟩

theorem dayOfYear_add_one_eq_iff (date : Date) :
    date.dayOfYear + 1 = yearLength date.year ↔ date.month = 12 ∧ date.day = 31 := by
  have hlast : start (monthLengths date.year) 11 + 31 = yearLength date.year := by
    have hdecember : monthLengths date.year 11 = 31 := by simp [monthLengths, monthLength]
    rw [← start_monthLengths_twelve, ← hdecember]
    exact (start_succ _ 11).symm
  have hmonth := Finset.mem_Icc.mp date.month_mem
  have hday := Finset.mem_Icc.mp date.day_mem
  constructor
  · intro h
    have hplace : HasPlace (monthLengths date.year) date.dayOfYear 11 30 := by
      refine ⟨?_, by omega⟩
      simp [monthLengths, monthLength]
    obtain ⟨hm, hd⟩ := date.month_hasPlace.unique hplace
    omega
  · rintro ⟨hm, hd⟩
    rw [Date.dayOfYear, hm, hd, ← hlast]

/-- **The code computes a date** if and only if the leap days before it fit the cycles. -/
theorem daysToYmd_dayNumber_iff (date : Date) :
    daysToYmd date.dayNumber = (date.year, date.month, date.day) ↔ FitsCycles date := by
  have hepoch := date.epoch_le_year
  have hyear : 1970 + (date.year - 1970) = date.year := Nat.add_sub_cancel' hepoch
  have hplace := date.year_hasPlace
  have hlength : yearLengths (date.year - 1970) = yearLength date.year := by
    rw [yearLengths, hyear]
  have hsplit := splitYears_eq_iff hplace.lt
  rw [hyear, hlength, dayOfYear_add_one_eq_iff] at hsplit
  rw [daysToYmd_eq_iff, Date.dayNumber, hsplit, FitsCycles]
  have hfour : (date.year - 1970) % 4 = 3 ↔ date.year % 4 = 1 := by omega
  have hfour' : (date.year - 1970) % 4 = 2 ↔ date.year % 4 = 0 := by omega
  rw [ne_eq, hfour, hfour']

/-! ## The text -/

theorem isDigit_of_mem_zeroPadded {width n : ℕ} {c : Char} (h : c ∈ (zeroPadded width n).toList) :
    c.isDigit = true := by
  rw [zeroPadded, String.toList_ofList, List.leftpad, List.mem_append] at h
  rcases h with h | h
  · rw [List.eq_of_mem_replicate h]
    rfl
  · exact Nat.isDigit_of_mem_toDigits (by decide) (by decide) h

theorem zeroPadded_injective (width : ℕ) : Function.Injective (zeroPadded width) := by
  intro m n h
  have hvalue : ∀ k, Nat.ofDigitChars 10 (zeroPadded width k).toList 0 = k := by
    intro k
    rw [zeroPadded, String.toList_ofList, List.leftpad, Nat.ofDigitChars_append,
      Nat.ofDigitChars_replicate_zero, Nat.mul_zero]
    exact Nat.ofDigitChars_ten_toDigits
  rw [← hvalue m, h, hvalue]

theorem selfDelimiting_zeroPadded (width : ℕ) {sep : Char} (hsep : sep.isDigit = false) :
    SelfDelimiting (fun n => (zeroPadded width n).toList ++ [sep]) fun _ => True := by
  refine .terminated (fun m _ n _ h => ?_) fun n _ hmem => ?_
  · exact zeroPadded_injective width (String.toList_injective h)
  · rw [isDigit_of_mem_zeroPadded hmem] at hsep
    exact Bool.noConfusion hsep

theorem timeText_inj {year month day year' month' day' hour minute second : ℕ}
    (h : timeText year month day hour minute second =
      timeText year' month' day' hour minute second) :
    (year, month, day) = (year', month', day') := by
  have hdash : "-".toList = ['-'] := by simp
  have hblank : " ".toList = [' '] := by simp
  have hchars := congrArg String.toList h
  simp only [timeText, String.toList_append, hdash, hblank, List.append_assoc] at hchars
  simp only [← List.append_assoc _ ['-'], ← List.append_assoc _ [' ']] at hchars
  obtain ⟨rfl, hrest⟩ :=
    selfDelimiting_zeroPadded 4 (by decide) year year' _ _ trivial trivial hchars
  obtain ⟨rfl, hrest'⟩ :=
    selfDelimiting_zeroPadded 2 (by decide) month month' _ _ trivial trivial hrest
  obtain ⟨rfl, -⟩ :=
    selfDelimiting_zeroPadded 2 (by decide) day day' _ _ trivial trivial hrest'
  rfl

/-! ## Main result -/

theorem formattedTime_seconds (op : Operation) (t : DateTime) (h : op.timestamp = t.seconds) :
    op.formattedTime = timeText (daysToYmd t.dayNumber).1 (daysToYmd t.dayNumber).2.1
      (daysToYmd t.dayNumber).2.2 t.hour t.minute t.second := by
  have hhour := t.hour_lt
  have hminute := t.minute_lt
  have hsecond := t.second_lt
  rw [DateTime.seconds] at h
  have h₁ : op.timestamp % 60 = t.second := by omega
  have h₂ : op.timestamp / 60 % 60 = t.minute := by omega
  have h₃ : op.timestamp / 60 / 60 % 24 = t.hour := by omega
  have h₄ : op.timestamp / 60 / 60 / 24 = t.dayNumber := by omega
  rw [Operation.formattedTime, h₁, h₂, h₃, h₄]

/-- **The printed time is right** if and only if its date fits the cycles that the code counts. -/
theorem formattedTime_eq_iff (op : Operation) :
    op.formattedTime = text (DateTime.ofSeconds op.timestamp) ↔
      FitsCycles (DateTime.ofSeconds op.timestamp).toDate := by
  have hsecs := (DateTime.seconds_ofSeconds op.timestamp).symm
  rw [← daysToYmd_dayNumber_iff, formattedTime_seconds op _ hsecs, text]
  constructor
  · intro h
    exact timeText_inj h
  · intro h
    rw [h]

/-- The last day of 1973. -/
theorem last_day_of_1973_has_month_13 :
    (sampleOperation 126144000).formattedTime = "1973-13-01 00:00:00"
      ∧ text (DateTime.ofSeconds (sampleOperation 126144000).timestamp)
        = "1973-12-31 00:00:00" := by
  constructor
  · decide
  · let t : DateTime := ⟨⟨1973, 12, 31, by decide, by decide, by decide⟩, 0, 0, 0, by decide,
      by decide, by decide⟩
    have ht : (sampleOperation 126144000).timestamp = t.seconds := by decide
    rw [ht, DateTime.ofSeconds_seconds]
    decide

end ArcVcs.OpLog
