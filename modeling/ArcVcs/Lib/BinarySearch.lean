import Mathlib.Data.List.Basic
import Mathlib.Order.Compare
import Mathlib.Order.Lattice
import Mathlib.Order.Monotone.Basic

/-!
# Binary search

The search for a position between two bounds. A pivot may be chosen in any way that stays between
the bounds, and the choice as well as the probe at the pivot may fail.
-/

namespace BinarySearch

variable {α ε : Type*} [LinearOrder α] {pivot : ℕ → ℕ → Except ε ℕ} {probe : ℕ → Option Ordering}
  {key : ℕ → α} {target : α} {fuel lower upper i : ℕ}

/-- The loop. The probe says how the target compares to the key at a position. A position is found,
or none is when a probe fails or the bounds meet. The bounds approach each other in every round, so
their distance is enough fuel. -/
def search (pivot : ℕ → ℕ → Except ε ℕ) (probe : ℕ → Option Ordering) :
    ℕ → ℕ → ℕ → Except ε (Option ℕ)
  | 0, _, _ => .ok none
  | fuel + 1, lower, upper =>
      if lower < upper then
        match pivot lower upper with
        | .error e => .error e
        | .ok mid =>
            match probe mid with
            | none => .ok none
            | some .lt => search pivot probe fuel lower mid
            | some .eq => .ok (some mid)
            | some .gt => search pivot probe fuel (mid + 1) upper
      else .ok none

/-- Between the bounds the pivots are between their bounds, and the probes compare the target to
increasing keys. -/
structure Searchable (pivot : ℕ → ℕ → Except ε ℕ) (probe : ℕ → Option Ordering) (key : ℕ → α)
    (target : α) (lower upper : ℕ) : Prop where
  pivot : ∀ l u, lower ≤ l → l < u → u ≤ upper → ∃ mid, pivot l u = .ok mid ∧ l ≤ mid ∧ mid < u
  probe : ∀ mid, lower ≤ mid → mid < upper → probe mid = some (cmp target (key mid))
  increasing : ∀ i j, lower ≤ i → i < j → j < upper → key i < key j

theorem Searchable.mono (h : Searchable pivot probe key target lower upper) {l u : ℕ}
    (hl : lower ≤ l) (hu : u ≤ upper) : Searchable pivot probe key target l u where
  pivot l' u' hl' hlu hu' := h.pivot l' u' (hl.trans hl') hlu (hu'.trans hu)
  probe mid hl' hu' := h.probe mid (hl.trans hl') (hu'.trans_le hu)
  increasing i j hi hij hj := h.increasing i j (hl.trans hi) hij (hj.trans_le hu)

theorem Searchable.search_succ (h : Searchable pivot probe key target lower upper) (fuel : ℕ)
    (hlt : lower < upper) : ∃ mid, lower ≤ mid ∧ mid < upper
      ∧ search pivot probe (fuel + 1) lower upper
        = if target < key mid then search pivot probe fuel lower mid
          else if key mid < target then search pivot probe fuel (mid + 1) upper
          else .ok (some mid) := by
  obtain ⟨mid, hmid, hl, hu⟩ := h.pivot lower upper le_rfl hlt le_rfl
  refine ⟨mid, hl, hu, ?_⟩
  rw [search, if_pos hlt, hmid]
  dsimp only
  rw [h.probe mid hl hu]
  rcases lt_trichotomy target (key mid) with hcmp | hcmp | hcmp
  · rw [cmp_eq_lt_iff _ _ |>.mpr hcmp, if_pos hcmp]
  · rw [cmp_eq_eq_iff _ _ |>.mpr hcmp, if_neg (by rw [hcmp]; exact lt_irrefl _),
      if_neg (by rw [hcmp]; exact lt_irrefl _)]
  · rw [cmp_eq_gt_iff _ _ |>.mpr hcmp, if_neg hcmp.not_gt, if_pos hcmp]

/-- **The position of the target is found.** -/
theorem Searchable.search_eq_some (h : Searchable pivot probe key target lower upper)
    (hfuel : upper - lower ≤ fuel) (hl : lower ≤ i) (hu : i < upper) (hkey : key i = target) :
    search pivot probe fuel lower upper = .ok (some i) := by
  induction fuel generalizing lower upper with
  | zero => omega
  | succ fuel ih =>
      obtain ⟨mid, hmidl, hmidu, hround⟩ := h.search_succ fuel (hl.trans_lt hu)
      rw [hround]
      rcases lt_trichotomy i mid with hcmp | rfl | hcmp
      · have hlt : target < key mid := hkey ▸ h.increasing i mid hl hcmp hmidu
        rw [if_pos hlt]
        exact ih (h.mono le_rfl hmidu.le) (by omega) hl hcmp
      · rw [if_neg (by rw [hkey]; exact lt_irrefl _), if_neg (by rw [hkey]; exact lt_irrefl _)]
      · have hlt : key mid < target := hkey ▸ h.increasing mid i hmidl hcmp hu
        rw [if_neg hlt.not_gt, if_pos hlt]
        exact ih (h.mono (by omega) le_rfl) (by omega) hcmp hu

/-- **A target without a position is not found.** -/
theorem Searchable.search_eq_none (h : Searchable pivot probe key target lower upper)
    (hnone : ∀ i, lower ≤ i → i < upper → key i ≠ target) :
    search pivot probe fuel lower upper = .ok none := by
  induction fuel generalizing lower upper with
  | zero => rfl
  | succ fuel ih =>
      by_cases hlt : lower < upper
      · obtain ⟨mid, hmidl, hmidu, hround⟩ := h.search_succ fuel hlt
        rw [hround]
        rcases lt_or_gt_of_ne (hnone mid hmidl hmidu) with hcmp | hcmp
        · rw [if_neg hcmp.not_gt, if_pos hcmp]
          exact ih (h.mono (by omega) le_rfl) fun i hi hi' => hnone i (by omega) hi'
        · rw [if_pos hcmp]
          exact ih (h.mono le_rfl hmidu.le) fun i hi hi' => hnone i hi (by omega)
      · rw [search, if_neg hlt]

/-! ## Searches that fail -/

/-- The bounds that a search comes to, from the bounds it starts with. -/
inductive Visits (pivot : ℕ → ℕ → Except ε ℕ) (probe : ℕ → Option Ordering) :
    ℕ → ℕ → ℕ → ℕ → Prop
  | start (l u : ℕ) : Visits pivot probe l u l u
  | left {lower upper mid l u : ℕ} (lt : lower < upper) (pivot_eq : pivot lower upper = .ok mid)
      (probe_eq : probe mid = some .lt) (rest : Visits pivot probe lower mid l u) :
      Visits pivot probe lower upper l u
  | right {lower upper mid l u : ℕ} (lt : lower < upper) (pivot_eq : pivot lower upper = .ok mid)
      (probe_eq : probe mid = some .gt) (rest : Visits pivot probe (mid + 1) upper l u) :
      Visits pivot probe lower upper l u

theorem Visits.le_upper {l u : ℕ}
    (hpivot : ∀ l u mid, l < u → pivot l u = .ok mid → l ≤ mid ∧ mid < u)
    (h : Visits pivot probe lower upper l u) : u ≤ upper := by
  induction h with
  | start => exact le_rfl
  | left lt pivot_eq _ _ ih => exact ih.trans (hpivot _ _ _ lt pivot_eq).2.le
  | right _ _ _ _ ih => exact ih

/-- **A search fails exactly where it comes to bounds without a pivot.** -/
theorem search_eq_error_iff {e : ε}
    (hpivot : ∀ l u mid, l < u → pivot l u = .ok mid → l ≤ mid ∧ mid < u)
    (hfuel : upper - lower ≤ fuel) : search pivot probe fuel lower upper = .error e
      ↔ ∃ l u, Visits pivot probe lower upper l u ∧ l < u ∧ pivot l u = .error e := by
  induction fuel generalizing lower upper with
  | zero =>
      refine iff_of_false (by simp [search]) ?_
      rintro ⟨l, u, hvisits, hlu, -⟩
      cases hvisits with
      | start => omega
      | left lt | right lt => omega
  | succ fuel ih =>
      rw [search]
      by_cases hlt : lower < upper
      · rw [if_pos hlt]
        cases hmid : pivot lower upper with
        | error e' =>
            dsimp only
            constructor
            · rintro ⟨⟩
              exact ⟨lower, upper, .start lower upper, hlt, hmid⟩
            · rintro ⟨l, u, hvisits, -, herror⟩
              cases hvisits with
              | start =>
                  rw [hmid] at herror
                  rw [Except.error.inj herror]
              | left _ pivot_eq | right _ pivot_eq =>
                  rw [hmid] at pivot_eq
                  cases pivot_eq
        | ok mid =>
            obtain ⟨hl, hu⟩ := hpivot lower upper mid hlt hmid
            have hbelow := @ih lower mid (by omega)
            have habove := @ih (mid + 1) upper (by omega)
            have hstart {l u : ℕ} (hvisits : Visits pivot probe lower upper l u)
                (herror : pivot l u = .error e) :
                (probe mid = some .lt ∧ Visits pivot probe lower mid l u)
                  ∨ (probe mid = some .gt ∧ Visits pivot probe (mid + 1) upper l u) := by
              cases hvisits with
              | start =>
                  rw [hmid] at herror
                  cases herror
              | left _ pivot_eq probe_eq rest =>
                  rw [hmid] at pivot_eq
                  cases pivot_eq
                  exact .inl ⟨probe_eq, rest⟩
              | right _ pivot_eq probe_eq rest =>
                  rw [hmid] at pivot_eq
                  cases pivot_eq
                  exact .inr ⟨probe_eq, rest⟩
            dsimp only
            cases hprobe : probe mid with
            | none =>
                refine iff_of_false (by simp) ?_
                rintro ⟨l, u, hvisits, -, herror⟩
                rcases hstart hvisits herror with ⟨h, -⟩ | ⟨h, -⟩
                all_goals
                  rw [hprobe] at h
                  cases h
            | some order =>
                cases order with
                | lt =>
                    refine hbelow.trans ⟨?_, ?_⟩
                    · rintro ⟨l, u, hvisits, hlu, herror⟩
                      exact ⟨l, u, .left hlt hmid hprobe hvisits, hlu, herror⟩
                    · rintro ⟨l, u, hvisits, hlu, herror⟩
                      rcases hstart hvisits herror with ⟨-, hrest⟩ | ⟨h, -⟩
                      · exact ⟨l, u, hrest, hlu, herror⟩
                      · rw [hprobe] at h
                        cases h
                | eq =>
                    refine iff_of_false (by simp) ?_
                    rintro ⟨l, u, hvisits, -, herror⟩
                    rcases hstart hvisits herror with ⟨h, -⟩ | ⟨h, -⟩
                    all_goals
                      rw [hprobe] at h
                      cases h
                | gt =>
                    refine habove.trans ⟨?_, ?_⟩
                    · rintro ⟨l, u, hvisits, hlu, herror⟩
                      exact ⟨l, u, .right hlt hmid hprobe hvisits, hlu, herror⟩
                    · rintro ⟨l, u, hvisits, hlu, herror⟩
                      rcases hstart hvisits herror with ⟨h, -⟩ | ⟨-, hrest⟩
                      · rw [hprobe] at h
                        cases h
                      · exact ⟨l, u, hrest, hlu, herror⟩
      · rw [if_neg hlt]
        refine iff_of_false (by simp) ?_
        rintro ⟨l, u, hvisits, hlu, -⟩
        cases hvisits with
        | start => exact hlt hlu
        | left lt | right lt => exact hlt lt

theorem exists_visits_iff {e : ε} {total : ℕ → ℕ → ℕ}
    (hpivot : ∀ l u, pivot l u = .error e ∨ pivot l u = .ok (total l u)) :
    (∃ l u, Visits pivot probe lower upper l u ∧ l < u ∧ pivot l u = .error e)
      ↔ ∃ l u, Visits (fun l u => (.ok (total l u) : Except ε ℕ)) probe lower upper l u ∧ l < u
        ∧ pivot l u = .error e := by
  constructor
  · rintro ⟨l, u, hvisits, hlu, herror⟩
    refine ⟨l, u, ?_, hlu, herror⟩
    have htotal {l u mid : ℕ} (hmid : pivot l u = .ok mid) : mid = total l u := by
      rcases hpivot l u with h | h
      · rw [h] at hmid
        cases hmid
      · rw [h] at hmid
        exact (Except.ok.inj hmid).symm
    clear hlu herror
    induction hvisits with
    | start l u => exact .start l u
    | left lt pivot_eq probe_eq _ ih => exact .left lt (by rw [htotal pivot_eq]) probe_eq ih
    | right lt pivot_eq probe_eq _ ih => exact .right lt (by rw [htotal pivot_eq]) probe_eq ih
  · rintro ⟨l, u, hvisits, hlu, herror⟩
    induction hvisits with
    | start l u => exact ⟨l, u, .start l u, hlu, herror⟩
    | @left lower upper mid l u lt pivot_eq probe_eq _ ih =>
        obtain rfl := Except.ok.inj pivot_eq
        rcases hpivot lower upper with h | h
        · exact ⟨lower, upper, .start lower upper, lt, h⟩
        · obtain ⟨l', u', hvisits, hlu', herror'⟩ := ih hlu herror
          exact ⟨l', u', .left lt h probe_eq hvisits, hlu', herror'⟩
    | @right lower upper mid l u lt pivot_eq probe_eq _ ih =>
        obtain rfl := Except.ok.inj pivot_eq
        rcases hpivot lower upper with h | h
        · exact ⟨lower, upper, .start lower upper, lt, h⟩
        · obtain ⟨l', u', hvisits, hlu', herror'⟩ := ih hlu herror
          exact ⟨l', u', .right lt h probe_eq hvisits, hlu', herror'⟩

/-! ## A fanout -/

/-- In a list that is sorted by a number, the elements up to a number are those before their
count. -/
theorem lt_countP_iff {β : Type*} {f : β → ℕ} {l : List β}
    (hsorted : l.Pairwise fun a b => f a ≤ f b) {b : β} (hget : l[i]? = some b) (n : ℕ) :
    i < l.countP (fun a => f a ≤ n) ↔ f b ≤ n := by
  induction l generalizing i with
  | nil => simp at hget
  | cons a l ih =>
      obtain ⟨ha, hsorted⟩ := List.pairwise_cons.mp hsorted
      rw [List.countP_cons]
      by_cases han : f a ≤ n
      · rw [if_pos (decide_eq_true han)]
        cases i with
        | zero =>
            obtain rfl : a = b := by simpa using hget
            exact iff_of_true (Nat.succ_pos _) han
        | succ i =>
            rw [Nat.succ_lt_succ_iff]
            exact ih hsorted (by simpa using hget)
      · have hmore (c : β) (hc : c ∈ l) : ¬ f c ≤ n := fun hcn => han ((ha c hc).trans hcn)
        have hzero : l.countP (fun a => f a ≤ n) = 0 := by
          rw [List.countP_eq_zero]
          exact fun c hc => by simpa using hmore c hc
        rw [hzero, if_neg (by simpa using han)]
        refine iff_of_false (Nat.not_lt_zero i) ?_
        rcases List.mem_cons.mp (List.mem_of_getElem? hget) with rfl | hb
        · exact han
        · exact hmore b hb

theorem fanout_bounds {β : Type*} {f : β → ℕ} {l : List β}
    (hsorted : l.Pairwise fun a b => f a ≤ f b) {b : β} (hget : l[i]? = some b) :
    (if f b = 0 then 0 else l.countP fun a => f a ≤ f b - 1) ≤ i
      ∧ i < l.countP fun a => f a ≤ f b := by
  refine ⟨?_, (lt_countP_iff hsorted hget _).mpr le_rfl⟩
  split_ifs with hzero
  · exact Nat.zero_le i
  · rw [← not_lt, lt_countP_iff hsorted hget]
    omega

end BinarySearch
