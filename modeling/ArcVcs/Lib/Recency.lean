import Mathlib.Algebra.BigOperators.Group.Finset.Basic
import Mathlib.Algebra.GroupWithZero.Nat
import Mathlib.Data.List.Nodup

/-!
# Caches in order of use

A bounded cache as a list of entries, the least recently used one first. Looking an entry up makes
it the last one. Storing one drops entries from the front until the weights fit. An implementation
of these steps by other data refines the list.
-/

namespace Recency

variable {κ ν : Type*}

def keys (l : List (κ × ν)) : List κ := l.map Prod.fst

/-- The weights of all entries together. -/
def total (weight : ν → ℕ) (l : List (κ × ν)) : ℕ := (l.map fun e => weight e.2).sum

/-- Drop the least recently used entries until the weights fit. -/
def evict (weight : ν → ℕ) (budget : ℕ) : List (κ × ν) → List (κ × ν)
  | [] => []
  | e :: l => if total weight (e :: l) ≤ budget then e :: l else evict weight budget l

section Entries

variable [DecidableEq κ]

def find (k : κ) : List (κ × ν) → Option ν
  | [] => none
  | e :: l => if e.1 = k then some e.2 else find k l

def remove (k : κ) (l : List (κ × ν)) : List (κ × ν) := l.filter fun e => decide (e.1 ≠ k)

/-- The entry becomes the most recently used one. -/
def touch (k : κ) (v : ν) (l : List (κ × ν)) : List (κ × ν) := remove k l ++ [(k, v)]

/-- Look a key up. -/
def get (k : κ) (l : List (κ × ν)) : Option ν × List (κ × ν) :=
  match find k l with
  | none => (none, l)
  | some v => (some v, touch k v l)

/-- Store an entry, unless it is too heavy. -/
def put (weight : ν → ℕ) (capacity : ℕ) (k : κ) (v : ν) (l : List (κ × ν)) : List (κ × ν) :=
  if capacity < weight v then l
  else evict weight (capacity - weight v) (remove k l) ++ [(k, v)]

end Entries

/-! ## Eviction -/

section Evict

variable {weight : ν → ℕ} {budget : ℕ}

@[simp] theorem total_nil : total weight ([] : List (κ × ν)) = 0 := rfl

@[simp] theorem total_cons (e : κ × ν) (l : List (κ × ν)) :
    total weight (e :: l) = weight e.2 + total weight l := by
  rw [total, List.map_cons, List.sum_cons, total]

@[simp] theorem total_append (l l' : List (κ × ν)) :
    total weight (l ++ l') = total weight l + total weight l' := by
  rw [total, List.map_append, List.sum_append, total, total]

theorem evict_of_le {l : List (κ × ν)} (h : total weight l ≤ budget) :
    evict weight budget l = l := by
  cases l with
  | nil => rfl
  | cons e l => rw [evict, if_pos h]

theorem evict_cons_of_lt {e : κ × ν} {l : List (κ × ν)} (h : budget < total weight (e :: l)) :
    evict weight budget (e :: l) = evict weight budget l := by
  rw [evict, if_neg (Nat.not_le.mpr h)]

theorem evict_eq_drop (weight : ν → ℕ) (budget : ℕ) (l : List (κ × ν)) :
    ∃ n, evict weight budget l = l.drop n ∧ total weight (l.drop n) ≤ budget
      ∧ ∀ m < n, budget < total weight (l.drop m) := by
  induction l with
  | nil => exact ⟨0, rfl, Nat.zero_le _, fun m hm => absurd hm (Nat.not_lt_zero m)⟩
  | cons e l ih =>
      rcases Nat.lt_or_ge budget (total weight (e :: l)) with h | h
      · obtain ⟨n, hn, hle, hleast⟩ := ih
        refine ⟨n + 1, (evict_cons_of_lt h).trans hn, hle, fun m hm => ?_⟩
        cases m with
        | zero => exact h
        | succ m => exact hleast m (Nat.lt_of_succ_lt_succ hm)
      · exact ⟨0, evict_of_le h, h, fun m hm => absurd hm (Nat.not_lt_zero m)⟩

theorem total_evict_le (weight : ν → ℕ) (budget : ℕ) (l : List (κ × ν)) :
    total weight (evict weight budget l) ≤ budget := by
  obtain ⟨n, hn, hle, -⟩ := evict_eq_drop weight budget l
  exact hn ▸ hle

theorem evict_sublist (weight : ν → ℕ) (budget : ℕ) (l : List (κ × ν)) :
    (evict weight budget l).Sublist l := by
  obtain ⟨n, hn, -, -⟩ := evict_eq_drop weight budget l
  exact hn ▸ List.drop_sublist n l

end Evict

/-! ## Entries -/

section Laws

variable [DecidableEq κ] {k j : κ} {v : ν} {l : List (κ × ν)}

theorem find_eq_none_iff : find k l = none ↔ k ∉ keys l := by
  induction l with
  | nil => simp [find, keys]
  | cons e l ih =>
      rw [find, keys, List.map_cons, List.mem_cons, not_or]
      split_ifs with h
      · simp [h]
      · rw [ih, keys, and_iff_right (Ne.symm h)]

theorem find_append (l l' : List (κ × ν)) : find k (l ++ l') = (find k l).or (find k l') := by
  induction l with
  | nil => rfl
  | cons e l ih =>
      rw [List.cons_append, find, find, ih]
      split_ifs <;> rfl

theorem find_remove (k j : κ) (l : List (κ × ν)) :
    find j (remove k l) = if j = k then none else find j l := by
  induction l with
  | nil => simp [find, remove]
  | cons e l ih =>
      rw [remove] at ih ⊢
      by_cases he : e.1 = k
      · rw [List.filter_cons_of_neg (by simpa using he), ih, find, he]
        by_cases hj : j = k
        · rw [if_pos hj, if_pos hj]
        · rw [if_neg hj, if_neg hj, if_neg (Ne.symm hj)]
      · rw [List.filter_cons_of_pos (by simpa using he), find, find, ih]
        by_cases hej : e.1 = j
        · rw [if_pos hej, if_pos hej, if_neg (hej ▸ he)]
        · rw [if_neg hej, if_neg hej]

omit [DecidableEq κ] in
theorem keys_append (l l' : List (κ × ν)) : keys (l ++ l') = keys l ++ keys l' := List.map_append

theorem keys_remove (k : κ) (l : List (κ × ν)) :
    keys (remove k l) = (keys l).filter fun j => decide (j ≠ k) := by
  rw [keys, keys, remove, List.filter_map]
  rfl

theorem notMem_keys_remove (k : κ) (l : List (κ × ν)) : k ∉ keys (remove k l) := by
  rw [← find_eq_none_iff, find_remove, if_pos rfl]

theorem remove_of_notMem (h : k ∉ keys l) : remove k l = l := by
  refine List.filter_eq_self.mpr fun e he => decide_eq_true ?_
  rintro rfl
  exact h (List.mem_map_of_mem he)

theorem find_touch (k j : κ) (v : ν) (l : List (κ × ν)) :
    find j (touch k v l) = if j = k then some v else find j l := by
  rw [touch, find_append, find_remove]
  by_cases hj : j = k
  · rw [if_pos hj, if_pos hj, find, if_pos hj.symm]
    rfl
  · rw [if_neg hj, if_neg hj, find, if_neg (Ne.symm hj), find, Option.or_none]

theorem keys_touch (k : κ) (v : ν) (l : List (κ × ν)) :
    keys (touch k v l) = ((keys l).filter fun j => decide (j ≠ k)) ++ [k] := by
  rw [touch, keys_append, keys_remove]
  rfl

theorem nodup_filter_append {ks : List κ} (h : ks.Nodup) (k : κ) :
    ((ks.filter fun j => decide (j ≠ k)) ++ [k]).Nodup := by
  refine List.Nodup.append (h.filter _) (List.nodup_singleton k) ?_
  rw [List.disjoint_singleton]
  simp

theorem find_of_mem (hnodup : (keys l).Nodup) (h : (k, v) ∈ l) : find k l = some v := by
  induction l with
  | nil => exact absurd h List.not_mem_nil
  | cons e l ih =>
      rw [keys, List.map_cons, List.nodup_cons] at hnodup
      rw [find]
      rcases List.mem_cons.mp h with rfl | h
      · rw [if_pos rfl]
      · rw [if_neg, ih hnodup.2 h]
        rintro rfl
        exact hnodup.1 (List.mem_map.mpr ⟨_, h, rfl⟩)

theorem sum_keys_eq_total (weight : ν → ℕ) (hnodup : (keys l).Nodup) :
    ∑ k ∈ (keys l).toFinset, (find k l).elim 0 weight = total weight l := by
  rw [List.sum_toFinset _ hnodup, keys, List.map_map, total]
  refine congrArg List.sum (List.map_congr_left fun e he => ?_)
  rw [Function.comp_apply, find_of_mem hnodup he, Option.elim_some]

theorem total_remove (weight : ν → ℕ) (hnodup : (keys l).Nodup) (h : find k l = some v) :
    weight v + total weight (remove k l) = total weight l := by
  induction l with
  | nil => cases h
  | cons e l ih =>
      rw [keys, List.map_cons, List.nodup_cons] at hnodup
      rw [find] at h
      split_ifs at h with he
      · cases h
        have hnone : k ∉ keys l := he ▸ hnodup.1
        rw [remove, List.filter_cons_of_neg (by simpa using he), ← remove,
          remove_of_notMem hnone, total_cons]
      · rw [remove, List.filter_cons_of_pos (by simpa using he), ← remove, total_cons, total_cons,
          ← ih hnodup.2 h]
        omega

theorem total_touch (weight : ν → ℕ) (hnodup : (keys l).Nodup) (h : find k l = some v) :
    total weight (touch k v l) = total weight l := by
  rw [touch, total_append, ← total_remove weight hnodup h, total_cons, total_nil, Nat.add_zero,
    Nat.add_comm]

theorem remove_middle (before after : List (κ × ν))
    (hnodup : (keys (before ++ (k, v) :: after)).Nodup) :
    remove k (before ++ (k, v) :: after) = before ++ after := by
  rw [keys_append, keys, keys, List.map_cons, List.nodup_append, List.nodup_cons] at hnodup
  obtain ⟨-, ⟨hafter, -⟩, hbefore⟩ := hnodup
  have hk : k ∉ keys (before ++ after) := by
    rw [keys_append, List.mem_append, not_or]
    exact ⟨fun h => hbefore k h k List.mem_cons_self rfl, hafter⟩
  rw [← remove_of_notMem hk, remove, remove, List.filter_append, List.filter_append,
    List.filter_cons_of_neg (by simp)]

/-! ## Entries that weigh one each -/

omit [DecidableEq κ] in
theorem total_one (l : List (κ × ν)) : total (fun _ => 1) l = l.length := by
  induction l with
  | nil => rfl
  | cons e l ih => rw [total_cons, ih, List.length_cons, Nat.add_comm]

theorem put_of_find {n : ℕ} {old : ν} (hnodup : (keys l).Nodup) (hlength : l.length ≤ n)
    (h : find k l = some old) : put (fun _ => 1) n k v l = touch k v l := by
  have htotal : 1 + total (fun _ => 1) (remove k l) = total (fun _ => 1) l :=
    total_remove (fun _ => 1) hnodup h
  rw [total_one l] at htotal
  have hroom : total (fun _ => 1) (remove k l) ≤ n - 1 := by omega
  have hfits : ¬ n < 1 := by omega
  rw [put, if_neg hfits, evict_of_le hroom, touch]

theorem put_of_notMem {n : ℕ} (hn : n ≠ 0) (hlength : l.length ≤ n) (h : k ∉ keys l) :
    put (fun _ => 1) n k v l = (if l.length < n then l else l.tail) ++ [(k, v)] := by
  rw [put, if_neg (by omega), remove_of_notMem h]
  congr 1
  split_ifs with hlt
  · refine evict_of_le ?_
    rw [total_one]
    exact Nat.le_sub_one_of_lt hlt
  · cases l with
    | nil => rfl
    | cons e l =>
        rw [List.length_cons] at hlength hlt
        rw [evict_cons_of_lt (by rw [total_one, List.length_cons]; omega), List.tail_cons,
          evict_of_le (by rw [total_one]; omega)]

end Laws

/-! ## Runs of operations -/

inductive Op (κ ν : Type*) where
  | get (k : κ)
  | put (k : κ) (v : ν)

section Runs

variable {σ ο : Type*}

/-- The operations one after the other, with what each returns. There is no result when one
fails. -/
def run {ι : Type*} (step : σ → ι → Option (ο × σ)) : List ι → σ → Option (List ο × σ)
  | [], s => some ([], s)
  | i :: is, s =>
      match step s i with
      | none => none
      | some (out, s') => (run step is s').map fun res => (out :: res.1, res.2)

variable [DecidableEq κ]

def step (weight : ν → ℕ) (capacity : ℕ) (l : List (κ × ν)) : Op κ ν → Option ν × List (κ × ν)
  | .get k => get k l
  | .put k v => (none, put weight capacity k v l)

def reference (weight : ν → ℕ) (capacity : ℕ) : List (Op κ ν) → List (κ × ν) →
    List (Option ν) × List (κ × ν)
  | [], l => ([], l)
  | op :: ops, l =>
      let (out, l') := step weight capacity l op
      let res := reference weight capacity ops l'
      (out :: res.1, res.2)

theorem run_refines {weight : ν → ℕ} {capacity : ℕ} {R : σ → List (κ × ν) → Prop}
    {stepOf : σ → Op κ ν → Option (Option ν × σ)}
    (hstep : ∀ s l op out s', R s l → stepOf s op = some (out, s') →
      (step weight capacity l op).1 = out ∧ R s' (step weight capacity l op).2)
    {ops : List (Op κ ν)} {s s' : σ} {l : List (κ × ν)} {outs : List (Option ν)} (hR : R s l)
    (hrun : run stepOf ops s = some (outs, s')) :
    (reference weight capacity ops l).1 = outs ∧ R s' (reference weight capacity ops l).2 := by
  induction ops generalizing s l outs with
  | nil =>
      cases hrun
      exact ⟨rfl, hR⟩
  | cons op ops ih =>
      rw [run] at hrun
      split at hrun
      · cases hrun
      · rename_i out t hfirst
        obtain ⟨hout, hnext⟩ := hstep s l op out t hR hfirst
        obtain ⟨res, hres, heq⟩ := Option.map_eq_some_iff.mp hrun
        cases heq
        obtain ⟨houts, hlast⟩ := ih hnext hres
        exact ⟨congrArg₂ List.cons hout houts, hlast⟩

theorem exists_run {weight : ν → ℕ} {capacity : ℕ} {R : σ → List (κ × ν) → Prop}
    {stepOf : σ → Op κ ν → Option (Option ν × σ)}
    (hstep : ∀ s l op out s', R s l → stepOf s op = some (out, s') →
      (step weight capacity l op).1 = out ∧ R s' (step weight capacity l op).2)
    (hsome : ∀ s l op, R s l → ∃ res, stepOf s op = some res) (ops : List (Op κ ν)) {s : σ}
    {l : List (κ × ν)} (hR : R s l) : ∃ res, run stepOf ops s = some res := by
  induction ops generalizing s l with
  | nil => exact ⟨_, rfl⟩
  | cons op ops ih =>
      obtain ⟨⟨out, s'⟩, hfirst⟩ := hsome s l op hR
      obtain ⟨res, hres⟩ := ih (hstep s l op out s' hR hfirst).2
      exact ⟨_, by rw [run, hfirst]; exact congrArg (Option.map _) hres⟩

end Runs

end Recency
