import Mathlib.Data.List.Basic
import Mathlib.Data.List.Count
import Mathlib.Logic.Function.Basic
import Mathlib.Order.Bounds.Basic

/-!
# Matching equal elements of two lists

Two nested loops that give each element of one list the first equal element of another list that is
still free. They match the occurrences of each element from the front, as many as both lists have.
-/

namespace Occurrences

variable {α : Type*} [DecidableEq α]

def markFirst (a : α) : List α → List Bool → Option (List Bool)
  | b :: bs, mark :: marks =>
      if mark = false ∧ a = b then some (true :: marks) else (markFirst a bs marks).map (mark :: ·)
  | _, _ => none

/-- Which elements find a partner among `bs`, and the marks of `bs` afterwards. -/
def matchAll (bs : List α) : List α → List Bool → List Bool × List Bool
  | [], marks => ([], marks)
  | a :: as, marks =>
      match markFirst a bs marks with
      | some marks' => (true :: (matchAll bs as marks').1, (matchAll bs as marks').2)
      | none => (false :: (matchAll bs as marks).1, (matchAll bs as marks).2)

/-- Marks on the first `q a` occurrences of each `a`. -/
def firsts (q : α → ℕ) : List α → List Bool
  | [] => []
  | b :: bs => decide (0 < q b) :: firsts (Function.update q b (q b - 1)) bs

variable {q q' : α → ℕ} {a : α} {as bs : List α}

/-- An element is marked when fewer than `q` of its kind come before it. -/
theorem getElem?_firsts (j : ℕ) :
    (firsts q bs)[j]? = bs[j]?.map fun b => decide ((bs.take j).count b < q b) := by
  induction bs generalizing q j with
  | nil => rfl
  | cons b bs ih =>
      cases j with
      | zero =>
          rw [firsts, List.getElem?_cons_zero, List.getElem?_cons_zero, List.take_zero,
            Option.map_some, List.count_nil]
      | succ j =>
          rw [firsts, List.getElem?_cons_succ, ih, List.getElem?_cons_succ]
          refine Option.map_congr fun c _ => ?_
          rw [List.take_succ_cons, List.count_cons, decide_eq_decide]
          by_cases hc : c = b
          · subst hc
            simp only [Function.update_self, beq_self_eq_true, if_true]
            omega
          · simp [Function.update_of_ne hc, Ne.symm hc]

theorem firsts_congr (h : ∀ b, min (q b) (bs.count b) = min (q' b) (bs.count b)) :
    firsts q bs = firsts q' bs := by
  refine List.ext_getElem? fun j => ?_
  rw [getElem?_firsts, getElem?_firsts]
  refine Option.map_congr fun b hb => ?_
  have hcount : (bs.take j).count b < bs.count b := by
    obtain ⟨hj, rfl⟩ := List.getElem?_eq_some_iff.mp hb
    have hsplit := congrArg (List.count bs[j]) (List.take_append_drop j bs)
    rw [List.count_append, List.drop_eq_getElem_cons hj, List.count_cons_self] at hsplit
    omega
  have hmin := h b
  rw [decide_eq_decide]
  omega

theorem firsts_zero : firsts (fun _ => 0) bs = List.replicate bs.length false := by
  refine List.ext_getElem? fun j => ?_
  rw [getElem?_firsts, List.getElem?_replicate]
  by_cases hj : j < bs.length
  · simp [hj]
  · simp [hj]

/-- **One more occurrence** is marked as long as there is one. -/
theorem markFirst_firsts (a : α) (bs : List α) (q : α → ℕ) :
    markFirst a bs (firsts q bs)
      = if q a < bs.count a then some (firsts (Function.update q a (q a + 1)) bs) else none := by
  induction bs generalizing q with
  | nil => simp [markFirst]
  | cons b bs ih =>
      rw [firsts, markFirst]
      by_cases hab : a = b
      · subst hab
        cases hq : q a with
        | zero =>
            have hback : Function.update (Function.update q a 1) a 0 = q := by
              rw [Function.update_idem, ← hq, Function.update_eq_self]
            have hmark : firsts (Function.update q a 1) (a :: bs) = true :: firsts q bs := by
              rw [firsts, Function.update_self, hback, decide_eq_true Nat.zero_lt_one]
            have hsame : Function.update q a 0 = q := by rw [← hq, Function.update_eq_self]
            rw [if_pos (by simp), hmark, Nat.zero_sub, hsame, if_pos (by simp)]
        | succ m =>
            have hstep : firsts (Function.update q a (m + 1 + 1)) (a :: bs)
                = true :: firsts (Function.update q a (m + 1)) bs := by
              simp [firsts]
            rw [if_neg (by simp), ih, Function.update_self, Nat.add_sub_cancel,
              Function.update_idem, hstep, List.count_cons_self]
            by_cases hm : m < bs.count a
            · simp [hm]
            · simp [hm]
      · have hne : b ≠ a := Ne.symm hab
        rw [if_neg (by simp [hab]), ih, Function.update_of_ne hab, List.count_cons_of_ne hne,
          firsts, Function.update_of_ne hne, Function.update_comm hne]
        split_ifs <;> rfl

/-- **What the loops match.** -/
theorem matchAll_firsts (as bs : List α) (q : α → ℕ) :
    matchAll bs as (firsts q bs)
      = (firsts (fun b => bs.count b - q b) as, firsts (fun b => q b + as.count b) bs) := by
  induction as generalizing q with
  | nil => simp [matchAll, firsts]
  | cons a as ih =>
      rw [matchAll, markFirst_firsts]
      by_cases ha : q a < bs.count a
      · simp only [if_pos ha, ih]
        rw [Prod.mk.injEq]
        constructor
        · rw [firsts, decide_eq_true (Nat.sub_pos_of_lt ha)]
          refine congrArg (fun q => _ :: firsts q as) (funext fun b => ?_)
          by_cases hb : b = a
          · subst hb
            simp only [Function.update_self]
            omega
          · simp [Function.update_of_ne hb]
        · refine congrArg (firsts · bs) (funext fun b => ?_)
          by_cases hb : b = a
          · subst hb
            simp only [Function.update_self, List.count_cons_self]
            omega
          · simp [Function.update_of_ne hb, List.count_cons_of_ne (Ne.symm hb)]
      · simp only [if_neg ha, ih]
        rw [Prod.mk.injEq]
        constructor
        · rw [firsts, decide_eq_false (by omega)]
          refine congrArg (fun q => _ :: firsts q as) (funext fun b => ?_)
          by_cases hb : b = a
          · subst hb
            simp only [Function.update_self]
            omega
          · simp [Function.update_of_ne hb]
        · refine firsts_congr fun b => ?_
          by_cases hb : b = a
          · subst hb
            rw [List.count_cons_self]
            omega
          · rw [List.count_cons_of_ne (Ne.symm hb)]

theorem matchAll_replicate (as bs : List α) :
    matchAll bs as (List.replicate bs.length false)
      = (firsts (fun b => bs.count b) as, firsts (fun b => as.count b) bs) := by
  rw [← firsts_zero, matchAll_firsts]
  simp only [Nat.sub_zero, Nat.zero_add]

end Occurrences

/-!
## The longest common sublist

Its length by the usual recursion: equal heads are matched, and of two different heads one is
dropped.
-/

variable {α : Type*} [DecidableEq α]

def List.lcsLength : List α → List α → ℕ
  | [], _ => 0
  | _ :: _, [] => 0
  | a :: l, b :: l' =>
      if a = b then lcsLength l l' + 1 else max (lcsLength l (b :: l')) (lcsLength (a :: l) l')
termination_by l l' => l.length + l'.length

namespace List

@[simp] theorem lcsLength_nil_left (l : List α) : lcsLength [] l = 0 := by rw [lcsLength]

@[simp] theorem lcsLength_nil_right (l : List α) : lcsLength l [] = 0 := by
  cases l <;> rw [lcsLength]

theorem exists_common_sublist (l l' : List α) :
    ∃ s : List α, s.Sublist l ∧ s.Sublist l' ∧ s.length = lcsLength l l' := by
  fun_induction lcsLength l l' with
  | case1 l' => exact ⟨[], List.nil_sublist _, List.nil_sublist _, rfl⟩
  | case2 a l => exact ⟨[], List.nil_sublist _, List.nil_sublist _, rfl⟩
  | case3 l b l' ih =>
      obtain ⟨s, hs, hs', hlen⟩ := ih
      exact ⟨b :: s, hs.cons_cons b, hs'.cons_cons b, congrArg (· + 1) hlen⟩
  | case4 a l b l' hne ih₁ ih₂ =>
      rcases le_total (lcsLength l (b :: l')) (lcsLength (a :: l) l') with h | h
      · obtain ⟨s, hs, hs', hlen⟩ := ih₂
        exact ⟨s, hs, hs'.cons b, hlen.trans (max_eq_right h).symm⟩
      · obtain ⟨s, hs, hs', hlen⟩ := ih₁
        exact ⟨s, hs.cons a, hs', hlen.trans (max_eq_left h).symm⟩

theorem length_le_lcsLength {s l l' : List α} (hs : s.Sublist l) (hs' : s.Sublist l') :
    s.length ≤ lcsLength l l' := by
  fun_induction lcsLength l l' generalizing s with
  | case1 l' => rw [List.sublist_nil.mp hs, List.length_nil]
  | case2 a l => rw [List.sublist_nil.mp hs', List.length_nil]
  | case3 l b l' ih =>
      have htail := ih hs.tail hs'.tail
      rw [List.length_tail] at htail
      omega
  | case4 a l b l' hne ih₁ ih₂ =>
      rcases List.sublist_cons_iff.mp hs with hs | ⟨t, rfl, ht⟩
      · exact (ih₁ hs hs').trans (le_max_left _ _)
      · rcases List.sublist_cons_iff.mp hs' with hs' | ⟨t', heq, -⟩
        · exact (ih₂ hs hs').trans (le_max_right _ _)
        · exact absurd (List.cons_eq_cons.mp heq).1 hne

theorem isGreatest_lcsLength (l l' : List α) :
    IsGreatest {k | ∃ s : List α, s.Sublist l ∧ s.Sublist l' ∧ s.length = k} (lcsLength l l') := by
  refine ⟨exists_common_sublist l l', ?_⟩
  rintro k ⟨s, hs, hs', rfl⟩
  exact length_le_lcsLength hs hs'

theorem lcsLength_le_left (l l' : List α) : lcsLength l l' ≤ l.length := by
  obtain ⟨s, hs, -, hlen⟩ := exists_common_sublist l l'
  exact hlen ▸ hs.length_le

theorem lcsLength_le_right (l l' : List α) : lcsLength l l' ≤ l'.length := by
  obtain ⟨s, -, hs, hlen⟩ := exists_common_sublist l l'
  exact hlen ▸ hs.length_le

end List
