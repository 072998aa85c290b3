import Mathlib.Data.List.Destutter
import Mathlib.Data.List.Sort
import Mathlib.Data.Prod.Lex
import Mathlib.Logic.Equiv.Basic

/-!
# Stable sorts by a comparison

Sorts that move an element only past those that compare greater. They agree for comparisons that
order the elements of a list in the same way, and do not depend on the order of the list where only
equal elements compare equal. A sort that drops repeated elements lists the set of the elements.
-/

namespace List

variable {α β : Type*} {cmp cmp' : α → α → Ordering} {l l' : List α}

def sortWith (cmp : α → α → Ordering) (l : List α) : List α :=
  l.insertionSort fun a b => (cmp a b).isLE = true

theorem sortWith_perm (cmp : α → α → Ordering) (l : List α) : (l.sortWith cmp).Perm l :=
  perm_insertionSort _ l

theorem pairwise_sortWith [Std.TransCmp cmp] (l : List α) :
    (l.sortWith cmp).Pairwise fun a b => (cmp a b).isLE = true := by
  have : Std.Total fun a b => (cmp a b).isLE = true := ⟨fun a b => by
    rw [@Std.OrientedCmp.eq_swap _ cmp _ b a]
    cases cmp a b <;> simp⟩
  have : IsTrans α fun a b => (cmp a b).isLE = true := ⟨fun _ _ _ => Std.TransCmp.isLE_trans⟩
  exact pairwise_insertionSort _ l

theorem sortWith_eq_of_perm [Std.TransCmp cmp] (hl : ∀ a ∈ l, ∀ b ∈ l, cmp a b = .eq → a = b)
    (h : l.Perm l') : l.sortWith cmp = l'.sortWith cmp := by
  have hperm := (l.sortWith_perm cmp).trans (h.trans (l'.sortWith_perm cmp).symm)
  refine hperm.eq_of_pairwise (fun a b ha hb hab hba => ?_) l.pairwise_sortWith l'.pairwise_sortWith
  refine hl a ((l.sortWith_perm cmp).mem_iff.mp ha) b ?_ ?_
  · exact h.mem_iff.mpr ((l'.sortWith_perm cmp).mem_iff.mp hb)
  · rw [@Std.OrientedCmp.eq_swap _ cmp _ b a] at hba
    cases hcmp : cmp a b <;> simp_all

theorem map_sortWith {cmp : β → β → Ordering} (f : α → β) (l : List α) :
    (l.map f).sortWith cmp = (l.sortWith fun a b => cmp (f a) (f b)).map f :=
  (map_insertionSort _ _ f l fun _ _ _ _ => Iff.rfl).symm

theorem sortWith_congr (h : ∀ a ∈ l, ∀ b ∈ l, (cmp a b).isLE = (cmp' a b).isLE) :
    l.sortWith cmp = l.sortWith cmp' := by
  have hmap := map_insertionSort (fun a b => (cmp a b).isLE = true)
    (fun a b => (cmp' a b).isLE = true) id l fun a ha b hb => by rw [h a ha b hb]; rfl
  simpa [sortWith] using hmap

/-! ## Without repeated elements -/

section Dedup

variable [LinearOrder α]

/-- Sorted, and then without the elements that equal the one before them. -/
def sortDedup (l : List α) : List α := (l.insertionSort (· ≤ ·)).destutter (· ≠ ·)

theorem sortDedup_eq (l : List α) : l.sortDedup = (l.insertionSort (· ≤ ·)).dedup :=
  (pairwise_insertionSort (· ≤ ·) l).destutter_eq_dedup

@[simp] theorem mem_sortDedup {a : α} : a ∈ l.sortDedup ↔ a ∈ l := by
  rw [sortDedup_eq, mem_dedup, mem_insertionSort]

theorem pairwise_sortDedup (l : List α) : l.sortDedup.Pairwise (· < ·) := by
  have hsorted : l.sortDedup.Pairwise (· ≤ ·) := by
    rw [sortDedup_eq]
    exact (pairwise_insertionSort (· ≤ ·) l).sublist (dedup_sublist _)
  have hnodup : l.sortDedup.Nodup := by
    rw [sortDedup_eq]
    exact nodup_dedup _
  exact (hsorted.and hnodup).imp fun hab => lt_of_le_of_ne hab.1 hab.2

end Dedup

end List

/-!
## Sorting by a key with ties

A sort whose input comes in no particular order: elements with the same key may come out in any
order. Two elements come out in the same order every time only if their keys tell them apart.
-/

namespace TieSort

variable {α β : Type*} [LinearOrder β]

/-- The second list is the first one sorted by the key. -/
structure IsSortOf (key : α → β) (l sorted : List α) : Prop where
  perm : sorted.Perm l
  ordered : sorted.Pairwise fun a b => key a ≤ key b

/-- `a` comes before every place of `b`. -/
def Precedes (a b : α) (l : List α) : Prop := ∀ xs ys, l = xs ++ b :: ys → a ∈ xs

variable {key : α → β} {l sorted : List α} {a b : α}

theorem exists_isSortOf (key : α → β) (l : List α) : ∃ sorted, IsSortOf key l sorted := by
  classical
  let r : α → α → Prop := fun a b => key a ≤ key b
  have : Std.Total r := ⟨fun a b => le_total (key a) (key b)⟩
  have : IsTrans α r := ⟨fun _ _ _ => le_trans⟩
  exact ⟨l.insertionSort r, List.perm_insertionSort r l, List.pairwise_insertionSort r l⟩

theorem IsSortOf.nodup (h : IsSortOf key l sorted) (hnodup : l.Nodup) : sorted.Nodup :=
  h.perm.nodup_iff.mpr hnodup

theorem IsSortOf.swap [DecidableEq α] (h : IsSortOf key l sorted) (hnodup : l.Nodup) (ha : a ∈ l)
    (hb : b ∈ l) (htie : key a = key b) : IsSortOf key l (sorted.map (Equiv.swap a b)) := by
  have hkey : ∀ x, key (Equiv.swap a b x) = key x := by
    intro x
    rw [Equiv.swap_apply_def]
    split_ifs with hxa hxb
    · rw [hxa, htie]
    · rw [hxb, htie]
    · rfl
  have hmem : ∀ x, Equiv.swap a b x ∈ l ↔ x ∈ l := by
    intro x
    rw [Equiv.swap_apply_def]
    split_ifs with hxa hxb
    · simp [hxa, ha, hb]
    · simp [hxb, ha, hb]
    · rfl
  constructor
  · refine (List.perm_ext_iff_of_nodup ?_ hnodup).mpr fun x => ?_
    · exact (h.nodup hnodup).map (Equiv.injective _)
    · rw [List.mem_map_of_involutive (Equiv.swap_apply_self a b), h.perm.mem_iff, hmem]
  · simpa only [List.pairwise_map, hkey] using h.ordered

/-- **One element precedes another in every sort** if and only if its key is smaller. -/
theorem forall_precedes_iff (hnodup : l.Nodup) (ha : a ∈ l) (hb : b ∈ l) :
    (∀ sorted, IsSortOf key l sorted → Precedes a b sorted) ↔ key a < key b := by
  constructor
  · intro h
    obtain ⟨sorted, hsort⟩ := exists_isSortOf key l
    obtain ⟨xs, ys, rfl⟩ := List.append_of_mem (hsort.perm.mem_iff.mpr hb)
    have hmem := h _ hsort xs ys rfl
    have hle : key a ≤ key b := (List.pairwise_append.mp hsort.ordered).2.2 a hmem b
      List.mem_cons_self
    refine hle.lt_of_ne fun htie => ?_
    -- The list with the two elements swapped is a sort too.
    classical
    have hswap := hsort.swap hnodup ha hb htie
    obtain ⟨us, vs, hxs⟩ := List.append_of_mem (@List.mem_map_of_mem _ _ _ _ (Equiv.swap a b) hmem)
    rw [Equiv.swap_apply_left] at hxs
    rw [List.map_append, hxs, List.map_cons, Equiv.swap_apply_right, List.append_assoc,
      List.cons_append] at hswap
    have hfirst := h _ hswap us _ rfl
    exact (List.nodup_append.mp (hswap.nodup hnodup)).2.2 a hfirst a (by simp) rfl
  · rintro hlt sorted hsort xs ys rfl
    rcases List.mem_append.mp (hsort.perm.mem_iff.mpr ha) with hmem | hmem
    · exact hmem
    · have hle : key b ≤ key a := by
        rcases List.mem_cons.mp hmem with rfl | hmem
        · exact le_rfl
        · have hordered := (List.pairwise_append.mp hsort.ordered).2.1
          exact (List.pairwise_cons.mp hordered).1 a hmem
      exact absurd hlt hle.not_gt

end TieSort
