import Mathlib.Algebra.BigOperators.Group.Finset.Basic
import Mathlib.Algebra.Order.BigOperators.Group.Finset
import Mathlib.Data.Finmap
import Mathlib.Data.Finset.Sort
import Mathlib.Data.List.Sort

/-!
# Finite maps and sorted enumerations

Non-dependent finite maps, and an enumeration of a finite set in increasing
order that reduces in the kernel.
-/

section Sorted

variable {α : Type*} [LinearOrder α]

/-- The elements of a finite set in increasing order. It is `Finset.sort` computed by
insertion, which the kernel can run. -/
def Finset.sorted (s : Finset α) : List α :=
  Quot.liftOn s.val (fun l => l.insertionSort (· ≤ ·)) fun l₁ l₂ (h : l₁.Perm l₂) =>
    (((l₁.perm_insertionSort _).trans h).trans (l₂.perm_insertionSort _).symm).eq_of_pairwise'
      (l₁.pairwise_insertionSort _) (l₂.pairwise_insertionSort _)

theorem Finset.sorted_eq_sort (s : Finset α) : s.sorted = s.sort (· ≤ ·) := by
  obtain ⟨⟨l⟩, hl⟩ := s
  refine List.Perm.eq_of_pairwise' (l.pairwise_insertionSort _) (Finset.pairwise_sort _ _) ?_
  apply (l.perm_insertionSort _).trans
  exact Multiset.coe_eq_coe.mp (Finset.sort_eq ⟨Quot.mk _ l, hl⟩ (· ≤ ·)).symm

@[simp] theorem Finset.mem_sorted {s : Finset α} {a : α} : a ∈ s.sorted ↔ a ∈ s := by
  rw [s.sorted_eq_sort, Finset.mem_sort]

theorem Finset.nodup_sorted (s : Finset α) : s.sorted.Nodup := by
  rw [s.sorted_eq_sort]
  exact s.sort_nodup _

theorem Finset.pairwise_sorted (s : Finset α) : s.sorted.Pairwise (· ≤ ·) := by
  rw [s.sorted_eq_sort]
  exact s.pairwise_sort _

theorem Finset.pairwise_lt_sorted (s : Finset α) : s.sorted.Pairwise (· < ·) := by
  rw [s.sorted_eq_sort]
  exact s.sortedLT_sort.pairwise

@[simp] theorem Finset.length_sorted (s : Finset α) : s.sorted.length = s.card := by
  rw [s.sorted_eq_sort, Finset.length_sort]

theorem Finset.sorted_ne_nil_iff {s : Finset α} : s.sorted ≠ [] ↔ s.Nonempty := by
  rw [← List.length_pos_iff, Finset.length_sorted, Finset.card_pos]

@[simp] theorem Finset.toFinset_sorted (s : Finset α) : s.sorted.toFinset = s := by
  ext a
  simp

theorem Finset.head?_sorted_eq_some_iff {s : Finset α} {a : α} :
    s.sorted.head? = some a ↔ IsLeast (s : Set α) a := by
  constructor
  · intro h
    obtain ⟨l, hl⟩ := List.head?_eq_some_iff.mp h
    have hsorted := s.pairwise_sorted
    rw [hl, List.pairwise_cons] at hsorted
    refine ⟨by rw [Finset.mem_coe, ← Finset.mem_sorted, hl]; exact List.mem_cons_self, ?_⟩
    intro b hb
    rw [Finset.mem_coe, ← Finset.mem_sorted, hl] at hb
    rcases List.mem_cons.mp hb with rfl | hb
    exacts [le_rfl, hsorted.1 b hb]
  · intro h
    cases hl : s.sorted with
    | nil => exact absurd (Finset.mem_sorted.mpr h.1) (by simp [hl])
    | cons b l =>
        have hb : b ∈ s := Finset.mem_sorted.mp (by simp [hl])
        have hsorted := s.pairwise_sorted
        rw [hl, List.pairwise_cons] at hsorted
        have ha : a ∈ b :: l := hl ▸ Finset.mem_sorted.mpr h.1
        refine congrArg some (le_antisymm ?_ (h.2 hb))
        rcases List.mem_cons.mp ha with rfl | ha
        exacts [le_rfl, hsorted.1 a ha]

theorem Finset.filter_sorted (s : Finset α) (p : α → Prop) [DecidablePred p] :
    s.sorted.filter (fun a => decide (p a)) = (s.filter p).sorted := by
  refine List.Perm.eq_of_pairwise' (s.pairwise_sorted.filter _) (Finset.pairwise_sorted _) ?_
  rw [List.perm_ext_iff_of_nodup (s.nodup_sorted.filter _) (Finset.nodup_sorted _)]
  simp

theorem Finset.sorted_filter_congr {s t : Finset α} {p : α → Bool}
    (h : ∀ a, p a = true → (a ∈ s ↔ a ∈ t)) : s.sorted.filter p = t.sorted.filter p := by
  refine List.Perm.eq_of_pairwise' (s.pairwise_sorted.filter _) (t.pairwise_sorted.filter _) ?_
  rw [List.perm_ext_iff_of_nodup (s.nodup_sorted.filter _) (t.nodup_sorted.filter _)]
  intro a
  simp only [List.mem_filter, Finset.mem_sorted]
  exact and_congr_left (h a)

end Sorted

theorem Finset.add_sum_sdiff_insert_le {α : Type*} [DecidableEq α] {support visited : Finset α}
    (weight : α → ℕ) {a : α} (hsupp : ∀ b, b ∉ support → weight b = 0) (ha : a ∉ visited) :
    weight a + ∑ b ∈ support \ insert a visited, weight b ≤ ∑ b ∈ support \ visited, weight b := by
  by_cases hmem : a ∈ support
  · have hsplit : support \ visited = insert a (support \ insert a visited) := by
      ext b
      by_cases hb : b = a <;> simp_all
    rw [hsplit, Finset.sum_insert (by simp)]
  · rw [hsupp a hmem, zero_add]
    exact Finset.sum_le_sum_of_subset
      (Finset.sdiff_subset_sdiff le_rfl (Finset.subset_insert _ _))

/-- Finite maps whose value type does not depend on the key. -/
abbrev FMap (κ : Type*) (ν : Type*) := Finmap fun _ : κ => ν

theorem List.toFinset_card_eq_length_iff {α : Type*} [DecidableEq α] {l : List α} :
    l.toFinset.card = l.length ↔ l.Nodup :=
  Multiset.toFinset_card_eq_card_iff_nodup (m := .ofList l)

namespace FMap

variable {κ ν : Type*} [DecidableEq κ]

theorem mem_keys_iff {m : FMap κ ν} {k : κ} : k ∈ m.keys ↔ ∃ v, m.lookup k = some v :=
  Finmap.mem_keys.trans Finmap.mem_iff

theorem notMem_keys_iff {m : FMap κ ν} {k : κ} : k ∉ m.keys ↔ m.lookup k = none :=
  (not_congr Finmap.mem_keys).trans Finmap.lookup_eq_none.symm

theorem mem_keys_of_lookup {m : FMap κ ν} {k : κ} {v : ν} (h : m.lookup k = some v) :
    k ∈ m.keys :=
  mem_keys_iff.mpr ⟨v, h⟩

theorem lookup_insert_eq (m : FMap κ ν) (k j : κ) (v : ν) :
    (m.insert k v).lookup j = if j = k then some v else m.lookup j := by
  by_cases h : j = k
  · subst h
    simp
  · simp [h, Finmap.lookup_insert_of_ne]

theorem lookup_singleton (k j : κ) (v : ν) :
    (Finmap.singleton k v : FMap κ ν).lookup j = if j = k then some v else none := by
  split_ifs with h
  · rw [h, Finmap.lookup_singleton_eq]
  · apply notMem_keys_iff.mp
    simpa using h

theorem lookup_erase_eq (m : FMap κ ν) (k j : κ) :
    (m.erase k).lookup j = if j = k then none else m.lookup j := by
  by_cases h : j = k
  · subst h
    simp
  · simp [h, Finmap.lookup_erase_ne]

def set (m : FMap κ ν) (k : κ) : Option ν → FMap κ ν
  | none => m.erase k
  | some v => m.insert k v

@[simp] theorem set_none (m : FMap κ ν) (k : κ) : m.set k none = m.erase k := rfl

@[simp] theorem set_some (m : FMap κ ν) (k : κ) (v : ν) : m.set k (some v) = m.insert k v := rfl

theorem lookup_set (m : FMap κ ν) (k j : κ) (v : Option ν) :
    (m.set k v).lookup j = if j = k then v else m.lookup j := by
  cases v with
  | none => exact lookup_erase_eq m k j
  | some v => exact lookup_insert_eq m k j v

@[simp] theorem lookup_set_self (m : FMap κ ν) (k : κ) (v : Option ν) :
    (m.set k v).lookup k = v := (lookup_set m k k v).trans (if_pos rfl)

theorem lookup_set_of_ne (m : FMap κ ν) {k j : κ} (v : Option ν) (h : j ≠ k) :
    (m.set k v).lookup j = m.lookup j := by simp [lookup_set, h]

@[simp] theorem set_lookup_self (m : FMap κ ν) (k : κ) : m.set k (m.lookup k) = m :=
  Finmap.ext_lookup fun j => by
    by_cases h : j = k
    · subst h
      simp
    · rw [lookup_set_of_ne _ _ h]

theorem set_set_comm (m : FMap κ ν) {k j : κ} (h : k ≠ j) (v w : Option ν) :
    (m.set k v).set j w = (m.set j w).set k v :=
  Finmap.ext_lookup fun i => by
    simp only [lookup_set]
    split_ifs with hj hk <;> simp_all

/-- Store a value unless the key has one. -/
def putOnce (m : FMap κ ν) (k : κ) (v : ν) : FMap κ ν := if k ∈ m.keys then m else m.insert k v

theorem lookup_putOnce (m : FMap κ ν) (k j : κ) (v : ν) :
    (m.putOnce k v).lookup j = if j = k ∧ k ∉ m.keys then some v else m.lookup j := by
  unfold putOnce
  by_cases hk : k ∈ m.keys
  · simp [hk]
  · simp [hk, lookup_insert_eq]

theorem lookup_putOnce_of_some (m : FMap κ ν) (k : κ) (v : ν) {j : κ} {w : ν}
    (h : m.lookup j = some w) : (m.putOnce k v).lookup j = some w := by
  rw [lookup_putOnce, if_neg fun hjk => hjk.2 (hjk.1 ▸ mem_keys_of_lookup h), h]

def eraseAll [LinearOrder κ] (m : FMap κ ν) (ks : Finset κ) : FMap κ ν :=
  ks.sorted.foldl (fun acc k => acc.erase k) m

def constOn [LinearOrder κ] (ks : Finset κ) (v : ν) : FMap κ ν :=
  ks.sorted.foldl (fun acc k => acc.insert k v) ∅

theorem lookup_foldl_erase (m : FMap κ ν) (ks : List κ) (j : κ) :
    (ks.foldl (fun acc k => acc.erase k) m).lookup j = if j ∈ ks then none else m.lookup j := by
  induction ks generalizing m with
  | nil => simp
  | cons k ks ih =>
      rw [List.foldl_cons, ih, lookup_erase_eq]
      by_cases hj : j = k <;> simp [hj]

theorem lookup_eraseAll [LinearOrder κ] (m : FMap κ ν) (ks : Finset κ) (j : κ) :
    (m.eraseAll ks).lookup j = if j ∈ ks then none else m.lookup j := by
  rw [eraseAll, lookup_foldl_erase]
  simp only [Finset.mem_sorted]

theorem lookup_foldl_insert_const (m : FMap κ ν) (ks : List κ) (v : ν) (j : κ) :
    (ks.foldl (fun acc k => acc.insert k v) m).lookup j
      = if j ∈ ks then some v else m.lookup j := by
  induction ks generalizing m with
  | nil => simp
  | cons k ks ih =>
      rw [List.foldl_cons, ih, lookup_insert_eq]
      by_cases hj : j = k <;> simp [hj]

theorem lookup_constOn [LinearOrder κ] (ks : Finset κ) (v : ν) (j : κ) :
    (constOn ks v).lookup j = if j ∈ ks then some v else none := by
  rw [constOn, lookup_foldl_insert_const]
  simp only [Finset.mem_sorted, Finmap.lookup_empty]

/-- Drop the entries that `m` shares with `r`. -/
def eraseShared [LinearOrder κ] [DecidableEq ν] (m r : FMap κ ν) : FMap κ ν :=
  r.keys.sorted.foldl (fun acc k => if acc.lookup k = r.lookup k then acc.erase k else acc) m

theorem lookup_foldl_eraseShared [DecidableEq ν] (m r : FMap κ ν) {ks : List κ} (hks : ks.Nodup)
    (j : κ) :
    (ks.foldl (fun acc k => if acc.lookup k = r.lookup k then acc.erase k else acc) m).lookup j
      = if j ∈ ks ∧ m.lookup j = r.lookup j then none else m.lookup j := by
  induction ks generalizing m with
  | nil => simp
  | cons k ks ih =>
      obtain ⟨hk, hks⟩ := List.nodup_cons.mp hks
      rw [List.foldl_cons, ih _ hks]
      by_cases hj : j = k
      · subst hj
        by_cases hshared : m.lookup j = r.lookup j <;> simp [hk, hshared]
      · by_cases hshared : m.lookup k = r.lookup k <;> simp [hj, hshared]

theorem lookup_eraseShared [LinearOrder κ] [DecidableEq ν] (m r : FMap κ ν) (j : κ) :
    (m.eraseShared r).lookup j
      = if j ∈ r.keys ∧ m.lookup j = r.lookup j then none else m.lookup j := by
  rw [eraseShared, lookup_foldl_eraseShared m r (Finset.nodup_sorted _)]
  simp only [Finset.mem_sorted]

theorem lookup_of_lookup_eraseShared [LinearOrder κ] [DecidableEq ν] {m r : FMap κ ν} {j : κ}
    {v : ν}
    (h : (m.eraseShared r).lookup j = some v) : m.lookup j = some v := by
  rw [lookup_eraseShared] at h
  split_ifs at h
  exact h

/-- Store every entry of a list of bindings, later bindings winning. -/
def insertAll (m : FMap κ ν) (entries : List (κ × ν)) : FMap κ ν :=
  entries.foldl (fun acc e => acc.insert e.1 e.2) m

@[simp] theorem insertAll_nil (m : FMap κ ν) : m.insertAll [] = m := rfl

@[simp] theorem insertAll_cons (m : FMap κ ν) (e : κ × ν) (es : List (κ × ν)) :
    m.insertAll (e :: es) = FMap.insertAll (m.insert e.1 e.2) es := rfl

theorem insertAll_append (m : FMap κ ν) (es es' : List (κ × ν)) :
    m.insertAll (es ++ es') = FMap.insertAll (m.insertAll es) es' :=
  List.foldl_append

theorem lookup_insertAll_of_notMem (m : FMap κ ν) (es : List (κ × ν)) {k : κ}
    (h : k ∉ es.map Prod.fst) : (m.insertAll es).lookup k = m.lookup k := by
  induction es generalizing m with
  | nil => rfl
  | cons e es ih =>
      simp only [List.map_cons, List.mem_cons, not_or] at h
      rw [insertAll_cons, ih _ h.2, lookup_insert_eq, if_neg h.1]

theorem lookup_insertAll_of_mem (m : FMap κ ν) (es : List (κ × ν)) {k : κ}
    (h : k ∈ es.map Prod.fst) : ∃ e ∈ es, e.1 = k ∧ (m.insertAll es).lookup k = some e.2 := by
  induction es generalizing m with
  | nil => simp at h
  | cons e es ih =>
      by_cases hk : k ∈ es.map Prod.fst
      · obtain ⟨e', he', hfst, hlook⟩ := ih (m.insert e.1 e.2) hk
        exact ⟨e', List.mem_cons_of_mem e he', hfst, hlook⟩
      · have hek : k = e.1 := by simpa [hk] using h
        refine ⟨e, List.mem_cons_self, hek.symm, ?_⟩
        rw [insertAll_cons, lookup_insertAll_of_notMem _ _ hk, lookup_insert_eq, if_pos hek]

theorem mem_keys_insertAll {es : List (κ × ν)} {k : κ} :
    k ∈ (FMap.insertAll ∅ es).keys ↔ k ∈ es.map Prod.fst := by
  constructor
  · intro hk
    by_contra hnot
    rw [mem_keys_iff, lookup_insertAll_of_notMem _ _ hnot] at hk
    obtain ⟨v, hv⟩ := hk
    cases hv
  · intro hk
    obtain ⟨e, -, -, hlook⟩ := lookup_insertAll_of_mem ∅ es hk
    exact mem_keys_of_lookup hlook

theorem card_keys_insertAll_eq_iff {es : List (κ × ν)} :
    (FMap.insertAll ∅ es).keys.card = es.length ↔ (es.map Prod.fst).Nodup := by
  have hkeys : (FMap.insertAll ∅ es).keys = (es.map Prod.fst).toFinset := by
    ext k
    rw [mem_keys_insertAll, List.mem_toFinset]
  rw [hkeys, ← List.toFinset_card_eq_length_iff, List.length_map]

theorem lookup_insertAll_of_nodup {es : List (κ × ν)} (h : (es.map Prod.fst).Nodup) {e : κ × ν}
    (he : e ∈ es) : (FMap.insertAll ∅ es).lookup e.1 = some e.2 := by
  obtain ⟨e', he', hfst, hlook⟩ := lookup_insertAll_of_mem ∅ es (List.mem_map_of_mem he)
  obtain rfl : e' = e := List.inj_on_of_nodup_map h he' he hfst
  exact hlook

end FMap

theorem List.Nodup.mem_drop_iff {α : Type*} {l : List α} (hnodup : l.Nodup) {n : ℕ} {x : α} :
    x ∈ l.drop n ↔ x ∈ l ∧ x ∉ l.take n := by
  have hsplit : (l.take n ++ l.drop n).Nodup := by rwa [List.take_append_drop]
  have hmem : x ∈ l ↔ x ∈ l.take n ∨ x ∈ l.drop n := by
    rw [← List.mem_append, List.take_append_drop]
  constructor
  · intro hx
    exact ⟨List.mem_of_mem_drop hx, fun hn => (List.nodup_append.mp hsplit).2.2 x hn x hx rfl⟩
  · rintro ⟨hx, hn⟩
    exact (hmem.mp hx).resolve_left hn

theorem List.filter_eq_drop {α : Type*} {p : α → Bool} {l : List α} {n : ℕ}
    (hfront : ∀ a ∈ l.take n, p a = false) (hback : ∀ a ∈ l.drop n, p a = true) :
    l.filter p = l.drop n := by
  have hfront' : (l.take n).filter p = [] :=
    List.filter_eq_nil_iff.mpr fun a ha => by simp [hfront a ha]
  calc l.filter p = (l.take n ++ l.drop n).filter p := by rw [List.take_append_drop]
    _ = l.drop n := by
      rw [List.filter_append, hfront', List.filter_eq_self.mpr hback, List.nil_append]

theorem List.filter_insertionSort {α : Type*} {r : α → α → Prop} [DecidableRel r] {l : List α}
    {p : α → Bool} (h : ∀ a b, p a = true → p b = true → r a b) :
    (l.insertionSort r).filter p = l.filter p := by
  have hpair : (l.filter p).Pairwise r :=
    List.pairwise_iff_getElem.mpr fun i j hi hj _ =>
      h _ _ (List.mem_filter.mp (List.getElem_mem hi)).2
        (List.mem_filter.mp (List.getElem_mem hj)).2
  have hsub := (List.sublist_insertionSort hpair List.filter_sublist).filter p
  rw [List.filter_filter,
    show (fun a => p a && p a) = p from funext fun a => Bool.and_self _] at hsub
  exact (hsub.eq_of_length ((List.perm_insertionSort r l).filter p).length_eq.symm).symm

theorem List.flatMap_filter_congr {α β : Type*} {l : List α} {p q : α → Bool} {f : α → List β}
    (h : ∀ x ∈ l, p x ≠ q x → f x = []) : (l.filter p).flatMap f = (l.filter q).flatMap f := by
  induction l with
  | nil => rfl
  | cons x l ih =>
      obtain ⟨hx, hl⟩ := List.forall_mem_cons.mp h
      have hrest := ih hl
      by_cases hpq : p x = q x
      · cases hq : q x <;> simp [hpq, hq, hrest]
      · have hnil := hx hpq
        cases hp : p x <;> cases hq : q x <;> simp [hp, hq, hrest, hnil]
