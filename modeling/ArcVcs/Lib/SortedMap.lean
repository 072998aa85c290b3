import ArcVcs.Lib.Collections
import Mathlib.Data.List.Sort

/-!
# Maps as lists sorted by their keys

A map in the order of its keys, whose lookup is `List.lookup`. The list is literal, so that a tree
may hold such a map of its own subtrees.
-/

namespace SortedMap

variable {α β : Type*} [LinearOrder α]

def insert (k : α) (v : β) : List (α × β) → List (α × β)
  | [] => [(k, v)]
  | (k', v') :: m =>
      if k < k' then (k, v) :: (k', v') :: m
      else if k = k' then (k, v) :: m
      else (k', v') :: insert k v m

def Sorted (m : List (α × β)) : Prop := m.Pairwise fun a b => a.1 < b.1

variable {k j : α} {v w : β} {m m' : List (α × β)}

theorem lookup_cons (e : α × β) :
    (e :: m).lookup j = if j = e.1 then some e.2 else m.lookup j := by
  rw [List.lookup_cons]
  split_ifs with h
  · rw [beq_iff_eq.mpr h]
  · rw [beq_eq_false_iff_ne.mpr h]

theorem lookup_insert : (insert k v m).lookup j = if j = k then some v else m.lookup j := by
  induction m with
  | nil => exact lookup_cons _
  | cons e m ih =>
      rw [insert, apply_ite (List.lookup j), apply_ite (List.lookup j)]
      simp only [lookup_cons, ih]
      by_cases hlt : k < e.1
      · rw [if_pos hlt]
      · rw [if_neg hlt]
        by_cases heq : k = e.1
        · rw [if_pos heq, heq]
          by_cases hj : j = e.1
          · rw [if_pos hj, if_pos hj]
          · rw [if_neg hj, if_neg hj, if_neg hj]
        · rw [if_neg heq]
          by_cases hj : j = e.1
          · rw [if_pos hj, if_pos hj, if_neg fun h => heq (h.symm.trans hj)]
          · rw [if_neg hj, if_neg hj]

theorem mem_of_mem_insert {e : α × β} (h : e ∈ insert k v m) : e = (k, v) ∨ e ∈ m := by
  induction m with
  | nil => exact Or.inl (by simpa [insert] using h)
  | cons e' m ih =>
      rw [insert] at h
      split_ifs at h
      · exact List.mem_cons.mp h
      · rcases List.mem_cons.mp h with rfl | hmem
        · exact Or.inl rfl
        · exact Or.inr (List.mem_cons_of_mem _ hmem)
      · rcases List.mem_cons.mp h with rfl | hmem
        · exact Or.inr List.mem_cons_self
        · exact (ih hmem).imp_right (List.mem_cons_of_mem _)

theorem sorted_nil : Sorted ([] : List (α × β)) := List.Pairwise.nil

theorem Sorted.insert (h : Sorted m) : Sorted (insert k v m) := by
  induction m with
  | nil => exact List.pairwise_singleton _ _
  | cons e m ih =>
      obtain ⟨hhead, htail⟩ := List.pairwise_cons.mp h
      rw [SortedMap.insert]
      split_ifs with hlt heq
      · refine h.cons fun e' he' => ?_
        rcases List.mem_cons.mp he' with rfl | hmem
        · exact hlt
        · exact hlt.trans (hhead e' hmem)
      · subst heq
        exact htail.cons hhead
      · refine List.Pairwise.cons (fun e' he' => ?_) (ih htail)
        rcases mem_of_mem_insert he' with rfl | hmem
        · exact lt_of_le_of_ne (not_lt.mp hlt) (Ne.symm heq)
        · exact hhead e' hmem

theorem Sorted.mem_iff (h : Sorted m) : (k, v) ∈ m ↔ m.lookup k = some v := by
  induction m with
  | nil => simp
  | cons e m ih =>
      obtain ⟨hhead, htail⟩ := List.pairwise_cons.mp h
      rw [List.mem_cons, lookup_cons, ih htail]
      by_cases hk : k = e.1
      · subst hk
        have hnone : m.lookup e.1 ≠ some v := fun hlook =>
          (hhead (e.1, v) ((ih htail).mpr hlook)).ne rfl
        simp [hnone, Prod.ext_iff, eq_comm]
      · have hne : (k, v) ≠ e := fun heq => hk (congrArg Prod.fst heq)
        simp [hne, hk]

theorem Sorted.nodup_keys (h : Sorted m) : (m.map Prod.fst).Nodup :=
  List.pairwise_map.mpr (h.imp fun hlt => hlt.ne)

theorem Sorted.ext (h : Sorted m) (h' : Sorted m') (heq : ∀ k, m.lookup k = m'.lookup k) :
    m = m' := by
  have hperm : m.Perm m' := by
    refine (List.perm_ext_iff_of_nodup h.nodup_keys.of_map h'.nodup_keys.of_map).mpr ?_
    intro e
    rw [h.mem_iff, h'.mem_iff, heq]
  exact hperm.eq_of_pairwise (fun a b _ _ hab hba => absurd (hab.trans hba) (lt_irrefl _)) h h'

/-! ## The entries of a finite map -/

def ofMap (m : FMap α β) : List (α × β) :=
  m.keys.sorted.filterMap fun k => (m.lookup k).map fun v => (k, v)

theorem mem_ofMap_iff {m : FMap α β} : (k, v) ∈ ofMap m ↔ m.lookup k = some v := by
  simp only [ofMap, List.mem_filterMap, Finset.mem_sorted, Option.map_eq_some_iff, Prod.mk.injEq]
  constructor
  · rintro ⟨k', -, v', hlook, rfl, rfl⟩
    exact hlook
  · exact fun hlook => ⟨k, FMap.mem_keys_of_lookup hlook, v, hlook, rfl, rfl⟩

theorem map_fst_ofMap (m : FMap α β) : (ofMap m).map Prod.fst = m.keys.sorted := by
  rw [ofMap, List.map_filterMap, List.filterMap_eq_map_iff_forall_eq_some.mpr, List.map_id]
  intro k hk
  obtain ⟨v, hv⟩ := FMap.mem_keys_iff.mp (Finset.mem_sorted.mp hk)
  simp [hv]

end SortedMap

/-!
## Grouping

A map that is filled through the entries of its keys: each element updates what is stored under its
key. What a key has in the end are the updates by its elements, one after the other.
-/

theorem List.forall₂_filterMap {α β : Type*} {R : α → β → Prop} {f : α → Option β} {l : List α}
    (h : ∀ a ∈ l, ∃ b, f a = some b ∧ R a b) : List.Forall₂ R l (l.filterMap f) := by
  induction l with
  | nil => exact .nil
  | cons a l ih =>
      obtain ⟨b, hb, hR⟩ := h a List.mem_cons_self
      rw [List.filterMap_cons_some hb]
      exact .cons hR (ih fun a' ha' => h a' (List.mem_cons_of_mem _ ha'))

namespace FMap

variable {α κ ν : Type*} [DecidableEq κ]

/-- Update what is stored under a key, which may be nothing. -/
def entry (m : FMap κ ν) (key : κ) (f : Option ν → ν) : FMap κ ν :=
  m.insert key (f (m.lookup key))

theorem lookup_entry (m : FMap κ ν) (key other : κ) (f : Option ν → ν) :
    (m.entry key f).lookup other = if other = key then some (f (m.lookup key))
      else m.lookup other :=
  lookup_insert_eq m key other _

/-- The map after the updates by all elements that have a key. -/
def group (key : α → Option κ) (f : α → Option ν → ν) (l : List α) : FMap κ ν :=
  l.foldl (fun m a => (key a).elim m fun k => m.entry k (f a)) ∅

theorem lookup_foldl_entry (key : α → Option κ) (f : α → Option ν → ν) (l : List α)
    (m : FMap κ ν) (k : κ) :
    (l.foldl (fun m a => (key a).elim m fun k => m.entry k (f a)) m).lookup k
      = (l.filter fun a => decide (key a = some k)).foldl (fun o a => some (f a o))
          (m.lookup k) := by
  induction l generalizing m with
  | nil => rfl
  | cons a l ih =>
      rw [List.foldl_cons, ih]
      by_cases h : key a = some k
      · rw [List.filter_cons_of_pos (by simpa using h), List.foldl_cons, h, Option.elim_some,
          lookup_entry, if_pos rfl]
      · rw [List.filter_cons_of_neg (by simpa using h)]
        cases hkey : key a with
        | none => rfl
        | some other =>
            rw [Option.elim_some, lookup_entry, if_neg]
            rintro rfl
            exact h hkey

theorem lookup_group (key : α → Option κ) (f : α → Option ν → ν) (l : List α) (k : κ) :
    (group key f l).lookup k
      = (l.filter fun a => decide (key a = some k)).foldl (fun o a => some (f a o)) none :=
  lookup_foldl_entry key f l ∅ k

theorem foldl_some_getD (g : ν → α → ν) (start : ν) (l : List α) :
    l.foldl (fun o a => some (g (o.getD start) a)) none
      = if l = [] then none else some (l.foldl g start) := by
  have hsome : ∀ (l : List α) (v : ν),
      l.foldl (fun o a => some (g (o.getD start) a)) (some v) = some (l.foldl g v) := by
    intro l
    induction l with
    | nil => exact fun _ => rfl
    | cons a l ih => exact fun v => ih (g v a)
  cases l with
  | nil => rfl
  | cons a l => exact hsome l (g start a)

theorem mem_keys_group_iff {key : α → Option κ} {f : α → Option ν → ν} {l : List α} {k : κ} :
    k ∈ (group key f l).keys ↔ ∃ a ∈ l, key a = some k := by
  have hnone : ∀ (l : List α) (o : Option ν),
      l.foldl (fun o a => some (f a o)) o = none ↔ l = [] ∧ o = none := by
    intro l
    induction l with
    | nil => simp
    | cons a l ih => simp [ih]
  rw [← not_iff_not, notMem_keys_iff, lookup_group, hnone, and_iff_left rfl,
    List.filter_eq_nil_iff]
  simp

end FMap
