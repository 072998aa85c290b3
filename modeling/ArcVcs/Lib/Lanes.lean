import Mathlib.Data.Finset.Basic
import Mathlib.Data.List.InsertIdx
import Mathlib.Data.List.Nodup
import Mathlib.Data.Option.Basic

/-!
# Lanes

Lists edited at an index, where every edit checks its bound, and the dependencies that stay
open while the nodes of a graph are drawn one after another.
-/

namespace Lanes

variable {α : Type*}

/-! ## Checked edits -/

def insertAt (l : List α) (i : ℕ) (a : α) : Option (List α) :=
  if i ≤ l.length then some (l.insertIdx i a) else none

def removeAt (l : List α) (i : ℕ) : Option (List α) :=
  if i < l.length then some (l.eraseIdx i) else none

def assignAt (l : List α) (i : ℕ) (a : α) : Option (List α) :=
  if i < l.length then some (l.set i a) else none

@[simp] theorem insertAt_eq_some_iff {l l' : List α} {i : ℕ} {a : α} :
    insertAt l i a = some l' ↔ i ≤ l.length ∧ l.insertIdx i a = l' := by
  simp [insertAt]

theorem removeAt_length (left right : List α) (a : α) :
    removeAt (left ++ a :: right) left.length = some (left ++ right) := by
  simp [removeAt, List.eraseIdx_append_of_length_le]

theorem assignAt_length (left right : List α) (a b : α) :
    assignAt (left ++ a :: right) left.length b = some (left ++ b :: right) := by
  simp [assignAt, List.set_append_right]

theorem nodup_eraseDups [DecidableEq α] (l : List α) : l.eraseDups.Nodup := by
  induction hn : l.length using Nat.strong_induction_on generalizing l with
  | _ n ih =>
      cases l with
      | nil => simp
      | cons a l =>
          have hlt : (l.filter fun b => !b == a).length < n := by
            have hle := List.length_filter_le (fun b => !b == a) l
            rw [List.length_cons] at hn
            omega
          rw [List.eraseDups_cons, List.nodup_cons]
          refine ⟨fun hmem => ?_, ih _ hlt _ rfl⟩
          simpa using (List.mem_filter.mp (List.mem_eraseDups.mp hmem)).2

/-! ## Missing elements -/

section Missing

variable [DecidableEq α] {base offset : ℕ} {items l l' : List α}

def insertMissing (base : ℕ) (items : List (α × ℕ)) (l : List α) : Option (List α) :=
  items.foldlM (fun l (a, offset) => if a ∈ l then some l else insertAt l (base + offset) a) l

theorem insertMissing_cons_of_mem {a : α} (h : a ∈ l) :
    insertMissing base ((a :: items).zipIdx offset) l
      = insertMissing base (items.zipIdx (offset + 1)) l := by
  simp [insertMissing, h]

theorem insertMissing_cons_of_notMem {a : α} (h : a ∉ l) :
    insertMissing base ((a :: items).zipIdx offset) l
      = (insertAt l (base + offset) a).bind
          (insertMissing base (items.zipIdx (offset + 1))) := by
  simp only [insertMissing, List.zipIdx_cons, List.foldlM_cons, if_neg h]
  rfl

theorem mem_insertMissing (h : insertMissing base (items.zipIdx offset) l = some l') (b : α) :
    b ∈ l' ↔ b ∈ l ∨ b ∈ items := by
  induction items generalizing offset l with
  | nil =>
      obtain rfl : l = l' := by simpa [insertMissing] using h
      simp
  | cons a items ih =>
      by_cases ha : a ∈ l
      · rw [insertMissing_cons_of_mem ha] at h
        rw [ih h, List.mem_cons]
        constructor
        · exact Or.imp_right Or.inr
        · rintro (hb | rfl | hb)
          exacts [.inl hb, .inl ha, .inr hb]
      · rw [insertMissing_cons_of_notMem ha] at h
        obtain ⟨next, hnext, h⟩ := Option.bind_eq_some_iff.mp h
        obtain ⟨hle, rfl⟩ := insertAt_eq_some_iff.mp hnext
        rw [ih h, List.mem_insertIdx hle, List.mem_cons]
        tauto

/-- An element is inserted at an index that counts the elements before it, but the list has
grown only by those that were missing. -/
theorem insertMissing_isSome_iff (hitems : items.Nodup) :
    (insertMissing base (items.zipIdx offset) l).isSome
      ↔ ∀ i (hi : i < items.length), items[i] ∉ l →
          base + offset + (items.take i).countP (· ∈ l) ≤ l.length := by
  induction items generalizing offset l with
  | nil => simp [insertMissing]
  | cons a items ih =>
      obtain ⟨hnew, hitems⟩ := List.nodup_cons.mp hitems
      by_cases ha : a ∈ l
      · rw [insertMissing_cons_of_mem ha, ih hitems]
        constructor
        · rintro h (_ | i) hi hmem
          · exact absurd ha hmem
          · have hle := h i (by simpa using hi) hmem
            rw [List.take_succ_cons, List.countP_cons_of_pos (by simpa using ha)]
            omega
        · intro h i hi hmem
          have hle := h (i + 1) (by simpa using hi) hmem
          rw [List.take_succ_cons, List.countP_cons_of_pos (by simpa using ha)] at hle
          omega
      · rw [insertMissing_cons_of_notMem ha]
        by_cases hle : base + offset ≤ l.length
        · have hcount (i : ℕ) : (items.take i).countP (· ∈ l.insertIdx (base + offset) a)
              = (items.take i).countP (· ∈ l) := by
            refine List.countP_congr fun b hb => ?_
            have hne : b ≠ a := fun heq => hnew (heq ▸ List.mem_of_mem_take hb)
            simp [List.mem_insertIdx hle, hne]
          rw [insertAt, if_pos hle, Option.bind_some, ih hitems,
            List.length_insertIdx_of_le_length hle]
          constructor
          · rintro h (_ | i) hi hmem
            · simpa using hle
            · have hi : i < items.length := by simpa using hi
              have hne : items[i] ≠ a := fun heq => hnew (heq ▸ List.getElem_mem hi)
              have hlt := h i hi (by simpa [List.mem_insertIdx hle, hne] using hmem)
              rw [hcount] at hlt
              rw [List.take_succ_cons, List.countP_cons_of_neg (by simpa using ha)]
              omega
          · intro h i hi hmem
            have hlt := h (i + 1) (by simpa using hi) fun hl =>
              hmem ((List.mem_insertIdx hle).mpr (.inr hl))
            rw [List.take_succ_cons, List.countP_cons_of_neg (by simpa using ha)] at hlt
            rw [hcount]
            omega
        · rw [insertAt, if_neg hle]
          refine iff_of_false (by simp) fun h => hle ?_
          simpa using h 0 (by simp) ha

end Missing

/-! ## Open dependencies -/

section Open

variable {ν : Type*} {key : ν → α} {deps : ν → Finset α} {all done : List ν}

/-- A dependency of a node that is done which is itself among the nodes and not done. -/
structure IsOpen (key : ν → α) (deps : ν → Finset α) (all done : List ν) (a : α) : Prop where
  visible : a ∈ all.map key
  needed : ∃ n ∈ done, a ∈ deps n
  pending : a ∉ done.map key

theorem not_isOpen_nil (a : α) : ¬ IsOpen key deps all [] a :=
  fun h => by simpa using h.needed

theorem not_isOpen_all (a : α) : ¬ IsOpen key deps all all a := fun h => h.pending h.visible

theorem isOpen_snoc_iff {n : ν} (hafter : ∀ m ∈ done ++ [n], key m ∉ deps n) (a : α) :
    IsOpen key deps all (done ++ [n]) a
      ↔ (IsOpen key deps all done a ∧ a ≠ key n) ∨ (a ∈ deps n ∧ a ∈ all.map key) := by
  constructor
  · rintro ⟨hvisible, ⟨m, hm, hneeded⟩, hpending⟩
    simp only [List.map_append, List.map_cons, List.map_nil, List.mem_append, not_or,
      List.mem_singleton] at hpending
    rcases List.mem_append.mp hm with hm | hm
    · exact .inl ⟨⟨hvisible, ⟨m, hm, hneeded⟩, hpending.1⟩, hpending.2⟩
    · obtain rfl := List.mem_singleton.mp hm
      exact .inr ⟨hneeded, hvisible⟩
  · rintro (⟨⟨hvisible, ⟨m, hm, hneeded⟩, hpending⟩, hne⟩ | ⟨hneeded, hvisible⟩)
    · refine ⟨hvisible, ⟨m, List.mem_append_left _ hm, hneeded⟩, ?_⟩
      simpa using ⟨by simpa using hpending, hne⟩
    · refine ⟨hvisible, ⟨n, by simp, hneeded⟩, fun hmem => ?_⟩
      obtain ⟨m, hm, rfl⟩ := List.mem_map.mp hmem
      exact hafter m hm hneeded

end Open

end Lanes
