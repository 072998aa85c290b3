import Mathlib.Data.Nat.Notation
import Mathlib.Logic.Function.Basic

/-!
# Exclusive files

A file belongs to the process that creates it until this process removes it. Any process may remove
the file of a dead one. Then every live owner finds its own file, so there is at most one.
-/

/-- The file with its number and creator, the number under which each process owns it, and which
processes live. -/
structure ExclusiveFile (ι : Type*) where
  file : Option (ℕ × ι)
  owned : ι → Option ℕ
  alive : ι → Bool

namespace ExclusiveFile

variable {ι : Type*} [DecidableEq ι] {s t : ExclusiveFile ι} {actor : Option ι}

/-- What a process, or nobody, does to the file. -/
inductive Step (s : ExclusiveFile ι) : Option ι → ExclusiveFile ι → Prop
  | stay (actor : Option ι) : Step s actor s
  | forget (i : ι) : Step s (some i) { s with owned := Function.update s.owned i none }
  | create {i : ι} {n : ℕ} (hfree : s.file = none) : Step s (some i)
      { s with file := some (n, i), owned := Function.update s.owned i (some n) }
  | remove {i : ι} {n : ℕ} (halive : s.alive i = true) (hown : s.owned i = some n) :
      Step s (some i) { s with file := none, owned := Function.update s.owned i none }
  | reap {i : ι} (hdead : ∀ f, s.file = some f → s.alive f.2 = false) :
      Step s (some i) { s with file := none, owned := Function.update s.owned i none }
  | die (i : ι) : Step s none { s with alive := Function.update s.alive i false }

/-- Every live owner finds its own file. -/
def Exclusive (s : ExclusiveFile ι) : Prop :=
  ∀ i n, s.alive i = true → s.owned i = some n → s.file = some (n, i)

omit [DecidableEq ι] in
/-- **There is one live owner.** -/
theorem Exclusive.eq_of_owned (h : s.Exclusive) {i j : ι} {n m : ℕ} (hi : s.alive i = true)
    (hj : s.alive j = true) (hn : s.owned i = some n) (hm : s.owned j = some m) : i = j := by
  have hfile : some (n, i) = some (m, j) := (h i n hi hn).symm.trans (h j m hj hm)
  exact congrArg Prod.snd (Option.some_inj.mp hfile)

omit [DecidableEq ι] in
theorem Exclusive.owned_eq_none (h : s.Exclusive)
    (hdead : ∀ f, s.file = some f → s.alive f.2 = false) {i : ι} (hi : s.alive i = true) :
    s.owned i = none := by
  cases hown : s.owned i with
  | none => rfl
  | some n =>
      have hcreator := hdead _ (h i n hi hown)
      rw [hi] at hcreator
      cases hcreator

theorem owned_of_update {i j : ι} {o : Option ℕ} {m : ℕ}
    (h : Function.update s.owned i o j = some m) :
    j = i ∧ o = some m ∨ j ≠ i ∧ s.owned j = some m := by
  by_cases hji : j = i
  · subst hji
    rw [Function.update_self] at h
    exact .inl ⟨rfl, h⟩
  · rw [Function.update_of_ne hji] at h
    exact .inr ⟨hji, h⟩

/-- **A step keeps the file exclusive.** -/
theorem Exclusive.step (h : s.Exclusive) (hstep : Step s actor t) : t.Exclusive := by
  intro j m hj hm
  cases hstep with
  | stay => exact h j m hj hm
  | forget i =>
      obtain ⟨-, hnone⟩ | ⟨-, hown⟩ := owned_of_update hm
      · cases hnone
      · exact h j m hj hown
  | @create i n hfree =>
      obtain ⟨rfl, hn⟩ | ⟨-, hown⟩ := owned_of_update hm
      · rw [Option.some_inj.mp hn]
      · -- another owner would have its file in the place that is free
        have hfile := h j m hj hown
        rw [hfree] at hfile
        cases hfile
  | @remove i n halive hi =>
      obtain ⟨-, hnone⟩ | ⟨hne, hown⟩ := owned_of_update hm
      · cases hnone
      · exact absurd (h.eq_of_owned hj halive hown hi) hne
  | reap hdead =>
      obtain ⟨-, hnone⟩ | ⟨-, hown⟩ := owned_of_update hm
      · cases hnone
      · rw [h.owned_eq_none hdead hj] at hown
        cases hown
  | die i =>
      have hlive : s.alive j = true := by
        by_cases hji : j = i
        · simp [hji] at hj
        · simpa [Function.update_of_ne hji] using hj
      exact h j m hlive hm

/-- **A file is removed by its creator, or after the death of its creator.** -/
theorem Exclusive.removes_own (h : s.Exclusive) (hstep : Step s actor t) {f : ℕ × ι}
    (hfile : s.file = some f) (hgone : t.file ≠ some f) :
    actor = some f.2 ∨ s.alive f.2 = false := by
  cases hstep with
  | stay => exact absurd hfile hgone
  | forget i => exact absurd hfile hgone
  | create hfree =>
      rw [hfree] at hfile
      cases hfile
  | @remove i n halive hown =>
      rw [h i n halive hown] at hfile
      exact .inl (congrArg (fun f : ℕ × ι => some f.2) (Option.some_inj.mp hfile))
  | reap hdead => exact .inr (hdead f hfile)
  | die i => exact absurd hfile hgone

end ExclusiveFile
