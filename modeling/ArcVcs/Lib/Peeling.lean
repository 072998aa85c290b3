import Mathlib.Data.Finset.Basic
import Mathlib.Logic.Relation

/-!
# Peeling a set

The elements of a list are taken out of a set one after another, and each one that is in the set
is replaced by its successors. The list takes out an element if it holds a path to it, and the
element is no longer reached if the list holds all paths to it.
-/

namespace Peeling

variable {α : Type*} (succ : α → Finset α)

/-- The elements of a path from `a` to `x`. -/
inductive IsPath (x : α) : α → List α → Prop
  | last : IsPath x x [x]
  | step {a b : α} {p : List α} (hb : b ∈ succ a) (h : IsPath x b p) : IsPath x a (a :: p)

def PathFrom (front : Finset α) (x : α) (p : List α) : Prop := ∃ a ∈ front, IsPath succ x a p

def Reaches (front : Finset α) (x : α) : Prop :=
  ∃ a ∈ front, Relation.ReflTransGen (fun a b => b ∈ succ a) a x

variable [DecidableEq α]

/-- What is left of the set, and the elements that were taken out. -/
def peel (front : Finset α) : List α → Finset α × List α
  | [] => (front, [])
  | a :: as =>
      if a ∈ front then
        let (left, taken) := peel (front.erase a ∪ succ a) as
        (left, a :: taken)
      else peel front as

variable {succ} {front : Finset α} {a x : α} {as p q : List α}

/-! ## Paths -/

omit [DecidableEq α] in
theorem exists_isPath_iff :
    (∃ p, IsPath succ x a p) ↔ Relation.ReflTransGen (fun a b => b ∈ succ a) a x := by
  constructor
  · rintro ⟨p, hp⟩
    induction hp with
    | last => exact .refl
    | step hb _ ih => exact .head hb ih
  · intro h
    induction h using Relation.ReflTransGen.head_induction_on with
    | refl => exact ⟨_, .last⟩
    | head hb _ ih =>
        obtain ⟨p, hp⟩ := ih
        exact ⟨_, .step hb hp⟩

omit [DecidableEq α] in
theorem exists_pathFrom_iff : (∃ p, PathFrom succ front x p) ↔ Reaches succ front x := by
  constructor
  · rintro ⟨p, b, hb, hp⟩
    exact ⟨b, hb, exists_isPath_iff.mp ⟨p, hp⟩⟩
  · rintro ⟨b, hb, hreach⟩
    obtain ⟨p, hp⟩ := exists_isPath_iff.mpr hreach
    exact ⟨p, b, hb, hp⟩

omit [DecidableEq α] in
theorem reaches_congr {succ' : α → Finset α}
    (h : ∀ y, Reaches succ front y → succ' y = succ y) :
    Reaches succ' front x ↔ Reaches succ front x := by
  constructor
  · rintro ⟨a, ha, hreach⟩
    induction hreach with
    | refl => exact ⟨a, ha, .refl⟩
    | tail _ hstep ih =>
        have hstep' := hstep
        rw [h _ ih] at hstep'
        obtain ⟨b, hb, hreach⟩ := ih
        exact ⟨b, hb, hreach.tail hstep'⟩
  · rintro ⟨a, ha, hreach⟩
    refine ⟨a, ha, ?_⟩
    induction hreach with
    | refl => exact .refl
    | tail hreach hstep ih =>
        refine ih.tail ?_
        rw [h _ ⟨a, ha, hreach⟩]
        exact hstep

omit [DecidableEq α] in
theorem IsPath.eq_cons (h : IsPath succ x a p) : ∃ rest, p = a :: rest := by
  cases h with
  | last => exact ⟨_, rfl⟩
  | step _ _ => exact ⟨_, rfl⟩

omit [DecidableEq α] in
theorem IsPath.sublist_cons_iff {b : α} (h : IsPath succ x b p) (hne : b ≠ a) :
    p.Sublist (a :: as) ↔ p.Sublist as := by
  obtain ⟨rest, rfl⟩ := h.eq_cons
  rw [List.sublist_cons_iff]
  constructor
  · rintro (hsub | ⟨_, ⟨⟩, -⟩)
    · exact hsub
    · exact absurd rfl hne
  · exact .inl

omit [DecidableEq α] in
theorem PathFrom.sublist_cons_iff (h : PathFrom succ front x p) (ha : a ∉ front) :
    p.Sublist (a :: as) ↔ p.Sublist as := by
  obtain ⟨b, hb, hp⟩ := h
  have hne : b ≠ a := fun heq => ha (heq ▸ hb)
  exact IsPath.sublist_cons_iff hp hne

theorem pathFrom_peeled_iff :
    PathFrom succ (front.erase a ∪ succ a) x p
      ↔ (∃ b ∈ front, b ≠ a ∧ IsPath succ x b p) ∨ PathFrom succ (succ a) x p := by
  constructor
  · rintro ⟨b, hb, hp⟩
    rcases Finset.mem_union.mp hb with hb | hb
    · exact .inl ⟨b, Finset.mem_of_mem_erase hb, Finset.ne_of_mem_erase hb, hp⟩
    · exact .inr ⟨b, hb, hp⟩
  · rintro (⟨b, hb, hne, hp⟩ | ⟨b, hb, hp⟩)
    · exact ⟨b, Finset.mem_union_left _ (Finset.mem_erase.mpr ⟨hne, hb⟩), hp⟩
    · exact ⟨b, Finset.mem_union_right _ hb, hp⟩

/-- A path from the set before `a` was taken out. -/
theorem PathFrom.cases (h : PathFrom succ front x p) (a : α) :
    (∃ b ∈ front, b ≠ a ∧ IsPath succ x b p)
      ∨ (p = [a] ∧ x = a) ∨ ∃ rest, p = a :: rest ∧ PathFrom succ (succ a) x rest := by
  obtain ⟨b, hb, hp⟩ := h
  by_cases hne : b = a
  · subst hne
    cases hp with
    | last => exact .inr (.inl ⟨rfl, rfl⟩)
    | step hc hrest => exact .inr (.inr ⟨_, rfl, _, hc, hrest⟩)
  · exact .inl ⟨b, hb, hne, hp⟩

/-! ## What a list takes out -/

theorem left_eq_of_taken_eq_nil (h : (peel succ front as).2 = []) :
    (peel succ front as).1 = front := by
  induction as with
  | nil => rfl
  | cons a as ih =>
      by_cases ha : a ∈ front
      · simp [peel, ha] at h
      · rw [peel, if_neg ha] at h ⊢
        exact ih h

/-- **Taken out.** The list holds a path to the element. -/
theorem mem_taken_iff :
    x ∈ (peel succ front as).2 ↔ ∃ p, PathFrom succ front x p ∧ p.Sublist as := by
  induction as generalizing front with
  | nil =>
      refine iff_of_false List.not_mem_nil ?_
      rintro ⟨p, ⟨b, -, hp⟩, hsub⟩
      obtain ⟨rest, rfl⟩ := hp.eq_cons
      cases hsub
  | cons a as ih =>
      by_cases ha : a ∈ front
      · rw [peel, if_pos ha, List.mem_cons, ih]
        constructor
        · rintro (rfl | ⟨p, hp, hsub⟩)
          · exact ⟨[x], ⟨x, ha, .last⟩, List.singleton_sublist.mpr List.mem_cons_self⟩
          · rcases pathFrom_peeled_iff.mp hp with ⟨b, hb, -, hp⟩ | ⟨b, hb, hp⟩
            · exact ⟨p, ⟨b, hb, hp⟩, hsub.cons a⟩
            · exact ⟨a :: p, ⟨a, ha, .step hb hp⟩, hsub.cons_cons a⟩
        · rintro ⟨p, hp, hsub⟩
          rcases hp.cases a with ⟨b, hb, hne, hp⟩ | ⟨-, hx⟩ | ⟨rest, rfl, hrest⟩
          · refine .inr ⟨p, pathFrom_peeled_iff.mpr (.inl ⟨b, hb, hne, hp⟩), ?_⟩
            exact (hp.sublist_cons_iff hne).mp hsub
          · exact .inl hx
          · exact .inr ⟨rest, pathFrom_peeled_iff.mpr (.inr hrest), List.cons_sublist_cons.mp hsub⟩
      · rw [peel, if_neg ha, ih]
        exact exists_congr fun p => and_congr_right fun hp => (hp.sublist_cons_iff ha).symm

/-- **Out of reach.** The list holds every path to the element. -/
theorem not_reaches_left_iff :
    ¬ Reaches succ (peel succ front as).1 x ↔ ∀ p, PathFrom succ front x p → p.Sublist as := by
  induction as generalizing front with
  | nil =>
      rw [peel, ← exists_pathFrom_iff, not_exists]
      refine forall_congr' fun p => imp_congr_right ?_
      rintro ⟨b, -, hp⟩
      obtain ⟨rest, rfl⟩ := hp.eq_cons
      simp
  | cons a as ih =>
      by_cases ha : a ∈ front
      · rw [peel, if_pos ha]
        refine ih.trans ⟨fun h p hp => ?_, fun h p hp => ?_⟩
        · rcases hp.cases a with ⟨b, hb, hne, hp⟩ | ⟨rfl, -⟩ | ⟨rest, rfl, hrest⟩
          · exact (h p (pathFrom_peeled_iff.mpr (.inl ⟨b, hb, hne, hp⟩))).cons a
          · exact List.singleton_sublist.mpr List.mem_cons_self
          · exact (h rest (pathFrom_peeled_iff.mpr (.inr hrest))).cons_cons a
        · rcases pathFrom_peeled_iff.mp hp with ⟨b, hb, hne, hp⟩ | ⟨b, hb, hp⟩
          · exact (hp.sublist_cons_iff hne).mp (h p ⟨b, hb, hp⟩)
          · exact List.cons_sublist_cons.mp (h (a :: p) ⟨a, ha, .step hb hp⟩)
      · rw [peel, if_neg ha]
        exact ih.trans (forall_congr' fun p => imp_congr_right fun hp =>
          (hp.sublist_cons_iff ha).symm)

theorem reaches_of_reaches_left (h : Reaches succ (peel succ front as).1 x) :
    Reaches succ front x := by
  by_contra hfront
  refine not_reaches_left_iff.mpr (fun p hp => ?_) h
  exact absurd (exists_pathFrom_iff.mp ⟨p, hp⟩) hfront

/-- The list takes out exactly what it names if, with a path to an element, it holds all paths
to that element. -/
theorem reaches_left_eq_iff :
    {x | Reaches succ (peel succ front as).1 x}
        = {x | Reaches succ front x} \ {x | x ∈ (peel succ front as).2}
      ↔ ∀ x p q, PathFrom succ front x p → PathFrom succ front x q → p.Sublist as
        → q.Sublist as := by
  constructor
  · intro h x p q hp hq hsub
    have htaken : x ∈ (peel succ front as).2 := mem_taken_iff.mpr ⟨p, hp, hsub⟩
    have hleft : ¬ Reaches succ (peel succ front as).1 x := fun hreach =>
      (h.subset hreach).2 htaken
    exact not_reaches_left_iff.mp hleft q hq
  · intro h
    ext x
    constructor
    · intro hleft
      obtain ⟨q, hq, hnot⟩ : ∃ q, PathFrom succ front x q ∧ ¬ q.Sublist as := by
        by_contra hall
        push Not at hall
        exact not_reaches_left_iff.mpr hall hleft
      refine ⟨exists_pathFrom_iff.mp ⟨q, hq⟩, fun htaken => hnot ?_⟩
      obtain ⟨p, hp, hsub⟩ := mem_taken_iff.mp htaken
      exact h x p q hp hq hsub
    · rintro ⟨hreach, htaken⟩
      by_contra hleft
      obtain ⟨p, hp⟩ := exists_pathFrom_iff.mpr hreach
      exact htaken (mem_taken_iff.mpr ⟨p, hp, not_reaches_left_iff.mp hleft p hp⟩)

end Peeling
