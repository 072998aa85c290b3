import Mathlib.Algebra.BigOperators.Group.List.Basic
import Mathlib.Data.Finset.Lattice.Fold
import Mathlib.Data.List.Nodup
import Mathlib.Data.List.Perm.Basic
import Mathlib.Logic.Relation

/-!
# Products over linear extensions

A list respects a relation when no element stands before one that must precede it.
If unrelated elements commute, all arrangements of the same elements that respect
the relation have the same product.
-/

namespace LinearExtension

variable {α M : Type*} [Monoid M]

/-- No element of the list stands before an element that precedes it. -/
def Respects (r : α → α → Prop) (l : List α) : Prop :=
  l.Pairwise fun a b => ¬ r b a

theorem Respects.filter {r : α → α → Prop} {l : List α} (p : α → Bool) (h : Respects r l) :
    Respects r (l.filter p) :=
  List.Pairwise.filter p h

theorem Respects.sublist {r : α → α → Prop} {l₁ l₂ : List α} (h : Respects r l₂)
    (hs : l₁.Sublist l₂) : Respects r l₁ :=
  List.Pairwise.sublist hs h

theorem Respects.idxOf_lt [DecidableEq α] {r : α → α → Prop} {l : List α} (h : Respects r l)
    {a b : α} (ha : a ∈ l) (hb : b ∈ l) (hne : a ≠ b) (hab : r a b) :
    l.idxOf a < l.idxOf b := by
  rcases Nat.lt_trichotomy (l.idxOf a) (l.idxOf b) with hlt | heq | hgt
  · exact hlt
  · exact absurd ((List.idxOf_inj ha).mp heq) hne
  · have hla := List.idxOf_lt_length_of_mem ha
    have hlb := List.idxOf_lt_length_of_mem hb
    have hnot := List.pairwise_iff_getElem.mp h _ _ hlb hla hgt
    rw [List.getElem_idxOf, List.getElem_idxOf] at hnot
    exact absurd hab hnot

theorem Respects.transGen [DecidableEq α] {r : α → α → Prop} {l : List α} (h : Respects r l)
    (hnodup : l.Nodup) (hirr : ∀ a, ¬ r a a) (hclosed : ∀ b ∈ l, ∀ a, r a b → a ∈ l) :
    Respects (Relation.TransGen r) l := by
  have hlt : ∀ {a b}, Relation.TransGen r a b → b ∈ l → a ∈ l ∧ l.idxOf a < l.idxOf b := by
    intro a b hab
    induction hab with
    | single hab =>
        intro hb
        have ha := hclosed _ hb _ hab
        exact ⟨ha, h.idxOf_lt ha hb (fun heq => hirr _ (heq ▸ hab)) hab⟩
    | tail _ hbc ih =>
        intro hc
        have hb := hclosed _ hc _ hbc
        have hstep := h.idxOf_lt hb hc (fun heq => hirr _ (heq ▸ hbc)) hbc
        exact ⟨(ih hb).1, Nat.lt_trans (ih hb).2 hstep⟩
  refine List.pairwise_iff_getElem.mpr fun i j hi hj hij hr => ?_
  have hidx := (hlt hr (List.getElem_mem hi)).2
  rw [hnodup.idxOf_getElem j hj, hnodup.idxOf_getElem i hi] at hidx
  omega

theorem Respects.eq_filter_append_filter {r : α → α → Prop} {l : List α} (p : α → Prop)
    [DecidablePred p] (h : Respects r l) (hp : ∀ a ∈ l, ∀ b ∈ l, p a → ¬ p b → r a b) :
    l = l.filter (fun a => decide (p a)) ++ l.filter fun a => decide (¬ p a) := by
  induction l with
  | nil => rfl
  | cons a l ih =>
      obtain ⟨ha, hl⟩ := List.pairwise_cons.mp h
      have hrec := ih hl fun b hb c hc => hp b (.tail _ hb) c (.tail _ hc)
      by_cases hpa : p a
      · rw [List.filter_cons_of_pos (by simpa using hpa),
          List.filter_cons_of_neg (by simpa using hpa), List.cons_append, ← hrec]
      · have hnone : l.filter (fun b => decide (p b)) = [] := by
          refine List.filter_eq_nil_iff.mpr fun b hb hpb => ?_
          exact ha b hb (hp b (.tail _ hb) a List.mem_cons_self (of_decide_eq_true hpb) hpa)
        have hall : l.filter (fun b => decide (¬ p b)) = l := by
          rw [hnone, List.nil_append] at hrec
          exact hrec.symm
        rw [List.filter_cons_of_neg (by simpa using hpa),
          List.filter_cons_of_pos (by simpa using hpa), hnone, hall, List.nil_append]

theorem Respects.eq_of_perm {r : α → α → Prop} {l₁ l₂ : List α} (hperm : l₁.Perm l₂)
    (h₁ : Respects r l₁) (h₂ : Respects r l₂)
    (htotal : ∀ a ∈ l₁, ∀ b ∈ l₁, a ≠ b → r a b ∨ r b a) : l₁ = l₂ := by
  refine hperm.eq_of_pairwise (fun a b ha hb hab hba => ?_) h₁ h₂
  by_contra hne
  rcases htotal a ha b (hperm.symm.subset hb) hne with h | h
  · exact hba h
  · exact hab h

/-! ## Orders of a finite set -/

/-- The list has the elements of `S`, each once and none before one that precedes it. -/
structure Extends (r : α → α → Prop) (S : Finset α) (l : List α) : Prop where
  nodup : l.Nodup
  mem_iff : ∀ a, a ∈ l ↔ a ∈ S
  respects : Respects r l

namespace Extends

variable {r : α → α → Prop} {S : Finset α} {l u v w : List α} {a b : α}

theorem mem_left (h : Extends r S (u ++ a :: v)) (hb : b ∈ S) (hne : b ≠ a) (hba : r b a) :
    b ∈ u := by
  have hmem := (h.mem_iff b).mpr hb
  rw [List.mem_append, List.mem_cons] at hmem
  rcases hmem with hmem | rfl | hmem
  · exact hmem
  · exact absurd rfl hne
  · have hafter := (List.pairwise_append.mp h.respects).2.1
    exact absurd hba ((List.pairwise_cons.mp hafter).1 b hmem)

theorem not_rel (h : Extends r S (u ++ a :: v)) (hb : b ∈ u) : ¬ r a b :=
  (List.pairwise_append.mp h.respects).2.2 b hb a List.mem_cons_self

theorem exists_sorted (h : Extends r S l) (rank : α → ℕ)
    (hmono : ∀ a ∈ S, ∀ b ∈ S, r a b → rank a ≤ rank b) :
    ∃ l', Extends r S l' ∧ l'.Pairwise fun a b => rank a ≤ rank b := by
  obtain ⟨n, hn⟩ : ∃ n, ∀ a ∈ S, rank a < n :=
    ⟨S.sup rank + 1, fun a ha => Nat.lt_succ_of_le (Finset.le_sup ha)⟩
  let parts : ℕ → List α := fun k => l.filter fun a => rank a = k
  have hrank : ∀ {k a}, a ∈ parts k → a ∈ S ∧ rank a = k := by
    intro k a ha
    obtain ⟨hmem, hk⟩ := List.mem_filter.mp ha
    exact ⟨(h.mem_iff a).mp hmem, of_decide_eq_true hk⟩
  refine ⟨(List.range n).flatMap parts, ⟨?_, fun a => ?_, ?_⟩, ?_⟩
  · refine List.nodup_flatMap.mpr ⟨fun k _ => h.nodup.filter _, ?_⟩
    refine List.pairwise_lt_range.imp fun {i j} hij a hi hj => ?_
    exact hij.ne ((hrank hi).2.symm.trans (hrank hj).2)
  · rw [List.mem_flatMap]
    constructor
    · rintro ⟨k, -, ha⟩
      exact (hrank ha).1
    · intro ha
      exact ⟨rank a, List.mem_range.mpr (hn a ha),
        List.mem_filter.mpr ⟨(h.mem_iff a).mpr ha, decide_eq_true rfl⟩⟩
  · refine List.pairwise_flatMap.mpr ⟨fun k _ => h.respects.filter _, ?_⟩
    refine List.pairwise_lt_range.imp fun {i j} hij a ha b hb hba => ?_
    have hle := hmono b (hrank hb).1 a (hrank ha).1 hba
    rw [(hrank ha).2, (hrank hb).2] at hle
    omega
  · refine List.pairwise_flatMap.mpr ⟨fun k _ => ?_, ?_⟩
    · exact List.pairwise_of_forall_mem_list fun a ha b hb =>
        ((hrank ha).2.trans (hrank hb).2.symm).le
    · refine List.pairwise_lt_range.imp fun {i j} hij a ha b hb => ?_
      rw [(hrank ha).2, (hrank hb).2]
      exact hij.le

theorem exists_around (h : Extends r S l) (ha : a ∈ S) (rank : α → ℕ)
    (hmono : ∀ a ∈ S, ∀ b ∈ S, r a b → rank a ≤ rank b) :
    ∃ u v, Extends r S (u ++ a :: v) ∧ (∀ x ∈ u, x ≠ a ∧ rank x ≤ rank a)
      ∧ ∀ x ∈ v, x ≠ a ∧ rank a ≤ rank x := by
  obtain ⟨l', hl', hsorted⟩ := h.exists_sorted rank hmono
  obtain ⟨u, v, rfl⟩ := List.append_of_mem ((hl'.mem_iff a).mpr ha)
  obtain ⟨-, hafter, hbefore⟩ := List.pairwise_append.mp hsorted
  obtain ⟨-, hnodup, hdisj⟩ := List.nodup_append.mp hl'.nodup
  refine ⟨u, v, hl', fun x hx => ⟨hdisj x hx a List.mem_cons_self,
    hbefore x hx a List.mem_cons_self⟩, fun x hx => ⟨?_, (List.pairwise_cons.mp hafter).1 x hx⟩⟩
  rintro rfl
  exact (List.nodup_cons.mp hnodup).1 hx

end Extends

/-! ## Products -/

theorem commute_prod_of_forall {f : α → M} {a : α} {l : List α}
    (h : ∀ b ∈ l, Commute (f a) (f b)) : Commute (f a) (l.map f).prod := by
  refine Commute.list_prod_right _ _ fun y hy => ?_
  obtain ⟨b, hb, rfl⟩ := List.mem_map.mp hy
  exact h b hb

def UnrelatedCommute (r : α → α → Prop) (f : α → M) (l : List α) : Prop :=
  ∀ a ∈ l, ∀ b ∈ l, a ≠ b → ¬ r a b → ¬ r b a → Commute (f a) (f b)

theorem UnrelatedCommute.subset {r : α → α → Prop} {f : α → M} {l₁ l₂ : List α}
    (h : UnrelatedCommute r f l₂) (hs : l₁ ⊆ l₂) : UnrelatedCommute r f l₁ :=
  fun a ha b hb => h a (hs ha) b (hs hb)

theorem prod_move_front {r : α → α → Prop} {f : α → M} {a : α} {l u v : List α}
    (hperm : (a :: l).Perm (u ++ a :: v)) (hnodup : (a :: l).Nodup)
    (h₁ : Respects r (a :: l)) (h₂ : Respects r (u ++ a :: v))
    (hcomm : UnrelatedCommute r f (a :: l)) :
    ((u ++ a :: v).map f).prod = f a * ((u ++ v).map f).prod := by
  have hcu : Commute (f a) (u.map f).prod := by
    refine commute_prod_of_forall fun b hb => ?_
    have hmem : b ∈ a :: l := hperm.symm.subset (List.mem_append_left _ hb)
    have hne : a ≠ b := by
      have hdisj := (List.nodup_append.mp (hperm.nodup_iff.mp hnodup)).2.2
      exact (hdisj b hb a List.mem_cons_self).symm
    have hbl : b ∈ l := (List.mem_cons.mp hmem).resolve_left (Ne.symm hne)
    have hba : ¬ r b a := (List.pairwise_cons.mp h₁).1 b hbl
    have hab : ¬ r a b :=
      (List.pairwise_append.mp h₂).2.2 b hb a List.mem_cons_self
    exact hcomm a List.mem_cons_self b hmem hne hab hba
  calc ((u ++ a :: v).map f).prod
      = (u.map f).prod * f a * (v.map f).prod := by simp [mul_assoc]
    _ = f a * (u.map f).prod * (v.map f).prod := by rw [hcu.eq]
    _ = f a * ((u ++ v).map f).prod := by simp [mul_assoc]

/-- **Linear-extension independence.** -/
theorem prod_eq_of_respects {r : α → α → Prop} {f : α → M} {l₁ l₂ : List α}
    (hperm : l₁.Perm l₂) (hnodup : l₁.Nodup) (h₁ : Respects r l₁) (h₂ : Respects r l₂)
    (hcomm : UnrelatedCommute r f l₁) : (l₁.map f).prod = (l₂.map f).prod := by
  induction l₁ generalizing l₂ with
  | nil => simp [List.nil_perm.mp hperm]
  | cons a l ih =>
      obtain ⟨u, v, rfl⟩ := List.append_of_mem (hperm.subset List.mem_cons_self)
      have hperm' : l.Perm (u ++ v) := List.Perm.cons_inv (hperm.trans List.perm_middle)
      have hsub : (u ++ v).Sublist (u ++ a :: v) :=
        List.Sublist.append_left (List.sublist_cons_self a v) u
      have htail : (l.map f).prod = ((u ++ v).map f).prod :=
        ih hperm' (List.nodup_cons.mp hnodup).2 (List.pairwise_cons.mp h₁).2 (h₂.sublist hsub)
          (hcomm.subset (List.subset_cons_self a l))
      rw [prod_move_front hperm hnodup h₁ h₂ hcomm, List.map_cons, List.prod_cons, htail]

theorem prod_eq_filter_mul_filter {r : α → α → Prop} {f : α → M} {l : List α} (p : α → Prop)
    [DecidablePred p] (hl : Respects r l) (hdown : ∀ a ∈ l, ∀ b ∈ l, r a b → p b → p a)
    (hcomm : ∀ a ∈ l, ∀ b ∈ l, p a → ¬ p b → ¬ r a b → ¬ r b a → Commute (f a) (f b)) :
    (l.map f).prod
      = ((l.filter fun a => decide (p a)).map f).prod
        * ((l.filter fun a => decide (¬ p a)).map f).prod := by
  induction l with
  | nil => simp
  | cons a l ih =>
      obtain ⟨ha, hl'⟩ := List.pairwise_cons.mp hl
      have hrec := ih hl'
        (fun b hb c hc => hdown b (.tail _ hb) c (.tail _ hc))
        (fun b hb c hc => hcomm b (.tail _ hb) c (.tail _ hc))
      by_cases hp : p a
      · simp [hp, hrec, mul_assoc]
      · have hswap : Commute (f a) ((l.filter fun b => decide (p b)).map f).prod := by
          refine commute_prod_of_forall fun b hb => ?_
          obtain ⟨hbl, hpb⟩ := List.mem_filter.mp hb
          have hb' : b ∈ a :: l := .tail _ hbl
          have hpb' : p b := of_decide_eq_true hpb
          have hab : ¬ r a b := fun h => hp (hdown a List.mem_cons_self b hb' h hpb')
          exact (hcomm b hb' a List.mem_cons_self hpb' hp (ha b hbl) hab).symm
        calc ((a :: l).map f).prod
            = f a * ((l.filter fun b => decide (p b)).map f).prod
                * ((l.filter fun b => decide (¬ p b)).map f).prod := by
              simp [hrec, mul_assoc]
          _ = ((l.filter fun b => decide (p b)).map f).prod * f a
                * ((l.filter fun b => decide (¬ p b)).map f).prod := by rw [hswap.eq]
          _ = _ := by simp [hp, mul_assoc]

end LinearExtension
