import Mathlib.Data.Finset.Basic
import Mathlib.Data.List.Basic
import Mathlib.Logic.Relation

/-!
# Files that include files

The items of a file are its own, or each the inclusion of a file. A depth-first expansion has the
items of a file in the place where it is included first, and nothing where it is included again.
-/

namespace Inclusion

inductive Item (κ ρ : Type*) where
  | own (r : ρ)
  | nested (b : κ)

variable {κ ρ : Type*}

def Includes (items : κ → List (Item κ ρ)) (a b : κ) : Prop := Item.nested b ∈ items a

def owns : List (Item κ ρ) → List ρ
  | [] => []
  | .own r :: its => r :: owns its
  | .nested _ :: its => owns its

variable [DecidableEq κ]

/-- The expansion of items of the file `a`, which is included at depth `d`, when some files have
been seen. Each own item of a file is noted with the file and its depth. -/
inductive Expands (items : κ → List (Item κ ρ)) :
    κ → ℕ → Finset κ → List (Item κ ρ) → List (κ × ℕ × ρ) → Finset κ → Prop
  | nil (a : κ) (d : ℕ) (seen : Finset κ) : Expands items a d seen [] [] seen
  | own {a : κ} {d : ℕ} {seen seen' : Finset κ} {its : List (Item κ ρ)}
      {out : List (κ × ℕ × ρ)} (r : ρ) (h : Expands items a d seen its out seen') :
      Expands items a d seen (.own r :: its) ((a, d, r) :: out) seen'
  | again {a b : κ} {d : ℕ} {seen seen' : Finset κ} {its : List (Item κ ρ)}
      {out : List (κ × ℕ × ρ)} (hb : b ∈ seen) (h : Expands items a d seen its out seen') :
      Expands items a d seen (.nested b :: its) out seen'
  | first {a b : κ} {d : ℕ} {seen seen₁ seen' : Finset κ} {its : List (Item κ ρ)}
      {out₁ out₂ : List (κ × ℕ × ρ)} (hb : b ∉ seen)
      (h₁ : Expands items b (d + 1) (insert b seen) (items b) out₁ seen₁)
      (h₂ : Expands items a d seen₁ its out₂ seen') :
      Expands items a d seen (.nested b :: its) (out₁ ++ out₂) seen'

/-- The expansion of a file. -/
inductive ExpandsFile (items : κ → List (Item κ ρ)) (d : ℕ) (seen : Finset κ) (b : κ) :
    List (κ × ℕ × ρ) → Finset κ → Prop
  | again (hb : b ∈ seen) : ExpandsFile items d seen b [] seen
  | first {out : List (κ × ℕ × ρ)} {seen' : Finset κ} (hb : b ∉ seen)
      (h : Expands items b d (insert b seen) (items b) out seen') :
      ExpandsFile items d seen b out seen'

/-- What a file has in an expansion. -/
def part (b : κ) (out : List (κ × ℕ × ρ)) : List (κ × ℕ × ρ) :=
  out.filter fun e => decide (e.1 = b)

/-- The files that are included by seen files are seen. -/
def Closed (items : κ → List (Item κ ρ)) (seen : Finset κ) : Prop :=
  ∀ a ∈ seen, ∀ b, Includes items a b → b ∈ seen

variable {items : κ → List (Item κ ρ)} {a b c : κ} {d : ℕ} {seen seen' : Finset κ}
  {its : List (Item κ ρ)} {out : List (κ × ℕ × ρ)}

theorem part_append (out out' : List (κ × ℕ × ρ)) :
    part b (out ++ out') = part b out ++ part b out' := List.filter_append ..

theorem part_cons_self (d : ℕ) (r : ρ) : part a ((a, d, r) :: out) = (a, d, r) :: part a out :=
  List.filter_cons_of_pos (decide_eq_true rfl)

theorem part_cons_of_ne (h : a ≠ b) (d : ℕ) (r : ρ) : part b ((a, d, r) :: out) = part b out :=
  List.filter_cons_of_neg (by simpa using h)

/-! ## The seen files -/

theorem Expands.subset (h : Expands items a d seen its out seen') : seen ⊆ seen' := by
  induction h with
  | nil => exact Finset.Subset.refl _
  | own r _ ih => exact ih
  | again hb _ ih => exact ih
  | first hb _ _ ih₁ ih₂ => exact (Finset.subset_insert ..).trans (ih₁.trans ih₂)

theorem Expands.nested_mem (h : Expands items a d seen its out seen')
    (hb : Item.nested b ∈ its) : b ∈ seen' := by
  induction h with
  | nil => cases hb
  | own r _ ih =>
      rcases List.mem_cons.mp hb with heq | hb
      · cases heq
      · exact ih hb
  | again hseen hrest ih =>
      rcases List.mem_cons.mp hb with heq | hb
      · cases heq
        exact hrest.subset hseen
      · exact ih hb
  | first _ h₁ h₂ _ ih =>
      rcases List.mem_cons.mp hb with heq | hb
      · cases heq
        exact h₂.subset (h₁.subset (Finset.mem_insert_self ..))
      · exact ih hb

theorem Expands.closed (h : Expands items a d seen its out seen') (hb : b ∈ seen')
    (hnew : b ∉ seen) (hc : Includes items b c) : c ∈ seen' := by
  induction h with
  | nil => exact absurd hb hnew
  | own r _ ih => exact ih hb hnew
  | again _ _ ih => exact ih hb hnew
  | @first a b₁ d seen seen₁ seen' its out₁ out₂ _ h₁ h₂ ih₁ ih₂ =>
      by_cases hb₁ : b ∈ seen₁
      · refine h₂.subset ?_
        by_cases heq : b = b₁
        · exact h₁.nested_mem (heq ▸ hc)
        · exact ih₁ hb₁ fun hmem => (Finset.mem_insert.mp hmem).elim heq hnew
      · exact ih₂ hb hb₁

theorem Expands.reached (h : Expands items a d seen its out seen') (hb : b ∈ seen')
    (hnew : b ∉ seen) :
    ∃ c, Item.nested c ∈ its ∧ Relation.ReflTransGen (Includes items) c b := by
  induction h with
  | nil => exact absurd hb hnew
  | own r _ ih =>
      obtain ⟨c, hc, hpath⟩ := ih hb hnew
      exact ⟨c, List.mem_cons_of_mem _ hc, hpath⟩
  | again _ _ ih =>
      obtain ⟨c, hc, hpath⟩ := ih hb hnew
      exact ⟨c, List.mem_cons_of_mem _ hc, hpath⟩
  | @first a b₁ d seen seen₁ seen' its out₁ out₂ _ h₁ h₂ ih₁ ih₂ =>
      by_cases hb₁ : b ∈ seen₁
      · refine ⟨b₁, List.mem_cons_self, ?_⟩
        by_cases heq : b = b₁
        · exact heq ▸ .refl
        · obtain ⟨c, hc, hpath⟩ :=
            ih₁ hb₁ fun hmem => (Finset.mem_insert.mp hmem).elim heq hnew
          exact .head hc hpath
      · obtain ⟨c, hc, hpath⟩ := ih₂ hb hb₁
        exact ⟨c, List.mem_cons_of_mem _ hc, hpath⟩

/-! ## What each file has in an expansion -/

theorem Expands.part_of_mem (h : Expands items a d seen its out seen') (hb : b ∈ seen)
    (hne : b ≠ a) : part b out = [] := by
  induction h with
  | nil => rfl
  | own r _ ih => exact (part_cons_of_ne hne.symm ..).trans (ih hb hne)
  | again _ _ ih => exact ih hb hne
  | @first _ b₁ _ seen _ _ _ _ _ hnew h₁ _ ih₁ ih₂ =>
      have hb₁ : b ∈ insert b₁ seen := Finset.mem_insert_of_mem hb
      rw [part_append, ih₁ hb₁ (fun heq => hnew (heq ▸ hb)), ih₂ (h₁.subset hb₁) hne,
        List.append_nil]

theorem Expands.part_self (h : Expands items a d seen its out seen') (ha : a ∈ seen) :
    part a out = (owns its).map fun r => (a, d, r) := by
  induction h with
  | nil => rfl
  | own r _ ih =>
      rw [part_cons_self, ih ha]
      rfl
  | again _ _ ih => exact ih ha
  | @first a b _ seen _ _ _ _ _ hnew h₁ _ _ ih₂ =>
      have ha₁ : a ∈ insert b seen := Finset.mem_insert_of_mem ha
      rw [part_append, h₁.part_of_mem ha₁ (fun heq => hnew (heq ▸ ha)), ih₂ (h₁.subset ha₁)]
      rfl

theorem Expands.part_of_notMem (h : Expands items a d seen its out seen') (ha : a ∈ seen)
    (hb : b ∉ seen') : part b out = [] := by
  induction h with
  | nil => rfl
  | @own a _ _ _ _ _ r h ih =>
      have hne : a ≠ b := fun heq => hb (heq ▸ h.subset ha)
      exact (part_cons_of_ne hne ..).trans (ih ha hb)
  | again _ _ ih => exact ih ha hb
  | first _ h₁ h₂ ih₁ ih₂ =>
      rw [part_append, ih₁ (Finset.mem_insert_self ..) (fun hmem => hb (h₂.subset hmem)),
        ih₂ (h₁.subset (Finset.mem_insert_of_mem ha)) hb, List.append_nil]

theorem Expands.part_of_new (h : Expands items a d seen its out seen') (ha : a ∈ seen)
    (hb : b ∈ seen') (hnew : b ∉ seen) :
    ∃ e, part b out = (owns (items b)).map fun r => (b, e, r) := by
  induction h with
  | nil => exact absurd hb hnew
  | @own a _ _ _ _ _ r _ ih =>
      have hne : a ≠ b := fun heq => hnew (heq ▸ ha)
      obtain ⟨e, he⟩ := ih ha hb hnew
      exact ⟨e, (part_cons_of_ne hne ..).trans he⟩
  | again _ _ ih => exact ih ha hb hnew
  | @first a b₁ d seen seen₁ seen' its out₁ out₂ _ h₁ h₂ ih₁ ih₂ =>
      have ha₁ : a ∈ seen₁ := h₁.subset (Finset.mem_insert_of_mem ha)
      rw [part_append]
      by_cases hb₁ : b ∈ seen₁
      · rw [h₂.part_of_mem hb₁ (fun heq => hnew (heq ▸ ha)), List.append_nil]
        by_cases heq : b = b₁
        · subst heq
          exact ⟨d + 1, h₁.part_self (Finset.mem_insert_self ..)⟩
        · exact ih₁ (Finset.mem_insert_self ..) hb₁ fun hmem =>
            (Finset.mem_insert.mp hmem).elim heq hnew
      · rw [h₁.part_of_notMem (Finset.mem_insert_self ..) hb₁, List.nil_append]
        exact ih₂ ha₁ hb hb₁

/-- A file that is included after other files have been expanded: what it reaches is seen then, and
each new file has its own items once. -/
theorem ExpandsFile.spec (h : ExpandsFile items d seen b out seen') (hclosed : Closed items seen) :
    Closed items seen'
      ∧ (∀ c, c ∈ seen' ↔ c ∈ seen ∨ Relation.ReflTransGen (Includes items) b c)
      ∧ (∀ c ∈ seen', c ∉ seen → ∃ e, part c out = (owns (items c)).map fun r => (c, e, r))
      ∧ ∀ c, c ∈ seen ∨ c ∉ seen' → part c out = [] := by
  have hreach : ∀ {seen₁ : Finset κ}, Closed items seen₁ → b ∈ seen₁ →
      ∀ c, Relation.ReflTransGen (Includes items) b c → c ∈ seen₁ := by
    intro seen₁ hclosed₁ hb c hpath
    induction hpath with
    | refl => exact hb
    | tail _ hstep ih => exact hclosed₁ _ ih _ hstep
  cases h with
  | again hb =>
      refine ⟨hclosed, fun c => ⟨Or.inl, ?_⟩, fun c hc hnew => absurd hc hnew, fun _ _ => rfl⟩
      rintro (hc | hpath)
      · exact hc
      · exact hreach hclosed hb c hpath
  | first hb h =>
      have hself : b ∈ insert b seen := Finset.mem_insert_self ..
      have hclosed' : Closed items seen' := by
        intro c hc e he
        by_cases hseen : c ∈ insert b seen
        · rcases Finset.mem_insert.mp hseen with rfl | hseen
          · exact h.nested_mem he
          · exact h.subset (Finset.mem_insert_of_mem (hclosed c hseen e he))
        · exact h.closed hc hseen he
      refine ⟨hclosed', fun c => ⟨fun hc => ?_, ?_⟩, fun c hc hnew => ?_, fun c hc => ?_⟩
      · by_cases hseen : c ∈ insert b seen
        · rcases Finset.mem_insert.mp hseen with rfl | hseen
          · exact Or.inr .refl
          · exact Or.inl hseen
        · obtain ⟨e, he, hpath⟩ := h.reached hc hseen
          exact Or.inr (.head he hpath)
      · rintro (hc | hpath)
        · exact h.subset (Finset.mem_insert_of_mem hc)
        · exact hreach hclosed' (h.subset hself) c hpath
      · by_cases heq : c = b
        · subst heq
          exact ⟨d, h.part_self hself⟩
        · exact h.part_of_new hself hc fun hmem => (Finset.mem_insert.mp hmem).elim heq hnew
      · rcases hc with hc | hc
        · exact h.part_of_mem (Finset.mem_insert_of_mem hc) fun heq => hb (heq ▸ hc)
        · exact h.part_of_notMem hself hc

/-- The files that are included from starts have their own items once, and no others are there. -/
def HasOnce (items : κ → List (Item κ ρ)) (starts : κ → Prop) (out : List (κ × ℕ × ρ)) : Prop :=
  ∀ c, ((∃ b, starts b ∧ Relation.ReflTransGen (Includes items) b c) →
      ∃ e, part c out = (owns (items c)).map fun r => (c, e, r))
    ∧ ((∀ b, starts b → ¬ Relation.ReflTransGen (Includes items) b c) → part c out = [])

theorem HasOnce.of_expanded {starts : κ → Prop}
    (hreached : ∀ c, c ∈ seen' ↔ ∃ b, starts b ∧ Relation.ReflTransGen (Includes items) b c)
    (honce : ∀ c ∈ seen', ∃ e, part c out = (owns (items c)).map fun r => (c, e, r))
    (hnone : ∀ c, c ∉ seen' → part c out = []) : HasOnce items starts out := by
  intro c
  refine ⟨fun hc => honce c ((hreached c).mpr hc), fun hc => hnone c fun hmem => ?_⟩
  obtain ⟨b, hb, hpath⟩ := (hreached c).mp hmem
  exact hc b hb hpath

end Inclusion
