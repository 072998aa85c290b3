import ArcVcs.Lib.Worklist
import Mathlib.Data.List.Basic

/-!
# Lazy iterators

An iterator is a state with a step function: it is done, goes on without an item, or yields an
item. One pass of the loop inside a `next` method is one step. A measure that falls with every
step bounds the steps, and then the items can be collected.
-/

namespace Iterators

variable {σ α : Type*}

inductive Step (σ α : Type*) where
  | done
  | skip (next : σ)
  | yield (item : α) (next : σ)

/-- The items that an iterator yields until it is done. -/
inductive Yields (step : σ → Step σ α) : σ → List α → Prop
  | done {s : σ} (h : step s = .done) : Yields step s []
  | skip {s next : σ} {items : List α} (h : step s = .skip next) (hnext : Yields step next items) :
      Yields step s items
  | yield {s next : σ} {item : α} {items : List α} (h : step s = .yield item next)
      (hnext : Yields step next items) : Yields step s (item :: items)

def collect (step : σ → Step σ α) : ℕ → σ → List α
  | 0, _ => []
  | fuel + 1, s =>
      match step s with
      | .done => []
      | .skip next => collect step fuel next
      | .yield item next => item :: collect step fuel next

/-- The measure falls with every step. -/
structure Decreasing (step : σ → Step σ α) (μ : σ → ℕ) : Prop where
  skip : ∀ {s next}, step s = .skip next → μ next < μ s
  yield : ∀ {s item next}, step s = .yield item next → μ next < μ s

variable {step : σ → Step σ α} {s : σ}

theorem Yields.unique {items items' : List α} (h : Yields step s items)
    (h' : Yields step s items') : items = items' := by
  induction h generalizing items' with
  | done hstep => cases h' <;> simp_all
  | skip hstep _ ih =>
      cases h' with
      | done hstep' => simp [hstep] at hstep'
      | skip hstep' hnext =>
          obtain rfl := Step.skip.inj (hstep.symm.trans hstep')
          exact ih hnext
      | yield hstep' hnext => simp [hstep] at hstep'
  | yield hstep _ ih =>
      cases h' with
      | done hstep' => simp [hstep] at hstep'
      | skip hstep' hnext => simp [hstep] at hstep'
      | yield hstep' hnext =>
          obtain ⟨rfl, rfl⟩ := Step.yield.inj (hstep.symm.trans hstep')
          rw [ih hnext]

theorem yields_collect {μ : σ → ℕ} (h : Decreasing step μ) {fuel : ℕ} (hfuel : μ s < fuel) :
    Yields step s (collect step fuel s) := by
  induction fuel generalizing s with
  | zero => omega
  | succ fuel ih =>
      rw [collect]
      cases hstep : step s with
      | done => exact .done hstep
      | skip next =>
          have hlt := h.skip hstep
          exact .skip hstep (ih (by omega))
      | yield item next =>
          have hlt := h.yield hstep
          exact .yield hstep (ih (by omega))

/-! ## Items seen before -/

variable [DecidableEq α]

/-- The items that are met for the first time. -/
def fresh : Finset α → List α → List α
  | _, [] => []
  | seen, a :: items => if a ∈ seen then fresh seen items else a :: fresh (insert a seen) items

theorem mem_fresh {seen : Finset α} {items : List α} {a : α} :
    a ∈ fresh seen items ↔ a ∈ items ∧ a ∉ seen := by
  induction items generalizing seen with
  | nil => simp [fresh]
  | cons b items ih =>
      rw [fresh]
      split_ifs with hb
      · rw [ih, List.mem_cons]
        constructor
        · exact fun h => ⟨.inr h.1, h.2⟩
        · rintro ⟨rfl | h, hseen⟩
          · exact absurd hb hseen
          · exact ⟨h, hseen⟩
      · rw [List.mem_cons, ih, List.mem_cons, Finset.mem_insert]
        by_cases hab : a = b
        · simp [hab, hb]
        · simp [hab]

theorem nodup_fresh (seen : Finset α) (items : List α) : (fresh seen items).Nodup := by
  induction items generalizing seen with
  | nil => exact List.nodup_nil
  | cons a items ih =>
      rw [fresh]
      split_ifs with ha
      · exact ih seen
      · refine List.nodup_cons.mpr ⟨fun hmem => ?_, ih _⟩
        exact (mem_fresh.mp hmem).2 (Finset.mem_insert_self a seen)

end Iterators

/-!
## Callbacks that may stop an iteration

A callback gets the elements one after the other, with a state of its own, and says whether the
iteration goes on. The elements that it got are a prefix of all elements, the whole list or one
that ends with the element at which it stopped.
-/

namespace Callback

variable {σ α : Type*}

/-- The state after the elements up to the first at which the callback stops. -/
def run (f : σ → α → Bool × σ) : List α → σ → σ
  | [], s => s
  | a :: l, s =>
      match f s a with
      | (true, s') => run f l s'
      | (false, s') => s'

/-- The elements that the callback gets. -/
def visited (f : σ → α → Bool × σ) : List α → σ → List α
  | [], _ => []
  | a :: l, s =>
      match f s a with
      | (true, s') => a :: visited f l s'
      | (false, _) => [a]

/-- The callback with a log of the elements. -/
def logged (f : σ → α → Bool × σ) : List α × σ → α → Bool × (List α × σ) := fun s a =>
  ((f s.2 a).1, (s.1 ++ [a], (f s.2 a).2))

theorem run_logged (f : σ → α → Bool × σ) (l : List α) (log : List α) (s : σ) :
    run (logged f) l (log, s) = (log ++ visited f l s, run f l s) := by
  induction l generalizing log s with
  | nil => exact Prod.ext (List.append_nil log).symm rfl
  | cons a l ih =>
      rw [run, visited, run, logged]
      rcases hstep : f s a with ⟨_ | _, s'⟩
      · rfl
      · exact (ih (log ++ [a]) s').trans (by rw [List.append_assoc]; rfl)

theorem visited_prefix (f : σ → α → Bool × σ) (l : List α) (s : σ) : visited f l s <+: l := by
  induction l generalizing s with
  | nil => exact List.prefix_refl []
  | cons a l ih =>
      rw [visited]
      rcases f s a with ⟨_ | _, s'⟩
      · exact ⟨l, rfl⟩
      · exact List.cons_prefix_cons.mpr ⟨rfl, ih s'⟩

theorem visited_eq_or_stops (f : σ → α → Bool × σ) (l : List α) (s : σ) :
    visited f l s = l
      ∨ ∃ before a, visited f l s = before ++ [a] ∧ (f (run f before s) a).1 = false := by
  induction l generalizing s with
  | nil => exact Or.inl rfl
  | cons a l ih =>
      rw [visited]
      rcases hstep : f s a with ⟨_ | _, s'⟩
      · exact Or.inr ⟨[], a, rfl, by rw [run, hstep]⟩
      · rcases ih s' with h | ⟨before, b, h, hstop⟩
        · exact Or.inl (congrArg (a :: ·) h)
        · refine Or.inr ⟨a :: before, b, congrArg (a :: ·) h, ?_⟩
          rw [run, hstep]
          exact hstop

end Callback
