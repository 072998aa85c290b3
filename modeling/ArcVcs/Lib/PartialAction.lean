import Mathlib.Algebra.BigOperators.Group.List.Basic
import Mathlib.Algebra.GroupWithZero.Commute

/-!
# Partial actions

State transformers that may fail. They compose left to right and form a monoid
with zero: the identity never fails and the zero action always does.
-/

/-- A state transformer that fails on some states. -/
@[ext] structure PartialAction (σ : Type*) where
  run : σ → Option σ

namespace PartialAction

variable {σ : Type*}

instance : MonoidWithZero (PartialAction σ) where
  mul f g := ⟨fun s => (f.run s).bind g.run⟩
  one := ⟨some⟩
  zero := ⟨fun _ => none⟩
  mul_assoc f g h := PartialAction.ext (funext fun s => Option.bind_assoc (f.run s) g.run h.run)
  one_mul _ := rfl
  mul_one f := PartialAction.ext (funext fun s => Option.bind_fun_some (f.run s))
  zero_mul _ := rfl
  mul_zero f := PartialAction.ext (funext fun s => Option.bind_fun_none (f.run s))

@[simp] theorem run_one (s : σ) : (1 : PartialAction σ).run s = some s := rfl

@[simp] theorem run_zero (s : σ) : (0 : PartialAction σ).run s = none := rfl

@[simp] theorem run_mul (f g : PartialAction σ) (s : σ) :
    (f * g).run s = (f.run s).bind g.run := rfl

theorem commute_iff {f g : PartialAction σ} :
    Commute f g ↔ ∀ s, (f.run s).bind g.run = (g.run s).bind f.run :=
  ⟨fun h s => congrArg (fun e => e.run s) h.eq, fun h => PartialAction.ext (funext h)⟩

theorem run_prod_append (l₁ l₂ : List (PartialAction σ)) (s : σ) :
    (l₁ ++ l₂).prod.run s = (l₁.prod.run s).bind l₂.prod.run := by
  rw [List.prod_append, run_mul]

theorem prod_eq_zero_of_mem {l : List (PartialAction σ)} (h : 0 ∈ l) : l.prod = 0 := by
  obtain ⟨l₁, l₂, rfl⟩ := List.append_of_mem h
  rw [List.prod_append, List.prod_cons, zero_mul, mul_zero]

theorem run_prod_eq_some_cons {f : PartialAction σ} {l : List (PartialAction σ)} {s t : σ} :
    (f :: l).prod.run s = some t ↔ ∃ u, f.run s = some u ∧ l.prod.run u = some t := by
  rw [List.prod_cons, run_mul, Option.bind_eq_some_iff]

end PartialAction
