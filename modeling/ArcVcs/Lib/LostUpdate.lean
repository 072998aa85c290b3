import ArcVcs.Lib.Trace
import Mathlib.Order.Lattice

/-!
# Read, join, write

Processes that load a shared cell, join their own contribution and store the result, with their
steps interleaved in any way. A store replaces whatever was stored since the load, so it keeps
the earlier contributions exactly when the process has them.
-/

namespace LostUpdate

/-- A part of a shared state that can be read and replaced. -/
structure Cell (S α : Type*) where
  get : S → α
  put : α → S → S
  get_put : ∀ x s, get (put x s) = x

/-- How far a process has come. -/
inductive Phase (α : Type*)
  | idle
  | loaded (x : α)
  | done (x : α)

inductive Event (ι : Type*)
  | load (i : ι)
  | save (i : ι)

structure System (S ι α : Type*) where
  shared : S
  phase : ι → Phase α

variable {S ι α : Type*} [DecidableEq ι] [SemilatticeSup α] (cell : Cell S α)
  (contribution : ι → α)

/-- One step of a process. A save stores the join of what was loaded and the contribution. -/
def next (s : System S ι α) : Event ι → Option (System S ι α)
  | .load i =>
      match s.phase i with
      | .idle => some ⟨s.shared, Function.update s.phase i (.loaded (cell.get s.shared))⟩
      | _ => none
  | .save i =>
      match s.phase i with
      | .loaded x => some
          ⟨cell.put (x ⊔ contribution i) s.shared,
            Function.update s.phase i (.done (x ⊔ contribution i))⟩
      | _ => none

def Step (s : System S ι α) (e : Event ι) (s' : System S ι α) : Prop :=
  next cell contribution s e = some s'

def System.Done (s : System S ι α) (i : ι) : Prop := ∃ x, s.phase i = .done x

/-- The cell holds what the processes that are done have contributed. -/
def Kept (s : System S ι α) : Prop := ∀ i, s.Done i → contribution i ≤ cell.get s.shared

/-- A process that saves has loaded, or contributes itself, what the processes that are done have
contributed. -/
def UpToDate (s : System S ι α) (e : Event ι) : Prop :=
  ∀ i x, e = .save i → s.phase i = .loaded x → ∀ j, s.Done j →
    contribution j ≤ x ⊔ contribution i

variable {cell contribution}

theorem step_load_iff {s s' : System S ι α} {i : ι} :
    Step cell contribution s (.load i) s' ↔ s.phase i = .idle
      ∧ s' = ⟨s.shared, Function.update s.phase i (.loaded (cell.get s.shared))⟩ := by
  rw [Step, next]
  cases s.phase i <;> simp [eq_comm]

theorem step_save_iff {s s' : System S ι α} {i : ι} :
    Step cell contribution s (.save i) s' ↔ ∃ x, s.phase i = .loaded x
      ∧ s' = ⟨cell.put (x ⊔ contribution i) s.shared,
        Function.update s.phase i (.done (x ⊔ contribution i))⟩ := by
  rw [Step, next]
  cases s.phase i <;> simp [eq_comm]

omit [SemilatticeSup α] in
theorem done_load_iff {s : System S ι α} {i j : ι} {x : α} (h : s.phase i = .idle) :
    System.Done ⟨s.shared, Function.update s.phase i (.loaded x)⟩ j ↔ s.Done j := by
  by_cases hj : j = i
  · subst hj
    simp [System.Done, h]
  · simp [System.Done, hj]

omit [SemilatticeSup α] in
theorem done_save_iff {s : System S ι α} {shared : S} {i j : ι} {x : α} :
    System.Done ⟨shared, Function.update s.phase i (.done x)⟩ j ↔ j = i ∨ s.Done j := by
  by_cases hj : j = i
  · subst hj
    simp [System.Done]
  · simp [System.Done, hj]

/-- **A step keeps the contributions iff it is up to date.** -/
theorem kept_iff_upToDate {s s' : System S ι α} {e : Event ι} (hkept : Kept cell contribution s)
    (hstep : Step cell contribution s e s') :
    Kept cell contribution s' ↔ UpToDate contribution s e := by
  cases e with
  | load i =>
      obtain ⟨h, rfl⟩ := step_load_iff.mp hstep
      refine iff_of_true (fun j hj => hkept j ((done_load_iff h).mp hj)) ?_
      rintro i x ⟨⟩
  | save i =>
      obtain ⟨x, h, rfl⟩ := step_save_iff.mp hstep
      constructor
      · intro hkept' k y hk hy j hj
        cases hk
        obtain rfl : x = y := Phase.loaded.inj (h.symm.trans hy)
        have hle := hkept' j (done_save_iff.mpr (.inr hj))
        rwa [cell.get_put] at hle
      · intro hup j hj
        rw [cell.get_put]
        rcases done_save_iff.mp hj with rfl | hj
        · exact le_sup_right
        · exact hup i x rfl h j hj

/-- **A run keeps the contributions in every state iff all its saves are up to date.** -/
theorem kept_trace_iff {s t : System S ι α} {events : List (Event ι)}
    (hstart : Kept cell contribution s) :
    Trace (fun s e s' => Step cell contribution s e s' ∧ Kept cell contribution s') s events t
      ↔ Trace (fun s e s' => Step cell contribution s e s' ∧ UpToDate contribution s e)
        s events t :=
  Trace.guard_iff hstart fun _ _ _ hkept hstep => kept_iff_upToDate hkept hstep

end LostUpdate
