import Mathlib.Data.List.Induction

/-!
# Traces

The runs of a labelled step relation, built one event at a time from the left.
-/

/-- A list of events that leads from one state to another. -/
inductive Trace {σ ε : Type*} (Step : σ → ε → σ → Prop) : σ → List ε → σ → Prop
  | nil (s : σ) : Trace Step s [] s
  | snoc {s t u : σ} {events : List ε} {e : ε} (h : Trace Step s events t) (hstep : Step t e u) :
      Trace Step s (events ++ [e]) u

namespace Trace

variable {σ ε : Type*} {Step Step' : σ → ε → σ → Prop} {s t : σ} {events : List ε}

theorem invariant {Inv : List ε → σ → Prop} (h : Trace Step s events t) (hstart : Inv [] s)
    (hstep : ∀ events t e u, Inv events t → Step t e u → Inv (events ++ [e]) u) :
    Inv events t := by
  induction h with
  | nil => exact hstart
  | snoc _ hlast ih => exact hstep _ _ _ _ ih hlast

theorem mono (h : Trace Step s events t) (hstep : ∀ s e s', Step s e s' → Step' s e s') :
    Trace Step' s events t := by
  induction h with
  | nil => exact .nil _
  | snoc _ hlast ih => exact .snoc ih (hstep _ _ _ hlast)

/-- Along a trace that keeps `P`, the steps may be described as they are where `P` holds. -/
theorem mono_of_keeps {P : σ → Prop} (h : Trace Step s events t) (hstart : P s)
    (hstep : ∀ s e s', P s → Step s e s' → P s' ∧ Step' s e s') : Trace Step' s events t := by
  have hboth : P t ∧ Trace Step' s events t := by
    induction h with
    | nil => exact ⟨hstart, .nil _⟩
    | snoc _ hlast ih =>
        obtain ⟨hkeep, hnew⟩ := hstep _ _ _ ih.1 hlast
        exact ⟨hkeep, .snoc ih.2 hnew⟩
  exact hboth.2

/-- **Guards.** If a step keeps `P` exactly when `Q` allows it, then `P` holds along a trace
exactly when `Q` allows all its steps. -/
theorem guard_iff {P : σ → Prop} {Q : σ → ε → Prop} (hstart : P s)
    (hguard : ∀ s e s', P s → Step s e s' → (P s' ↔ Q s e)) :
    Trace (fun s e s' => Step s e s' ∧ P s') s events t
      ↔ Trace (fun s e s' => Step s e s' ∧ Q s e) s events t := by
  constructor
  · intro h
    have hboth : P t ∧ Trace (fun s e s' => Step s e s' ∧ Q s e) s events t := by
      induction h with
      | nil => exact ⟨hstart, .nil _⟩
      | snoc _ hlast ih =>
          obtain ⟨hp, htrace⟩ := ih
          exact ⟨hlast.2, .snoc htrace ⟨hlast.1, (hguard _ _ _ hp hlast.1).mp hlast.2⟩⟩
    exact hboth.2
  · intro h
    have hboth : P t ∧ Trace (fun s e s' => Step s e s' ∧ P s') s events t := by
      induction h with
      | nil => exact ⟨hstart, .nil _⟩
      | snoc _ hlast ih =>
          obtain ⟨hp, htrace⟩ := ih
          have hkeep := (hguard _ _ _ hp hlast.1).mpr hlast.2
          exact ⟨hkeep, .snoc htrace ⟨hlast.1, hkeep⟩⟩
    exact hboth.2

theorem of_foldlM {next : σ → ε → Option σ} (h : events.foldlM next s = some t) :
    Trace (fun s e s' => next s e = some s') s events t := by
  induction events using List.reverseRecOn generalizing t with
  | nil =>
      obtain rfl : s = t := by simpa using h
      exact .nil s
  | append_singleton events e ih =>
      rw [List.foldlM_append] at h
      obtain ⟨u, hu, ht⟩ := Option.bind_eq_some_iff.mp h
      refine .snoc (ih hu) ?_
      simpa using ht

theorem of_foldlM_filter {next : σ → ε → Option σ} {P : σ → ε → σ → Prop}
    [∀ s e s', Decidable (P s e s')]
    (h : events.foldlM (fun s e => (next s e).filter fun s' => P s e s') s = some t) :
    Trace (fun s e s' => next s e = some s' ∧ P s e s') s events t :=
  (of_foldlM h).mono fun s e s' hstep => by simpa [Option.filter_eq_some_iff] using hstep

theorem last {P : σ → Prop} (h : Trace (fun s e s' => Step s e s' ∧ P s') s events t)
    (hstart : P s) : P t := by
  cases h with
  | nil => exact hstart
  | snoc _ hlast => exact hlast.2

end Trace
