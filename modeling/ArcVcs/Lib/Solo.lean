import ArcVcs.Lib.Interleaving

/-!
# A thread alone

A thread that runs by itself to its end, or is stopped before one of its actions. A stop leaves
what the actions before it have done.
-/

namespace Thread

variable {σ ε α β : Type}

def ofExcept (r : Except ε α) : Thread σ ε α := .done r

/-- A thread that does not return. -/
def hang : Thread σ ε α := perform fun _ => none

/-- A run of the thread to its end, or to a stop. -/
inductive Stops : Thread σ ε α → σ → Option (Except ε α) → σ → Prop
  | ended (r : Except ε α) (s : σ) : Stops (.done r) s (some r) s
  | stopped (thread : Thread σ ε α) (s : σ) : Stops thread s none s
  | step {β : Type} {action : Program σ ε β} {next : Except ε β → Thread σ ε α} {s t u : σ}
      {r : Except ε β} {out : Option (Except ε α)} (hrun : action s = some (r, t))
      (hnext : Stops (next r) t out u) : Stops (.act action next) s out u

abbrev Returns (thread : Thread σ ε α) (s : σ) (a : α) (u : σ) : Prop :=
  Stops thread s (some (.ok a)) u

variable {thread : Thread σ ε α} {s u : σ} {a : α} {out : Option (Except ε α)}

theorem stops_done_iff {r : Except ε α} :
    Stops (.done r) s out u ↔ u = s ∧ (out = none ∨ out = some r) := by
  constructor
  · rintro (_ | _)
    · exact ⟨rfl, .inr rfl⟩
    · exact ⟨rfl, .inl rfl⟩
  · rintro ⟨rfl, rfl | rfl⟩
    · exact .stopped _ _
    · exact .ended _ _

@[simp] theorem stops_pure_iff :
    Stops (pure a : Thread σ ε α) s out u ↔ u = s ∧ (out = none ∨ out = some (.ok a)) :=
  stops_done_iff

@[simp] theorem stops_throw_iff {e : ε} :
    Stops (throw e : Thread σ ε α) s out u ↔ u = s ∧ (out = none ∨ out = some (.error e)) :=
  stops_done_iff

theorem stops_perform_iff {action : Program σ ε α} :
    Stops (perform action) s out u ↔ (out = none ∧ u = s)
      ∨ ∃ r, action s = some (r, u) ∧ (out = none ∨ out = some r) := by
  constructor
  · rintro (_ | _ | ⟨hrun, hnext⟩)
    · exact .inl ⟨rfl, rfl⟩
    · obtain ⟨rfl, hout⟩ := stops_done_iff.mp hnext
      exact .inr ⟨_, hrun, hout⟩
  · rintro (⟨rfl, rfl⟩ | ⟨r, hrun, hout⟩)
    · exact .stopped _ _
    · exact .step hrun (stops_done_iff.mpr ⟨rfl, hout⟩)

theorem stops_perform_iff_of_run {action : Program σ ε α} {t : σ} {r : Except ε α}
    (hrun : action s = some (r, t)) : Stops (perform action) s out u
      ↔ (out = none ∧ u = s) ∨ u = t ∧ (out = none ∨ out = some r) := by
  rw [stops_perform_iff, hrun]
  refine or_congr_right ⟨?_, ?_⟩
  · rintro ⟨r', heq, hout⟩
    obtain ⟨rfl, rfl⟩ := Prod.mk.inj (Option.some_inj.mp heq)
    exact ⟨rfl, hout⟩
  · rintro ⟨rfl, hout⟩
    exact ⟨r, rfl, hout⟩

theorem stops_perform_bind_iff {action : Program σ ε α} {f : α → Thread σ ε β} {t : σ}
    {out : Option (Except ε β)} (hrun : action s = some (.ok a, t)) :
    Stops (perform action >>= f) s out u ↔ (out = none ∧ u = s) ∨ Stops (f a) t out u := by
  constructor
  · rintro (_ | _ | ⟨hrun', hnext⟩)
    · exact .inl ⟨rfl, rfl⟩
    · obtain ⟨rfl, rfl⟩ := Prod.mk.inj (Option.some_inj.mp (hrun.symm.trans hrun'))
      exact .inr hnext
  · rintro (⟨rfl, rfl⟩ | hnext)
    · exact .stopped _ _
    · exact .step hrun hnext

theorem stops_hang (h : Stops (hang : Thread σ ε α) s out u) : out = none ∧ u = s := by
  rcases stops_perform_iff.mp h with h | ⟨r, hrun, -⟩
  · exact h
  · cases hrun

/-- **Sequences.** The run is stopped or fails in the first part, or comes through to the second. -/
theorem stops_bind_iff {f : α → Thread σ ε β} {out : Option (Except ε β)} :
    Stops (thread >>= f) s out u ↔ (out = none ∧ Stops thread s none u)
      ∨ (∃ e, out = some (.error e) ∧ Stops thread s (some (.error e)) u)
      ∨ ∃ a t, Returns thread s a t ∧ Stops (f a) t out u := by
  constructor
  · intro h
    induction thread generalizing s with
    | done r =>
        cases r with
        | ok a => exact .inr (.inr ⟨a, s, .ended _ _, h⟩)
        | error e =>
            obtain ⟨rfl, rfl | rfl⟩ := stops_done_iff.mp h
            · exact .inl ⟨rfl, .stopped _ _⟩
            · exact .inr (.inl ⟨e, rfl, .ended _ _⟩)
    | act action next ih =>
        rcases h with _ | _ | ⟨hrun, hnext⟩
        · exact .inl ⟨rfl, .stopped _ _⟩
        · rcases ih _ hnext with ⟨rfl, h⟩ | ⟨e, rfl, h⟩ | ⟨a, t, h, hf⟩
          · exact .inl ⟨rfl, .step hrun h⟩
          · exact .inr (.inl ⟨e, rfl, .step hrun h⟩)
          · exact .inr (.inr ⟨a, t, .step hrun h, hf⟩)
  · intro h
    induction thread generalizing s with
    | done r =>
        rcases h with ⟨rfl, h⟩ | ⟨e, rfl, h⟩ | ⟨a, t, h, hf⟩
        · obtain ⟨rfl, -⟩ := stops_done_iff.mp h
          exact .stopped _ _
        · obtain ⟨rfl, h | h⟩ := stops_done_iff.mp h
          · cases h
          · obtain rfl := Option.some_inj.mp h
            exact .ended _ _
        · obtain ⟨rfl, h | h⟩ := stops_done_iff.mp h
          · cases h
          · obtain rfl := Option.some_inj.mp h
            exact hf
    | act action next ih =>
        rcases h with ⟨rfl, h⟩ | ⟨e, rfl, h⟩ | ⟨a, t, h, hf⟩
        · rcases h with _ | _ | ⟨hrun, hnext⟩
          · exact .stopped _ _
          · exact .step hrun (ih _ (.inl ⟨rfl, hnext⟩))
        · rcases h with _ | _ | ⟨hrun, hnext⟩
          exact .step hrun (ih _ (.inr (.inl ⟨e, rfl, hnext⟩)))
        · rcases h with _ | _ | ⟨hrun, hnext⟩
          exact .step hrun (ih _ (.inr (.inr ⟨a, t, hnext, hf⟩)))

theorem stops_attempt_iff {out : Option (Except ε (Except ε α))} :
    Stops thread.attempt s out u ↔ (out = none ∧ Stops thread s none u)
      ∨ ∃ r, out = some (.ok r) ∧ Stops thread s (some r) u := by
  constructor
  · intro h
    induction thread generalizing s with
    | done r =>
        obtain ⟨rfl, rfl | rfl⟩ := stops_done_iff.mp h
        · exact .inl ⟨rfl, .stopped _ _⟩
        · exact .inr ⟨r, rfl, .ended _ _⟩
    | act action next ih =>
        rcases h with _ | _ | ⟨hrun, hnext⟩
        · exact .inl ⟨rfl, .stopped _ _⟩
        · rcases ih _ hnext with ⟨rfl, h⟩ | ⟨r, rfl, h⟩
          · exact .inl ⟨rfl, .step hrun h⟩
          · exact .inr ⟨r, rfl, .step hrun h⟩
  · intro h
    induction thread generalizing s with
    | done r =>
        rcases h with ⟨rfl, h⟩ | ⟨r', rfl, h⟩
        · obtain ⟨rfl, -⟩ := stops_done_iff.mp h
          exact .stopped _ _
        · obtain ⟨rfl, h | h⟩ := stops_done_iff.mp h
          · cases h
          · obtain rfl := Option.some_inj.mp h
            exact .ended _ _
    | act action next ih =>
        rcases h with ⟨rfl, h⟩ | ⟨r, rfl, h⟩
        · rcases h with _ | _ | ⟨hrun, hnext⟩
          · exact .stopped _ _
          · exact .step hrun (ih _ (.inl ⟨rfl, hnext⟩))
        · rcases h with _ | _ | ⟨hrun, hnext⟩
          exact .step hrun (ih _ (.inr ⟨r, rfl, hnext⟩))

theorem stops_ofExcept_bind_iff {r : Except ε α} {f : α → Thread σ ε β}
    {out : Option (Except ε β)} : Stops (ofExcept r >>= f) s out u ↔
      (∃ a, r = .ok a ∧ Stops (f a) s out u)
      ∨ ∃ e, r = .error e ∧ u = s ∧ (out = none ∨ out = some (.error e)) := by
  cases r with
  | ok a => exact ⟨fun h => .inl ⟨a, rfl, h⟩, by rintro (⟨_, ⟨⟩, h⟩ | ⟨_, ⟨⟩, _⟩); exact h⟩
  | error e =>
      constructor
      · exact fun h => .inr ⟨e, rfl, stops_done_iff.mp h⟩
      · rintro (⟨_, ⟨⟩, _⟩ | ⟨_, ⟨⟩, h⟩)
        exact stops_done_iff.mpr h

theorem returns_bind_iff {f : α → Thread σ ε β} {b : β} :
    Returns (thread >>= f) s b u ↔ ∃ a t, Returns thread s a t ∧ Returns (f a) t b u := by
  rw [Returns, stops_bind_iff]
  simp

theorem stops_of_bind_pure {f : α → β} {out : Option (Except ε β)}
    (h : Stops (thread >>= fun a => pure (f a)) s out u) :
    ∃ out', Stops thread s out' u
      ∧ ∀ b, out = some (.ok b) → ∃ a, out' = some (.ok a) ∧ f a = b := by
  rcases stops_bind_iff.mp h with ⟨rfl, hstop⟩ | ⟨e, rfl, hstop⟩ | ⟨a, t, hstop, hf⟩
  · exact ⟨none, hstop, by simp⟩
  · exact ⟨some (.error e), hstop, by simp⟩
  · obtain ⟨rfl, hout⟩ := stops_pure_iff.mp hf
    refine ⟨some (.ok a), hstop, fun b hb => ⟨a, rfl, ?_⟩⟩
    rcases hout with rfl | rfl
    · cases hb
    · exact Except.ok.inj (Option.some_inj.mp hb)

def runFor : ℕ → Thread σ ε α → σ → Option (Option (Except ε α) × σ)
  | _, .done r, s => some (some r, s)
  | 0, .act _ _, s => some (none, s)
  | n + 1, .act action next, s =>
      match action s with
      | none => none
      | some (r, t) => runFor n (next r) t

theorem stops_of_runFor {n : ℕ} (h : runFor n thread s = some (out, u)) :
    Stops thread s out u := by
  induction n generalizing thread s with
  | zero =>
      cases thread with
      | done r =>
          obtain ⟨rfl, rfl⟩ : some r = out ∧ s = u := by simpa [runFor] using h
          exact .ended r s
      | act action next =>
          obtain ⟨rfl, rfl⟩ : none = out ∧ s = u := by simpa [runFor] using h
          exact .stopped _ s
  | succ n ih =>
      cases thread with
      | done r =>
          obtain ⟨rfl, rfl⟩ : some r = out ∧ s = u := by simpa [runFor] using h
          exact .ended r s
      | act action next =>
          rw [runFor] at h
          cases hrun : action s with
          | none => simp [hrun] at h
          | some rt =>
              rw [hrun] at h
              exact .step hrun (ih h)

end Thread

/-!
## Threads that run alone

Nobody else touches the state between the actions of a thread, and no action fails that could take
place.
-/

namespace Thread

variable {σ ε α β : Type}

/-- All actions of the thread, one after the other. -/
def run : Thread σ ε α → Program σ ε α
  | .done r, s => some (r, s)
  | .act action next, s =>
      match action s with
      | none => none
      | some (r, t) => (next r).run t

@[simp] theorem run_perform (action : Program σ ε α) : (perform action).run = action := by
  funext s
  rw [perform, run]
  cases action s <;> rfl

@[simp] theorem run_bind (thread : Thread σ ε α) (f : α → Thread σ ε β) :
    (thread >>= f).run = thread.run >>= fun a => (f a).run := by
  induction thread with
  | done r => cases r <;> rfl
  | act action next ih =>
      funext s
      rw [Program.bind_run, run]
      change run (.act action fun r => next r >>= f) s = _
      rw [run]
      cases action s with
      | none => rfl
      | some out =>
          dsimp only
          rw [ih, Program.bind_run]

theorem run_attempt (thread : Thread σ ε α) (s : σ) :
    thread.attempt.run s = (thread.run s).map fun out => (.ok out.1, out.2) := by
  induction thread generalizing s with
  | done r => rfl
  | act action next ih =>
      rw [attempt, run, run]
      cases action s with
      | none => rfl
      | some out => exact ih out.1 out.2

/-! ## Sequences -/

variable {thread : Thread σ ε α} {action : Program σ ε α} {f : α → Thread σ ε β} {s t : σ}

theorem run_bind_of_ok {a : α} (h : thread.run s = some (.ok a, t)) :
    (thread >>= f).run s = (f a).run t := by rw [run_bind, Program.bind_run, h]

theorem run_bind_of_error {e : ε} (h : thread.run s = some (.error e, t)) :
    (thread >>= f).run s = some (.error e, t) := by rw [run_bind, Program.bind_run, h]

theorem run_perform_bind {a : α} (h : action s = some (.ok a, t)) :
    (perform action >>= f).run s = (f a).run t := run_bind_of_ok (by rw [run_perform, h])

theorem run_attempt_bind {r : Except ε α} {f : Except ε α → Thread σ ε β}
    (h : thread.run s = some (r, t)) : (thread.attempt >>= f).run s = (f r).run t :=
  run_bind_of_ok (by rw [run_attempt, h]; rfl)

end Thread
