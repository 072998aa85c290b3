import ArcVcs.Lib.Program
import ArcVcs.Lib.Trace
import Mathlib.Logic.Function.Basic

/-!
# Interleaved threads

Computations cut into atomic actions on a shared state, with the actions of several of them run
in any order. An action may fail before or after it has taken place. A contract says what the
other threads may do to the state, and threads that meet a contract are verified one by one.
-/

/-- A computation cut into atomic actions. -/
inductive Thread (σ ε α : Type) : Type 1
  | done (result : Except ε α)
  | act {β : Type} (action : Program σ ε β) (next : Except ε β → Thread σ ε α)

namespace Thread

variable {σ ε α β : Type}

def bind : Thread σ ε α → (α → Thread σ ε β) → Thread σ ε β
  | .done (.ok a), f => f a
  | .done (.error e), _ => .done (.error e)
  | .act action next, f => .act action fun r => (next r).bind f

instance : Monad (Thread σ ε) where
  pure a := .done (.ok a)
  bind := bind

def perform (action : Program σ ε α) : Thread σ ε α := .act action .done

def throw (e : ε) : Thread σ ε α := .done (.error e)

def attempt : Thread σ ε α → Thread σ ε (Except ε α)
  | .done r => .done (.ok r)
  | .act action next => .act action fun r => (next r).attempt

def result : Thread σ ε α → Option (Except ε α)
  | .done r => some r
  | .act _ _ => none

/-- What an action may come to: its own result, a failure before it has taken place, or a failure
after it has. -/
inductive Outcome (action : Program σ ε β) (s : σ) : Except ε β → σ → Prop
  | completed {r : Except ε β} {t : σ} (h : action s = some (r, t)) : Outcome action s r t
  | failed (e : ε) : Outcome action s (.error e) s
  | unreported {r : Except ε β} {t : σ} (h : action s = some (r, t)) (e : ε) :
      Outcome action s (.error e) t

theorem Outcome.run {action : Program σ ε β} {s t : σ} {b : β}
    (h : Outcome action s (.ok b) t) : action s = some (.ok b, t) := by
  cases h with
  | completed h => exact h

theorem Outcome.effect {action : Program σ ε β} {s t : σ} {r : Except ε β}
    (h : Outcome action s r t) : t = s ∨ ∃ r', action s = some (r', t) := by
  cases h with
  | completed h => exact .inr ⟨_, h⟩
  | failed e => exact .inl rfl
  | unreported h e => exact .inr ⟨_, h⟩

end Thread

/-! ## Systems of threads -/

structure ThreadSystem (σ ε ι α : Type) : Type 1 where
  shared : σ
  threads : ι → Thread σ ε α

namespace ThreadSystem

variable {σ ε ι α : Type} [DecidableEq ι]

inductive Event (ι ε : Type)
  | step (i : ι)
  | fail (i : ι) (e : ε)
  | unreported (i : ι) (e : ε)

def Event.thread : Event ι ε → ι
  | .step i | .fail i _ | .unreported i _ => i

def next (s : ThreadSystem σ ε ι α) : Event ι ε → Option (ThreadSystem σ ε ι α)
  | .step i =>
      match s.threads i with
      | .done _ => none
      | .act action next => (action s.shared).map fun out =>
          ⟨out.2, Function.update s.threads i (next out.1)⟩
  | .fail i e =>
      match s.threads i with
      | .done _ => none
      | .act _ next => some ⟨s.shared, Function.update s.threads i (next (.error e))⟩
  | .unreported i e =>
      match s.threads i with
      | .done _ => none
      | .act action next => (action s.shared).map fun out =>
          ⟨out.2, Function.update s.threads i (next (.error e))⟩

def Step (s : ThreadSystem σ ε ι α) (e : Event ι ε) (s' : ThreadSystem σ ε ι α) : Prop :=
  s.next e = some s'

/-- What the action of an event's thread comes to. -/
inductive Event.Outcome {β : Type} (action : Program σ ε β) (s : σ) :
    Event ι ε → Except ε β → σ → Prop
  | step {i : ι} {r : Except ε β} {t : σ} (h : action s = some (r, t)) :
      Outcome action s (.step i) r t
  | fail (i : ι) (e : ε) : Outcome action s (.fail i e) (.error e) s
  | unreported {r : Except ε β} {t : σ} (h : action s = some (r, t)) (i : ι) (e : ε) :
      Outcome action s (.unreported i e) (.error e) t

omit [DecidableEq ι] in
theorem Event.Outcome.outcome {β : Type} {action : Program σ ε β} {s t : σ} {e : Event ι ε}
    {r : Except ε β} (h : e.Outcome action s r t) : Thread.Outcome action s r t := by
  cases h with
  | step h => exact .completed h
  | fail i e => exact .failed e
  | unreported h i e => exact .unreported h e

omit [DecidableEq ι] in
theorem exists_event {β : Type} {action : Program σ ε β} {s t : σ} {r : Except ε β}
    (h : Thread.Outcome action s r t) (i : ι) :
    ∃ e : Event ι ε, e.thread = i ∧ e.Outcome action s r t := by
  cases h with
  | completed h => exact ⟨.step i, rfl, .step h⟩
  | failed e => exact ⟨.fail i e, rfl, .fail i e⟩
  | unreported h e => exact ⟨.unreported i e, rfl, .unreported h i e⟩

theorem exists_act_of_step {s s' : ThreadSystem σ ε ι α} {e : Event ι ε} (h : Step s e s') :
    ∃ (β : Type) (action : Program σ ε β) (next : Except ε β → Thread σ ε α),
      s.threads e.thread = .act action next := by
  cases hi : s.threads e.thread with
  | done r => cases e <;> simp_all [Step, ThreadSystem.next, Event.thread]
  | act action next => exact ⟨_, action, next, rfl⟩

theorem step_cases {s s' : ThreadSystem σ ε ι α} {e : Event ι ε} (h : Step s e s') :
    ∃ (β : Type) (action : Program σ ε β) (next : Except ε β → Thread σ ε α) (r : Except ε β),
      s.threads e.thread = .act action next ∧ e.Outcome action s.shared r s'.shared
        ∧ s'.threads = Function.update s.threads e.thread (next r) := by
  obtain ⟨β, action, next, hi⟩ := exists_act_of_step h
  cases e with
  | step i =>
      rw [Event.thread] at hi
      rw [Step, ThreadSystem.next, hi] at h
      obtain ⟨⟨r, t⟩, hrun, rfl⟩ := Option.map_eq_some_iff.mp h
      exact ⟨_, action, next, r, hi, .step hrun, rfl⟩
  | fail i e =>
      rw [Event.thread] at hi
      rw [Step, ThreadSystem.next, hi] at h
      obtain rfl := Option.some.inj h
      exact ⟨_, action, next, .error e, hi, .fail i e, rfl⟩
  | unreported i e =>
      rw [Event.thread] at hi
      rw [Step, ThreadSystem.next, hi] at h
      obtain ⟨⟨r, t⟩, hrun, rfl⟩ := Option.map_eq_some_iff.mp h
      exact ⟨_, action, next, .error e, hi, .unreported hrun i e, rfl⟩

end ThreadSystem

/-! ## Protocols -/

namespace Thread

variable {σ ε α β : Type}

/-- The action that the thread takes next. -/
def pending : Thread σ ε α → Option (Σ β : Type, Program σ ε β)
  | .done _ => none
  | .act action _ => some ⟨_, action⟩

end Thread

/-- An invariant of the state, what a thread relies on the others for, and the events that a run
is assumed to have, by the action that the thread takes and the states before and after it. -/
structure Protocol (σ ε ι : Type) : Type 1 where
  Inv : σ → Prop
  Rely : ι → σ → σ → Prop
  Guard : ThreadSystem.Event ι ε → (Σ β : Type, Program σ ε β) → σ → σ → Prop
  rely_refl : ∀ i s, Rely i s s
  rely_trans : ∀ {i s t u}, Rely i s t → Rely i t u → Rely i s u

namespace Protocol

open Thread ThreadSystem

variable {σ ε ι α β : Type} (p : Protocol σ ε ι) (i : ι)

def Allows (s t : σ) : Prop := p.Inv t ∧ ∀ j, j ≠ i → p.Rely j s t

/-- Whatever the other threads do between its actions, the thread takes steps that the protocol
allows, and `Q` holds from its end on. -/
def Safe (Q : Except ε α → σ → Prop) : Thread σ ε α → σ → Prop
  | .done r, s => ∀ t, p.Rely i s t → p.Inv t → Q r t
  | .act action next, s => ∀ t, p.Rely i s t → p.Inv t → ∀ e r u, e.thread = i →
      Event.Outcome action t e r u → p.Guard e ⟨_, action⟩ t u →
      p.Allows i t u ∧ Safe Q (next r) u

variable {p i} {Q : Except ε α → σ → Prop} {s t : σ}

theorem Safe.rely {thread : Thread σ ε α} (h : p.Safe i Q thread s) (hst : p.Rely i s t) :
    p.Safe i Q thread t := by
  cases thread with
  | done r => exact fun u hu => h u (p.rely_trans hst hu)
  | act action next => exact fun u hu => h u (p.rely_trans hst hu)

theorem Safe.mono {Q' : Except ε α → σ → Prop} {thread : Thread σ ε α}
    (h : p.Safe i Q thread s) (hQ : ∀ r t, p.Inv t → Q r t → Q' r t) :
    p.Safe i Q' thread s := by
  induction thread generalizing s with
  | done r => exact fun t ht hInv => hQ r t hInv (h t ht hInv)
  | act action next ih =>
      intro t ht hInv e r u he hout hguard
      obtain ⟨hallow, hnext⟩ := h t ht hInv e r u he hout hguard
      exact ⟨hallow, ih r hnext⟩

/-- **Sequences.** The second part starts from what the first one ends with. -/
theorem Safe.bind {Q' : Except ε β → σ → Prop} {thread : Thread σ ε α} {f : α → Thread σ ε β}
    (h : p.Safe i Q thread s) (hs : p.Inv s)
    (hok : ∀ a t, p.Inv t → Q (.ok a) t → p.Safe i Q' (f a) t)
    (herr : ∀ e t, p.Inv t → Q (.error e) t → Q' (.error e) t) :
    p.Safe i Q' (thread >>= f) s := by
  induction thread generalizing s with
  | done r =>
      cases r with
      | ok a => exact hok a s hs (h s (p.rely_refl i s) hs)
      | error e => exact fun t ht hInv => herr e t hInv (h t ht hInv)
  | act action next ih =>
      intro t ht hInv e r u he hout hguard
      obtain ⟨hallow, hnext⟩ := h t ht hInv e r u he hout hguard
      exact ⟨hallow, ih r hnext hallow.1⟩

theorem Safe.attempt {Q' : Except ε (Except ε α) → σ → Prop} {thread : Thread σ ε α}
    (h : p.Safe i Q thread s) (hQ : ∀ r t, p.Inv t → Q r t → Q' (.ok r) t) :
    p.Safe i Q' thread.attempt s := by
  induction thread generalizing s with
  | done r => exact fun t ht hInv => hQ r t hInv (h t ht hInv)
  | act action next ih =>
      intro t ht hInv e r u he hout hguard
      obtain ⟨hallow, hnext⟩ := h t ht hInv e r u he hout hguard
      exact ⟨hallow, ih r hnext⟩

/-- One action meets the protocol when its outcomes are allowed and `Q` is stable from them. -/
theorem Safe.perform {action : Program σ ε α}
    (h : ∀ t, p.Rely i s t → p.Inv t → ∀ e r u, e.thread = i → Event.Outcome action t e r u →
      p.Guard e ⟨_, action⟩ t u → p.Allows i t u ∧ ∀ v, p.Rely i u v → p.Inv v → Q r v) :
    p.Safe i Q (perform action) s := h

/-! ### Runs -/

def AllSafe (p : Protocol σ ε ι) (Q : ι → Except ε α → σ → Prop)
    (s : ThreadSystem σ ε ι α) : Prop :=
  p.Inv s.shared ∧ ∀ i, p.Safe i (Q i) (s.threads i) s.shared

/-- The guard of the protocol on a step of the system. -/
def Permits (p : Protocol σ ε ι) (s : ThreadSystem σ ε ι α) (e : Event ι ε)
    (s' : ThreadSystem σ ε ι α) : Prop :=
  ∀ action, (s.threads e.thread).pending = some action → p.Guard e action s.shared s'.shared

variable [DecidableEq ι] {Post : ι → Except ε α → σ → Prop}

theorem AllSafe.step {s s' : ThreadSystem σ ε ι α} {e : Event ι ε} (h : p.AllSafe Post s)
    (hstep : Step s e s') (hguard : p.Permits s e s') : p.AllSafe Post s' := by
  obtain ⟨β, action, next, r, hthread, hout, hthreads⟩ := step_cases hstep
  have hsafe := h.2 e.thread
  rw [hthread] at hsafe
  obtain ⟨hallow, hnext⟩ := hsafe s.shared (p.rely_refl _ _) h.1 e r s'.shared rfl hout
    (hguard _ (by rw [hthread]; rfl))
  refine ⟨hallow.1, fun j => ?_⟩
  rw [hthreads]
  by_cases hj : j = e.thread
  · subst hj
    rwa [Function.update_self]
  · rw [Function.update_of_ne hj]
    exact (h.2 j).rely (hallow.2 j hj)

/-- **Runs of safe threads.** The invariant holds in every state of a run, and so does what a
thread that has ended promises. -/
theorem AllSafe.run {s t : ThreadSystem σ ε ι α} {events : List (Event ι ε)}
    (h : p.AllSafe Post s)
    (htrace : Trace (fun s e s' => Step s e s' ∧ p.Permits s e s') s events t) :
    p.AllSafe Post t := by
  induction htrace with
  | nil => exact h
  | snoc _ hlast ih => exact ih.step hlast.1 hlast.2

omit [DecidableEq ι] in
theorem AllSafe.result {s : ThreadSystem σ ε ι α} (h : p.AllSafe Post s) {i : ι}
    {r : Except ε α} (hi : (s.threads i).result = some r) : Post i r s.shared := by
  have hsafe := h.2 i
  cases hthread : s.threads i with
  | done r' =>
      rw [hthread] at hsafe hi
      obtain rfl : r' = r := Option.some.inj hi
      exact hsafe s.shared (p.rely_refl _ _) h.1
  | act action next =>
      rw [hthread] at hi
      cases hi

end Protocol

/-! ## Contracts -/

/-- An invariant of the state, what a thread relies on the others for, and the steps that a run
is assumed to take. -/
structure Contract (σ ι : Type) where
  Inv : σ → Prop
  Rely : ι → σ → σ → Prop
  Guard : ι → σ → σ → Prop
  rely_refl : ∀ i s, Rely i s s
  rely_trans : ∀ {i s t u}, Rely i s t → Rely i t u → Rely i s u

namespace Contract

open Thread ThreadSystem

variable {σ ε ι α β : Type} (c : Contract σ ι) (i : ι)

def Allows (s t : σ) : Prop := c.Inv t ∧ ∀ j, j ≠ i → c.Rely j s t

/-- Whatever the other threads do between its actions, the thread takes steps that the contract
allows, and `Q` holds from its end on. -/
def Safe (Q : Except ε α → σ → Prop) : Thread σ ε α → σ → Prop
  | .done r, s => ∀ t, c.Rely i s t → c.Inv t → Q r t
  | .act action next, s => ∀ t, c.Rely i s t → c.Inv t → ∀ r u, Outcome action t r u →
      c.Guard i t u → c.Allows i t u ∧ Safe Q (next r) u

/-- The protocol that does not look at the actions. -/
def toProtocol (c : Contract σ ι) : Protocol σ ε ι where
  Inv := c.Inv
  Rely := c.Rely
  Guard e _ := c.Guard e.thread
  rely_refl := c.rely_refl
  rely_trans := c.rely_trans

variable {c i} {Q : Except ε α → σ → Prop} {s t : σ}

theorem safe_iff {thread : Thread σ ε α} :
    c.Safe i Q thread s ↔ c.toProtocol.Safe i Q thread s := by
  induction thread generalizing s with
  | done r => rfl
  | act action next ih =>
      constructor
      · rintro h t ht hInv e r u rfl hout hguard
        exact (h t ht hInv r u hout.outcome hguard).imp_right (ih r).mp
      · intro h t ht hInv r u hout hguard
        obtain ⟨e, rfl, hevent⟩ := exists_event hout i
        exact (h t ht hInv e r u rfl hevent hguard).imp_right (ih r).mpr

theorem Safe.mono {Q' : Except ε α → σ → Prop} {thread : Thread σ ε α}
    (h : c.Safe i Q thread s) (hQ : ∀ r t, c.Inv t → Q r t → Q' r t) :
    c.Safe i Q' thread s :=
  safe_iff.mpr ((safe_iff.mp h).mono hQ)

/-- **Sequences.** The second part starts from what the first one ends with. -/
theorem Safe.bind {Q' : Except ε β → σ → Prop} {thread : Thread σ ε α} {f : α → Thread σ ε β}
    (h : c.Safe i Q thread s) (hs : c.Inv s)
    (hok : ∀ a t, c.Inv t → Q (.ok a) t → c.Safe i Q' (f a) t)
    (herr : ∀ e t, c.Inv t → Q (.error e) t → Q' (.error e) t) :
    c.Safe i Q' (thread >>= f) s :=
  safe_iff.mpr ((safe_iff.mp h).bind hs (fun a t ht hQ => safe_iff.mp (hok a t ht hQ)) herr)

theorem Safe.attempt {Q' : Except ε (Except ε α) → σ → Prop} {thread : Thread σ ε α}
    (h : c.Safe i Q thread s) (hQ : ∀ r t, c.Inv t → Q r t → Q' (.ok r) t) :
    c.Safe i Q' thread.attempt s :=
  safe_iff.mpr ((safe_iff.mp h).attempt hQ)

/-- One action meets the contract when its outcomes are allowed and `Q` is stable from them. -/
theorem Safe.perform {action : Program σ ε α}
    (h : ∀ t, c.Rely i s t → c.Inv t → ∀ r u, Outcome action t r u → c.Guard i t u →
      c.Allows i t u ∧ ∀ v, c.Rely i u v → c.Inv v → Q r v) :
    c.Safe i Q (perform action) s := h

/-- An action meets the contract when it does where it takes place, and its failures promise
nothing that the state before it or after it does not have. -/
theorem Safe.perform_of_run {action : Program σ ε α}
    (hrun : ∀ t, c.Rely i s t → c.Inv t → ∀ r u, action t = some (r, u) → c.Guard i t u →
      c.Allows i t u ∧ ∀ v, c.Rely i u v → c.Inv v → Q r v ∧ ∀ e, Q (.error e) v)
    (hfail : ∀ e t, c.Rely i s t → c.Inv t → Q (.error e) t) :
    c.Safe i Q (Thread.perform action) s := by
  refine .perform fun t hst ht r u hout hguard => ?_
  cases hout with
  | completed h =>
      obtain ⟨hallow, hQ⟩ := hrun t hst ht _ _ h hguard
      exact ⟨hallow, fun v huv hv => (hQ v huv hv).1⟩
  | failed e =>
      exact ⟨⟨ht, fun j _ => c.rely_refl j t⟩, fun v htv hv => hfail e v (c.rely_trans hst htv) hv⟩
  | unreported h e =>
      obtain ⟨hallow, hQ⟩ := hrun t hst ht _ _ h hguard
      exact ⟨hallow, fun v huv hv => (hQ v huv hv).2 e⟩

/-! ### What a thread returns -/

variable (c i) in
/-- The thread is safe, and `Q` holds from its return on. -/
def Returns (Q : α → σ → Prop) (thread : Thread σ ε α) (s : σ) : Prop :=
  c.Safe i (fun r t => ∀ a, r = .ok a → Q a t) thread s

section Returns

variable {Q : α → σ → Prop} {thread : Thread σ ε α}

theorem Safe.returns {Q' : Except ε α → σ → Prop} (h : c.Safe i Q' thread s)
    (hQ : ∀ a t, c.Inv t → Q' (.ok a) t → Q a t) : c.Returns i Q thread s :=
  h.mono fun _ t ht hQ' a ha => hQ a t ht (ha ▸ hQ')

theorem Returns.bind {Q' : β → σ → Prop} {f : α → Thread σ ε β} (h : c.Returns i Q thread s)
    (hs : c.Inv s) (hf : ∀ a t, c.Inv t → Q a t → c.Returns i Q' (f a) t) :
    c.Returns i Q' (thread >>= f) s :=
  Safe.bind h hs (fun a t ht hQ => hf a t ht (hQ a rfl)) fun _ _ _ _ _ hb => by cases hb

theorem Returns.mono {Q' : α → σ → Prop} (h : c.Returns i Q thread s)
    (hQ : ∀ a t, c.Inv t → Q a t → Q' a t) : c.Returns i Q' thread s :=
  Safe.mono h fun _ t ht hQ' a ha => hQ a t ht (hQ' a ha)

theorem Returns.pure {a : α} (h : ∀ t, c.Rely i s t → c.Inv t → Q a t) :
    c.Returns i Q (Pure.pure a : Thread σ ε α) s := by
  rintro t hst ht b ⟨⟩
  exact h t hst ht

theorem Returns.throw {e : ε} : c.Returns i Q (Thread.throw e) s :=
  fun _ _ _ _ h => by cases h

end Returns

/-! ### Runs -/

def AllSafe (c : Contract σ ι) (Q : ι → Except ε α → σ → Prop)
    (s : ThreadSystem σ ε ι α) : Prop :=
  c.Inv s.shared ∧ ∀ i, c.Safe i (Q i) (s.threads i) s.shared

theorem allSafe_iff {Post : ι → Except ε α → σ → Prop} {s : ThreadSystem σ ε ι α} :
    c.AllSafe Post s ↔ c.toProtocol.AllSafe Post s :=
  and_congr_right fun _ => forall_congr' fun _ => safe_iff

variable [DecidableEq ι] {Post : ι → Except ε α → σ → Prop}

theorem AllSafe.step {s s' : ThreadSystem σ ε ι α} {e : Event ι ε} (h : c.AllSafe Post s)
    (hstep : Step s e s') (hguard : c.Guard e.thread s.shared s'.shared) :
    c.AllSafe Post s' :=
  allSafe_iff.mpr ((allSafe_iff.mp h).step hstep fun _ _ => hguard)

/-- **Runs of safe threads.** The invariant holds in every state of a run, and so does what a
thread that has ended promises. -/
theorem AllSafe.run {s t : ThreadSystem σ ε ι α} {events : List (Event ι ε)}
    (h : c.AllSafe Post s)
    (htrace : Trace (fun s e s' => Step s e s' ∧ c.Guard e.thread s.shared s'.shared)
      s events t) : c.AllSafe Post t := by
  induction htrace with
  | nil => exact h
  | snoc _ hlast ih => exact ih.step hlast.1 hlast.2

omit [DecidableEq ι] in
theorem AllSafe.result {s : ThreadSystem σ ε ι α} (h : c.AllSafe Post s) {i : ι}
    {r : Except ε α} (hi : (s.threads i).result = some r) : Post i r s.shared :=
  (allSafe_iff.mp h).result hi

end Contract
