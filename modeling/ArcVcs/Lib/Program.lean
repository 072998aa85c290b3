import Mathlib.Tactic.TypeStar
import Mathlib.Data.Nat.Notation

/-!
# Programs over a mutable state

A program hangs, fails or returns, and a failure keeps the effects before it. Its
specifications are partial: they name what holds after a return and what holds after a
failure.
-/

theorem Except.bind_eq_ok_iff {ε α β : Type*} {x : Except ε α} {f : α → Except ε β} {b : β} :
    x.bind f = .ok b ↔ ∃ a, x = .ok a ∧ f a = .ok b := by
  cases x <;> simp [Except.bind]

theorem Except.bind_eq_error_iff {ε α β : Type*} {x : Except ε α} {f : α → Except ε β} {e : ε} :
    x.bind f = .error e ↔ x = .error e ∨ ∃ a, x = .ok a ∧ f a = .error e := by
  cases x <;> simp [Except.bind]

/-- `none` is a run that does not end. -/
def Program (σ ε α : Type*) := σ → Option (Except ε α × σ)

namespace Program

universe u v w

variable {σ : Type u} {ε : Type v} {α β : Type w}

def bind (p : Program σ ε α) (f : α → Program σ ε β) : Program σ ε β := fun s =>
  match p s with
  | none => none
  | some (.error e, s') => some (.error e, s')
  | some (.ok a, s') => f a s'

instance : Monad (Program σ ε) where
  pure a := fun s => some (.ok a, s)
  bind := bind

@[simp] theorem pure_run (a : α) (s : σ) : (Pure.pure a : Program σ ε α) s = some (.ok a, s) := rfl

theorem bind_run (p : Program σ ε α) (f : α → Program σ ε β) (s : σ) :
    (p >>= f) s = match p s with
      | none => none
      | some (.error e, s') => some (.error e, s')
      | some (.ok a, s') => f a s' := rfl

instance : LawfulMonad (Program σ ε) := by
  refine LawfulMonad.mk' _ (fun p => funext fun s => ?_) (fun _ _ => rfl) fun p f g =>
    funext fun s => ?_
  · change Program.bind p _ s = _
    unfold Program.bind
    rcases p s with _ | ⟨_ | a, s'⟩ <;> rfl
  · rw [bind_run, bind_run, bind_run]
    rcases p s with _ | ⟨_ | a, s'⟩ <;> rfl

def throw (e : ε) : Program σ ε α := fun s => some (.error e, s)

def get : Program σ ε σ := fun s => some (.ok s, s)

def modify (f : σ → σ) : Program σ ε Unit := fun s => some (.ok (), f s)

/-- The outcome of a pure computation. -/
def ofExcept (r : Except ε α) : Program σ ε α := fun s => some (r, s)

/-- Undo something when a program fails, and fail the same way. -/
def onError (p : Program σ ε α) (undo : ε → σ → σ) : Program σ ε α := fun s =>
  match p s with
  | some (.error e, s') => some (.error e, undo e s')
  | out => out

theorem onError_eq_ok_iff {p : Program σ ε α} {undo : ε → σ → σ} {s s' : σ} {a : α} :
    p.onError undo s = some (.ok a, s') ↔ p s = some (.ok a, s') := by
  unfold onError
  rcases p s with _ | ⟨e | b, s₁⟩
  · simp
  · simp
  · simp

section Focus

universe x y

variable {τ : Type x} {ε' : Type y}

/-- A program on a part of a state. -/
def focus (get : τ → σ) (set : σ → τ → τ) (wrap : ε → ε') (p : Program σ ε α) :
    Program τ ε' α := fun t =>
  match p (get t) with
  | none => none
  | some (.error e, s) => some (.error (wrap e), set s t)
  | some (.ok a, s) => some (.ok a, set s t)

theorem focus_eq_ok_iff {get : τ → σ} {set : σ → τ → τ} {wrap : ε → ε'} {p : Program σ ε α}
    {t t' : τ} {a : α} :
    p.focus get set wrap t = some (.ok a, t')
      ↔ ∃ s, p (get t) = some (.ok a, s) ∧ t' = set s t := by
  unfold focus
  rcases p (get t) with _ | ⟨e | b, s⟩
  · simp
  · simp
  · constructor
    · rintro ⟨⟩
      exact ⟨s, rfl, rfl⟩
    · rintro ⟨_, ⟨⟩, rfl⟩
      rfl

end Focus

/-- `Q` holds after every return from `s`, and `E` after every failure. -/
def Ensures (p : Program σ ε α) (s : σ) (Q : α → σ → Prop) (E : σ → Prop) : Prop :=
  (∀ a s', p s = some (.ok a, s') → Q a s') ∧ ∀ e s', p s = some (.error e, s') → E s'

variable {p : Program σ ε α} {f : α → Program σ ε β} {s : σ}
  {Q Q' : α → σ → Prop} {R : β → σ → Prop} {E E' : σ → Prop}

theorem bind_eq_ok_iff {b : β} {s' : σ} :
    (p >>= f) s = some (.ok b, s')
      ↔ ∃ a s₁, p s = some (.ok a, s₁) ∧ f a s₁ = some (.ok b, s') := by
  rw [bind_run]
  rcases p s with _ | ⟨e | a, s₁⟩
  · simp
  · simp
  · constructor
    · exact fun h => ⟨a, s₁, rfl, h⟩
    · rintro ⟨a', s', ⟨⟩, h⟩
      exact h

theorem bind_eq_error_iff {e : ε} {s' : σ} :
    (p >>= f) s = some (.error e, s')
      ↔ p s = some (.error e, s')
        ∨ ∃ a s₁, p s = some (.ok a, s₁) ∧ f a s₁ = some (.error e, s') := by
  rw [bind_run]
  rcases p s with _ | ⟨e' | a, s₁⟩
  · simp
  · simp
  · constructor
    · exact fun h => .inr ⟨a, s₁, rfl, h⟩
    · rintro (⟨⟨⟩⟩ | ⟨a', s', ⟨⟩, h⟩)
      exact h

theorem Ensures.ok (h : p.Ensures s Q E) {a : α} {s' : σ} (hrun : p s = some (.ok a, s')) :
    Q a s' := h.1 a s' hrun

theorem Ensures.error (h : p.Ensures s Q E) {e : ε} {s' : σ} (hrun : p s = some (.error e, s')) :
    E s' := h.2 e s' hrun

theorem Ensures.mono (h : p.Ensures s Q E) (hQ : ∀ a s', Q a s' → Q' a s')
    (hE : ∀ s', E s' → E' s') : p.Ensures s Q' E' :=
  ⟨fun a s' hrun => hQ a s' (h.1 a s' hrun), fun e s' hrun => hE s' (h.2 e s' hrun)⟩

theorem Ensures.bind (hp : p.Ensures s Q E) (hf : ∀ a s', Q a s' → (f a).Ensures s' R E) :
    (p >>= f).Ensures s R E := by
  constructor
  · intro b s' hrun
    change Program.bind p f s = _ at hrun
    unfold Program.bind at hrun
    rcases hres : p s with _ | ⟨_ | a, s₁⟩
    · simp [hres] at hrun
    · simp [hres] at hrun
    · rw [hres] at hrun
      exact (hf a s₁ (hp.1 a s₁ hres)).1 b s' hrun
  · intro e s' hrun
    change Program.bind p f s = _ at hrun
    unfold Program.bind at hrun
    rcases hres : p s with _ | ⟨e' | a, s₁⟩
    · simp [hres] at hrun
    · obtain ⟨-, rfl⟩ : e' = e ∧ s₁ = s' := by simpa [hres] using hrun
      exact hp.2 e' s₁ hres
    · rw [hres] at hrun
      exact (hf a s₁ (hp.1 a s₁ hres)).2 e s' hrun

theorem Ensures.of_run {a : α} {s' : σ} (hrun : p s = some (.ok a, s')) (h : Q a s') :
    p.Ensures s Q E := by
  constructor
  · intro b t hb
    obtain ⟨rfl, rfl⟩ : a = b ∧ s' = t := by simpa [hrun] using hb
    exact h
  · intro e t he
    simp [hrun] at he

theorem Ensures.bind_of_run {a : α} {s' : σ} (hrun : p s = some (.ok a, s'))
    (h : (f a).Ensures s' R E) : (p >>= f).Ensures s R E := by
  refine .bind (Q := fun b t => b = a ∧ t = s') (.of_run hrun ⟨rfl, rfl⟩) ?_
  rintro _ _ ⟨rfl, rfl⟩
  exact h

theorem Ensures.run (h : p.Ensures s Q E) :
    p.Ensures s (fun a s' => Q a s' ∧ p s = some (.ok a, s')) E :=
  ⟨fun a s' hrun => ⟨h.1 a s' hrun, hrun⟩, h.2⟩

@[simp] theorem ensures_pure {a : α} :
    (pure a : Program σ ε α).Ensures s Q E ↔ Q a s := by
  constructor
  · exact fun h => h.1 a s rfl
  · intro h
    refine ⟨fun b s' hrun => ?_, fun e s' hrun => ?_⟩
    · obtain ⟨rfl, rfl⟩ : a = b ∧ s = s' := by simpa [pure] using hrun
      exact h
    · simp [pure] at hrun

@[simp] theorem ensures_throw {e : ε} : (throw e : Program σ ε α).Ensures s Q E ↔ E s := by
  constructor
  · exact fun h => h.2 e s rfl
  · intro h
    refine ⟨fun b s' hrun => ?_, fun e' s' hrun => ?_⟩
    · simp [throw] at hrun
    · obtain ⟨-, rfl⟩ : e = e' ∧ s = s' := by simpa [throw] using hrun
      exact h

theorem Ensures.get_bind {γ : Type u} {f : σ → Program σ ε γ} {Q : γ → σ → Prop}
    (h : (f s).Ensures s Q E) : (get >>= f).Ensures s Q E := h

@[simp] theorem ensures_get {Q : σ → σ → Prop} : (get : Program σ ε σ).Ensures s Q E ↔ Q s s := by
  constructor
  · exact fun h => h.1 s s rfl
  · intro h
    refine ⟨fun b s' hrun => ?_, fun e s' hrun => ?_⟩
    · obtain ⟨rfl, rfl⟩ : s = b ∧ s = s' := by simpa [get] using hrun
      exact h
    · simp [get] at hrun

@[simp] theorem ensures_modify {f : σ → σ} {Q : Unit → σ → Prop} :
    (modify f : Program σ ε Unit).Ensures s Q E ↔ Q () (f s) := by
  constructor
  · exact fun h => h.1 () (f s) rfl
  · intro h
    refine ⟨fun b s' hrun => ?_, fun e s' hrun => ?_⟩
    · obtain rfl : f s = s' := by simpa [modify] using hrun
      exact h
    · simp [modify] at hrun

theorem ensures_ofExcept {r : Except ε α} (hok : ∀ a, r = .ok a → Q a s) (herr : E s) :
    (ofExcept r : Program σ ε α).Ensures s Q E := by
  refine ⟨fun b s' hrun => ?_, fun e s' hrun => ?_⟩
  · obtain ⟨rfl, rfl⟩ : r = .ok b ∧ s = s' := by simpa [ofExcept] using hrun
    exact hok b rfl
  · obtain ⟨-, rfl⟩ : r = .error e ∧ s = s' := by simpa [ofExcept] using hrun
    exact herr

theorem Ensures.onError {undo : ε → σ → σ} (h : p.Ensures s Q E')
    (hundo : ∀ e s', E' s' → E (undo e s')) : (p.onError undo).Ensures s Q E := by
  constructor
  · intro a s' hrun
    unfold Program.onError at hrun
    rcases hres : p s with _ | ⟨e' | a', s₁⟩
    · simp [hres] at hrun
    · simp [hres] at hrun
    · obtain ⟨rfl, rfl⟩ : a' = a ∧ s₁ = s' := by simpa [hres] using hrun
      exact h.1 a' s₁ hres
  · intro e s' hrun
    unfold Program.onError at hrun
    rcases hres : p s with _ | ⟨e' | a', s₁⟩
    · simp [hres] at hrun
    · obtain ⟨-, rfl⟩ : e' = e ∧ undo e' s₁ = s' := by simpa [hres] using hrun
      exact hundo e' s₁ (h.2 e' s₁ hres)
    · simp [hres] at hrun

/-! ## Invariants of programs -/

/-- Every run of the program keeps `I`. -/
def Keeps (p : Program σ ε α) (I : σ → Prop) : Prop := ∀ s, I s → p.Ensures s (fun _ => I) I

variable {I : σ → Prop}

theorem Keeps.bind (hp : p.Keeps I) (hf : ∀ a, (f a).Keeps I) : (p >>= f).Keeps I :=
  fun s hs => (hp s hs).bind fun a s' hs' => hf a s' hs'

theorem Keeps.pure (a : α) : (Pure.pure a : Program σ ε α).Keeps I :=
  fun _ hs => ensures_pure.mpr hs

theorem Keeps.throw (e : ε) : (Program.throw e : Program σ ε α).Keeps I :=
  fun _ hs => ensures_throw.mpr hs

theorem Keeps.hang : Keeps (fun _ => none : Program σ ε α) I :=
  fun _ _ => ⟨fun _ _ hrun => by simp at hrun, fun _ _ hrun => by simp at hrun⟩

theorem Keeps.get : (Program.get : Program σ ε σ).Keeps I := fun _ hs => ensures_get.mpr hs

theorem Keeps.modify {f : σ → σ} (hf : ∀ s, I s → I (f s)) :
    (Program.modify f : Program σ ε Unit).Keeps I :=
  fun s hs => ensures_modify.mpr (hf s hs)

theorem Keeps.ofExcept (r : Except ε α) : (Program.ofExcept r : Program σ ε α).Keeps I :=
  fun _ hs => ensures_ofExcept (fun _ _ => hs) hs

theorem Keeps.ensures (hp : p.Keeps I) (hs : I s) : p.Ensures s (fun _ => I) fun _ => True :=
  (hp s hs).mono (fun _ _ h => h) fun _ _ => trivial

theorem Keeps.onError (hp : p.Keeps I) {undo : ε → σ → σ} (hundo : ∀ e s, I s → I (undo e s)) :
    (p.onError undo).Keeps I :=
  fun s hs => (hp s hs).onError hundo

theorem Keeps.ite {c : Prop} [Decidable c] {q : Program σ ε α} (hp : p.Keeps I) (hq : q.Keeps I) :
    (if c then p else q).Keeps I := by
  split
  · exact hp
  · exact hq

/-! ## Interrupted writes -/

section Writes

def applyWrites (writes : List (σ → σ)) (s : σ) : σ := writes.foldl (fun s write => write s) s

@[simp] theorem applyWrites_cons (write : σ → σ) (writes : List (σ → σ)) (s : σ) :
    applyWrites (write :: writes) s = applyWrites writes (write s) := rfl

theorem applyWrites_append (writes writes' : List (σ → σ)) (s : σ) :
    applyWrites (writes ++ writes') s = applyWrites writes' (applyWrites writes s) :=
  List.foldl_append

theorem applyWrites_induction {P : σ → Prop} {writes : List (σ → σ)}
    (h : ∀ write ∈ writes, ∀ s, P s → P (write s)) {s : σ} (hs : P s) :
    P (applyWrites writes s) := by
  induction writes generalizing s with
  | nil => exact hs
  | cons write writes ih =>
      apply ih fun w hw => h w (.tail _ hw)
      exact h write List.mem_cons_self s hs

theorem applyWrites_take {P Q : σ → Prop} {before after : List (σ → σ)} {write : σ → σ}
    (hbefore : ∀ w ∈ before, ∀ s, P s → P (w s)) (hwrite : ∀ s, P s → Q (write s))
    (hafter : ∀ w ∈ after, ∀ s, Q s → Q (w s)) {s : σ} (hs : P s) (n : ℕ) :
    P (applyWrites ((before ++ write :: after).take n) s)
      ∨ Q (applyWrites ((before ++ write :: after).take n) s) := by
  induction before generalizing s n with
  | nil =>
      cases n with
      | zero => exact .inl hs
      | succ n =>
          right
          apply applyWrites_induction fun w hw => hafter w (List.mem_of_mem_take hw)
          exact hwrite s hs
  | cons w before ih =>
      cases n with
      | zero => exact .inl hs
      | succ n =>
          apply ih fun v hv => hbefore v (.tail _ hv)
          exact hbefore w List.mem_cons_self s hs

end Writes

end Program
