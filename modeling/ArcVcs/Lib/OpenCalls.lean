import Mathlib.Data.Fintype.EquivFin
import Mathlib.Order.RelClasses

/-!
# Recursion without a bound

The body of a recursive procedure asks for the results of other calls before it is done. A call
ends exactly where no calls go on forever from it, and among finitely many calls exactly where none
of them leads to itself again.
-/

/-- What is left of a body: it is done, or it goes on with the result of a call. -/
inductive CallTree (ν ρ α : Type*)
  | done (a : α)
  | call (n : ν) (next : ρ → CallTree ν ρ α)

namespace CallTree

variable {ν ρ α β : Type*}

def bind (f : α → CallTree ν ρ β) : CallTree ν ρ α → CallTree ν ρ β
  | done a => f a
  | call n next => call n fun r => (next r).bind f

/-- The body, where the results of some calls are known. -/
def exec (known : ν → Option ρ) : CallTree ν ρ α → Option α
  | done a => some a
  | call n next =>
      match known n with
      | none => none
      | some r => (next r).exec known

/-- The body is done with a result, where calls have these results. -/
def Returns (ends : ν → ρ → Prop) : CallTree ν ρ α → α → Prop
  | done a, a' => a' = a
  | call n next, a' => ∃ r, ends n r ∧ (next r).Returns ends a'

/-- The body makes a call, where calls have these results. -/
def Asks (ends : ν → ρ → Prop) : CallTree ν ρ α → ν → Prop
  | done _, _ => False
  | call n next, m => m = n ∨ ∃ r, ends n r ∧ (next r).Asks ends m

theorem exec_eq_some_iff {known : ν → Option ρ} {tree : CallTree ν ρ α} {a : α} :
    tree.exec known = some a ↔ tree.Returns (fun n r => known n = some r) a := by
  induction tree with
  | done a' => rw [exec, Returns, Option.some_inj, eq_comm]
  | call n next ih =>
      rw [exec, Returns]
      cases hknown : known n with
      | none => simp
      | some r => simp [ih r]

theorem Returns.mono {ends ends' : ν → ρ → Prop} (hends : ∀ n r, ends n r → ends' n r)
    {tree : CallTree ν ρ α} {a : α} (h : tree.Returns ends a) : tree.Returns ends' a := by
  induction tree with
  | done => exact h
  | call n next ih =>
      obtain ⟨r, hr, hnext⟩ := h
      exact ⟨r, hends n r hr, ih r hnext⟩

theorem asks_bind_iff {ends : ν → ρ → Prop} {f : α → CallTree ν ρ β} {tree : CallTree ν ρ α}
    {m : ν} : (tree.bind f).Asks ends m
      ↔ tree.Asks ends m ∨ ∃ a, tree.Returns ends a ∧ (f a).Asks ends m := by
  induction tree with
  | done a => simp [bind, Asks, Returns]
  | call n next ih =>
      simp only [bind, Asks, Returns, ih]
      constructor
      · rintro (rfl | ⟨r, hr, hasks | ⟨a, ha, hasks⟩⟩)
        · exact .inl (.inl rfl)
        · exact .inl (.inr ⟨r, hr, hasks⟩)
        · exact .inr ⟨a, ⟨r, hr, ha⟩, hasks⟩
      · rintro ((rfl | ⟨r, hr, hasks⟩) | ⟨a, ⟨r, hr, ha⟩, hasks⟩)
        · exact .inl rfl
        · exact .inr ⟨r, hr, .inl hasks⟩
        · exact .inr ⟨r, hr, .inr ⟨a, ha, hasks⟩⟩

/-- The body never has the bad result, as long as no call has the bad one. -/
def Sound (bad : ρ) (bad' : α) : CallTree ν ρ α → Prop
  | done a => a ≠ bad'
  | call _ next => ∀ r, r ≠ bad → (next r).Sound bad bad'

theorem Sound.bind {bad : ρ} {bad' : α} {bad'' : β} {tree : CallTree ν ρ α}
    {f : α → CallTree ν ρ β} (h : tree.Sound bad bad')
    (hf : ∀ a, a ≠ bad' → (f a).Sound bad bad'') : (tree.bind f).Sound bad bad'' := by
  induction tree with
  | done a => exact hf a h
  | call n next ih => exact fun r hr => ih r (h r hr)

theorem Sound.exists_asks {ends : ν → ρ → Prop} {bad : ρ} {bad' : α} {tree : CallTree ν ρ α}
    (h : tree.Sound bad bad') (hreturns : tree.Returns ends bad') :
    ∃ m, tree.Asks ends m ∧ ends m bad := by
  induction tree with
  | done a => exact absurd hreturns.symm h
  | call n next ih =>
      obtain ⟨r, hr, hnext⟩ := hreturns
      by_cases hbad : r = bad
      · exact ⟨n, .inl rfl, hbad ▸ hr⟩
      · obtain ⟨m, hasks, hm⟩ := ih r (h r hbad) hnext
        exact ⟨m, .inr ⟨r, hr, hasks⟩, hm⟩

theorem Asks.mono {ends ends' : ν → ρ → Prop} (hends : ∀ n r, ends n r → ends' n r)
    {tree : CallTree ν ρ α} {m : ν} (h : tree.Asks ends m) : tree.Asks ends' m := by
  induction tree with
  | done => exact h
  | call n next ih =>
      rcases h with rfl | ⟨r, hr, hnext⟩
      · exact .inl rfl
      · exact .inr ⟨r, hends n r hr, ih r hnext⟩

/-! ## Runs -/

variable (body : ν → CallTree ν ρ ρ)

/-- The result of a call, as far as a depth of calls goes. -/
def run : ℕ → ν → Option ρ
  | 0, _ => none
  | fuel + 1, n => (body n).exec (run fuel)

def Ends (n : ν) (r : ρ) : Prop := ∃ fuel, run body fuel n = some r

def Calls (n m : ν) : Prop := (body n).Asks (Ends body) m

variable {body} {n m : ν} {r r' : ρ}

theorem run_succ {fuel : ℕ} (h : run body fuel n = some r) : run body (fuel + 1) n = some r := by
  induction fuel generalizing n r with
  | zero => cases h
  | succ fuel ih =>
      rw [run, exec_eq_some_iff] at h ⊢
      exact h.mono fun m r => ih

theorem run_mono {fuel fuel' : ℕ} (hle : fuel ≤ fuel') (h : run body fuel n = some r) :
    run body fuel' n = some r := by
  induction hle with
  | refl => exact h
  | step _ ih => exact run_succ ih

theorem Ends.unique (h : Ends body n r) (h' : Ends body n r') : r = r' := by
  obtain ⟨fuel, hrun⟩ := h
  obtain ⟨fuel', hrun'⟩ := h'
  have hmax := run_mono (le_max_left fuel fuel') hrun
  rw [run_mono (le_max_right fuel fuel') hrun'] at hmax
  exact (Option.some_inj.mp hmax).symm

theorem Returns.exists_fuel {tree : CallTree ν ρ α} {a : α} (h : tree.Returns (Ends body) a) :
    ∃ fuel, tree.exec (run body fuel) = some a := by
  induction tree with
  | done => exact ⟨0, congrArg some h.symm⟩
  | call n next ih =>
      obtain ⟨r, ⟨fuel, hrun⟩, hnext⟩ := h
      obtain ⟨fuel', hexec⟩ := ih r hnext
      refine ⟨max fuel fuel', ?_⟩
      rw [exec, run_mono (le_max_left fuel fuel') hrun]
      rw [exec_eq_some_iff] at hexec ⊢
      exact hexec.mono fun m r => run_mono (le_max_right fuel fuel')

/-- **A call ends with what its body returns.** -/
theorem ends_iff_returns : Ends body n r ↔ (body n).Returns (Ends body) r := by
  constructor
  · rintro ⟨fuel, hrun⟩
    cases fuel with
    | zero => cases hrun
    | succ fuel =>
        rw [run, exec_eq_some_iff] at hrun
        exact hrun.mono fun m r hm => ⟨fuel, hm⟩
  · intro h
    obtain ⟨fuel, hexec⟩ := h.exists_fuel
    exact ⟨fuel + 1, hexec⟩

/-- What the results of calls satisfy, if that of a body does where those of its calls do. By
induction on the depth. -/
theorem Ends.rec_on_body {P : ν → ρ → Prop}
    (hbody : ∀ n r, (body n).Returns (fun m r => Ends body m r ∧ P m r) r → P n r)
    (h : Ends body n r) : P n r := by
  obtain ⟨fuel, hrun⟩ := h
  induction fuel generalizing n r with
  | zero => cases hrun
  | succ fuel ih =>
      rw [run, exec_eq_some_iff] at hrun
      exact hbody n r (hrun.mono fun m r hm => ⟨⟨fuel, hm⟩, ih hm⟩)

/-! ## Calls that end -/

theorem Returns.of_asks {ends : ν → ρ → Prop} {tree : CallTree ν ρ α}
    (h : ∀ m, tree.Asks ends m → ∃ r, ends m r) : ∃ a, tree.Returns ends a := by
  induction tree with
  | done a => exact ⟨a, rfl⟩
  | call n next ih =>
      obtain ⟨r, hr⟩ := h n (.inl rfl)
      obtain ⟨a, hnext⟩ := ih r fun m hm => h m (.inr ⟨r, hr, hm⟩)
      exact ⟨a, r, hr, hnext⟩

theorem Returns.asks {ends known : ν → ρ → Prop} (hends : ∀ n r r', ends n r → ends n r' → r = r')
    (hknown : ∀ n r, known n r → ends n r) {tree : CallTree ν ρ α} {a : α}
    (h : tree.Returns known a) (hasks : tree.Asks ends m) : ∃ r, known m r := by
  induction tree with
  | done => exact hasks.elim
  | call n next ih =>
      obtain ⟨r, hr, hnext⟩ := h
      rcases hasks with rfl | ⟨r', hr', hasks⟩
      · exact ⟨r, hr⟩
      · obtain rfl := hends n r r' (hknown n r hr) hr'
        exact ih r hnext hasks

/-- **A call ends exactly where no calls go on forever from it.** -/
theorem ends_iff_acc : (∃ r, Ends body n r) ↔ Acc (fun m n => Calls body n m) n := by
  constructor
  · rintro ⟨r, fuel, hrun⟩
    induction fuel generalizing n r with
    | zero => cases hrun
    | succ fuel ih =>
        rw [run, exec_eq_some_iff] at hrun
        refine Acc.intro n fun m hcalls => ?_
        have hends (n : ν) (r r' : ρ) (h : Ends body n r) (h' : Ends body n r') : r = r' :=
          h.unique h'
        obtain ⟨r', hm⟩ := hrun.asks hends (fun m r hm => ⟨fuel, hm⟩) hcalls
        exact ih r' hm
  · intro h
    induction h with
    | intro n _ ih =>
        obtain ⟨r, hreturns⟩ := Returns.of_asks ih
        exact ⟨r, ends_iff_returns.mpr hreturns⟩

theorem acc_irrefl {r : α → α → Prop} {a : α} (h : Acc r a) : ¬ r a a := by
  induction h with
  | intro a _ ih => exact fun haa => ih a haa haa

/-- **Among finitely many calls, one ends exactly where none that it leads to leads to itself.** -/
theorem ends_iff_no_cycle (hfinite : {m | Relation.ReflTransGen (Calls body) n m}.Finite) :
    (∃ r, Ends body n r) ↔ ∀ m, Relation.ReflTransGen (Calls body) n m →
      ¬ Relation.TransGen (Calls body) m m := by
  rw [ends_iff_acc]
  constructor
  · intro hacc m hreach hcycle
    have hm : Acc (fun m n => Calls body n m) m := by
      clear hcycle
      induction hreach with
      | refl => exact hacc
      | tail _ hcalls ih => exact ih.inv hcalls
    exact acc_irrefl hm.transGen (Relation.transGen_swap.mpr hcycle)
  · intro hcycle
    let reached := {m | Relation.ReflTransGen (Calls body) n m}
    have : Finite reached := hfinite
    have hwf : WellFounded fun x y : reached => Relation.TransGen (Calls body) y.1 x.1 := by
      have : IsTrans reached fun x y => Relation.TransGen (Calls body) y.1 x.1 :=
        ⟨fun _ _ _ hxy hyz => hyz.trans hxy⟩
      have : Std.Irrefl fun x y : reached => Relation.TransGen (Calls body) y.1 x.1 :=
        ⟨fun x => hcycle x.1 x.2⟩
      exact Finite.wellFounded_of_trans_of_irrefl _
    have hall (x : reached) : Acc (fun m n => Calls body n m) x.1 := by
      induction x using hwf.induction with
      | h x ih =>
          exact Acc.intro x.1 fun m hcalls => ih ⟨m, x.2.tail hcalls⟩ (.single hcalls)
    exact hall ⟨n, .refl⟩

end CallTree
