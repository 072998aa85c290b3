import ArcVcs.Lib.Collections
import ArcVcs.Lib.PartialAction

/-!
# Operations at one key of a finite map

An operation that reads and writes a single key of a map may fail, depending on
what it finds there. Operations at different keys commute, and a sequence of
operations runs exactly as its restrictions to the single keys do.
-/

/-- An operation at one key: from the old entry, the new entry or a failure. -/
structure KeyedOp (κ : Type*) (ν : Type*) where
  key : κ
  step : Option ν → Option (Option ν)

namespace KeyedOp

variable {κ ν : Type*} [DecidableEq κ]

def act (op : KeyedOp κ ν) : PartialAction (FMap κ ν) :=
  ⟨fun m => (op.step (m.lookup op.key)).map fun v => m.set op.key v⟩

def atKey (k : κ) (op : KeyedOp κ ν) : PartialAction (Option ν) :=
  if op.key = k then ⟨op.step⟩ else 1

/-- The entry at `k` after a sequence of operations, from the entry before it. -/
def runAt (k : κ) (ops : List (KeyedOp κ ν)) : Option ν → Option (Option ν) :=
  (ops.map (atKey k)).prod.run

def runAll (ops : List (KeyedOp κ ν)) : FMap κ ν → Option (FMap κ ν) :=
  (ops.map act).prod.run

@[simp] theorem act_run (op : KeyedOp κ ν) (m : FMap κ ν) :
    op.act.run m = (op.step (m.lookup op.key)).map fun v => m.set op.key v := rfl

@[simp] theorem atKey_self (op : KeyedOp κ ν) : atKey op.key op = ⟨op.step⟩ := if_pos rfl

theorem atKey_of_ne {k : κ} {op : KeyedOp κ ν} (h : op.key ≠ k) : atKey k op = 1 := if_neg h

@[simp] theorem runAt_nil (k : κ) (v : Option ν) : runAt k [] v = some v := rfl

theorem runAt_cons (k : κ) (op : KeyedOp κ ν) (ops : List (KeyedOp κ ν)) (v : Option ν) :
    runAt k (op :: ops) v = ((atKey k op).run v).bind (runAt k ops) := rfl

@[simp] theorem runAll_nil (m : FMap κ ν) : runAll [] m = some m := rfl

theorem runAll_cons (op : KeyedOp κ ν) (ops : List (KeyedOp κ ν)) (m : FMap κ ν) :
    runAll (op :: ops) m = (op.act.run m).bind (runAll ops) := rfl

theorem commute_of_key_ne {op₁ op₂ : KeyedOp κ ν} (h : op₁.key ≠ op₂.key) :
    Commute op₁.act op₂.act := by
  rw [PartialAction.commute_iff]
  intro m
  simp only [act_run]
  cases h₁ : op₁.step (m.lookup op₁.key) with
  | none =>
      cases h₂ : op₂.step (m.lookup op₂.key) with
      | none => rfl
      | some v₂ => simp [FMap.lookup_set_of_ne _ _ h, h₁]
  | some v₁ =>
      cases h₂ : op₂.step (m.lookup op₂.key) with
      | none => simp [FMap.lookup_set_of_ne _ _ h.symm, h₂]
      | some v₂ =>
          simp [FMap.lookup_set_of_ne _ _ h, FMap.lookup_set_of_ne _ _ h.symm, h₁, h₂,
            FMap.set_set_comm m h]

theorem act_run_eq_some_iff {op : KeyedOp κ ν} {m m' : FMap κ ν} :
    op.act.run m = some m' ↔ ∀ k, (atKey k op).run (m.lookup k) = some (m'.lookup k) := by
  rw [act_run, Option.map_eq_some_iff]
  constructor
  · rintro ⟨v, hv, rfl⟩ k
    by_cases hk : op.key = k
    · subst hk
      simpa using hv
    · rw [atKey_of_ne hk, PartialAction.run_one, FMap.lookup_set_of_ne _ _ (Ne.symm hk)]
  · intro h
    refine ⟨m'.lookup op.key, by simpa using h op.key, Finmap.ext_lookup fun k => ?_⟩
    by_cases hk : op.key = k
    · subst hk
      simp
    · have hk' := h k
      rw [atKey_of_ne hk, PartialAction.run_one, Option.some_inj] at hk'
      rw [FMap.lookup_set_of_ne _ _ (Ne.symm hk), hk']

/-- **Decomposition by key.** A run produces `m'` iff at every key the operations there
produce the entry of `m'`. -/
theorem runAll_eq_some_iff {ops : List (KeyedOp κ ν)} {m m' : FMap κ ν} :
    runAll ops m = some m' ↔ ∀ k, runAt k ops (m.lookup k) = some (m'.lookup k) := by
  induction ops generalizing m with
  | nil =>
      simp only [runAll_nil, runAt_nil, Option.some_inj]
      exact ⟨fun h k => h ▸ rfl, fun h => Finmap.ext_lookup h⟩
  | cons op ops ih =>
      rw [runAll_cons, Option.bind_eq_some_iff]
      constructor
      · rintro ⟨m₁, h₁, h₂⟩ k
        rw [runAt_cons, act_run_eq_some_iff.mp h₁ k, Option.bind_some]
        exact ih.mp h₂ k
      · intro h
        have hstep : ∃ v, op.step (m.lookup op.key) = some v := by
          have hk := h op.key
          rw [runAt_cons, atKey_self, Option.bind_eq_some_iff] at hk
          exact ⟨_, hk.choose_spec.1⟩
        obtain ⟨v, hv⟩ := hstep
        have hact : op.act.run m = some (m.set op.key v) := by simp [hv]
        refine ⟨_, hact, ih.mpr fun k => ?_⟩
        have hk := h k
        rwa [runAt_cons, act_run_eq_some_iff.mp hact k, Option.bind_some] at hk

theorem isSome_runAll_iff {ops : List (KeyedOp κ ν)} {m : FMap κ ν} :
    (runAll ops m).isSome ↔ ∀ k, (runAt k ops (m.lookup k)).isSome := by
  constructor
  · intro h k
    obtain ⟨m', hm'⟩ := Option.isSome_iff_exists.mp h
    rw [runAll_eq_some_iff.mp hm' k, Option.isSome_some]
  · intro h
    induction ops generalizing m with
    | nil => rfl
    | cons op ops ih =>
        have hkey := h op.key
        rw [runAt_cons, atKey_self] at hkey
        cases hv : op.step (m.lookup op.key) with
        | none => simp [hv] at hkey
        | some v =>
            have hact : op.act.run m = some (m.set op.key v) := by simp [hv]
            rw [runAll_cons, hact, Option.bind_some]
            refine ih fun k => ?_
            have hk := h k
            rwa [runAt_cons, act_run_eq_some_iff.mp hact k, Option.bind_some] at hk

end KeyedOp
