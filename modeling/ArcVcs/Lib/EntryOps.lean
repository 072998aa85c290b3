import ArcVcs.Lib.KeyedState

/-!
# Writing, removing and keeping one entry

The three ways to change an entry of a map without reading its value: write one, remove the
present one, or fill an absent one. A sequence fails only on a removal that finds no entry,
and what it leaves is decided by its last write or removal.
-/

inductive EntryOp (ν : Type*) where
  | write (v : ν)
  | remove
  | ensure (v : ν)

namespace EntryOp

variable {κ ν : Type*}

/-- The entry after the operation, where a removal does not check for one. -/
def next : EntryOp ν → Option ν → Option ν
  | write v, _ => some v
  | remove, _ => none
  | ensure v, e => some (e.getD v)

def step : EntryOp ν → Option ν → Option (Option ν)
  | remove, none => none
  | op, e => some (op.next e)

/-- Every removal finds an entry, if there is one before the sequence or not. -/
def Safe : Bool → List (EntryOp ν) → Bool
  | _, [] => true
  | _, write _ :: ops => Safe true ops
  | present, remove :: ops => present && Safe false ops
  | _, ensure _ :: ops => Safe true ops

def final (e : Option ν) (ops : List (EntryOp ν)) : Option ν :=
  ops.foldl (fun acc op => op.next acc) e

@[simp] theorem final_nil (e : Option ν) : final e [] = e := rfl

@[simp] theorem final_cons (e : Option ν) (op : EntryOp ν) (ops : List (EntryOp ν)) :
    final e (op :: ops) = final (op.next e) ops := rfl

theorem final_append (e : Option ν) (ops₁ ops₂ : List (EntryOp ν)) :
    final e (ops₁ ++ ops₂) = final (final e ops₁) ops₂ := List.foldl_append

/-- The operation does not keep a present entry. -/
def Replaces : EntryOp ν → Prop
  | ensure _ => False
  | _ => True

theorem final_some_of_not_replaces {ops : List (EntryOp ν)}
    (h : ∀ op ∈ ops, ¬ op.Replaces) (v : ν) :
    final (some v) ops = some v := by
  induction ops with
  | nil => rfl
  | cons op ops ih =>
      obtain ⟨hop, hops⟩ := List.forall_mem_cons.mp h
      cases op with
      | ensure w => exact ih hops
      | _ => exact absurd trivial hop

/-! ## Hiding some of the writes -/

def visible (ops : List (Bool × EntryOp ν)) : List (EntryOp ν) := (ops.filter Prod.fst).map Prod.snd

@[simp] theorem visible_nil : visible ([] : List (Bool × EntryOp ν)) = [] := rfl

@[simp] theorem visible_cons_true (op : EntryOp ν) (ops : List (Bool × EntryOp ν)) :
    visible ((true, op) :: ops) = op :: visible ops := rfl

@[simp] theorem visible_cons_false (op : EntryOp ν) (ops : List (Bool × EntryOp ν)) :
    visible ((false, op) :: ops) = visible ops := rfl

def HiddenReplaced : List (Bool × EntryOp ν) → Prop
  | [] => True
  | (shown, _) :: ops => (shown = true ∨ ∃ x ∈ ops, x.2.Replaces) ∧ HiddenReplaced ops

theorem final_visible_of_hiddenReplaced {ops : List (Bool × EntryOp ν)} (h : HiddenReplaced ops)
    {e e' : Option ν} (he : e = e' ∨ ∃ x ∈ ops, x.2.Replaces) :
    final e (ops.map Prod.snd) = final e' (visible ops) := by
  induction ops generalizing e e' with
  | nil => simpa using he
  | cons x ops ih =>
      obtain ⟨shown, op⟩ := x
      obtain ⟨hhead, hrest⟩ := h
      cases shown with
      | false =>
          have hlater : ∃ x ∈ ops, x.2.Replaces := hhead.resolve_left Bool.false_ne_true
          exact ih hrest (.inr hlater)
      | true =>
          refine ih hrest ?_
          cases op with
          | write v => exact .inl rfl
          | remove => exact .inl rfl
          | ensure v => simpa [Replaces] using he.imp_left (congrArg (next (ensure v)))

theorem exists_last_of_not_hiddenReplaced {ops : List (Bool × EntryOp ν)}
    (hwrites : ∀ x ∈ ops, x.1 = false → ∃ v, x.2 = write v) (h : ¬ HiddenReplaced ops) :
    ∃ l₁ v l₂, ops = l₁ ++ (false, write v) :: l₂ ∧ ∀ x ∈ l₂, ¬ x.2.Replaces := by
  induction ops with
  | nil => exact absurd trivial h
  | cons x ops ih =>
      obtain ⟨hx, hops⟩ := List.forall_mem_cons.mp hwrites
      by_cases hrest : HiddenReplaced ops
      · obtain ⟨shown, op⟩ := x
        have hhead : shown = false ∧ ∀ x ∈ ops, ¬ x.2.Replaces := by
          simpa [HiddenReplaced, hrest] using h
        obtain ⟨v, hv⟩ := hx hhead.1
        obtain rfl : op = write v := hv
        exact ⟨[], v, ops, by rw [hhead.1, List.nil_append], hhead.2⟩
      · obtain ⟨l₁, v, l₂, rfl, hlast⟩ := ih hops hrest
        exact ⟨x :: l₁, v, l₂, rfl, hlast⟩

theorem final_eq_of_last {l₁ l₂ : List (Bool × EntryOp ν)} (hlast : ∀ x ∈ l₂, ¬ x.2.Replaces)
    (shown : Bool) (v : ν) (e : Option ν) :
    final e ((l₁ ++ (shown, write v) :: l₂).map Prod.snd) = some v := by
  rw [List.map_append, List.map_cons, final_append, final_cons]
  apply final_some_of_not_replaces
  intro op hop
  obtain ⟨x, hx, rfl⟩ := List.mem_map.mp hop
  exact hlast x hx

/-- **Hidden writes make no difference** iff every one is replaced later or is what the visible
operations leave. -/
theorem final_visible_iff {ops : List (Bool × EntryOp ν)}
    (hwrites : ∀ x ∈ ops, x.1 = false → ∃ v, x.2 = write v) (e : Option ν) :
    final e (visible ops) = final e (ops.map Prod.snd)
      ↔ ∀ l₁ v l₂, ops = l₁ ++ (false, write v) :: l₂ →
          (∃ x ∈ l₂, x.2.Replaces) ∨ final e (visible ops) = some v := by
  constructor
  · rintro heq l₁ v l₂ rfl
    by_cases hlater : ∃ x ∈ l₂, x.2.Replaces
    · exact .inl hlater
    · have hlast : ∀ x ∈ l₂, ¬ x.2.Replaces := fun x hx hrep => hlater ⟨x, hx, hrep⟩
      exact .inr (heq.trans (final_eq_of_last hlast false v e))
  · intro h
    by_cases hrep : HiddenReplaced ops
    · exact (final_visible_of_hiddenReplaced hrep (.inl rfl)).symm
    · obtain ⟨l₁, v, l₂, rfl, hlast⟩ := exists_last_of_not_hiddenReplaced hwrites hrep
      rw [final_eq_of_last hlast]
      exact (h l₁ v l₂ rfl).resolve_left fun ⟨x, hx, hrep⟩ => hlast x hx hrep

def act (op : EntryOp ν) : PartialAction (Option ν) := ⟨op.step⟩

/-- **A sequence runs iff its removals find entries, and then leaves its final entry.** -/
theorem run_eq (ops : List (EntryOp ν)) (e : Option ν) :
    (ops.map act).prod.run e = if Safe e.isSome ops then some (final e ops) else none := by
  induction ops generalizing e with
  | nil => rfl
  | cons op ops ih =>
      rw [List.map_cons, List.prod_cons, PartialAction.run_mul]
      cases op with
      | write v => exact ih (some v)
      | remove =>
          cases e with
          | none => rfl
          | some v => exact ih none
      | ensure v =>
          cases e with
          | none => exact ih (some v)
          | some w => exact ih (some w)

/-! ## The difference of two entries -/

section Diff

variable [DecidableEq ν]

/-- The operations from one entry to another, none where these are equal. -/
def diff : Option ν → Option ν → List (EntryOp ν)
  | none, none => []
  | some _, none => [remove]
  | none, some b => [write b]
  | some a, some b => if a = b then [] else [remove, write b]

theorem final_diff (e a b : Option ν) : final e (diff a b) = if a = b then e else b := by
  cases a with
  | none => cases b <;> simp [diff, next]
  | some a =>
      cases b with
      | none => simp [diff, next]
      | some b => by_cases h : a = b <;> simp [diff, next, h]

theorem safe_diff_iff (present : Bool) (a b : Option ν) :
    Safe present (diff a b) = true ↔ (a ≠ b → a.isSome → present = true) := by
  cases a with
  | none => cases b <;> simp [diff, Safe]
  | some a =>
      cases b with
      | none => simp [diff, Safe]
      | some b => by_cases h : a = b <;> simp [diff, Safe, h]

@[simp] theorem diff_self (a : Option ν) : diff a a = [] := by cases a <;> simp [diff]

/-- A difference `a → b` brings `e` to `e'`, where `e → e'` is the way back from `after` to
`before` or no way at all. -/
theorem final_diff_eq_iff {e e' before after : Option ν} (a b : Option ν)
    (h : e = after ∧ e' = before ∨ e = e' ∧ after = before) :
    final e (diff a b) = e'
      ↔ (before ≠ after → b = before ∧ a ≠ b) ∧ (before = after → a = b ∨ b = e) := by
  rw [final_diff]
  rcases h with ⟨rfl, rfl⟩ | ⟨rfl, rfl⟩
  · split_ifs with hab
    · constructor
      · rintro rfl
        exact ⟨fun h => absurd rfl h, fun _ => .inl hab⟩
      · rintro ⟨hne, -⟩
        by_contra hcontra
        exact (hne (Ne.symm hcontra)).2 hab
    · constructor
      · rintro rfl
        exact ⟨fun _ => ⟨rfl, hab⟩, fun h => .inr h⟩
      · rintro ⟨hne, heq⟩
        by_cases hbe : e' = e
        · rw [hbe]
          exact (heq hbe).resolve_left hab
        · exact (hne hbe).1
  · split_ifs with hab
    · exact ⟨fun _ => ⟨fun h => absurd rfl h, fun _ => .inl hab⟩, fun _ => rfl⟩
    · exact ⟨fun hb => ⟨fun h => absurd rfl h, fun _ => .inr hb⟩,
        fun h => (h.2 rfl).resolve_left hab⟩

theorem diff_eq_nil_iff {a b : Option ν} : diff a b = [] ↔ a = b := by
  cases a with
  | none => cases b <;> simp [diff]
  | some a =>
      cases b with
      | none => simp [diff]
      | some b => by_cases h : a = b <;> simp [diff, h]

end Diff

/-! ## At the keys of a map -/

def at_ (key : κ) (op : EntryOp ν) : KeyedOp κ ν := ⟨key, op.step⟩

variable [DecidableEq κ]

def opsAt (k : κ) (ops : List (κ × EntryOp ν)) : List (EntryOp ν) :=
  (ops.filter fun x => x.1 = k).map Prod.snd

@[simp] theorem opsAt_nil (k : κ) : opsAt k ([] : List (κ × EntryOp ν)) = [] := rfl

theorem opsAt_cons_self (k : κ) (op : EntryOp ν) (ops : List (κ × EntryOp ν)) :
    opsAt k ((k, op) :: ops) = op :: opsAt k ops := by simp [opsAt]

theorem opsAt_cons_of_ne {k j : κ} (h : j ≠ k) (op : EntryOp ν) (ops : List (κ × EntryOp ν)) :
    opsAt k ((j, op) :: ops) = opsAt k ops := by simp [opsAt, h]

@[simp] theorem opsAt_append (k : κ) (ops₁ ops₂ : List (κ × EntryOp ν)) :
    opsAt k (ops₁ ++ ops₂) = opsAt k ops₁ ++ opsAt k ops₂ := by simp [opsAt]

theorem opsAt_eq_nil {k : κ} {ops : List (κ × EntryOp ν)} (h : ∀ op, (k, op) ∉ ops) :
    opsAt k ops = [] := by
  rw [opsAt, List.map_eq_nil_iff, List.filter_eq_nil_iff]
  rintro ⟨j, op⟩ hmem hk
  obtain rfl : j = k := of_decide_eq_true hk
  exact h op hmem

theorem opsAt_eq_singleton {k : κ} {op : EntryOp ν} {ops : List (κ × EntryOp ν)}
    (hnodup : (ops.map Prod.fst).Nodup) (h : (k, op) ∈ ops) : opsAt k ops = [op] := by
  obtain ⟨before, after, rfl⟩ := List.append_of_mem h
  rw [List.map_append, List.map_cons] at hnodup
  obtain ⟨-, htail, hdisjoint⟩ := List.nodup_append.mp hnodup
  have hbefore : opsAt k before = [] := opsAt_eq_nil fun op' hmem =>
    hdisjoint k (List.mem_map_of_mem hmem) k List.mem_cons_self rfl
  have hafter : opsAt k after = [] := opsAt_eq_nil fun op' hmem =>
    (List.nodup_cons.mp htail).1 (List.mem_map.mpr ⟨_, hmem, rfl⟩)
  rw [opsAt_append, opsAt_cons_self, hbefore, hafter, List.nil_append]

theorem opsAt_flatMap {l : List κ} (hnodup : l.Nodup) {f : κ → List (κ × EntryOp ν)}
    (hf : ∀ j, ∀ x ∈ f j, x.1 = j) (k : κ) :
    opsAt k (l.flatMap f) = if k ∈ l then (f k).map Prod.snd else [] := by
  induction l with
  | nil => rfl
  | cons j l ih =>
      obtain ⟨hj, hnodup⟩ := List.nodup_cons.mp hnodup
      rw [List.flatMap_cons, opsAt_append, ih hnodup]
      by_cases hk : j = k
      · subst hk
        have hall : (f j).filter (fun x => x.1 = j) = f j :=
          List.filter_eq_self.mpr fun x hx => decide_eq_true (hf j x hx)
        simp [opsAt, hall, hj]
      · have hnone : (f j).filter (fun x => x.1 = k) = [] :=
          List.filter_eq_nil_iff.mpr fun x hx => by simpa [hf j x hx] using hk
        simp [opsAt, hnone, Ne.symm hk]

theorem runAt_map_at (k : κ) (ops : List (κ × EntryOp ν)) (e : Option ν) :
    KeyedOp.runAt k (ops.map fun x => at_ x.1 x.2) e
      = if Safe e.isSome (opsAt k ops) then some (final e (opsAt k ops)) else none := by
  rw [← run_eq, KeyedOp.runAt, List.map_map]
  congr 1
  induction ops with
  | nil => rfl
  | cons x ops ih =>
      obtain ⟨j, op⟩ := x
      by_cases hj : j = k
      · subst hj
        rw [opsAt_cons_self, List.map_cons, List.map_cons, List.prod_cons, List.prod_cons, ih]
        congr 1
        exact KeyedOp.atKey_self (at_ j op)
      · rw [opsAt_cons_of_ne hj, List.map_cons, List.prod_cons, ih]
        have hone : KeyedOp.atKey k (at_ j op) = 1 := KeyedOp.atKey_of_ne hj
        simp only [Function.comp_apply, hone, one_mul]

theorem runAll_eq_some_iff {ops : List (κ × EntryOp ν)} {m m' : FMap κ ν} :
    KeyedOp.runAll (ops.map fun x => at_ x.1 x.2) m = some m'
      ↔ ∀ k, Safe (m.lookup k).isSome (opsAt k ops) = true
          ∧ m'.lookup k = final (m.lookup k) (opsAt k ops) := by
  rw [KeyedOp.runAll_eq_some_iff]
  refine forall_congr' fun k => ?_
  rw [runAt_map_at]
  by_cases hsafe : Safe (m.lookup k).isSome (opsAt k ops) = true
  · simp [hsafe, eq_comm]
  · simp [hsafe]

theorem isSome_runAll_iff {ops : List (κ × EntryOp ν)} {m : FMap κ ν} :
    (KeyedOp.runAll (ops.map fun x => at_ x.1 x.2) m).isSome
      ↔ ∀ k, Safe (m.lookup k).isSome (opsAt k ops) = true := by
  rw [KeyedOp.isSome_runAll_iff]
  refine forall_congr' fun k => ?_
  rw [runAt_map_at]
  by_cases hsafe : Safe (m.lookup k).isSome (opsAt k ops) = true <;> simp [hsafe]

end EntryOp
