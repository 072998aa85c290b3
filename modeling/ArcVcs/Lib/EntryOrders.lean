import ArcVcs.Lib.EntryOps
import ArcVcs.Lib.LinearExtension

/-!
# One entry under all orders

The elements of a finite strict order work on one entry. In every order that respects it each
removal finds the entry exactly when something works on the entry before the removal, and
whatever else removes the entry comes later or is made up for in between. What they leave is
always the same exactly when the latest replacements agree.
-/

open LinearExtension

namespace EntryOp

variable {α ν : Type*}

section Sequences

variable {ops : List (EntryOp ν)}

theorem safe_append (e : Option ν) (ops₁ ops₂ : List (EntryOp ν)) :
    Safe e.isSome (ops₁ ++ ops₂) = (Safe e.isSome ops₁ && Safe (final e ops₁).isSome ops₂) := by
  induction ops₁ generalizing e with
  | nil => simp [Safe]
  | cons op ops₁ ih =>
      cases op with
      | write v => exact ih (some v)
      | remove =>
          cases e with
          | none => simp [Safe]
          | some v => simpa [Safe, next] using ih none
      | ensure v => exact ih (some (e.getD v))

theorem safe_of_safe_false (h : Safe false ops = true) (present : Bool) :
    Safe present ops = true := by
  cases ops with
  | nil => rfl
  | cons op ops =>
      cases op with
      | write v => exact h
      | remove => cases h
      | ensure v => exact h

theorem safe_true_of_safe {present : Bool} (h : Safe present ops = true) :
    Safe true ops = true := by
  cases present with
  | false => exact safe_of_safe_false h true
  | true => exact h

theorem safe_flatMap_iff {ops : α → List (EntryOp ν)} {l : List α} (e : Option ν) :
    Safe e.isSome (l.flatMap ops) = true
      ↔ ∀ u a v, l = u ++ a :: v → Safe (final e (u.flatMap ops)).isSome (ops a) = true := by
  induction l generalizing e with
  | nil => simp [Safe]
  | cons b l ih =>
      rw [List.flatMap_cons, safe_append, Bool.and_eq_true, ih]
      constructor
      · rintro ⟨hb, hl⟩ u a v heq
        cases u with
        | nil =>
            obtain ⟨rfl, rfl⟩ := List.cons.inj heq
            exact hb
        | cons c u =>
            obtain ⟨rfl, rfl⟩ := List.cons.inj heq
            rw [List.flatMap_cons, final_append]
            exact hl u a v rfl
      · intro h
        refine ⟨h [] b l rfl, fun u a v heq => ?_⟩
        have hsafe := h (b :: u) a v (by rw [heq, List.cons_append])
        rwa [List.flatMap_cons, final_append] at hsafe

def Replacing (ops : List (EntryOp ν)) : Prop := ∃ op ∈ ops, op.Replaces

/-- Whatever the entry was, there is none afterwards. -/
def Removing (ops : List (EntryOp ν)) : Prop := ∀ e, final e ops = none

def Filling (ops : List (EntryOp ν)) : Prop := ops ≠ [] ∧ ¬ Replacing ops

theorem Replacing.ne_nil (h : Replacing ops) : ops ≠ [] := by
  obtain ⟨op, hop, -⟩ := h
  exact List.ne_nil_of_mem hop

theorem Replacing.final_eq (h : Replacing ops) (e e' : Option ν) : final e ops = final e' ops := by
  induction ops generalizing e e' with
  | nil => exact absurd rfl h.ne_nil
  | cons op ops ih =>
      by_cases hrest : Replacing ops
      · exact ih hrest _ _
      · obtain ⟨op', hop', hrep⟩ := h
        rcases List.mem_cons.mp hop' with rfl | hop'
        · cases op' with
          | ensure v => exact absurd hrep id
          | _ => rfl
        · exact absurd ⟨op', hop', hrep⟩ hrest

theorem not_replaces_of_not_replacing (h : ¬ Replacing ops) : ∀ op ∈ ops, ¬ op.Replaces :=
  fun op hop hrep => h ⟨op, hop, hrep⟩

theorem isSome_final (hne : ops ≠ []) (h : ¬ Removing ops) (e : Option ν) :
    (final e ops).isSome := by
  by_cases hrep : Replacing ops
  · rw [Option.isSome_iff_ne_none]
    intro hnone
    exact h fun e' => (hrep.final_eq e' e).trans hnone
  · obtain ⟨op, ops, rfl⟩ := List.exists_cons_of_ne_nil hne
    have hnot := not_replaces_of_not_replacing hrep
    cases op with
    | ensure v =>
        rw [final_cons, next, final_some_of_not_replaces fun op hop => hnot op (.tail _ hop)]
        rfl
    | _ => exact absurd trivial (hnot _ List.mem_cons_self)

theorem safe_of_writes (h : ∀ op ∈ ops, ∃ v, op = write v) (present : Bool) :
    Safe present ops = true := by
  induction ops generalizing present with
  | nil => rfl
  | cons op ops ih =>
      obtain ⟨⟨v, rfl⟩, hops⟩ := List.forall_mem_cons.mp h
      exact ih hops true

theorem replacing_of_writes (hne : ops ≠ []) (h : ∀ op ∈ ops, ∃ v, op = write v) :
    Replacing ops := by
  obtain ⟨op, hop⟩ := List.exists_mem_of_ne_nil ops hne
  obtain ⟨v, rfl⟩ := h op hop
  exact ⟨_, hop, trivial⟩

/-- What is left of an entry that is filled with `d` when `p` holds. -/
def filled (d : ν) (p : Prop) [Decidable p] (e : Option ν) : Option ν :=
  if p then some (e.getD d) else e

theorem final_eq_filled {d : ν} (h : ¬ Replacing ops) (hd : ∀ v, ensure v ∈ ops → v = d)
    [Decidable (ops ≠ [])] (e : Option ν) : final e ops = filled d (ops ≠ []) e := by
  cases ops with
  | nil => simp [filled]
  | cons op ops =>
      have hnot := not_replaces_of_not_replacing h
      cases op with
      | ensure v =>
          obtain rfl := hd v List.mem_cons_self
          rw [final_cons, next, final_some_of_not_replaces fun op hop => hnot op (.tail _ hop),
            filled, if_pos (List.cons_ne_nil _ _)]
      | _ => exact absurd trivial (hnot _ List.mem_cons_self)

end Sequences

variable (r : α → α → Prop) (S : Finset α) (ops : α → List (EntryOp ν))

/-! ## Removals -/

/-- What makes every removal find its entry: something has worked on the entry before, and the
other elements that remove it come later, or something in between works on it again. -/
structure RemovalsFound : Prop where
  runs : ∀ a ∈ S, Safe true (ops a) = true
  earlier : ∀ a ∈ S, Safe false (ops a) = false → ∃ b ∈ S, ops b ≠ [] ∧ r b a
  kept : ∀ a ∈ S, Safe false (ops a) = false → ∀ b ∈ S, Removing (ops b) → b ≠ a →
    r a b ∨ ∃ c ∈ S, ops c ≠ [] ∧ r b c ∧ r c a

variable {r S ops} [IsStrictOrder α r] {l : List α}

omit [IsStrictOrder α r] in
theorem exists_last {p : α → Prop} (h : ∃ a ∈ l, p a) :
    ∃ u a v, l = u ++ a :: v ∧ p a ∧ ∀ b ∈ v, ¬ p b := by
  induction l with
  | nil => simp at h
  | cons c l ih =>
      by_cases hl : ∃ a ∈ l, p a
      · obtain ⟨u, a, v, rfl, ha, hlast⟩ := ih hl
        exact ⟨c :: u, a, v, rfl, ha, hlast⟩
      · obtain ⟨a, ha, hpa⟩ := h
        obtain rfl := (List.mem_cons.mp ha).resolve_right fun hmem => hl ⟨a, hmem, hpa⟩
        exact ⟨[], a, l, rfl, hpa, fun b hb hpb => hl ⟨b, hb, hpb⟩⟩

theorem RemovalsFound.safe (h : RemovalsFound r S ops)
    (hl : Extends r S l) : Safe false (l.flatMap ops) = true := by
  refine (safe_flatMap_iff none).mpr fun u a v heq => ?_
  subst heq
  have ha : a ∈ S := (hl.mem_iff a).mp (by simp)
  cases hneeds : Safe false (ops a) with
  | true => exact safe_of_safe_false hneeds _
  | false =>
      suffices hsome : (final none (u.flatMap ops)).isSome by
        rw [hsome]
        exact h.runs a ha
      obtain ⟨b₀, hb₀, hworks₀, hba₀⟩ := h.earlier a ha hneeds
      have hb₀u := hl.mem_left hb₀ (fun heq => irrefl_of r a (heq ▸ hba₀)) hba₀
      -- the last element before `a` that works on the entry has left one
      obtain ⟨u, b, w, rfl, hworks, hlast⟩ :=
        exists_last (p := fun b => ops b ≠ []) ⟨b₀, hb₀u, hworks₀⟩
      have hw : w.flatMap ops = [] :=
        List.flatMap_eq_nil_iff.mpr fun c hc => not_not.mp (hlast c hc)
      rw [List.flatMap_append, List.flatMap_cons, hw, List.append_nil, final_append]
      refine isSome_final hworks (fun hrem => ?_) _
      have hb : b ∈ S := (hl.mem_iff b).mp (by simp)
      have hne : b ≠ a := fun heq =>
        (List.nodup_append.mp hl.nodup).2.2 b (by simp) a List.mem_cons_self heq
      rcases h.kept a ha hneeds b hb hrem hne with hab | ⟨c, hc, hcworks, hbc, hca⟩
      · exact hl.not_rel (by simp) hab
      · have hcu := hl.mem_left hc (fun heq => irrefl_of r a (heq ▸ hca)) hca
        rw [List.append_assoc] at hl
        rcases List.mem_append.mp hcu with hcu | hcw
        · exact hl.not_rel hcu hbc
        · rcases List.mem_cons.mp hcw with rfl | hcw
          · exact irrefl_of r c hbc
          · exact hlast c hcw hcworks

open Classical in
/-- An order in which `b` comes shortly before `a`: only what must stand between them does. -/
theorem exists_between (hl : Extends r S l) {a b : α} (ha : a ∈ S) (hb : b ∈ S) (hne : b ≠ a)
    (hab : ¬ r a b) :
    ∃ u w v, Extends r S (u ++ b :: w ++ a :: v) ∧ ∀ c ∈ w, r b c ∧ r c a := by
  let rank : α → ℕ := fun x =>
    if x = a then 3 else if x = b then 1 else if r b x ∧ r x a then 2
    else if r x a ∨ r x b then 0 else 4
  have hranka : rank a = 3 := if_pos rfl
  have hrankb : rank b = 1 := by simp [rank, hne]
  have hrank : ∀ x, x ≠ a → x ≠ b → 1 ≤ rank x → rank x ≤ 3 → r b x ∧ r x a := by
    intro x hxa hxb h₁ h₃
    by_contra hnot
    simp only [rank, if_neg hxa, if_neg hxb, if_neg hnot] at h₁ h₃
    split_ifs at h₁ h₃ <;> omega
  have hmono : ∀ x ∈ S, ∀ y ∈ S, r x y → rank x ≤ rank y := by
    intro x _ y _ hxy
    by_cases hya : y = a
    · subst hya
      have hxa : x ≠ y := fun heq => irrefl_of r y (heq ▸ hxy)
      rw [hranka]
      simp only [rank, if_neg hxa, hxy, true_or, if_true]
      split_ifs <;> omega
    by_cases hyb : y = b
    · subst hyb
      have hxa : x ≠ a := fun heq => hab (heq ▸ hxy)
      have hxb : x ≠ y := fun heq => irrefl_of r y (heq ▸ hxy)
      have hnot : ¬ (r y x ∧ r x a) := fun h => irrefl_of r y (trans_of r h.1 hxy)
      simp [rank, hxa, hxb, hnot, hxy]
    by_cases hbetween : r b y ∧ r y a
    · have hxa : x ≠ a := fun heq => irrefl_of r a (trans_of r (heq ▸ hxy) hbetween.2)
      have hx : r x a := trans_of r hxy hbetween.2
      simp only [rank, if_neg hxa, if_neg hya, if_neg hyb, if_pos hbetween, hx, true_or, if_true]
      split_ifs <;> omega
    by_cases hbelow : r y a ∨ r y b
    · have hxa : x ≠ a := by
        rintro rfl
        rcases hbelow with h | h
        · exact irrefl_of r x (trans_of r hxy h)
        · exact hab (trans_of r hxy h)
      have hby : ¬ r b y := fun h => hbelow.elim (fun hy => hbetween ⟨h, hy⟩)
        fun hy => irrefl_of r b (trans_of r h hy)
      have hxb : x ≠ b := fun heq => hby (heq ▸ hxy)
      have hnot : ¬ (r b x ∧ r x a) := fun h => hby (trans_of r h.1 hxy)
      have hx : r x a ∨ r x b := hbelow.imp (trans_of r hxy) (trans_of r hxy)
      have hzero : rank x = 0 := by simp only [rank, if_neg hxa, if_neg hxb, if_neg hnot, if_pos hx]
      rw [hzero]
      exact Nat.zero_le _
    · simp only [rank, if_neg hya, if_neg hyb, if_neg hbetween, if_neg hbelow]
      split_ifs <;> omega
  obtain ⟨l', hl', hsorted⟩ := hl.exists_sorted rank hmono
  obtain ⟨u, v, rfl⟩ := List.append_of_mem ((hl'.mem_iff b).mpr hb)
  obtain ⟨-, hsorted, hbefore⟩ := List.pairwise_append.mp hsorted
  obtain ⟨hafter, hsorted⟩ := List.pairwise_cons.mp hsorted
  have hav : a ∈ v := by
    have hmem := (hl'.mem_iff a).mpr ha
    rw [List.mem_append, List.mem_cons] at hmem
    rcases hmem with hmem | heq | hmem
    · have hle := hbefore a hmem b List.mem_cons_self
      omega
    · exact absurd heq.symm hne
    · exact hmem
  obtain ⟨w, v, rfl⟩ := List.append_of_mem hav
  have hnodup := (List.nodup_append.mp hl'.nodup).2.1
  obtain ⟨hbw, hnodup⟩ := List.nodup_cons.mp hnodup
  refine ⟨u, w, v, by simpa using hl', fun c hc => ?_⟩
  have hca : c ≠ a := (List.nodup_append.mp hnodup).2.2 c hc a List.mem_cons_self
  have hcb : c ≠ b := fun heq => hbw (heq ▸ List.mem_append_left _ hc)
  apply hrank c hca hcb
  · rw [← hrankb]
    exact hafter c (List.mem_append_left _ hc)
  · rw [← hranka]
    exact (List.pairwise_append.mp hsorted).2.2 c hc a List.mem_cons_self

open Classical in
/-- An order in which only what must stand before `a` does. -/
theorem exists_minimal_before (hl : Extends r S l) {a : α} (ha : a ∈ S) :
    ∃ u v, Extends r S (u ++ a :: v) ∧ ∀ b ∈ u, r b a := by
  let rank : α → ℕ := fun x => if x = a then 1 else if r x a then 0 else 2
  have hmono : ∀ x ∈ S, ∀ y ∈ S, r x y → rank x ≤ rank y := by
    intro x _ y _ hxy
    by_cases hy : y = a ∨ r y a
    · have hx : r x a := hy.elim (fun heq => heq ▸ hxy) (trans_of r hxy)
      have hxa : x ≠ a := fun heq => irrefl_of r a (heq ▸ hx)
      have hzero : rank x = 0 := by simp only [rank, if_neg hxa, if_pos hx]
      rw [hzero]
      exact Nat.zero_le _
    · obtain ⟨hya, hyr⟩ := not_or.mp hy
      simp only [rank, if_neg hya, if_neg hyr]
      split_ifs <;> omega
  obtain ⟨u, v, huv, hu, -⟩ := hl.exists_around ha rank hmono
  refine ⟨u, v, huv, fun b hb => ?_⟩
  obtain ⟨hba, hle⟩ := hu b hb
  by_contra hnot
  simp only [rank, if_neg hba, if_neg hnot, if_pos] at hle
  omega

/-- **Removals.** They find their entry in every order iff `RemovalsFound` holds. -/
theorem safe_iff
    (hl : Extends r S l) :
    (∀ l, Extends r S l → Safe false (l.flatMap ops) = true) ↔ RemovalsFound r S ops := by
  refine ⟨fun h => ?_, fun h l hl => h.safe hl⟩
  have hat : ∀ {u a v}, Extends r S (u ++ a :: v) →
      Safe (final none (u.flatMap ops)).isSome (ops a) = true := fun huv =>
    (safe_flatMap_iff none).mp (h _ huv) _ _ _ rfl
  refine ⟨fun a ha => ?_, fun a ha hneeds => ?_, fun a ha hneeds b hb hrem hne => ?_⟩
  · obtain ⟨u, v, rfl⟩ := List.append_of_mem ((hl.mem_iff a).mpr ha)
    exact safe_true_of_safe (hat hl)
  · obtain ⟨u, v, huv, hu⟩ := exists_minimal_before hl ha
    by_contra hnone
    have hops : u.flatMap ops = [] := List.flatMap_eq_nil_iff.mpr fun b hb =>
      not_not.mp fun hworks => hnone ⟨b, (huv.mem_iff b).mp (by simp [hb]), hworks, hu b hb⟩
    have hsafe := hat huv
    rw [hops, final_nil, Option.isSome_none, hneeds] at hsafe
    cases hsafe
  · by_contra hnot
    obtain ⟨hab, hnone⟩ := not_or.mp hnot
    obtain ⟨u, w, v, huv, hw⟩ := exists_between hl ha hb hne hab
    have hops : w.flatMap ops = [] := List.flatMap_eq_nil_iff.mpr fun c hc =>
      not_not.mp fun hworks => hnone ⟨c, (huv.mem_iff c).mp (by simp [hc]), hworks, hw c hc⟩
    have hsafe := hat huv
    rw [List.flatMap_append, List.flatMap_cons, hops, List.append_nil, final_append, hrem,
      Option.isSome_none, hneeds] at hsafe
    cases hsafe

/-! ## What is left -/

/-- An element that replaces the entry, with no later one that does. -/
structure Latest (r : α → α → Prop) (S : Finset α) (ops : α → List (EntryOp ν)) (a : α) : Prop where
  mem : a ∈ S
  replacing : Replacing (ops a)
  last : ∀ b ∈ S, Replacing (ops b) → ¬ r a b

def FilledAfter (r : α → α → Prop) (S : Finset α) (ops : α → List (EntryOp ν)) (a : α) : Prop :=
  ∃ c ∈ S, Filling (ops c) ∧ r a c

/-- An element that fills the entry may come after all that replace it. -/
def FilledLast (r : α → α → Prop) (S : Finset α) (ops : α → List (EntryOp ν)) : Prop :=
  ∃ c ∈ S, Filling (ops c) ∧ ∀ b ∈ S, Replacing (ops b) → ¬ r c b

open Classical in
/-- What makes all orders leave the same: so do the latest elements that replace the entry, with
as few and with as many as possible of those that fill it with `d` after them. -/
def LatestAgree (r : α → α → Prop) (S : Finset α) (ops : α → List (EntryOp ν)) (d : ν) : Prop :=
  ∀ a b, Latest r S ops a → Latest r S ops b →
    filled d (FilledAfter r S ops a) (final none (ops a))
      = filled d (FilledLast r S ops) (final none (ops b))

omit [IsStrictOrder α r] in
theorem filled_congr {d : ν} {p q : Prop} [Decidable p] [Decidable q] (h : p ↔ q) (e : Option ν) :
    filled d p e = filled d q e := by
  by_cases hp : p
  · rw [filled, filled, if_pos hp, if_pos (h.mp hp)]
  · rw [filled, filled, if_neg hp, if_neg fun hq => hp (h.mpr hq)]

variable {d : ν}

omit [IsStrictOrder α r] in
open Classical in
theorem final_flatMap_eq_filled (h : ∀ a ∈ l, ¬ Replacing (ops a))
    (hd : ∀ a ∈ l, ∀ v, ensure v ∈ ops a → v = d) (e : Option ν) :
    final e (l.flatMap ops) = filled d (∃ a ∈ l, ops a ≠ []) e := by
  have hnot : ¬ Replacing (l.flatMap ops) := by
    rintro ⟨op, hop, hrep⟩
    obtain ⟨a, ha, hop⟩ := List.mem_flatMap.mp hop
    exact h a ha ⟨op, hop, hrep⟩
  rw [final_eq_filled hnot fun v hv => by
    obtain ⟨a, ha, hv⟩ := List.mem_flatMap.mp hv
    exact hd a ha v hv]
  apply filled_congr
  rw [Ne, List.flatMap_eq_nil_iff]
  simp

omit [IsStrictOrder α r] in
open Classical in
theorem final_around {u v : List α} {a : α} (ha : Replacing (ops a))
    (hv : ∀ b ∈ v, ¬ Replacing (ops b)) (hd : ∀ b ∈ v, ∀ w, ensure w ∈ ops b → w = d) :
    final none ((u ++ a :: v).flatMap ops)
      = filled d (∃ b ∈ v, ops b ≠ []) (final none (ops a)) := by
  rw [List.flatMap_append, List.flatMap_cons, final_append, final_append,
    ha.final_eq _ none, final_flatMap_eq_filled hv hd]

open Classical in
/-- An order in which only what must stand after `a` does. -/
theorem exists_minimal_after (hl : Extends r S l) {a : α} (ha : a ∈ S) :
    ∃ u v, Extends r S (u ++ a :: v) ∧ ∀ b ∈ v, r a b := by
  let rank : α → ℕ := fun x => if x = a then 1 else if r a x then 2 else 0
  have hmono : ∀ x ∈ S, ∀ y ∈ S, r x y → rank x ≤ rank y := by
    intro x _ y _ hxy
    by_cases hx : x = a ∨ r a x
    · have hy : r a y := hx.elim (fun heq => heq ▸ hxy) fun hax => trans_of r hax hxy
      have hya : y ≠ a := fun heq => irrefl_of r a (heq ▸ hy)
      have htwo : rank y = 2 := by simp only [rank, if_neg hya, if_pos hy]
      rw [htwo]
      simp only [rank]
      split_ifs <;> omega
    · obtain ⟨hxa, hxr⟩ := not_or.mp hx
      have hzero : rank x = 0 := by simp only [rank, if_neg hxa, if_neg hxr]
      rw [hzero]
      exact Nat.zero_le _
  obtain ⟨u, v, huv, -, hv⟩ := hl.exists_around ha rank hmono
  refine ⟨u, v, huv, fun b hb => ?_⟩
  obtain ⟨hba, hle⟩ := hv b hb
  by_contra hnot
  simp only [rank, if_neg hba, if_neg hnot, if_pos] at hle
  omega

open Classical in
/-- An order in which everything that is not needed before a replacement of the entry comes after
the last one. -/
theorem exists_maximal_after (hl : Extends r S l) {a : α} (ha : Latest r S ops a) :
    ∃ u v, Extends r S (u ++ a :: v)
      ∧ ∀ c ∈ S, c ≠ a → (c ∈ v ↔ ¬ ∃ b ∈ S, Replacing (ops b) ∧ (c = b ∨ r c b)) := by
  let needed : α → Prop := fun x => ∃ b ∈ S, Replacing (ops b) ∧ (x = b ∨ r x b)
  let rank : α → ℕ := fun x => if x = a then 1 else if needed x then 0 else 2
  have hbelow : ∀ {x y}, r x y → needed y → needed x := by
    rintro x y hxy ⟨b, hb, hrep, rfl | hyb⟩
    · exact ⟨y, hb, hrep, .inr hxy⟩
    · exact ⟨b, hb, hrep, .inr (trans_of r hxy hyb)⟩
  have hlast : ∀ {y}, r a y → ¬ needed y := by
    rintro y hay ⟨b, hb, hrep, rfl | hyb⟩
    · exact ha.last y hb hrep hay
    · exact ha.last b hb hrep (trans_of r hay hyb)
  have hmono : ∀ x ∈ S, ∀ y ∈ S, r x y → rank x ≤ rank y := by
    intro x _ y _ hxy
    by_cases hy : needed y
    · have hxa : x ≠ a := by
        rintro rfl
        exact hlast hxy hy
      have hzero : rank x = 0 := by simp only [rank, if_neg hxa, if_pos (hbelow hxy hy)]
      rw [hzero]
      exact Nat.zero_le _
    · have hya : y ≠ a := by
        rintro rfl
        exact hy ⟨y, ha.mem, ha.replacing, .inl rfl⟩
      simp only [rank, if_neg hya, if_neg hy]
      split_ifs <;> omega
  obtain ⟨u, v, huv, hu, hv⟩ := hl.exists_around ha.mem rank hmono
  refine ⟨u, v, huv, fun c hc hca => ⟨fun hcv => ?_, fun hnot => ?_⟩⟩
  · intro hneeded
    have hle := (hv c hcv).2
    have hzero : rank c = 0 := (if_neg hca).trans (if_pos hneeded)
    have hone : rank a = 1 := if_pos rfl
    omega
  · have hmem := (huv.mem_iff c).mpr hc
    rw [List.mem_append, List.mem_cons] at hmem
    rcases hmem with hmem | heq | hmem
    · have hle := (hu c hmem).2
      have htwo : rank c = 2 := (if_neg hca).trans (if_neg hnot)
      have hone : rank a = 1 := if_pos rfl
      omega
    · exact absurd heq hca
    · exact hmem

open Classical in
theorem final_minimal (hl : Extends r S l) (hd : ∀ a ∈ S, ∀ v, ensure v ∈ ops a → v = d) {a : α}
    (ha : Latest r S ops a) :
    ∃ l', Extends r S l'
      ∧ final none (l'.flatMap ops) = filled d (FilledAfter r S ops a) (final none (ops a)) := by
  obtain ⟨u, v, huv, hv⟩ := exists_minimal_after hl ha.mem
  have hmem : ∀ {b}, b ∈ v → b ∈ S := fun hb => (huv.mem_iff _).mp (by simp [hb])
  refine ⟨_, huv, ?_⟩
  rw [final_around ha.replacing (fun b hb hrep => ha.last b (hmem hb) hrep (hv b hb))
    fun b hb => hd b (hmem hb)]
  apply filled_congr
  constructor
  · rintro ⟨b, hb, hworks⟩
    exact ⟨b, hmem hb, ⟨hworks, fun hrep => ha.last b (hmem hb) hrep (hv b hb)⟩, hv b hb⟩
  · rintro ⟨c, hc, hfill, hac⟩
    have hmem := (huv.mem_iff c).mpr hc
    rw [List.mem_append, List.mem_cons] at hmem
    rcases hmem with hmem | rfl | hmem
    · exact absurd hac (huv.not_rel hmem)
    · exact absurd hac (irrefl_of r c)
    · exact ⟨c, hmem, hfill.1⟩

open Classical in
theorem final_maximal (hl : Extends r S l) (hd : ∀ a ∈ S, ∀ v, ensure v ∈ ops a → v = d) {a : α}
    (ha : Latest r S ops a) :
    ∃ l', Extends r S l'
      ∧ final none (l'.flatMap ops) = filled d (FilledLast r S ops) (final none (ops a)) := by
  obtain ⟨u, v, huv, hv⟩ := exists_maximal_after hl ha
  have hmem : ∀ {b}, b ∈ v → b ∈ S ∧ b ≠ a := by
    intro b hb
    refine ⟨(huv.mem_iff b).mp (by simp [hb]), ?_⟩
    rintro rfl
    exact (List.nodup_cons.mp (List.nodup_append.mp huv.nodup).2.1).1 hb
  have hnot : ∀ b ∈ v, ¬ Replacing (ops b) := fun b hb hrep =>
    (hv b (hmem hb).1 (hmem hb).2).mp hb ⟨b, (hmem hb).1, hrep, .inl rfl⟩
  refine ⟨_, huv, ?_⟩
  rw [final_around ha.replacing hnot fun b hb => hd b (hmem hb).1]
  apply filled_congr
  constructor
  · rintro ⟨c, hc, hworks⟩
    refine ⟨c, (hmem hc).1, ⟨hworks, hnot c hc⟩, fun b hb hrep hcb => ?_⟩
    exact (hv c (hmem hc).1 (hmem hc).2).mp hc ⟨b, hb, hrep, .inr hcb⟩
  · rintro ⟨c, hc, hfill, hlast⟩
    have hca : c ≠ a := by
      rintro rfl
      exact hfill.2 ha.replacing
    refine ⟨c, (hv c hc hca).mpr ?_, hfill.1⟩
    rintro ⟨b, hb, hrep, rfl | hcb⟩
    · exact hfill.2 hrep
    · exact hlast b hb hrep hcb

theorem exists_latest (hl : Extends r S l) {a : α} (ha : a ∈ S) (hrep : Replacing (ops a)) :
    ∃ u b v, l = u ++ b :: v ∧ Latest r S ops b ∧ ∀ c ∈ v, ¬ Replacing (ops c) := by
  obtain ⟨u, b, v, rfl, hrep, hlast⟩ := exists_last (p := fun b => Replacing (ops b))
    ⟨a, (hl.mem_iff a).mpr ha, hrep⟩
  refine ⟨u, b, v, rfl, ⟨(hl.mem_iff b).mp (by simp), hrep, fun c hc hcrep hbc => ?_⟩, hlast⟩
  have hmem := (hl.mem_iff c).mpr hc
  rw [List.mem_append, List.mem_cons] at hmem
  rcases hmem with hmem | rfl | hmem
  · exact hl.not_rel hmem hbc
  · exact irrefl_of r c hbc
  · exact hlast c hmem hcrep

open Classical in
theorem LatestAgree.final_eq (h : LatestAgree r S ops d)
    (hd : ∀ a ∈ S, ∀ v, ensure v ∈ ops a → v = d) (hl : Extends r S l) {a : α}
    (ha : Latest r S ops a) :
    final none (l.flatMap ops) = filled d (FilledLast r S ops) (final none (ops a)) := by
  obtain ⟨u, b, v, rfl, hb, hlast⟩ := exists_latest hl ha.mem ha.replacing
  have hmem : ∀ {c}, c ∈ v → c ∈ S := fun hc => (hl.mem_iff _).mp (by simp [hc])
  have hself := h b b hb hb
  rw [final_around hb.replacing hlast fun c hc => hd c (hmem hc), ← h a a ha ha, h a b ha hb]
  cases hleft : final none (ops b) with
  | some w => simp [filled]
  | none =>
      rw [hleft] at hself
      by_cases hv : ∃ c ∈ v, ops c ≠ []
      · obtain ⟨c, hc, hworks⟩ := hv
        have hfilled : FilledLast r S ops := by
          refine ⟨c, hmem hc, ⟨hworks, hlast c hc⟩, fun b' hb' hrep hcb => ?_⟩
          have hpairs := List.pairwise_append.mp hl.respects
          have hmem' := (hl.mem_iff b').mpr hb'
          rw [List.mem_append, List.mem_cons] at hmem'
          rcases hmem' with hmem' | rfl | hmem'
          · exact hpairs.2.2 b' hmem' c (.tail _ hc) hcb
          · exact (List.pairwise_cons.mp hpairs.2.1).1 c hc hcb
          · exact hlast b' hmem' hrep
        rw [filled, filled, if_pos ⟨c, hc, hworks⟩, if_pos hfilled]
      · have hafter : ¬ FilledAfter r S ops b := by
          rintro ⟨c, hc, hfill, hbc⟩
          have hmem' := (hl.mem_iff c).mpr hc
          rw [List.mem_append, List.mem_cons] at hmem'
          rcases hmem' with hmem' | rfl | hmem'
          · exact hl.not_rel hmem' hbc
          · exact irrefl_of r c hbc
          · exact hv ⟨c, hmem', hfill.1⟩
        rw [← hself, filled, filled, if_neg hv, if_neg hafter]

open Classical in
/-- **What is left.** All orders leave the same iff the latest replacements agree. -/
theorem final_iff (hl : Extends r S l) (hd : ∀ a ∈ S, ∀ v, ensure v ∈ ops a → v = d) :
    (∃ out, ∀ l, Extends r S l → final none (l.flatMap ops) = out)
      ↔ LatestAgree r S ops d := by
  constructor
  · rintro ⟨out, h⟩ a b ha hb
    obtain ⟨l₁, hl₁, hfinal₁⟩ := final_minimal hl hd ha
    obtain ⟨l₂, hl₂, hfinal₂⟩ := final_maximal hl hd hb
    rw [← hfinal₁, ← hfinal₂, h l₁ hl₁, h l₂ hl₂]
  · intro h
    by_cases hex : ∃ a ∈ S, Replacing (ops a)
    · obtain ⟨a, ha, hrep⟩ := hex
      obtain ⟨-, b, -, -, hb, -⟩ := exists_latest hl ha hrep
      exact ⟨_, fun l hl => h.final_eq hd hl hb⟩
    · have hnot : ∀ a ∈ S, ¬ Replacing (ops a) := fun a ha hrep => hex ⟨a, ha, hrep⟩
      refine ⟨filled d (∃ a ∈ S, ops a ≠ []) none, fun l hl => ?_⟩
      rw [final_flatMap_eq_filled (fun a ha => hnot a ((hl.mem_iff a).mp ha))
        fun a ha => hd a ((hl.mem_iff a).mp ha)]
      apply filled_congr
      simp only [hl.mem_iff]

end EntryOp
