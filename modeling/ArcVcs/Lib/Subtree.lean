import ArcVcs.Lib.KeyedState
import Mathlib.Data.List.Infix

/-!
# Renaming a subtree of a map

Keys are paths, and renaming sends every entry below one path to the same place below
another. An operation at a key passes a renaming unchanged when its key lies below neither
path, and under its new name when its key is renamed.
-/

/-- Neither path lies below the other. -/
def List.Apart {α : Type*} (p q : List α) : Prop := ¬ p <+: q ∧ ¬ q <+: p

namespace List.Apart

variable {α : Type*} {p q k : List α}

theorem symm (h : Apart p q) : Apart q p := ⟨h.2, h.1⟩

theorem not_below (h : Apart p q) (hk : p <+: k) : ¬ q <+: k := by
  intro hq
  rcases List.prefix_or_prefix_of_prefix hk hq with hpq | hqp
  · exact h.1 hpq
  · exact h.2 hqp

theorem append_right (h : Apart p q) (w : List α) : ¬ q <+: p ++ w :=
  h.not_below (List.prefix_append p w)

end List.Apart

namespace FMap

section Outside

variable {α ν : Type*} [DecidableEq α]

/-- What a map holds outside the subtree below `p`. -/
def outside (m : FMap (List α) ν) (p k : List α) : Option ν :=
  if p <+: k then none else m.lookup k

variable {m m' : FMap (List α) ν} {p k : List α}

theorem outside_of_not_below (hk : ¬ p <+: k) : m.outside p k = m.lookup k := if_neg hk

theorem outside_of_below (hk : p <+: k) : m.outside p k = none := if_pos hk

theorem outside_congr (h : m.lookup k = m'.lookup k) : m.outside p k = m'.outside p k := by
  rw [outside, h, outside]

theorem outside_set_of_not_below (hk : ¬ p <+: k) (v : Option ν) (j : List α) :
    FMap.outside (m.set k v) p j = if j = k then v else m.outside p j := by
  unfold outside
  split_ifs with hj hjk hjk
  · exact absurd (hjk ▸ hj) hk
  · rfl
  · rw [hjk, lookup_set_self]
  · exact lookup_set_of_ne m v hjk

theorem outside_set_of_below (hk : p <+: k) (v : Option ν) (j : List α) :
    FMap.outside (m.set k v) p j = m.outside p j := by
  unfold outside
  split_ifs with hj
  · rfl
  · refine lookup_set_of_ne m v ?_
    rintro rfl
    exact hj hk

theorem ext_subtree (q : List α)
    (hbelow : ∀ w, m.lookup (q ++ w) = m'.lookup (q ++ w))
    (helse : ∀ k, ¬ q <+: k → m.lookup k = m'.lookup k) : m = m' := by
  refine Finmap.ext_lookup fun k => ?_
  by_cases hk : q <+: k
  · obtain ⟨w, rfl⟩ := hk
    exact hbelow w
  · exact helse k hk

end Outside

variable {α ν : Type*} [DecidableEq α] [LinearOrder (List α)]

def movedEntries (m : FMap (List α) ν) (from_ to_ : List α) : List (List α × ν) :=
  m.keys.sorted.filterMap fun k =>
    if from_ <+: k then (m.lookup k).map fun v => (to_ ++ k.drop from_.length, v) else none

/-- Rename every key below `from_` to the same key below `to_`. -/
def renameSubtree (m : FMap (List α) ν) (from_ to_ : List α) : FMap (List α) ν :=
  FMap.insertAll ((m.keys.sorted.filter fun k => decide (from_ <+: k)).foldl
    (fun acc k => acc.erase k) m) (m.movedEntries from_ to_)

variable {m : FMap (List α) ν} {p q r t k u : List α}

theorem mem_movedEntries {e : List α × ν} :
    e ∈ m.movedEntries p q ↔ ∃ w, m.lookup (p ++ w) = some e.2 ∧ e.1 = q ++ w := by
  rw [movedEntries, List.mem_filterMap]
  constructor
  · rintro ⟨k, -, hk⟩
    split_ifs at hk with hp
    obtain ⟨w, rfl⟩ := hp
    obtain ⟨v, hv, rfl⟩ := Option.map_eq_some_iff.mp hk
    exact ⟨w, hv, by simp⟩
  · rintro ⟨w, hw, he⟩
    refine ⟨p ++ w, Finset.mem_sorted.mpr (mem_keys_of_lookup hw), ?_⟩
    rw [if_pos (List.prefix_append p w), hw]
    simp [← he]

theorem lookup_eraseSubtree :
    ((m.keys.sorted.filter fun k => decide (p <+: k)).foldl (fun acc k => acc.erase k) m).lookup k
      = m.outside p k := by
  rw [lookup_foldl_erase, outside]
  simp only [List.mem_filter, Finset.mem_sorted, decide_eq_true_eq]
  by_cases hp : p <+: k
  · rw [if_pos hp]
    split_ifs with hk
    · rfl
    · exact notMem_keys_iff.mp fun hmem => hk ⟨hmem, hp⟩
  · rw [if_neg hp, if_neg fun h => hp h.2]

theorem lookup_renameSubtree_append (m : FMap (List α) ν) (p q w : List α) :
    (m.renameSubtree p q).lookup (q ++ w) = (m.lookup (p ++ w)).or (m.outside p (q ++ w)) := by
  rw [renameSubtree]
  cases hw : m.lookup (p ++ w) with
  | none =>
      rw [lookup_insertAll_of_notMem, lookup_eraseSubtree, Option.none_or]
      intro hmem
      obtain ⟨e, he, hfst⟩ := List.mem_map.mp hmem
      obtain ⟨w', hw', he'⟩ := mem_movedEntries.mp he
      obtain rfl : w = w' := List.append_cancel_left (hfst.symm.trans he')
      simp [hw] at hw'
  | some v =>
      have hmem : q ++ w ∈ (m.movedEntries p q).map Prod.fst :=
        List.mem_map.mpr ⟨(q ++ w, v), mem_movedEntries.mpr ⟨w, hw, rfl⟩, rfl⟩
      obtain ⟨e, he, hfst, hlook⟩ := lookup_insertAll_of_mem
        ((m.keys.sorted.filter fun k => decide (p <+: k)).foldl (fun acc k => acc.erase k) m) _ hmem
      obtain ⟨w', hw', he'⟩ := mem_movedEntries.mp he
      obtain rfl : w = w' := List.append_cancel_left (hfst.symm.trans he')
      rw [hlook, Option.some_or, ← hw', hw]

theorem lookup_renameSubtree_of_not_below (hk : ¬ q <+: k) :
    (m.renameSubtree p q).lookup k = m.outside p k := by
  rw [renameSubtree, lookup_insertAll_of_notMem, lookup_eraseSubtree]
  intro hmem
  obtain ⟨e, he, rfl⟩ := List.mem_map.mp hmem
  obtain ⟨w, -, he'⟩ := mem_movedEntries.mp he
  exact hk (he' ▸ List.prefix_append q w)

theorem renameSubtree_self (m : FMap (List α) ν) (p : List α) : m.renameSubtree p p = m := by
  apply ext_subtree p
  · intro w
    rw [lookup_renameSubtree_append, outside_of_below (List.prefix_append p w), Option.or_none]
  · intro k hk
    rw [lookup_renameSubtree_of_not_below hk, outside_of_not_below hk]

/-! ## Single keys -/

theorem lookup_renameSubtree_of_clear (hp : ¬ p <+: k) (hq : ¬ q <+: k) :
    (m.renameSubtree p q).lookup k = m.lookup k := by
  rw [lookup_renameSubtree_of_not_below hq, outside_of_not_below hp]

theorem renameSubtree_set_of_clear (hp : ¬ p <+: k) (hq : ¬ q <+: k) (v : Option ν) :
    FMap.renameSubtree (m.set k v) p q = (m.renameSubtree p q).set k v := by
  apply ext_subtree q
  · intro w
    have hpw : p ++ w ≠ k := fun h => hp (h ▸ List.prefix_append p w)
    have hqw : q ++ w ≠ k := fun h => hq (h ▸ List.prefix_append q w)
    rw [lookup_renameSubtree_append, lookup_set_of_ne _ _ hpw, lookup_set_of_ne _ _ hqw,
      lookup_renameSubtree_append, outside_set_of_not_below hp, if_neg hqw]
  · intro j hj
    rw [lookup_renameSubtree_of_not_below hj, outside_set_of_not_below hp, lookup_set,
      lookup_renameSubtree_of_not_below hj]

theorem renameSubtree_insert_append (m : FMap (List α) ν) (p q u : List α) (v : ν) :
    FMap.renameSubtree (m.insert (p ++ u) v) p q = (m.renameSubtree p q).insert (q ++ u) v := by
  have hout : ∀ j, FMap.outside (m.insert (p ++ u) v) p j = m.outside p j := fun j =>
    outside_set_of_below (List.prefix_append p u) (some v) j
  apply ext_subtree q
  · intro w
    rw [lookup_renameSubtree_append, hout, lookup_insert_eq, lookup_insert_eq,
      lookup_renameSubtree_append]
    by_cases hw : w = u
    · rw [if_pos (congrArg (p ++ ·) hw), if_pos (congrArg (q ++ ·) hw), Option.some_or]
    · rw [if_neg fun h => hw (List.append_cancel_left h),
        if_neg fun h => hw (List.append_cancel_left h)]
  · intro j hj
    have hju : j ≠ q ++ u := fun h => hj (h ▸ List.prefix_append q u)
    rw [lookup_renameSubtree_of_not_below hj, hout, lookup_insert_eq, if_neg hju,
      lookup_renameSubtree_of_not_below hj]

theorem lookup_renameSubtree_of_below (hu : p <+: q ++ u) :
    (m.renameSubtree p q).lookup (q ++ u) = m.lookup (p ++ u) := by
  rw [lookup_renameSubtree_append, outside_of_below hu, Option.or_none]

theorem renameSubtree_set_of_below (hu : p <+: q ++ u) (v : Option ν) :
    FMap.renameSubtree (m.set (p ++ u) v) p q = (m.renameSubtree p q).set (q ++ u) v := by
  apply ext_subtree q
  · intro w
    rw [lookup_renameSubtree_append, outside_set_of_below (List.prefix_append p u), lookup_set,
      lookup_set]
    by_cases hw : w = u
    · rw [if_pos (congrArg (p ++ ·) hw), if_pos (congrArg (q ++ ·) hw), hw, outside_of_below hu,
        Option.or_none]
    · rw [if_neg fun h => hw (List.append_cancel_left h),
        if_neg fun h => hw (List.append_cancel_left h), lookup_renameSubtree_append]
  · intro j hj
    have hju : j ≠ q ++ u := fun h => hj (h ▸ List.prefix_append q u)
    rw [lookup_renameSubtree_of_not_below hj, outside_set_of_below (List.prefix_append p u),
      lookup_set_of_ne _ _ hju, lookup_renameSubtree_of_not_below hj]

theorem renameSubtree_insert_getD (hp : ¬ p <+: k) (d : ν) :
    FMap.renameSubtree (m.insert k ((m.lookup k).getD d)) p q
      = (m.renameSubtree p q).insert k (((m.renameSubtree p q).lookup k).getD d) := by
  by_cases hq : q <+: k
  · obtain ⟨u, rfl⟩ := hq
    have hpw : ∀ w, p ++ w ≠ q ++ u := fun w h => hp (h ▸ List.prefix_append p w)
    have hout : ∀ j, FMap.outside (m.insert (q ++ u) ((m.lookup (q ++ u)).getD d)) p j
        = if j = q ++ u then some ((m.lookup (q ++ u)).getD d) else m.outside p j := fun j =>
      outside_set_of_not_below hp (some _) j
    apply ext_subtree q
    · intro w
      rw [lookup_renameSubtree_append, hout, lookup_insert_eq, if_neg (hpw w), lookup_insert_eq]
      by_cases hw : w = u
      · subst hw
        rw [if_pos rfl, if_pos rfl, lookup_renameSubtree_append, outside_of_not_below hp]
        cases m.lookup (p ++ w) <;> rfl
      · rw [if_neg fun h => hw (List.append_cancel_left h),
          if_neg fun h => hw (List.append_cancel_left h), lookup_renameSubtree_append]
    · intro j hj
      have hju : j ≠ q ++ u := fun h => hj (h ▸ List.prefix_append q u)
      rw [lookup_renameSubtree_of_not_below hj, hout, if_neg hju, lookup_insert_eq, if_neg hju,
        lookup_renameSubtree_of_not_below hj]
  · rw [lookup_renameSubtree_of_clear hp hq]
    exact renameSubtree_set_of_clear hp hq (some _)

/-! ## Two renamings -/

theorem renameSubtree_comm (hpr : List.Apart p r) (hpt : List.Apart p t) (hqr : List.Apart q r)
    (hqt : List.Apart q t) :
    (m.renameSubtree p q).renameSubtree r t = (m.renameSubtree r t).renameSubtree p q := by
  apply ext_subtree q
  · intro w
    have hclear : (m.renameSubtree r t).lookup (q ++ w) = m.lookup (q ++ w) :=
      lookup_renameSubtree_of_clear (hqr.append_right w) (hqt.append_right w)
    rw [lookup_renameSubtree_of_clear (hqr.append_right w) (hqt.append_right w),
      lookup_renameSubtree_append, lookup_renameSubtree_append,
      lookup_renameSubtree_of_clear (hpr.append_right w) (hpt.append_right w),
      outside_congr hclear]
  · intro k hq
    rw [lookup_renameSubtree_of_not_below hq]
    by_cases ht : t <+: k
    · obtain ⟨w, rfl⟩ := ht
      have hp : ¬ p <+: t ++ w := hpt.symm.append_right w
      have hclear : (m.renameSubtree p q).lookup (t ++ w) = m.lookup (t ++ w) :=
        lookup_renameSubtree_of_clear hp hq
      rw [outside_of_not_below hp, lookup_renameSubtree_append, lookup_renameSubtree_append,
        lookup_renameSubtree_of_clear (hpr.symm.append_right w) (hqr.symm.append_right w),
        outside_congr hclear]
    · rw [lookup_renameSubtree_of_not_below ht]
      simp only [outside, lookup_renameSubtree_of_not_below hq,
        lookup_renameSubtree_of_not_below ht]
      split_ifs <;> rfl

theorem renameSubtree_chain (hpr : List.Apart p r) (hpt : List.Apart p t) (u : List α) :
    (m.renameSubtree p (r ++ u)).renameSubtree r t
      = (m.renameSubtree r t).renameSubtree p (t ++ u) := by
  have hr : ∀ {k}, ¬ r <+: k → ¬ r ++ u <+: k := fun hk h => hk ((List.prefix_append r u).trans h)
  have ht : ∀ {k}, ¬ t <+: k → ¬ t ++ u <+: k := fun hk h => hk ((List.prefix_append t u).trans h)
  -- outside the subtree below `r` the first renaming only takes entries away from below `p`
  have hout : ∀ {k}, ¬ p <+: k → (m.renameSubtree p (r ++ u)).outside r k = m.outside r k := by
    intro k hp
    by_cases hk : r <+: k
    · rw [outside_of_below hk, outside_of_below hk]
    · rw [outside_of_not_below hk, outside_of_not_below hk,
        lookup_renameSubtree_of_clear hp (hr hk)]
  apply ext_subtree t
  · intro w
    have hpr' : ¬ p <+: r ++ w := hpr.symm.append_right w
    have hpt' : ¬ p <+: t ++ w := hpt.symm.append_right w
    rw [lookup_renameSubtree_append, hout hpt']
    by_cases hu : u <+: w
    · obtain ⟨w', rfl⟩ := hu
      rw [← List.append_assoc, ← List.append_assoc, lookup_renameSubtree_append,
        lookup_renameSubtree_append,
        lookup_renameSubtree_of_clear (hpr.append_right w') (hpt.append_right w'),
        List.append_assoc, List.append_assoc, outside_of_not_below hpr',
        outside_of_not_below hpt', lookup_renameSubtree_append, Option.or_assoc]
    · have hru : ¬ r ++ u <+: r ++ w := fun h => hu ((List.prefix_append_right_inj r).mp h)
      have htu : ¬ t ++ u <+: t ++ w := fun h => hu ((List.prefix_append_right_inj t).mp h)
      rw [lookup_renameSubtree_of_clear hpr' hru, lookup_renameSubtree_of_not_below htu,
        outside_of_not_below hpt', lookup_renameSubtree_append]
  · intro k hk
    rw [lookup_renameSubtree_of_not_below hk, lookup_renameSubtree_of_not_below (ht hk)]
    by_cases hp : p <+: k
    · have hrk : ¬ r <+: k := hpr.not_below hp
      rw [outside_of_below hp, outside_of_not_below hrk,
        lookup_renameSubtree_of_not_below (hr hrk), outside_of_below hp]
    · rw [hout hp, outside_of_not_below hp, lookup_renameSubtree_of_not_below hk]

/-! ## Renamings as actions -/

def moveSubtree (p q : List α) : PartialAction (FMap (List α) ν) :=
  ⟨fun m => some (m.renameSubtree p q)⟩

@[simp] theorem moveSubtree_run (p q : List α) (m : FMap (List α) ν) :
    (moveSubtree p q).run m = some (m.renameSubtree p q) := rfl

@[simp] theorem moveSubtree_self (p : List α) :
    (moveSubtree p p : PartialAction (FMap (List α) ν)) = 1 :=
  PartialAction.ext (funext fun m => congrArg some (renameSubtree_self m p))

theorem act_mul_moveSubtree {op op' : KeyedOp (List α) ν} (hstep : op'.step = op.step)
    (hlook : ∀ m : FMap (List α) ν, (m.renameSubtree p q).lookup op'.key = m.lookup op.key)
    (hset : ∀ (m : FMap (List α) ν) v,
      FMap.renameSubtree (m.set op.key v) p q = (m.renameSubtree p q).set op'.key v) :
    op.act * moveSubtree p q = moveSubtree p q * op'.act := by
  refine PartialAction.ext (funext fun m => ?_)
  simp only [PartialAction.run_mul, KeyedOp.act_run, moveSubtree_run, Option.bind_some, hstep,
    hlook]
  cases op.step (m.lookup op.key) with
  | none => rfl
  | some v => simp [hset]

theorem act_mul_moveSubtree_of_clear {op : KeyedOp (List α) ν} (hp : ¬ p <+: op.key)
    (hq : ¬ q <+: op.key) : op.act * moveSubtree p q = moveSubtree p q * op.act :=
  act_mul_moveSubtree rfl (fun _ => lookup_renameSubtree_of_clear hp hq)
    fun _ v => renameSubtree_set_of_clear hp hq v

theorem act_mul_moveSubtree_of_below (step : Option ν → Option (Option ν)) (hu : p <+: q ++ u) :
    KeyedOp.act ⟨p ++ u, step⟩ * moveSubtree p q = moveSubtree p q * KeyedOp.act ⟨q ++ u, step⟩ :=
  act_mul_moveSubtree rfl (fun _ => lookup_renameSubtree_of_below hu)
    fun _ v => renameSubtree_set_of_below hu v

theorem write_mul_moveSubtree (p q u : List α) (v : ν) :
    KeyedOp.act ⟨p ++ u, fun _ => some (some v)⟩ * moveSubtree p q
      = moveSubtree p q * KeyedOp.act ⟨q ++ u, fun _ => some (some v)⟩ :=
  PartialAction.ext (funext fun m => congrArg some (renameSubtree_insert_append m p q u v))

theorem create_mul_moveSubtree (hp : ¬ p <+: k) (d : ν) :
    KeyedOp.act ⟨k, fun v => some (some (v.getD d))⟩ * moveSubtree p q
      = moveSubtree p q * KeyedOp.act ⟨k, fun v => some (some (v.getD d))⟩ :=
  PartialAction.ext (funext fun _ => congrArg some (renameSubtree_insert_getD hp d))

theorem moveSubtree_comm (hpr : List.Apart p r) (hpt : List.Apart p t) (hqr : List.Apart q r)
    (hqt : List.Apart q t) :
    (moveSubtree p q * moveSubtree r t : PartialAction (FMap (List α) ν))
      = moveSubtree r t * moveSubtree p q :=
  PartialAction.ext (funext fun _ => congrArg some (renameSubtree_comm hpr hpt hqr hqt))

theorem moveSubtree_chain (hpr : List.Apart p r) (hpt : List.Apart p t) (u : List α) :
    (moveSubtree p (r ++ u) * moveSubtree r t : PartialAction (FMap (List α) ν))
      = moveSubtree r t * moveSubtree p (t ++ u) :=
  PartialAction.ext (funext fun _ => congrArg some (renameSubtree_chain hpr hpt u))

end FMap
