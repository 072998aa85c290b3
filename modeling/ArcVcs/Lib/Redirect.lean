import ArcVcs.Lib.Collections
import Mathlib.Logic.Relation

/-!
# Finite redirect maps

A map from keys to keys sends readers of an old key to its replacement. Reading ends when
the map has no cycle, and overlaying new replacements keeps it so exactly when they do not
feed one another in a circle.
-/

namespace FMap

variable {κ : Type*} [DecidableEq κ]

def Follows (m : FMap κ κ) (x y : κ) : Prop := m.lookup x = some y

def Acyclic (m : FMap κ κ) : Prop := ∀ x, ¬ Relation.TransGen m.Follows x x

/-- The end of at most `n` redirects. -/
def resolve (m : FMap κ κ) : ℕ → κ → κ
  | 0, x => x
  | n + 1, x =>
      match m.lookup x with
      | none => x
      | some y => resolve m n y

variable {m r : FMap κ κ}

theorem Acyclic.empty : (∅ : FMap κ κ).Acyclic := by
  intro x hx
  obtain ⟨y, hy, -⟩ := Relation.TransGen.head'_iff.mp hx
  simp [Follows] at hy

theorem Acyclic.anti (hm : m.Acyclic) {m' : FMap κ κ}
    (hsub : ∀ x y, m'.lookup x = some y → m.lookup x = some y) : m'.Acyclic :=
  fun x hx => hm x (Relation.TransGen.mono hsub _ _ hx)

open Classical in
theorem Acyclic.exists_rank (hm : m.Acyclic) :
    ∃ rank : κ → ℕ, ∀ x y, m.lookup x = some y → rank y < rank x := by
  let reach := fun x => m.keys.filter fun k => Relation.ReflTransGen m.Follows x k
  refine ⟨fun x => (reach x).card, fun x y hxy => Finset.card_lt_card ?_⟩
  refine (Finset.ssubset_iff_of_subset fun k hk => ?_).mpr ⟨x, ?_, fun hx => ?_⟩
  · obtain ⟨hmem, hpath⟩ := Finset.mem_filter.mp hk
    exact Finset.mem_filter.mpr ⟨hmem, .head hxy hpath⟩
  · exact Finset.mem_filter.mpr ⟨mem_keys_of_lookup hxy, .refl⟩
  · exact hm x (.head' hxy (Finset.mem_filter.mp hx).2)

/-- **Every chain of redirects ends.** -/
theorem Acyclic.exists_resolve (hm : m.Acyclic) (x : κ) : ∃ n, m.lookup (m.resolve n x) = none := by
  obtain ⟨rank, hrank⟩ := hm.exists_rank
  induction hn : rank x using Nat.strong_induction_on generalizing x with
  | _ n ih =>
      cases hx : m.lookup x with
      | none => exact ⟨0, hx⟩
      | some y =>
          obtain ⟨k, hk⟩ := ih (rank y) (hn ▸ hrank x y hx) y rfl
          refine ⟨k + 1, ?_⟩
          rw [resolve, hx]
          exact hk

/-! ## Overlays -/

/-- The replacement of `o` leads to `o'` through keys that are not replaced themselves. -/
def Feeds (m r : FMap κ κ) (o o' : κ) : Prop :=
  o' ∈ r.keys ∧ ∃ n, r.lookup o = some n
    ∧ Relation.ReflTransGen (fun a b => a ∉ r.keys ∧ m.Follows a b) n o'

/-- The replacements `r` do not feed one another in a circle. -/
def NoFeedback (m r : FMap κ κ) : Prop := ∀ o, ¬ Relation.TransGen (Feeds m r) o o

theorem lookup_overlay (m r : FMap κ κ) (x : κ) :
    (r ∪ m).lookup x = if x ∈ r.keys then r.lookup x else m.lookup x := by
  split_ifs with h
  · exact Finmap.lookup_union_left (Finmap.mem_keys.mp h)
  · exact Finmap.lookup_union_right fun hx => h (Finmap.mem_keys.mpr hx)

theorem follows_overlay_of_mem {x y : κ} (hx : x ∈ r.keys) :
    (r ∪ m).Follows x y ↔ r.lookup x = some y := by
  rw [Follows, lookup_overlay, if_pos hx]

theorem follows_overlay_of_notMem {x y : κ} (hx : x ∉ r.keys) :
    (r ∪ m).Follows x y ↔ m.Follows x y := by
  rw [Follows, lookup_overlay, if_neg hx, Follows]

theorem Feeds.transGen {o o' : κ} (h : Feeds m r o o') :
    Relation.TransGen (r ∪ m).Follows o o' := by
  obtain ⟨-, n, hn, hpath⟩ := h
  refine .head' ((follows_overlay_of_mem (mem_keys_of_lookup hn)).mpr hn) ?_
  exact Relation.ReflTransGen.mono
    (fun a b hab => (follows_overlay_of_notMem hab.1).mpr hab.2) _ _ hpath

theorem exists_last_replaced {x y : κ} (hx : x ∈ r.keys)
    (hpath : Relation.TransGen (r ∪ m).Follows x y) :
    ∃ o n, (o = x ∨ Relation.TransGen (Feeds m r) x o) ∧ r.lookup o = some n
      ∧ Relation.ReflTransGen (fun a b => a ∉ r.keys ∧ m.Follows a b) n y := by
  induction hpath with
  | single h => exact ⟨x, _, .inl rfl, (follows_overlay_of_mem hx).mp h, .refl⟩
  | @tail y z _ hyz ih =>
      obtain ⟨o, n, ho, hn, hrest⟩ := ih
      by_cases hy : y ∈ r.keys
      · have hfeed : Feeds m r o y := ⟨hy, n, hn, hrest⟩
        refine ⟨y, z, .inr ?_, (follows_overlay_of_mem hy).mp hyz, .refl⟩
        rcases ho with rfl | ho
        · exact .single hfeed
        · exact ho.tail hfeed
      · exact ⟨o, n, ho, hn, hrest.tail ⟨hy, (follows_overlay_of_notMem hy).mp hyz⟩⟩

theorem transGen_or_exists_replaced {x y : κ}
    (hpath : Relation.TransGen (r ∪ m).Follows x y) :
    Relation.TransGen m.Follows x y ∨ ∃ o ∈ r.keys,
      Relation.ReflTransGen (r ∪ m).Follows x o ∧ Relation.TransGen (r ∪ m).Follows o y := by
  induction hpath with
  | @single y h =>
      by_cases hx : x ∈ r.keys
      · exact .inr ⟨x, hx, .refl, .single h⟩
      · exact .inl (.single ((follows_overlay_of_notMem hx).mp h))
  | @tail y z hxy hyz ih =>
      rcases ih with hm | ⟨o, ho, hxo, hoy⟩
      · by_cases hy : y ∈ r.keys
        · exact .inr ⟨y, hy, hxy.to_reflTransGen, .single hyz⟩
        · exact .inl (hm.tail ((follows_overlay_of_notMem hy).mp hyz))
      · exact .inr ⟨o, ho, hxo, hoy.tail hyz⟩

/-- **Overlaying replacements keeps a map acyclic exactly when they do not feed back.** -/
theorem Acyclic.overlay_iff (hm : m.Acyclic) : (r ∪ m).Acyclic ↔ NoFeedback m r := by
  constructor
  · intro hac o ho
    have hclosed : ∀ {a b}, Relation.TransGen (Feeds m r) a b
        → Relation.TransGen (r ∪ m).Follows a b := by
      intro a b hab
      induction hab with
      | single h => exact h.transGen
      | tail _ h ih => exact ih.trans h.transGen
    exact hac o (hclosed ho)
  · intro hfeed x hx
    rcases transGen_or_exists_replaced hx with hcycle | ⟨o, ho, hxo, hox⟩
    · exact hm x hcycle
    · have hloop : Relation.TransGen (r ∪ m).Follows o o := hox.trans_left hxo
      obtain ⟨o', n, ho', hn, hrest⟩ := exists_last_replaced ho hloop
      have hlast : Feeds m r o' o := ⟨ho, n, hn, hrest⟩
      rcases ho' with rfl | ho'
      · exact hfeed _ (.single hlast)
      · exact hfeed _ (ho'.tail hlast)

theorem noFeedback_of_forall
    (h : ∀ o n, r.lookup o = some n → ∀ x, Relation.ReflTransGen m.Follows n x → x ∉ r.keys) :
    NoFeedback m r := by
  intro o ho
  obtain ⟨o', ⟨hmem, n, hn, hpath⟩, -⟩ := Relation.TransGen.head'_iff.mp ho
  exact h o n hn o' (Relation.ReflTransGen.mono (fun a b hab => hab.2) _ _ hpath) hmem

theorem noFeedback_of_fresh
    (h : ∀ o n, r.lookup o = some n → n ∉ r.keys ∧ m.lookup n = none) : NoFeedback m r := by
  refine noFeedback_of_forall fun o n hn x hpath => ?_
  obtain ⟨hnew, hend⟩ := h o n hn
  rcases Relation.ReflTransGen.cases_head hpath with rfl | ⟨y, hy, -⟩
  · exact hnew
  · simp [Follows, hend] at hy

end FMap
