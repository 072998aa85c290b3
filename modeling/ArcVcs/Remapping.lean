import ArcVcs.Rewrites
import Mathlib.Logic.Relation

/-!
# The bindings of a pending rewrite

`remap_change` follows the bindings of old ids to new ones. It stops at an id that is bound to
itself, at one that it has been at before, and after one hop more than there are bindings.
-/

namespace ArcVcs

/-- `remap_change` from an id, with no id visited. -/
def remapId (map : FMap Blake3Hash Blake3Hash) (id : Blake3Hash) : Blake3Hash :=
  remapChange map (map.keys.card + 1) ∅ id

/-- The id is bound to another one. -/
def Binds (map : FMap Blake3Hash Blake3Hash) (id next : Blake3Hash) : Prop :=
  map.lookup id = some next ∧ next ≠ id

/-- No chain of bindings leads back to where it starts. -/
def Loopless (map : FMap Blake3Hash Blake3Hash) : Prop :=
  ∀ id, ¬ Relation.TransGen (Binds map) id id

/-- A chain of bindings leads to the last id, which is not bound to another one. -/
def EndsAt (map : FMap Blake3Hash Blake3Hash) (id last : Blake3Hash) : Prop :=
  Relation.ReflTransGen (Binds map) id last ∧ ∀ next, ¬ Binds map last next

section Bindings

variable {map : FMap Blake3Hash Blake3Hash} {id next last : Blake3Hash} {hops : ℕ}
  {visited : Finset Blake3Hash}

theorem rightUnique_binds : Relator.RightUnique (Binds map) := fun _ _ _ h h' =>
  Option.some_inj.mp (h.1.symm.trans h'.1)

theorem EndsAt.unique {last' : Blake3Hash} (h : EndsAt map id last) (h' : EndsAt map id last') :
    last = last' := by
  rcases Relation.ReflTransGen.total_of_right_unique rightUnique_binds h.1 h'.1 with hpath | hpath
  · rcases hpath.cases_head with heq | ⟨next, hstep, -⟩
    · exact heq
    · exact absurd hstep (h.2 next)
  · rcases hpath.cases_head with heq | ⟨next, hstep, -⟩
    · exact heq.symm
    · exact absurd hstep (h'.2 next)

theorem remapChange_cases (map : FMap Blake3Hash Blake3Hash) (hops : ℕ)
    (visited : Finset Blake3Hash) (id : Blake3Hash) :
    (∃ next, Binds map id next ∧ id ∉ visited
        ∧ remapChange map (hops + 1) visited id = remapChange map hops (insert id visited) next)
      ∨ remapChange map (hops + 1) visited id = id
        ∧ ((∀ next, ¬ Binds map id next) ∨ id ∈ visited) := by
  rw [remapChange]
  cases hlook : map.lookup id with
  | none => exact Or.inr ⟨rfl, Or.inl fun next h => by simp [h.1] at hlook⟩
  | some next =>
      dsimp only
      by_cases hself : next = id
      · refine Or.inr ⟨if_pos (Or.inl hself), Or.inl fun other h => h.2 ?_⟩
        rw [← hself]
        exact Option.some_inj.mp (h.1.symm.trans hlook)
      by_cases hseen : id ∈ visited
      · exact Or.inr ⟨if_pos (Or.inr hseen), Or.inr hseen⟩
      · exact Or.inl ⟨next, ⟨hlook, hself⟩, hseen, if_neg (not_or.mpr ⟨hself, hseen⟩)⟩

theorem reaches_remapChange (map : FMap Blake3Hash Blake3Hash) (hops : ℕ)
    (visited : Finset Blake3Hash) (id : Blake3Hash) :
    Relation.ReflTransGen (Binds map) id (remapChange map hops visited id) := by
  induction hops generalizing visited id with
  | zero => exact .refl
  | succ hops ih =>
      rcases remapChange_cases map hops visited id with ⟨next, hstep, -, hrun⟩ | ⟨hrun, -⟩
      · rw [hrun]
        exact .head hstep (ih _ _)
      · rw [hrun]

theorem card_sdiff_insert_lt (hstep : Binds map id next) (hseen : id ∉ visited) :
    (map.keys \ insert id visited).card < (map.keys \ visited).card := by
  refine Finset.card_lt_card ⟨Finset.sdiff_subset_sdiff subset_rfl (Finset.subset_insert _ _), ?_⟩
  intro hsub
  have hmem : id ∈ map.keys \ visited :=
    Finset.mem_sdiff.mpr ⟨FMap.mem_keys_of_lookup hstep.1, hseen⟩
  exact (Finset.mem_sdiff.mp (hsub hmem)).2 (Finset.mem_insert_self _ _)

/-- **The hop limit** is never what ends a walk: more hops lead no further, in any map. -/
theorem remapChange_add (hhops : (map.keys \ visited).card < hops) (more : ℕ) (id : Blake3Hash) :
    remapChange map (hops + more) visited id = remapChange map hops visited id := by
  induction hops generalizing visited id with
  | zero => exact absurd hhops (Nat.not_lt_zero _)
  | succ hops ih =>
      rw [Nat.succ_add]
      rcases remapChange_cases map (hops + more) visited id with
        ⟨next, hstep, hseen, hrun⟩ | ⟨hrun, hend⟩
      · rcases remapChange_cases map hops visited id with ⟨next', hstep', -, hrun'⟩ | ⟨-, hend⟩
        · obtain rfl := rightUnique_binds hstep hstep'
          have hlt := card_sdiff_insert_lt hstep hseen
          rw [hrun, hrun', ih (by omega)]
        · exact absurd hend (not_or.mpr ⟨fun h => h next hstep, hseen⟩)
      · rcases remapChange_cases map hops visited id with ⟨next', hstep', hseen, -⟩ | ⟨hrun', -⟩
        · exact absurd hend (not_or.mpr ⟨fun h => h next' hstep', hseen⟩)
        · rw [hrun, hrun']

theorem endsAt_remapChange (hmap : Loopless map) (hhops : (map.keys \ visited).card < hops)
    (hvisited : ∀ x ∈ visited, Relation.TransGen (Binds map) x id) :
    EndsAt map id (remapChange map hops visited id) := by
  induction hops generalizing visited id with
  | zero => exact absurd hhops (Nat.not_lt_zero _)
  | succ hops ih =>
      rcases remapChange_cases map hops visited id with
        ⟨next, hstep, hseen, hrun⟩ | ⟨hrun, hend | hseen⟩
      · have hlt := card_sdiff_insert_lt hstep hseen
        have hnext : ∀ x ∈ insert id visited, Relation.TransGen (Binds map) x next := by
          intro x hx
          rcases Finset.mem_insert.mp hx with rfl | hx
          · exact .single hstep
          · exact (hvisited x hx).tail hstep
        obtain ⟨hpath, hlast⟩ := ih (by omega) hnext
        rw [hrun]
        exact ⟨.head hstep hpath, hlast⟩
      · rw [hrun]
        exact ⟨.refl, hend⟩
      · exact absurd (hvisited id hseen) (hmap id)

theorem endsAt_remap (hmap : Loopless map) (id : Blake3Hash) : EndsAt map id (remapId map id) := by
  refine endsAt_remapChange hmap ?_ (by simp)
  rw [Finset.sdiff_empty]
  exact Nat.lt_succ_self _

theorem endsAt_iff (hmap : Loopless map) : EndsAt map id last ↔ last = remapId map id := by
  constructor
  · exact fun h => h.unique (endsAt_remap hmap id)
  · rintro rfl
    exact endsAt_remap hmap id

theorem remap_remap (hmap : Loopless map) (id : Blake3Hash) :
    remapId map (remapId map id) = remapId map id :=
  ((endsAt_iff hmap).mp ⟨.refl, (endsAt_remap hmap id).2⟩).symm

end Bindings

theorem PendingRewrite.resolvedOrder_eq (pending : PendingRewrite) :
    pending.resolvedOrder = pending.desiredOrder.map (remapId pending.rewriteMap) := rfl

/-- **Resolving a pending rewrite.** In every map the walk ends without the hop limit, at an id that
the bindings lead to. Without a loop that is the one end of the chain, resolving again changes
nothing, and the resolved order has the ends of the desired ids. -/
theorem remap_resolves (pending : PendingRewrite) :
    (∀ id more, remapChange pending.rewriteMap (pending.rewriteMap.keys.card + 1 + more) ∅ id
        = remapId pending.rewriteMap id)
      ∧ (∀ id, Relation.ReflTransGen (Binds pending.rewriteMap) id (remapId pending.rewriteMap id))
      ∧ (Loopless pending.rewriteMap →
        (∀ id last, EndsAt pending.rewriteMap id last ↔ last = remapId pending.rewriteMap id)
        ∧ (∀ id, remapId pending.rewriteMap (remapId pending.rewriteMap id)
          = remapId pending.rewriteMap id)
        ∧ List.Forall₂ (EndsAt pending.rewriteMap) pending.desiredOrder pending.resolvedOrder
        ∧ { pending with desiredOrder := pending.resolvedOrder }.resolvedOrder
          = pending.resolvedOrder) := by
  refine ⟨fun id more => remapChange_add ?_ more id, fun id => reaches_remapChange _ _ _ id,
    fun hmap => ⟨fun id last => endsAt_iff hmap, remap_remap hmap, ?_, ?_⟩⟩
  · rw [Finset.sdiff_empty]
    exact Nat.lt_succ_self _
  · rw [pending.resolvedOrder_eq, List.forall₂_map_right_iff]
    exact List.forall₂_same.mpr fun id _ => endsAt_remap hmap id
  · rw [PendingRewrite.resolvedOrder_eq, pending.resolvedOrder_eq, List.map_map]
    exact List.map_congr_left fun id _ => remap_remap hmap id

/-- Three ids, each bound to the next one. -/
def chained : PendingRewrite :=
  { PendingRewrite.newRestack "main" {1} [1, 4] with
    rewriteMap := ((Finmap.singleton 1 2).insert 2 3).insert 3 4 }

theorem remap_resolves_chained : chained.resolvedOrder = [4, 4]
    ∧ EndsAt chained.rewriteMap 1 4 := by
  have hbound : ∀ x ∈ chained.rewriteMap.keys,
      (chained.rewriteMap.lookup x).all (fun y => decide (x < y)) = true := by decide
  have hlt {x y : Blake3Hash} (h : Relation.TransGen (Binds chained.rewriteMap) x y) : x < y := by
    have hstep {a b : Blake3Hash} (hab : Binds chained.rewriteMap a b) : a < b := by
      have hall := hbound a (FMap.mem_keys_of_lookup hab.1)
      rw [hab.1] at hall
      exact of_decide_eq_true hall
    induction h with
    | single hab => exact hstep hab
    | tail _ hab ih => exact ih.trans (hstep hab)
  have hmap : Loopless chained.rewriteMap := fun id hid => lt_irrefl id (hlt hid)
  obtain ⟨hends, -⟩ := (remap_resolves chained).2.2 hmap
  exact ⟨by decide, (hends 1 4).mpr (by decide)⟩

end ArcVcs
