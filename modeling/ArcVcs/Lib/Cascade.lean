import ArcVcs.Lib.Collections
import Mathlib.Data.List.Induction

/-!
# Renaming along an order

Nodes are given new names one after the other. Whether a node is renamed, and to what, depends
on the names that its dependencies have at that moment. When no node comes before one of its
dependencies, every decision agrees with the final names.
-/

namespace Cascade

variable {ν α : Type*} [DecidableEq α]

/-- The name of a key, which is the key itself unless it was renamed. -/
def name (ρ : FMap α α) (a : α) : α := (ρ.lookup a).getD a

theorem name_of_notMem {ρ : FMap α α} {a : α} (h : a ∉ ρ.keys) : name ρ a = a := by
  rw [name, FMap.notMem_keys_iff.mp h, Option.getD_none]

theorem name_congr {ρ ρ' : FMap α α} {a : α} (h : ρ.lookup a = ρ'.lookup a) :
    name ρ a = name ρ' a := by rw [name, name, h]

variable (key : ν → α) (deps : ν → Finset α) (f : (α → α) → ν → Option α)

def step (ρ : FMap α α) (c : ν) : FMap α α :=
  match f (name ρ) c with
  | none => ρ
  | some b => ρ.insert (key c) b

/-- A decision depends only on the names of the dependencies. -/
def Local : Prop := ∀ r r' c, (∀ d ∈ deps c, r d = r' d) → f r c = f r' c

/-- No node depends on itself or on a later one. -/
def DepsFirst (l : List ν) : Prop :=
  ∀ pre c post, l = pre ++ c :: post → ∀ x ∈ c :: post, key x ∉ deps c

variable {key deps f}

omit [DecidableEq α] in
theorem DepsFirst.of_pairwise {l : List ν} (h : l.Pairwise fun b c => key c ∉ deps b)
    (hself : ∀ c ∈ l, key c ∉ deps c) : DepsFirst key deps l := by
  rintro pre c post rfl x hx
  rcases List.mem_cons.mp hx with rfl | hx
  · exact hself x (by simp)
  · exact (List.pairwise_cons.mp (List.pairwise_append.mp h).2.1).1 x hx

theorem lookup_step (ρ : FMap α α) (c : ν) (a : α) :
    (step key f ρ c).lookup a
      = if a = key c then (f (name ρ) c).or (ρ.lookup a) else ρ.lookup a := by
  rw [step]
  cases f (name ρ) c with
  | none => simp
  | some b => rw [FMap.lookup_insert_eq, Option.some_or]

theorem lookup_foldl_of_notMem {l : List ν} (ρ : FMap α α) {a : α} (ha : a ∉ l.map key) :
    (l.foldl (step key f) ρ).lookup a = ρ.lookup a := by
  induction l generalizing ρ with
  | nil => rfl
  | cons c l ih =>
      simp only [List.map_cons, List.mem_cons, not_or] at ha
      rw [List.foldl_cons, ih _ ha.2, lookup_step, if_neg ha.1]

theorem mem_keys_foldl {l : List ν} {a : α} (ha : a ∈ (l.foldl (step key f) ∅).keys) :
    a ∈ l.map key := by
  by_contra hn
  rw [FMap.mem_keys_iff, lookup_foldl_of_notMem _ hn] at ha
  simp at ha

section Run

variable {l : List ν} (hnodup : (l.map key).Nodup) (hfirst : DepsFirst key deps l)
  (hlocal : Local deps f)

include hfirst in
theorem name_foldl_prefix {pre post : List ν} {c : ν} (hsplit : l = pre ++ c :: post) {d : α}
    (hd : d ∈ deps c) :
    name (pre.foldl (step key f) ∅) d = name (l.foldl (step key f) ∅) d := by
  have hlater : d ∉ (c :: post).map key := by
    rintro hmem
    obtain ⟨x, hx, rfl⟩ := List.mem_map.mp hmem
    exact hfirst pre c post hsplit x hx hd
  rw [hsplit, List.foldl_append]
  exact name_congr (lookup_foldl_of_notMem _ hlater).symm

include hfirst hlocal in
theorem decision_foldl_prefix {pre post : List ν} {c : ν} (hsplit : l = pre ++ c :: post) :
    f (name (pre.foldl (step key f) ∅)) c = f (name (l.foldl (step key f) ∅)) c :=
  hlocal _ _ c fun _ hd => name_foldl_prefix hfirst hsplit hd

include hnodup hfirst hlocal in
/-- **The final names are a fixed point**: each node is renamed as its dependencies' final names
decide. -/
theorem lookup_foldl {c : ν} (hc : c ∈ l) :
    (l.foldl (step key f) ∅).lookup (key c) = f (name (l.foldl (step key f) ∅)) c := by
  obtain ⟨pre, post, hsplit⟩ := List.append_of_mem hc
  rw [← decision_foldl_prefix hfirst hlocal hsplit]
  have hkeys := hnodup
  rw [hsplit, List.map_append, List.map_cons] at hkeys
  obtain ⟨-, hcpost, hdisjoint⟩ := List.nodup_append.mp hkeys
  have hpre : key c ∉ pre.map key := fun hmem => hdisjoint _ hmem _ List.mem_cons_self rfl
  rw [hsplit, List.foldl_append, List.foldl_cons,
    lookup_foldl_of_notMem _ (List.nodup_cons.mp hcpost).1, lookup_step, if_pos rfl,
    lookup_foldl_of_notMem _ hpre]
  cases f (name (pre.foldl (step key f) ∅)) c <;> rfl

include hnodup hfirst hlocal in
/-- **No name is itself renamed**, as long as a node whose dependencies have such names is never
renamed to a node that is renamed. -/
theorem name_notMem_keys {ρ : FMap α α} (hρ : ρ = l.foldl (step key f) ∅)
    (hfresh : ∀ c ∈ l, (∀ d ∈ deps c, name ρ d ∉ ρ.keys) → ∀ x ∈ l,
      f (name ρ) c = some (key x) → f (name ρ) x = none) (a : α) : name ρ a ∉ ρ.keys := by
  have hlook : ∀ c ∈ l, ρ.lookup (key c) = f (name ρ) c := by
    subst hρ
    exact fun c hc => lookup_foldl hnodup hfirst hlocal hc
  have houtside : ∀ a, a ∉ l.map key → name ρ a ∉ ρ.keys := by
    intro a ha
    have hnot : a ∉ ρ.keys := fun hmem => ha (mem_keys_foldl (hρ ▸ hmem))
    rwa [name_of_notMem hnot]
  -- Along the order, the dependencies of a node are settled before it.
  have hprefix : ∀ pre post, l = pre ++ post → ∀ c ∈ pre, name ρ (key c) ∉ ρ.keys := by
    intro pre
    induction pre using List.reverseRecOn with
    | nil => simp
    | append_singleton pre c ih =>
        intro post hsplit b hb
        have hsplit' : l = pre ++ c :: post := by simpa using hsplit
        rcases List.mem_append.mp hb with hb | hb
        · exact ih (c :: post) hsplit' b hb
        obtain rfl := List.mem_singleton.mp hb
        have hbl : b ∈ l := by simp [hsplit']
        have hdeps : ∀ d ∈ deps b, name ρ d ∉ ρ.keys := by
          intro d hd
          by_cases hdl : d ∈ l.map key
          · obtain ⟨x, hx, rfl⟩ := List.mem_map.mp hdl
            rw [hsplit', List.mem_append] at hx
            rcases hx with hx | hx
            · exact ih (b :: post) hsplit' x hx
            · exact absurd hd (hfirst pre b post hsplit' x hx)
          · exact houtside d hdl
        intro hmem
        cases hdecide : f (name ρ) b with
        | none =>
            rw [name, hlook b hbl, hdecide, Option.getD_none, FMap.mem_keys_iff, hlook b hbl,
              hdecide] at hmem
            simp at hmem
        | some y =>
            rw [name, hlook b hbl, hdecide, Option.getD_some] at hmem
            obtain ⟨x, hx, rfl⟩ := List.mem_map.mp (mem_keys_foldl (hρ ▸ hmem))
            rw [FMap.mem_keys_iff, hlook x hx, hfresh b hbl hdeps x hx hdecide] at hmem
            simp at hmem
  by_cases ha : a ∈ l.map key
  · obtain ⟨c, hc, rfl⟩ := List.mem_map.mp ha
    exact hprefix l [] (by simp) c hc
  · exact houtside a ha

end Run

end Cascade
