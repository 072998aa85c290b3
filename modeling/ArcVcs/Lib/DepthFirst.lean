import ArcVcs.Lib.Collections
import Mathlib.Logic.Relation

/-!
# Depth-first search

A stack of nodes and the nodes seen so far. A visit returns the nodes to push, or fails and ends
the search. The search ends when only finitely many nodes have successors, and a search that
does not fail has seen what is reachable from the start.
-/

namespace DepthFirst

variable {α ε : Type*} [DecidableEq α] (visit : α → Except ε (List α))

/-- The search loop. `none` means that the fuel ran out. -/
def search : ℕ → List α → List α → Option (Except ε (List α))
  | 0, _, _ => none
  | _ + 1, [], seen => some (.ok seen)
  | fuel + 1, a :: stack, seen =>
      if a ∈ seen then search fuel stack seen
      else
        match visit a with
        | .error e => some (.error e)
        | .ok pushed => search fuel (pushed ++ stack) (seen ++ [a])

def pushed (a : α) : List α := (visit a).toOption.getD []

variable {visit}

omit [DecidableEq α] in
theorem pushed_of_ok {a : α} {next : List α} (h : visit a = .ok next) :
    pushed visit a = next := by rw [pushed, h]; rfl

/-! ## The search ends -/

/-- Stack length and what may still be pushed. -/
def potential (visit : α → Except ε (List α)) (support : Finset α) (stack seen : List α) : ℕ :=
  stack.length + ∑ a ∈ support \ seen.toFinset, (pushed visit a).length

theorem potential_visit {support : Finset α} {a : α} (stack : List α) {seen next : List α}
    (hsupp : ∀ b, b ∉ support → pushed visit b = []) (ha : a ∉ seen) (hvisit : visit a = .ok next) :
    potential visit support (next ++ stack) (seen ++ [a])
      < potential visit support (a :: stack) seen := by
  have hsum : next.length + ∑ b ∈ support \ (seen ++ [a]).toFinset, (pushed visit b).length
      ≤ ∑ b ∈ support \ seen.toFinset, (pushed visit b).length := by
    have hseen : (seen ++ [a]).toFinset = insert a seen.toFinset := by simp
    rw [← pushed_of_ok hvisit, hseen]
    refine Finset.add_sum_sdiff_insert_le (fun b => (pushed visit b).length)
      (fun b hb => by rw [hsupp b hb, List.length_nil]) ?_
    rwa [List.mem_toFinset]
  simp only [potential, List.length_append, List.length_cons]
  omega

theorem search_isSome {support : Finset α} (hsupp : ∀ b, b ∉ support → pushed visit b = [])
    {fuel : ℕ} {stack seen : List α} (hfuel : potential visit support stack seen < fuel) :
    ∃ out, search visit fuel stack seen = some out := by
  induction fuel generalizing stack seen with
  | zero => omega
  | succ fuel ih =>
      cases stack with
      | nil => exact ⟨.ok seen, rfl⟩
      | cons a stack =>
          by_cases ha : a ∈ seen
          · rw [search, if_pos ha]
            refine ih ?_
            simp only [potential, List.length_cons] at hfuel ⊢
            omega
          · rw [search, if_neg ha]
            cases hvisit : visit a with
            | error e => exact ⟨.error e, rfl⟩
            | ok next =>
                apply ih
                have hlt := potential_visit stack hsupp ha hvisit
                omega

/-! ## What the search has seen -/

/-- The invariant of the loop. -/
structure Inv (visit : α → Except ε (List α)) (start : List α) (stack seen : List α) : Prop where
  nodup : seen.Nodup
  visited : ∀ a ∈ seen, ∃ next, visit a = .ok next ∧ ∀ b ∈ next, b ∈ seen ∨ b ∈ stack
  start_mem : ∀ a ∈ start, a ∈ seen ∨ a ∈ stack
  reached : ∀ a, a ∈ seen ∨ a ∈ stack →
    ∃ q ∈ start, Relation.ReflTransGen (fun x y => y ∈ pushed visit x) q a

omit [DecidableEq α] in
theorem Inv.init (start : List α) : Inv visit start start [] where
  nodup := List.nodup_nil
  visited := by simp
  start_mem a ha := .inr ha
  reached a ha := ⟨a, by simpa using ha, .refl⟩

omit [DecidableEq α] in
theorem Inv.skip {start stack seen : List α} {a : α} (h : Inv visit start (a :: stack) seen)
    (ha : a ∈ seen) : Inv visit start stack seen := by
  have hmem : ∀ {b}, b ∈ seen ∨ b ∈ a :: stack → b ∈ seen ∨ b ∈ stack := by
    rintro b (hb | hb)
    · exact .inl hb
    · rcases List.mem_cons.mp hb with rfl | hb
      · exact .inl ha
      · exact .inr hb
  refine ⟨h.nodup, fun b hb => ?_, fun b hb => hmem (h.start_mem b hb), fun b hb => ?_⟩
  · obtain ⟨next, hvisit, hnext⟩ := h.visited b hb
    exact ⟨next, hvisit, fun c hc => hmem (hnext c hc)⟩
  · exact h.reached b (hb.imp_right (.tail _))

omit [DecidableEq α] in
theorem Inv.expand {start stack seen next : List α} {a : α}
    (h : Inv visit start (a :: stack) seen) (ha : a ∉ seen) (hvisit : visit a = .ok next) :
    Inv visit start (next ++ stack) (seen ++ [a]) := by
  have hmem : ∀ {b}, b ∈ seen ∨ b ∈ a :: stack → b ∈ seen ++ [a] ∨ b ∈ next ++ stack := by
    rintro b (hb | hb)
    · exact .inl (List.mem_append_left _ hb)
    · rcases List.mem_cons.mp hb with rfl | hb
      · exact .inl (by simp)
      · exact .inr (List.mem_append_right _ hb)
  refine ⟨?_, fun b hb => ?_, fun b hb => hmem (h.start_mem b hb), fun b hb => ?_⟩
  · rw [List.nodup_append]
    refine ⟨h.nodup, List.nodup_singleton a, fun x hx y hy hxy => ha ?_⟩
    rwa [← List.mem_singleton.mp hy, ← hxy]
  · rcases List.mem_append.mp hb with hb | hb
    · obtain ⟨next', hvisit', hnext'⟩ := h.visited b hb
      exact ⟨next', hvisit', fun c hc => hmem (hnext' c hc)⟩
    · obtain rfl := List.mem_singleton.mp hb
      exact ⟨next, hvisit, fun c hc => .inr (List.mem_append_left _ hc)⟩
  · have hreach := h.reached a (.inr List.mem_cons_self)
    rcases hb with hb | hb
    · rcases List.mem_append.mp hb with hb | hb
      · exact h.reached b (.inl hb)
      · exact List.mem_singleton.mp hb ▸ hreach
    · rcases List.mem_append.mp hb with hb | hb
      · obtain ⟨q, hq, hpath⟩ := hreach
        exact ⟨q, hq, hpath.tail (by rwa [pushed_of_ok hvisit])⟩
      · exact h.reached b (.inr (.tail _ hb))

theorem search_inv {start stack seen out : List α} {fuel : ℕ} (h : Inv visit start stack seen)
    (hrun : search visit fuel stack seen = some (.ok out)) : Inv visit start [] out := by
  induction fuel generalizing stack seen with
  | zero => simp [search] at hrun
  | succ fuel ih =>
      cases stack with
      | nil =>
          obtain rfl : seen = out := by simpa [search] using hrun
          exact h
      | cons a stack =>
          by_cases ha : a ∈ seen
          · rw [search, if_pos ha] at hrun
            exact ih (h.skip ha) hrun
          · rw [search, if_neg ha] at hrun
            cases hvisit : visit a with
            | error e => simp [hvisit] at hrun
            | ok next =>
                rw [hvisit] at hrun
                exact ih (h.expand ha hvisit) hrun

theorem Inv.search_ne_error {start stack seen : List α} {fuel : ℕ} {e : ε}
    (h : Inv visit start stack seen)
    (hvisit : ∀ a, (∃ q ∈ start, Relation.ReflTransGen (fun x y => y ∈ pushed visit x) q a) →
      ∃ next, visit a = .ok next) : search visit fuel stack seen ≠ some (.error e) := by
  induction fuel generalizing stack seen with
  | zero => simp [search]
  | succ fuel ih =>
      cases stack with
      | nil => simp [search]
      | cons a stack =>
          by_cases ha : a ∈ seen
          · rw [search, if_pos ha]
            exact ih (h.skip ha)
          · obtain ⟨next, hnext⟩ := hvisit a (h.reached a (.inr List.mem_cons_self))
            rw [search, if_neg ha, hnext]
            exact ih (h.expand ha hnext)

/-- **A search that does not fail has visited exactly what is reachable.** -/
theorem search_ok {fuel : ℕ} {start out : List α}
    (hrun : search visit fuel start [] = some (.ok out)) :
    out.Nodup ∧ (∀ a ∈ out, ∃ next, visit a = .ok next)
      ∧ ∀ a, a ∈ out ↔ ∃ q ∈ start, Relation.ReflTransGen (fun x y => y ∈ pushed visit x) q a := by
  have h := search_inv (Inv.init start) hrun
  have hvisited : ∀ a ∈ out, ∃ next, visit a = .ok next ∧ ∀ b ∈ next, b ∈ out := by
    intro a ha
    obtain ⟨next, hvisit, hnext⟩ := h.visited a ha
    exact ⟨next, hvisit, fun b hb => by simpa using hnext b hb⟩
  refine ⟨h.nodup, fun a ha => ?_, fun a => ⟨fun ha => h.reached a (.inl ha), ?_⟩⟩
  · obtain ⟨next, hvisit, -⟩ := hvisited a ha
    exact ⟨next, hvisit⟩
  · rintro ⟨q, hq, hpath⟩
    induction hpath with
    | refl => simpa using h.start_mem q hq
    | tail _ hstep ih =>
        obtain ⟨next, hvisit, hnext⟩ := hvisited _ ih
        rw [pushed_of_ok hvisit] at hstep
        exact hnext _ hstep

theorem search_of_extends {visit' : α → Except ε (List α)}
    (hext : ∀ a next, visit a = .ok next → visit' a = .ok next) {fuel fuel' : ℕ}
    {stack seen out : List α} {out' : Except ε (List α)}
    (h : search visit fuel stack seen = some (.ok out))
    (h' : search visit' fuel' stack seen = some out') : out' = .ok out := by
  induction fuel generalizing fuel' stack seen with
  | zero => simp [search] at h
  | succ fuel ih =>
      cases fuel' with
      | zero => simp [search] at h'
      | succ fuel' =>
          cases stack with
          | nil =>
              obtain rfl : seen = out := by simpa [search] using h
              simpa [search] using h'.symm
          | cons a stack =>
              rw [search] at h h'
              split_ifs at h h' with ha
              · exact ih h h'
              · cases hvisit : visit a with
                | error e => simp [hvisit] at h
                | ok next =>
                    rw [hvisit] at h
                    rw [hext a next hvisit] at h'
                    exact ih h h'

end DepthFirst
