import ArcVcs.Lib.Collections
import Mathlib.Logic.Relation

/-!
# Breadth-first closure

The loop pops an element, skips it when it was visited, and otherwise visits it and
queues its unvisited successors. Each step lowers a potential, so the loop ends, and it
ends with the set reachable from the start.
-/

namespace Worklist

variable {α : Type*} [LinearOrder α]

/-- The closure loop. `none` means that the fuel ran out. -/
def closure (succ : α → Finset α) : ℕ → List α → Finset α → Option (Finset α)
  | 0, _, _ => none
  | _ + 1, [], visited => some visited
  | fuel + 1, a :: queue, visited =>
      if a ∈ visited then closure succ fuel queue visited
      else
        closure succ fuel
          (queue ++ ((succ a).filter fun b => b ∉ insert a visited).sorted) (insert a visited)

variable {succ : α → Finset α}

/-- Queue length and the successors of what may still be visited. -/
def potential (succ : α → Finset α) (support : Finset α) (queue : List α)
    (visited : Finset α) : ℕ :=
  queue.length + ∑ a ∈ support \ visited, (succ a).card

theorem potential_push {support : Finset α} {a : α} {queue pushed : List α} {visited : Finset α}
    (hsupp : ∀ b, b ∉ support → succ b = ∅) (ha : a ∉ visited)
    (hpushed : pushed.length ≤ (succ a).card) :
    potential succ support (queue ++ pushed) (insert a visited)
      < potential succ support (a :: queue) visited := by
  have hsum : (succ a).card + ∑ b ∈ support \ insert a visited, (succ b).card
      ≤ ∑ b ∈ support \ visited, (succ b).card :=
    Finset.add_sum_sdiff_insert_le (fun b => (succ b).card)
      (fun b hb => by rw [hsupp b hb, Finset.card_empty]) ha
  simp only [potential, List.length_append, List.length_cons]
  omega

theorem potential_visit {support : Finset α} {a : α} (queue : List α) {visited : Finset α}
    (hsupp : ∀ b, b ∉ support → succ b = ∅) (ha : a ∉ visited) :
    potential succ support
        (queue ++ ((succ a).filter fun b => b ∉ insert a visited).sorted) (insert a visited)
      < potential succ support (a :: queue) visited := by
  refine potential_push hsupp ha ?_
  rw [Finset.length_sorted]
  exact Finset.card_filter_le _ _

theorem closure_isSome {support : Finset α} (hsupp : ∀ b, b ∉ support → succ b = ∅)
    {fuel : ℕ} {queue : List α} {visited : Finset α}
    (hfuel : potential succ support queue visited < fuel) :
    ∃ out, closure succ fuel queue visited = some out := by
  induction fuel generalizing queue visited with
  | zero => omega
  | succ fuel ih =>
      cases queue with
      | nil => exact ⟨visited, rfl⟩
      | cons a queue =>
          by_cases ha : a ∈ visited
          · rw [closure, if_pos ha]
            refine ih ?_
            simp only [potential, List.length_cons] at hfuel ⊢
            omega
          · rw [closure, if_neg ha]
            apply ih
            have hlt := potential_visit queue hsupp ha
            omega

/-- What the loop maintains: the result holds the visited and the queued elements, is closed,
and holds nothing that the queue does not reach. -/
theorem closure_spec {fuel : ℕ} {queue : List α} {visited out : Finset α}
    (hrun : closure succ fuel queue visited = some out)
    (hclosed : ∀ a ∈ visited, ∀ b ∈ succ a, b ∈ visited ∨ b ∈ queue) :
    visited ⊆ out ∧ (∀ a ∈ queue, a ∈ out) ∧ (∀ a ∈ out, ∀ b ∈ succ a, b ∈ out)
      ∧ ∀ a ∈ out, a ∈ visited
          ∨ ∃ q ∈ queue, Relation.ReflTransGen (fun x y => y ∈ succ x) q a := by
  induction fuel generalizing queue visited with
  | zero => simp [closure] at hrun
  | succ fuel ih =>
      cases queue with
      | nil =>
          obtain rfl : visited = out := by simpa [closure] using hrun
          exact ⟨subset_rfl, by simp, fun a ha b hb => by simpa using hclosed a ha b hb,
            fun a ha => .inl ha⟩
      | cons a queue =>
          by_cases ha : a ∈ visited
          · rw [closure, if_pos ha] at hrun
            obtain ⟨hvis, hque, hcl, hreach⟩ := ih hrun fun x hx y hy => by
              rcases hclosed x hx y hy with h | h
              · exact .inl h
              · rcases List.mem_cons.mp h with rfl | h
                · exact .inl ha
                · exact .inr h
            refine ⟨hvis, ?_, hcl, fun x hx => ?_⟩
            · simpa using ⟨hvis ha, hque⟩
            · rcases hreach x hx with h | ⟨q, hq, h⟩
              · exact .inl h
              · exact .inr ⟨q, .tail _ hq, h⟩
          · rw [closure, if_neg ha] at hrun
            obtain ⟨hvis, hque, hcl, hreach⟩ := ih hrun fun x hx y hy => by
              by_cases hyv : y ∈ insert a visited
              · exact .inl hyv
              · refine .inr (List.mem_append.mpr ?_)
                rcases Finset.mem_insert.mp hx with rfl | hx
                · exact .inr (by simpa [hy] using hyv)
                · rcases hclosed x hx y hy with h | h
                  · exact absurd (Finset.mem_insert_of_mem h) hyv
                  · rcases List.mem_cons.mp h with rfl | h
                    · simp at hyv
                    · exact .inl h
            refine ⟨(Finset.subset_insert a visited).trans hvis, ?_, hcl, fun x hx => ?_⟩
            · intro x hx
              rcases List.mem_cons.mp hx with rfl | hx
              · exact hvis (Finset.mem_insert_self _ _)
              · exact hque x (List.mem_append_left _ hx)
            · rcases hreach x hx with h | ⟨q, hq, h⟩
              · rcases Finset.mem_insert.mp h with rfl | h
                · exact .inr ⟨x, List.mem_cons_self, .refl⟩
                · exact .inl h
              · rcases List.mem_append.mp hq with hq | hq
                · exact .inr ⟨q, .tail _ hq, h⟩
                · have hsucc : q ∈ succ a := (Finset.mem_filter.mp (Finset.mem_sorted.mp hq)).1
                  exact .inr ⟨a, List.mem_cons_self, .head hsucc h⟩

theorem visited_subset {fuel : ℕ} {queue : List α} {visited out : Finset α}
    (hrun : closure succ fuel queue visited = some out) : visited ⊆ out := by
  induction fuel generalizing queue visited with
  | zero => simp [closure] at hrun
  | succ fuel ih =>
      cases queue with
      | nil =>
          obtain rfl : visited = out := by simpa [closure] using hrun
          exact subset_rfl
      | cons a queue =>
          rw [closure] at hrun
          split_ifs at hrun
          · exact ih hrun
          · exact (Finset.subset_insert a visited).trans (ih hrun)

/-- **The closure loop computes reachability.** -/
theorem mem_closure_iff_of_list {fuel : ℕ} {start : List α} {out : Finset α}
    (hrun : closure succ fuel start ∅ = some out) {a : α} :
    a ∈ out ↔ ∃ q ∈ start, Relation.ReflTransGen (fun x y => y ∈ succ x) q a := by
  obtain ⟨-, hque, hcl, hreach⟩ := closure_spec hrun (by simp)
  constructor
  · intro ha
    simpa using hreach a ha
  · rintro ⟨q, hq, hpath⟩
    induction hpath with
    | refl => exact hque q hq
    | tail _ hstep ih => exact hcl _ ih _ hstep

theorem mem_closure_iff {fuel : ℕ} {start out : Finset α}
    (hrun : closure succ fuel start.sorted ∅ = some out) {a : α} :
    a ∈ out ↔ ∃ q ∈ start, Relation.ReflTransGen (fun x y => y ∈ succ x) q a := by
  simpa using mem_closure_iff_of_list hrun

/-! ## Worklists with a state -/

section Process

variable {β σ ε : Type*} {step : σ → β → Except ε (List β × σ)}

/-- Pop an element, update the state, queue more elements, and stop at the first error. -/
def process (step : σ → β → Except ε (List β × σ)) : ℕ → List β → σ → Option (Except ε σ)
  | 0, _, _ => none
  | _ + 1, [], st => some (.ok st)
  | fuel + 1, b :: queue, st =>
      match step st b with
      | .error e => some (.error e)
      | .ok (pushed, st') => process step fuel (queue ++ pushed) st'

theorem exists_process (I : List β → σ → Prop) (μ : List β → σ → ℕ)
    (hI : ∀ b queue st pushed st', I (b :: queue) st → step st b = .ok (pushed, st')
      → I (queue ++ pushed) st' ∧ μ (queue ++ pushed) st' < μ (b :: queue) st)
    {fuel : ℕ} {queue : List β} {st : σ} (hstart : I queue st) (hfuel : μ queue st < fuel) :
    ∃ out, process step fuel queue st = some out := by
  induction fuel generalizing queue st with
  | zero => omega
  | succ fuel ih =>
      cases queue with
      | nil => exact ⟨.ok st, rfl⟩
      | cons b queue =>
          rw [process]
          cases hstep : step st b with
          | error e => exact ⟨.error e, rfl⟩
          | ok next =>
              obtain ⟨hnext, hlt⟩ := hI b queue st next.1 next.2 hstart hstep
              exact ih hnext (by omega)

theorem process_isSome (μ : List β → σ → ℕ)
    (hμ : ∀ b queue st pushed st', step st b = .ok (pushed, st')
      → μ (queue ++ pushed) st' < μ (b :: queue) st)
    {fuel : ℕ} {queue : List β} {st : σ} (hfuel : μ queue st < fuel) :
    ∃ out, process step fuel queue st = some out :=
  exists_process (fun _ _ => True) μ (fun b queue st pushed st' _ hstep =>
    ⟨trivial, hμ b queue st pushed st' hstep⟩) trivial hfuel

theorem process_ok (I : List β → σ → Prop)
    (hI : ∀ b queue st pushed st', I (b :: queue) st → step st b = .ok (pushed, st')
      → I (queue ++ pushed) st')
    {fuel : ℕ} {queue : List β} {st out : σ} (hstart : I queue st)
    (hrun : process step fuel queue st = some (.ok out)) : I [] out := by
  induction fuel generalizing queue st with
  | zero => simp [process] at hrun
  | succ fuel ih =>
      cases queue with
      | nil =>
          obtain rfl : st = out := by simpa [process] using hrun
          exact hstart
      | cons b queue =>
          rw [process] at hrun
          cases hstep : step st b with
          | error e => simp [hstep] at hrun
          | ok next =>
              rw [hstep] at hrun
              exact ih (hI b queue st next.1 next.2 hstart hstep) hrun

theorem exists_process_ok (I : List β → σ → Prop) (μ : List β → σ → ℕ)
    (hI : ∀ b queue st, I (b :: queue) st → ∃ pushed st', step st b = .ok (pushed, st')
      ∧ I (queue ++ pushed) st' ∧ μ (queue ++ pushed) st' < μ (b :: queue) st)
    {fuel : ℕ} {queue : List β} {st : σ} (hstart : I queue st) (hfuel : μ queue st < fuel) :
    ∃ out, process step fuel queue st = some (.ok out) := by
  induction fuel generalizing queue st with
  | zero => omega
  | succ fuel ih =>
      cases queue with
      | nil => exact ⟨st, rfl⟩
      | cons b queue =>
          obtain ⟨pushed, st', hstep, hnext, hlt⟩ := hI b queue st hstart
          rw [process, hstep]
          exact ih hnext (by omega)

theorem process_mono {fuel more : ℕ} (hle : fuel ≤ more) {queue : List β} {st : σ}
    {out : Except ε σ} (hrun : process step fuel queue st = some out) :
    process step more queue st = some out := by
  induction fuel generalizing queue st more with
  | zero => simp [process] at hrun
  | succ fuel ih =>
      obtain ⟨more, rfl⟩ : ∃ k, more = k + 1 := ⟨more - 1, by omega⟩
      cases queue with
      | nil => simpa [process] using hrun
      | cons b queue =>
          rw [process] at hrun ⊢
          cases hstep : step st b with
          | error e => simpa [hstep] using hrun
          | ok next =>
              rw [hstep] at hrun
              exact ih (by omega) hrun

/-- A run that succeeds goes the same way under every step function that agrees where the first
one succeeds. -/
theorem process_congr {step' : σ → β → Except ε (List β × σ)}
    (h : ∀ st b next, step st b = .ok next → step' st b = .ok next)
    {fuel : ℕ} {queue : List β} {st out : σ} (hrun : process step fuel queue st = some (.ok out)) :
    process step' fuel queue st = some (.ok out) := by
  induction fuel generalizing queue st with
  | zero => simp [process] at hrun
  | succ fuel ih =>
      cases queue with
      | nil => simpa [process] using hrun
      | cons b queue =>
          rw [process] at hrun ⊢
          cases hstep : step st b with
          | error e => simp [hstep] at hrun
          | ok next =>
              rw [hstep] at hrun
              rw [h st b next hstep]
              exact ih hrun

/-- Two loops whose steps queue the same elements go side by side, until a step of the second one
fails; then the first one has become and stays bad. -/
theorem process_pair {τ ε' : Type*} {step' : τ → β → Except ε' (List β × τ)} {R : σ → τ → Prop}
    {Bad : σ → Prop}
    (hstep : ∀ b st st' pushed next, R st st' → step st b = .ok (pushed, next) →
      (∃ next', step' st' b = .ok (pushed, next') ∧ R next next')
        ∨ (∃ e, step' st' b = .error e) ∧ Bad next)
    (hbad : ∀ b st pushed next, Bad st → step st b = .ok (pushed, next) → Bad next)
    {fuel : ℕ} {queue : List β} {st out : σ} {st' : τ} (hR : R st st')
    (hrun : process step fuel queue st = some (.ok out)) :
    (∃ out', process step' fuel queue st' = some (.ok out') ∧ R out out')
      ∨ (∃ e, process step' fuel queue st' = some (.error e)) ∧ Bad out := by
  induction fuel generalizing queue st st' with
  | zero => simp [process] at hrun
  | succ fuel ih =>
      cases queue with
      | nil =>
          obtain rfl : st = out := by simpa [process] using hrun
          exact .inl ⟨st', rfl, hR⟩
      | cons b queue =>
          rw [process] at hrun ⊢
          cases hnext : step st b with
          | error e => simp [hnext] at hrun
          | ok next =>
              rw [hnext] at hrun
              rcases hstep b st st' next.1 next.2 hR hnext with
                ⟨next', hnext', hR'⟩ | ⟨⟨e, he⟩, hlost⟩
              · rw [hnext']
                exact ih hR' hrun
              · rw [he]
                refine .inr ⟨⟨e, rfl⟩, ?_⟩
                exact process_ok (fun _ st => Bad st)
                  (fun b _ st pushed st' h hs => hbad b st pushed st' h hs) hlost hrun

theorem process_of_idle {fuel : ℕ} {queue : List β} {st : σ}
    (hidle : ∀ b ∈ queue, step st b = .ok ([], st)) (hfuel : queue.length < fuel) :
    process step fuel queue st = some (.ok st) := by
  induction queue generalizing fuel with
  | nil =>
      obtain ⟨fuel, rfl⟩ : ∃ k, fuel = k + 1 := ⟨fuel - 1, by simp at hfuel; omega⟩
      rfl
  | cons b queue ih =>
      obtain ⟨fuel, rfl⟩ : ∃ k, fuel = k + 1 := ⟨fuel - 1, by simp at hfuel; omega⟩
      rw [process, hidle b List.mem_cons_self]
      simp only [List.append_nil]
      apply ih fun c hc => hidle c (.tail _ hc)
      simp only [List.length_cons] at hfuel
      omega

theorem length_lt_of_process {fuel : ℕ} {queue : List β} {st out : σ}
    (hrun : process step fuel queue st = some (.ok out)) : queue.length < fuel := by
  induction fuel generalizing queue st with
  | zero => simp [process] at hrun
  | succ fuel ih =>
      cases queue with
      | nil => simp
      | cons b queue =>
          rw [process] at hrun
          cases hstep : step st b with
          | error e => simp [hstep] at hrun
          | ok next =>
              rw [hstep] at hrun
              have hlt := ih hrun
              simp only [List.length_append, List.length_cons] at hlt ⊢
              omega

end Process

end Worklist

/-!
## Loops that have less to do

Two runs of a work queue, where the second one has done more before it starts: its queue is that of
the first one without elements whose steps would tell it nothing new. When the first run ends
without an error so does the second, with the same fuel.
-/

namespace Worklist

variable {β : Type*}

/-- The second list is the first one without some elements that have the property. -/
inductive Thinned (D : β → Prop) : List β → List β → Prop where
  | nil : Thinned D [] []
  | keep (b : β) {l l' : List β} (h : Thinned D l l') : Thinned D (b :: l) (b :: l')
  | drop {b : β} {l l' : List β} (hb : D b) (h : Thinned D l l') : Thinned D (b :: l) l'

namespace Thinned

variable {D E : β → Prop} {l l' m m' : List β}

theorem refl (D : β → Prop) (l : List β) : Thinned D l l := by
  induction l with
  | nil => exact .nil
  | cons b l ih => exact .keep b ih

theorem mono (h : Thinned D l l') (hDE : ∀ b, D b → E b) : Thinned E l l' := by
  induction h with
  | nil => exact .nil
  | keep b _ ih => exact .keep b ih
  | drop hb _ ih => exact .drop (hDE _ hb) ih

theorem append (h : Thinned D l l') (hm : Thinned D m m') : Thinned D (l ++ m) (l' ++ m') := by
  induction h with
  | nil => exact hm
  | keep b _ ih => exact .keep b ih
  | drop hb _ ih => exact .drop hb ih

theorem of_forall (h : ∀ b ∈ l, D b) : Thinned D l [] := by
  induction l with
  | nil => exact .nil
  | cons b l ih => exact .drop (h b List.mem_cons_self) (ih fun c hc => h c (.tail _ hc))

theorem filter (l : List β) {p q : β → Bool} (hqp : ∀ b ∈ l, q b = true → p b = true)
    (hD : ∀ b ∈ l, p b = true → q b = false → D b) : Thinned D (l.filter p) (l.filter q) := by
  induction l with
  | nil => exact .nil
  | cons b l ih =>
      have hrest := ih (fun c hc => hqp c (.tail _ hc)) fun c hc => hD c (.tail _ hc)
      cases hq : q b with
      | true =>
          rw [List.filter_cons_of_pos (hqp b List.mem_cons_self hq), List.filter_cons_of_pos hq]
          exact .keep b hrest
      | false =>
          rw [@List.filter_cons_of_neg _ q b l (by simp [hq])]
          cases hp : p b with
          | true =>
              rw [List.filter_cons_of_pos hp]
              exact .drop (hD b List.mem_cons_self hp hq) hrest
          | false =>
              rw [List.filter_cons, hp]
              exact hrest

end Thinned

variable {σ τ ε : Type*} {step : σ → β → Except ε (List β × σ)}
  {step' : τ → β → Except ε (List β × τ)}

/-- `R` relates the states and `D` is what the second loop need not process. -/
structure Skips (step : σ → β → Except ε (List β × σ)) (step' : τ → β → Except ε (List β × τ))
    (R : σ → τ → Prop) (D : σ → τ → β → Prop) : Prop where
  both : ∀ st st' b pushed st₁, R st st' → step st b = .ok (pushed, st₁) →
    ∃ pushed' st₁', step' st' b = .ok (pushed', st₁') ∧ R st₁ st₁'
      ∧ (∀ c, D st st' c → D st₁ st₁' c) ∧ Thinned (D st₁ st₁') pushed pushed'
  left : ∀ st st' b pushed st₁, R st st' → D st st' b → step st b = .ok (pushed, st₁) →
    R st₁ st' ∧ (∀ c, D st st' c → D st₁ st' c) ∧ ∀ c ∈ pushed, D st₁ st' c

theorem Skips.exists_process {R : σ → τ → Prop} {D : σ → τ → β → Prop}
    (h : Skips step step' R D) {fuel : ℕ} {queue queue' : List β} {st out : σ} {st' : τ}
    (hR : R st st') (hqueue : Thinned (D st st') queue queue')
    (hrun : process step fuel queue st = some (.ok out)) :
    ∃ out', process step' fuel queue' st' = some (.ok out') ∧ R out out' := by
  induction fuel generalizing queue queue' st st' with
  | zero => simp [process] at hrun
  | succ fuel ih =>
      cases hqueue with
      | nil =>
          obtain rfl : st = out := by simpa [process] using hrun
          exact ⟨st', rfl, hR⟩
      | @keep b l l' hl =>
          rw [process] at hrun
          cases hstep : step st b with
          | error e => simp [hstep] at hrun
          | ok next =>
              rw [hstep] at hrun
              obtain ⟨pushed', st₁', hstep', hR', hmono, hpushed⟩ :=
                h.both st st' b next.1 next.2 hR hstep
              obtain ⟨out', hout, hRout⟩ := ih hR' ((hl.mono hmono).append hpushed) hrun
              refine ⟨out', ?_, hRout⟩
              rw [process, hstep']
              exact hout
      | @drop b l _ hb hl =>
          rw [process] at hrun
          cases hstep : step st b with
          | error e => simp [hstep] at hrun
          | ok next =>
              rw [hstep] at hrun
              obtain ⟨hR', hmono, hpushed⟩ := h.left st st' b next.1 next.2 hR hb hstep
              have hl' := (hl.mono hmono).append (.of_forall hpushed)
              rw [List.append_nil] at hl'
              obtain ⟨out', hout, hRout⟩ := ih hR' hl' hrun
              exact ⟨out', process_mono (Nat.le_succ fuel) hout, hRout⟩

end Worklist
