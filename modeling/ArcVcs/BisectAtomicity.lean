import ArcVcs.Bisect
import Mathlib.Data.List.TakeWhile

/-!
# Contradictory marks

`mark` sets the marks of a session one by one and stops at the first candidate that contradicts
it. The ones it has set by then stay. A `Good` mark takes the ancestors out of a hash set, in any
order, and a `Bad` mark visits the descendants breadth first.
-/

namespace ArcVcs

namespace BisectEngine

variable {g : ChangeGraph} {st st' : BisectState} {id : Blake3Hash} {m : BisectMark}
  {ids : List Blake3Hash}

/-! ## Statement -/

/-- What `mark` may return and leave, for any order of the hash set of ancestors. -/
def MayMark (g : ChangeGraph) (st : BisectState) (id : Blake3Hash) (m : BisectMark)
    (out : Except String Unit × BisectState) : Prop :=
  match m with
  | .good => ∃ order, order.Perm (g.ancestors {id}).sorted ∧ out = markAll .good order st
  | .bad => out = mark g st id .bad
  | .untested => out = mark g st id .untested

/-- Every candidate has the recorded mark that it had. -/
def SameMarks (st st' : BisectState) : Prop :=
  ∀ x ∈ st.candidates, st'.marks.lookup x = st.marks.lookup x

/-- The order in which the breadth-first loop visits. -/
def visitOrder (g : ChangeGraph) : ℕ → List Blake3Hash → Finset Blake3Hash → List Blake3Hash
  | 0, _, _ => []
  | _ + 1, [], _ => []
  | fuel + 1, cur :: queue, visited =>
      if cur ∈ visited then visitOrder g fuel queue visited
      else cur :: visitOrder g fuel (queue ++ g.childIds cur) (insert cur visited)

/-- The id and its descendants, breadth first. -/
def descendantOrder (g : ChangeGraph) (id : Blake3Hash) : List Blake3Hash :=
  visitOrder g (spreadFuel g) [id] ∅

def isContradicted (st : BisectState) (m : BisectMark) (x : Blake3Hash) : Bool :=
  x ∈ st.candidates ∧ ((st.markOf x = .good ∧ m = .bad) ∨ (st.markOf x = .bad ∧ m = .good))

/-- The candidates among the ids have the mark already. -/
def Settled (st : BisectState) (m : BisectMark) (ids : List Blake3Hash) : Prop :=
  ∀ x ∈ ids, x ∈ st.candidates → st.marks.lookup x = some m

/-- A mark that is contradicted finds its own mark wherever it comes before the contradiction. -/
def Harmless (g : ChangeGraph) (st : BisectState) (id : Blake3Hash) : BisectMark → Prop
  | .good => (∃ x ∈ (g.ancestors {id}).sorted, isContradicted st .good x) →
      Settled st .good ((g.ancestors {id}).sorted.filter fun x => !isContradicted st .good x)
  | .bad => (∃ x ∈ descendantOrder g id, isContradicted st .bad x) →
      Settled st .bad ((descendantOrder g id).takeWhile fun x => !isContradicted st .bad x)
  | .untested => True

/-- A call of `mark` in a session, whether it fails or not. -/
def MayStep (g : ChangeGraph) (st : BisectState) (event : Blake3Hash × BisectMark)
    (st' : BisectState) : Prop :=
  ∃ result, MayMark g st event.1 event.2 (result, st')

theorem mayMark_mark (g : ChangeGraph) (st : BisectState) (id : Blake3Hash) (m : BisectMark) :
    MayMark g st id m (mark g st id m) := by
  cases m with
  | good => exact ⟨_, List.Perm.refl _, rfl⟩
  | bad => exact rfl
  | untested => exact rfl

theorem mayStep_mark (g : ChangeGraph) (st : BisectState) (id : Blake3Hash) (m : BisectMark) :
    MayStep g st (id, m) (mark g st id m).2 :=
  ⟨(mark g st id m).1, mayMark_mark g st id m⟩

/-! ## Marking a list -/

theorem isContradicted_iff {x : Blake3Hash} :
    isContradicted st m x = true ↔ x ∈ st.candidates ∧ Contradicts (st.markOf x) m := by
  unfold isContradicted
  cases st.markOf x <;> cases m <;> simp [Contradicts]

theorem setCheckedMark_of_contradicted (h : isContradicted st m id = true) :
    ∃ e, setCheckedMark st id m = .error e := by
  cases hset : setCheckedMark st id m with
  | error e => exact ⟨e, rfl⟩
  | ok st' => exact absurd (isContradicted_iff.mp h).2 (setCheckedMark_eq_ok_iff.mp hset).1

theorem isContradicted_insert (hid : id ∈ st.candidates) (hfree : ¬ Contradicts (st.markOf id) m)
    (x : Blake3Hash) : isContradicted { st with marks := st.marks.insert id m } m x
      = isContradicted st m x := by
  rw [Bool.eq_iff_iff, isContradicted_iff, isContradicted_iff, BisectState.markOf,
    FMap.lookup_insert_eq]
  by_cases hx : x = id
  · subst hx
    rw [if_pos rfl]
    refine and_congr_right fun _ => iff_of_false ?_ hfree
    cases m <;> exact not_false
  · rw [if_neg hx]
    rfl

theorem markAll_eq (m : BisectMark) (ids : List Blake3Hash) (st : BisectState) :
    (markAll m ids st).2
        = (markAll m (ids.takeWhile fun x => !isContradicted st m x) st).2
      ∧ (markAll m (ids.takeWhile fun x => !isContradicted st m x) st).1 = .ok ()
      ∧ ((∃ e, (markAll m ids st).1 = .error e) ↔ ∃ x ∈ ids, isContradicted st m x = true) := by
  induction ids generalizing st with
  | nil => simp [markAll]
  | cons x ids ih =>
      rw [List.takeWhile_cons]
      cases hx : isContradicted st m x with
      | true =>
          obtain ⟨e, he⟩ := setCheckedMark_of_contradicted hx
          have hcand := (isContradicted_iff.mp hx).1
          have hrun : markAll m (x :: ids) st = (.error e, st) := by
            rw [markAll, if_pos hcand, he]
          rw [hrun]
          exact ⟨rfl, rfl, iff_of_true ⟨e, rfl⟩ ⟨x, List.mem_cons_self, hx⟩⟩
      | false =>
          have hmem : (∃ y ∈ x :: ids, isContradicted st m y = true)
              ↔ ∃ y ∈ ids, isContradicted st m y = true := by
            simp [hx]
          rw [hmem]
          by_cases hcand : x ∈ st.candidates
          · have hfree : ¬ Contradicts (st.markOf x) m := fun hcontra => by
              rw [isContradicted_iff.mpr ⟨hcand, hcontra⟩] at hx
              cases hx
            have hset := setCheckedMark_eq_ok_iff.mpr ⟨hfree, rfl⟩
            have hrun : ∀ l, markAll m (x :: l) st
                = markAll m l { st with marks := st.marks.insert x m } := by
              intro l
              rw [markAll, if_pos hcand, hset]
            have hnext := ih { st with marks := st.marks.insert x m }
            simp only [isContradicted_insert hcand hfree] at hnext
            simpa only [Bool.not_false, if_true, hrun] using hnext
          · have hrun : ∀ l, markAll m (x :: l) st = markAll m l st := by
              intro l
              rw [markAll, if_neg hcand]
            simpa only [Bool.not_false, if_true, hrun] using ih st

theorem markAll_of_settled (hm : m ≠ .untested) (h : Settled st m ids) :
    markAll m ids st = (.ok (), st) := by
  induction ids with
  | nil => rfl
  | cons x ids ih =>
      rw [markAll]
      by_cases hcand : x ∈ st.candidates
      · have hlook := h x List.mem_cons_self hcand
        have hfree : ¬ Contradicts (st.markOf x) m := by
          rw [BisectState.markOf, hlook]
          cases m <;> exact not_false
        have hset := setCheckedMark_eq_ok_iff.mpr ⟨hfree, rfl⟩
        have hsame : st.marks.insert x m = st.marks := Finmap.ext_lookup fun y => by
          rw [FMap.lookup_insert_eq]
          split_ifs with hy
          · rw [hy, hlook]
          · rfl
        rw [if_pos hcand, hset]
        dsimp only
        rw [hsame]
        exact ih fun y hy => h y (.tail _ hy)
      · rw [if_neg hcand]
        exact ih fun y hy => h y (.tail _ hy)

theorem eq_of_markAll_error (hm : m ≠ .untested) {e : String}
    (hrun : markAll m ids st = (.error e, st'))
    (h : (∃ x ∈ ids, isContradicted st m x = true) →
      Settled st m (ids.takeWhile fun x => !isContradicted st m x)) : st' = st := by
  obtain ⟨hstate, -, herror⟩ := markAll_eq m ids st
  have hfirst := h (herror.mp ⟨e, by rw [hrun]⟩)
  rwa [hrun, markAll_of_settled hm hfirst] at hstate

/-- A list of marks that fails leaves the marks exactly if those before the contradiction are
there already. -/
theorem forall_sameMarks_iff (hm : m ≠ .untested) :
    (∀ e st', markAll m ids st = (.error e, st') → SameMarks st st') ↔
      ((∃ x ∈ ids, isContradicted st m x = true) →
        Settled st m (ids.takeWhile fun x => !isContradicted st m x)) := by
  obtain ⟨hstate, hok, herror⟩ := markAll_eq m ids st
  constructor
  · intro h hcontra x hx hcand
    obtain ⟨e, he⟩ := herror.mpr hcontra
    have hsame := h e (markAll m ids st).2 (Prod.ext he rfl)
    have hmarks : Marks st (markAll m ids st).2 (· ∈ _) m :=
      markAll_marks (Prod.ext hok hstate.symm)
    rw [← hsame x hcand]
    exact hmarks.marked x hcand hx
  · intro h e st' hrun x _
    rw [eq_of_markAll_error hm hrun h]

/-! ## The breadth-first loop -/

/-- What the loop returns, as `mark` does. -/
def leaves : Except (String × BisectState) (Finset Blake3Hash × BisectState) →
    Except String Unit × BisectState
  | .ok (_, st) => (.ok (), st)
  | .error (e, st) => (.error e, st)

theorem leaves_process (fuel : ℕ) (queue : List Blake3Hash) (visited : Finset Blake3Hash)
    (st : BisectState) {out : Except (String × BisectState) (Finset Blake3Hash × BisectState)}
    (hrun : Worklist.process (spreadStep g) fuel queue (visited, st) = some out) :
    leaves out = markAll .bad (visitOrder g fuel queue visited) st := by
  induction fuel generalizing queue visited st with
  | zero => simp [Worklist.process] at hrun
  | succ fuel ih =>
      cases queue with
      | nil =>
          obtain rfl : .ok (visited, st) = out := by simpa [Worklist.process] using hrun
          rfl
      | cons cur queue =>
          rw [Worklist.process, spreadStep] at hrun
          rw [visitOrder]
          split_ifs at hrun ⊢ with hvisited hcand
          · simpa using ih _ _ _ hrun
          · rw [markAll, if_pos hcand]
            cases hset : setCheckedMark st cur .bad with
            | error e =>
                rw [hset] at hrun
                obtain rfl := Option.some.inj hrun
                rfl
            | ok st' =>
                rw [hset] at hrun
                exact ih _ _ _ hrun
          · rw [markAll, if_neg hcand]
            exact ih _ _ _ hrun

theorem mark_bad_eq (g : ChangeGraph) (st : BisectState) (id : Blake3Hash) :
    mark g st id .bad = markAll .bad (descendantOrder g id) st := by
  let μ : List Blake3Hash → Finset Blake3Hash × BisectState → ℕ := fun queue next =>
    Worklist.potential g.children g.reverseEdges.keys queue next.1
  have hsupp : ∀ x, x ∉ g.reverseEdges.keys → g.children x = ∅ := fun x hx => by
    rw [ChangeGraph.children, FMap.notMem_keys_iff.mp hx, Option.getD_none]
  obtain ⟨out, hrun⟩ : ∃ out,
      Worklist.process (spreadStep g) (spreadFuel g) [id] (∅, st) = some out := by
    refine Worklist.process_isSome μ ?_ ?_
    · rintro cur queue ⟨visited, st₁⟩ pushed next hstep
      rcases spreadStep_cases hstep with ⟨-, rfl, rfl⟩ | ⟨hcur, rfl, hnext, -⟩
      · simp [μ, Worklist.potential]
      · change Worklist.potential _ _ _ next.1 < _
        rw [hnext]
        exact Worklist.potential_push hsupp hcur (Finset.length_sorted _).le
    · simp only [μ, Worklist.potential, spreadFuel, List.length_singleton, Finset.sdiff_empty]
      omega
  rw [descendantOrder, ← leaves_process _ _ _ _ hrun, mark, hrun]
  rcases out with ⟨e, st'⟩ | ⟨visited, st'⟩ <;> rfl

/-! ## Failing marks -/

theorem Harmless.settled (h : Harmless g st id .good) {order : List Blake3Hash}
    (hperm : order.Perm (g.ancestors {id}).sorted)
    (hcontra : ∃ x ∈ order, isContradicted st .good x = true) :
    Settled st .good (order.takeWhile fun x => !isContradicted st .good x) := by
  intro x hx hcand
  obtain ⟨c, hc, hcontra⟩ := hcontra
  refine h ⟨c, hperm.mem_iff.mp hc, hcontra⟩ x (List.mem_filter.mpr ⟨?_, ?_⟩) hcand
  · exact hperm.mem_iff.mp ((List.takeWhile_sublist _).mem hx)
  · have hfree := List.mem_takeWhile_imp hx
    exact hfree

theorem mayMark_bad_iff {out : Except String Unit × BisectState} :
    MayMark g st id .bad out ↔ markAll .bad (descendantOrder g id) st = out := by
  rw [MayMark, mark_bad_eq, eq_comm]

theorem Harmless.eq_of_error (h : Harmless g st id m) {e : String}
    (hmay : MayMark g st id m (.error e, st')) : st' = st := by
  cases m with
  | good =>
      obtain ⟨order, hperm, hrun⟩ := hmay
      exact eq_of_markAll_error (by decide) hrun.symm (h.settled hperm)
  | bad => exact eq_of_markAll_error (by decide) (mayMark_bad_iff.mp hmay) h
  | untested => cases hmay

/-- A mark that fails changes nothing, for any order of the ancestors, exactly if it is
harmless. -/
theorem forall_mayMark_sameMarks_iff (g : ChangeGraph) (st : BisectState) (id : Blake3Hash)
    (m : BisectMark) :
    (∀ e st', MayMark g st id m (.error e, st') → SameMarks st st') ↔ Harmless g st id m := by
  constructor
  · intro h
    cases m with
    | good =>
        rintro ⟨c, hc, hcontra⟩ x hx hcand
        obtain ⟨hx, hfree⟩ := List.mem_filter.mp hx
        -- An order that comes to `x` first.
        have hperm := (List.perm_cons_erase hx).symm
        have horder := (forall_sameMarks_iff (by decide)).mp fun e st' hrun =>
          h e st' ⟨_, hperm, hrun.symm⟩
        refine horder ⟨c, hperm.mem_iff.mpr hc, hcontra⟩ x ?_ hcand
        rw [List.takeWhile_cons, if_pos hfree]
        exact List.mem_cons_self
    | bad =>
        exact (forall_sameMarks_iff (by decide)).mp fun e st' hrun =>
          h e st' (mayMark_bad_iff.mpr hrun)
    | untested => exact trivial
  · intro h e st' hmay x _
    rw [h.eq_of_error hmay]

/-! ## Main result -/

/-- **A mark that fails changes nothing** if and only if it is harmless, and a session whose marks
are all harmless is where its successful marks alone lead. -/
theorem failed_mark_unchanged_iff (g : ChangeGraph) (rangeExpr : String)
    (candidates : Finset Blake3Hash) (findGood : Bool) (time : ℕ) :
    (∀ st id m, (∀ e st', MayMark g st id m (.error e, st') → SameMarks st st') ↔
        Harmless g st id m)
      ∧ ∀ events st, Trace (fun s event s' => MayStep g s event s' ∧ Harmless g s event.1 event.2)
          (start rangeExpr candidates findGood time) events st →
        ∃ successes, successes.Sublist events
          ∧ Trace (fun s event s' => MayMark g s event.1 event.2 (.ok (), s'))
            (start rangeExpr candidates findGood time) successes st := by
  refine ⟨forall_mayMark_sameMarks_iff g, fun events st htrace => ?_⟩
  induction htrace with
  | nil => exact ⟨[], List.Sublist.refl _, .nil _⟩
  | snoc _ hstep ih =>
      obtain ⟨successes, hsub, hsuccess⟩ := ih
      obtain ⟨⟨result, hmay⟩, hharmless⟩ := hstep
      cases result with
      | error e =>
          rw [hharmless.eq_of_error hmay]
          exact ⟨successes, hsub.trans (List.sublist_append_left _ _), hsuccess⟩
      | ok _ => exact ⟨_, hsub.append_right _, hsuccess.snoc hmay⟩

/-- Two changes, one on the other, are good, the first is reset, and a bad mark of it stays although
the second contradicts it. -/
theorem contradicted_mark_stays :
    let a := Change.sample ∅ "a.rs" "b"
    let b := Change.sample {a.id} "b.rs" "c"
    let g := ChangeGraph.ofChanges [a, b]
    ∃ st, Trace (MayStep g) (start "all()" {a.id, b.id} false 0)
        [(b.id, .good), (a.id, .untested)] st
      ∧ ∃ e st', MayMark g st a.id .bad (.error e, st') ∧ a.id ∈ st.candidates
        ∧ st.marks.lookup a.id = some .untested ∧ st'.marks.lookup a.id = some .bad := by
  intro a b g
  let st₁ := (mark g (start "all()" {a.id, b.id} false 0) b.id .good).2
  let st₂ := (mark g st₁ a.id .untested).2
  have htrace : Trace (MayStep g) (start "all()" {a.id, b.id} false 0)
      ([] ++ [(b.id, .good)] ++ [(a.id, .untested)]) st₂ :=
    ((Trace.nil _).snoc (mayStep_mark g _ b.id .good)).snoc (mayStep_mark g st₁ a.id .untested)
  have hfails : (mark g st₂ a.id .bad).1 ≠ .ok () := by decide
  obtain ⟨e, he⟩ : ∃ e, (mark g st₂ a.id .bad).1 = .error e := by
    cases hresult : (mark g st₂ a.id .bad).1 with
    | error e => exact ⟨e, rfl⟩
    | ok _ => exact absurd hresult hfails
  refine ⟨st₂, htrace, e, (mark g st₂ a.id .bad).2, ?_, by decide, by decide, by decide⟩
  have hmay := mayMark_mark g st₂ a.id .bad
  rwa [← Prod.mk.eta (p := mark g st₂ a.id .bad), he] at hmay

end BisectEngine

end ArcVcs
