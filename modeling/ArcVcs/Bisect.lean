import ArcVcs.Graph
import ArcVcs.Lib.Trace

/-!
# Bisection

`BisectEngine` of `arc-store-graph`: candidates are marked good or bad, a good mark spreads to
the ancestors and a bad one to the descendants, and the next revision to test is the midpoint
of the untested candidates in topological order.
-/

namespace ArcVcs

/-- The selected ids in topological order. `none` is the panic of `topological_sort`. -/
def ChangeGraph.topologicalSortIds (g : ChangeGraph) (selected : Finset Blake3Hash) :
    Option (List Blake3Hash) :=
  (g.topologicalSort selected).map fun order => order.filter (· ∈ selected)

inductive BisectMark where
  | good
  | bad
  | untested
deriving DecidableEq

structure BisectState where
  rangeExpr : String
  findGood : Bool
  candidates : Finset Blake3Hash
  marks : FMap Blake3Hash BisectMark
  current : Option Blake3Hash
  startedAtUnix : ℕ
deriving DecidableEq

namespace BisectState

def untestedCount (st : BisectState) : ℕ :=
  (st.marks.keys.filter fun id => st.marks.lookup id = some .untested).card

/-- The mark of an id, `Untested` when it has none. -/
def markOf (st : BisectState) (id : Blake3Hash) : BisectMark :=
  (st.marks.lookup id).getD .untested

end BisectState

namespace BisectEngine

/-- A session with every candidate untested. -/
def start (rangeExpr : String) (candidates : Finset Blake3Hash) (findGood : Bool)
    (startedAtUnix : ℕ) : BisectState :=
  ⟨rangeExpr, findGood, candidates, FMap.constOn candidates .untested, none, startedAtUnix⟩

/-- The midpoint of the untested candidates in topological order. -/
def selectNext (g : ChangeGraph) (st : BisectState) : Option Blake3Hash :=
  match g.topologicalSortIds st.candidates with
  | none => none
  | some ordered =>
      let untested := ordered.filter fun id => st.markOf id = .untested
      untested[untested.length / 2]?

def setCheckedMark (st : BisectState) (id : Blake3Hash) (next : BisectMark) :
    Except String BisectState :=
  if st.markOf id = .good ∧ next = .bad then
    .error ("contradiction: " ++ id.toHex ++ " already marked good")
  else if st.markOf id = .bad ∧ next = .good then
    .error ("contradiction: " ++ id.toHex ++ " already marked bad")
  else .ok { st with marks := st.marks.insert id next }

/-- Mark the candidates among the ids, up to the first contradiction. -/
def markAll (next : BisectMark) : List Blake3Hash → BisectState → Except String Unit × BisectState
  | [], st => (.ok (), st)
  | id :: ids, st =>
      if id ∈ st.candidates then
        match setCheckedMark st id next with
        | .error e => (.error e, st)
        | .ok st' => markAll next ids st'
      else markAll next ids st

/-- One pass of the breadth-first loop over the descendants: an id that was not visited is marked
when it is a candidate, and its children are queued. An error carries the marks made so far. -/
def spreadStep (g : ChangeGraph) :
    Finset Blake3Hash × BisectState → Blake3Hash →
      Except (String × BisectState) (List Blake3Hash × (Finset Blake3Hash × BisectState))
  | (visited, st), cur =>
      if cur ∈ visited then .ok ([], (visited, st))
      else if cur ∈ st.candidates then
        match setCheckedMark st cur .bad with
        | .error e => .error (e, st)
        | .ok st' => .ok (g.childIds cur, (insert cur visited, st'))
      else .ok (g.childIds cur, (insert cur visited, st))

/-- Every push of the loop is the start or a reverse edge. -/
def spreadFuel (g : ChangeGraph) : ℕ := ∑ id ∈ g.reverseEdges.keys, (g.children id).card + 2

/-- `mark`, with the state that it leaves. -/
def mark (g : ChangeGraph) (st : BisectState) (id : Blake3Hash) :
    BisectMark → Except String Unit × BisectState
  | .good => markAll .good (g.ancestors {id}).sorted st
  | .bad =>
      match Worklist.process (spreadStep g) (spreadFuel g) [id] (∅, st) with
      | some (.ok (_, st')) => (.ok (), st')
      | some (.error (e, st')) => (.error e, st')
      | none => (.error "out of fuel", st)
  | .untested => (.ok (), { st with marks := st.marks.insert id .untested })

/-! ## One mark -/

variable {g : ChangeGraph} {st st' : BisectState}

/-- The marks are as before, except that the candidates in the set now have the given one. -/
structure Marks (st st' : BisectState) (S : Blake3Hash → Prop) (m : BisectMark) : Prop where
  candidates : st'.candidates = st.candidates
  marked : ∀ id ∈ st.candidates, S id → st'.marks.lookup id = some m
  kept : ∀ id, ¬ (S id ∧ id ∈ st.candidates) → st'.marks.lookup id = st.marks.lookup id

def Contradicts : BisectMark → BisectMark → Prop
  | .good, .bad => True
  | .bad, .good => True
  | _, _ => False

theorem setCheckedMark_eq_ok_iff {id : Blake3Hash} {m : BisectMark} :
    setCheckedMark st id m = .ok st' ↔ ¬ Contradicts (st.markOf id) m
      ∧ st' = { st with marks := st.marks.insert id m } := by
  unfold setCheckedMark
  cases st.markOf id <;> cases m <;> simp [Contradicts, eq_comm]

theorem marks_insert {id : Blake3Hash} (hid : id ∈ st.candidates) (m : BisectMark) :
    Marks st { st with marks := st.marks.insert id m } (· = id) m where
  candidates := rfl
  marked x _ hx := by rw [FMap.lookup_insert_eq, if_pos hx]
  kept x hx := by
    rw [FMap.lookup_insert_eq, if_neg]
    rintro rfl
    exact hx ⟨rfl, hid⟩

theorem marks_self {S : Blake3Hash → Prop} (hS : ∀ id ∈ st.candidates, ¬ S id) (m : BisectMark) :
    Marks st st S m :=
  ⟨rfl, fun id hid h => absurd h (hS id hid), fun _ _ => rfl⟩

theorem Marks.trans {st'' : BisectState} {S T : Blake3Hash → Prop} {m : BisectMark}
    (h : Marks st st' S m) (h' : Marks st' st'' T m) : Marks st st'' (fun id => S id ∨ T id) m where
  candidates := h'.candidates.trans h.candidates
  marked id hid hST := by
    by_cases hT : T id
    · exact h'.marked id (h.candidates ▸ hid) hT
    · rw [h'.kept id fun hboth => hT hboth.1]
      exact h.marked id hid (hST.resolve_right hT)
  kept id hid := by
    rw [h'.kept id fun hboth => hid ⟨.inr hboth.1, h.candidates ▸ hboth.2⟩]
    exact h.kept id fun hboth => hid ⟨.inl hboth.1, hboth.2⟩

theorem Marks.congr {S T : Blake3Hash → Prop} {m : BisectMark} (h : Marks st st' S m)
    (hST : ∀ id, S id ↔ T id) : Marks st st' T m := by
  obtain rfl : S = T := funext fun id => propext (hST id)
  exact h

theorem marks_of_set {id : Blake3Hash} {m : BisectMark} (hid : id ∈ st.candidates)
    (h : setCheckedMark st id m = .ok st') : Marks st st' (· = id) m := by
  obtain ⟨-, rfl⟩ := setCheckedMark_eq_ok_iff.mp h
  exact marks_insert hid m

theorem marks_skip {id : Blake3Hash} (hid : id ∉ st.candidates) (m : BisectMark) :
    Marks st st (· = id) m := by
  refine marks_self ?_ m
  rintro x hx rfl
  exact hid hx

theorem markAll_marks {m : BisectMark} {ids : List Blake3Hash}
    (h : markAll m ids st = (.ok (), st')) : Marks st st' (· ∈ ids) m := by
  induction ids generalizing st with
  | nil =>
      obtain rfl : st = st' := by simpa [markAll] using h
      exact marks_self (by simp) m
  | cons id ids ih =>
      have hsplit : ∀ {mid : BisectState}, Marks st mid (· = id) m → Marks mid st' (· ∈ ids) m →
          Marks st st' (· ∈ id :: ids) m :=
        fun hhead htail => (hhead.trans htail).congr fun x => List.mem_cons.symm
      rw [markAll] at h
      by_cases hid : id ∈ st.candidates
      · rw [if_pos hid] at h
        cases hset : setCheckedMark st id m with
        | error e => simp [hset] at h
        | ok mid =>
            rw [hset] at h
            exact hsplit (marks_of_set hid hset) (ih h)
      · rw [if_neg hid] at h
        exact hsplit (marks_skip hid m) (ih h)

/-- The marks that contradict `m` keep away from a set. -/
def Compatible (st : BisectState) (S : Blake3Hash → Prop) (m : BisectMark) : Prop :=
  ∀ id ∈ st.candidates, S id → ¬ Contradicts (st.markOf id) m

theorem Marks.compatible {S T : Blake3Hash → Prop} {m : BisectMark} (h : Marks st st' S m)
    (hT : Compatible st T m) : Compatible st' T m := by
  intro id hid hTid
  have hid' : id ∈ st.candidates := h.candidates ▸ hid
  rw [BisectState.markOf]
  by_cases hS : S id
  · rw [h.marked id hid' hS]
    cases m <;> exact not_false
  · rw [h.kept id fun hboth => hS hboth.1]
    exact hT id hid' hTid

theorem exists_markAll {m : BisectMark} {ids : List Blake3Hash}
    (h : Compatible st (· ∈ ids) m) : ∃ st', markAll m ids st = (.ok (), st') := by
  induction ids generalizing st with
  | nil => exact ⟨st, rfl⟩
  | cons id ids ih =>
      have htail : Compatible st (· ∈ ids) m := fun x hx hmem => h x hx (.tail _ hmem)
      rw [markAll]
      by_cases hid : id ∈ st.candidates
      · have hset := setCheckedMark_eq_ok_iff.mpr ⟨h id hid List.mem_cons_self, rfl⟩
        rw [if_pos hid, hset]
        exact ih ((marks_of_set hid hset).compatible htail)
      · rw [if_neg hid]
        exact ih htail

/-! ## Spreading a bad mark -/

/-- What the loop over the descendants maintains. -/
structure Spreading (g : ChangeGraph) (id : Blake3Hash) (st : BisectState)
    (queue : List Blake3Hash) (next : Finset Blake3Hash × BisectState) : Prop where
  marks : Marks st next.2 (· ∈ next.1) .bad
  start : id ∈ next.1 ∨ id ∈ queue
  closed : ∀ x ∈ next.1, ∀ c ∈ g.children x, c ∈ next.1 ∨ c ∈ queue
  descends : ∀ x, x ∈ next.1 ∨ x ∈ queue → g.Reaches x id

variable {id : Blake3Hash}

theorem Spreading.init (g : ChangeGraph) (id : Blake3Hash) (st : BisectState) :
    Spreading g id st [id] (∅, st) where
  marks := marks_self (by simp) .bad
  start := .inr List.mem_cons_self
  closed := by simp
  descends x hx := by
    obtain rfl : x = id := by simpa using hx
    exact .refl

theorem Spreading.skip {cur : Blake3Hash} {queue : List Blake3Hash}
    {next : Finset Blake3Hash × BisectState} (h : Spreading g id st (cur :: queue) next)
    (hcur : cur ∈ next.1) : Spreading g id st queue next where
  marks := h.marks
  start := h.start.elim .inl fun hid =>
    (List.mem_cons.mp hid).elim (fun heq => .inl (heq ▸ hcur)) .inr
  closed x hx c hc := (h.closed x hx c hc).elim .inl fun hmem =>
    (List.mem_cons.mp hmem).elim (fun heq => .inl (heq ▸ hcur)) .inr
  descends x hx := h.descends x (hx.imp_right (.tail _))

theorem Spreading.visit (hg : g.Indexed) {cur : Blake3Hash} {queue : List Blake3Hash}
    {visited : Finset Blake3Hash} (h : Spreading g id st (cur :: queue) (visited, st'))
    {st'' : BisectState} (hmark : Marks st' st'' (· = cur) .bad) :
    Spreading g id st (queue ++ g.childIds cur) (insert cur visited, st'') where
  marks := (h.marks.trans hmark).congr fun x => by rw [Finset.mem_insert, or_comm]
  start := by
    rcases h.start with hid | hid
    · exact .inl (Finset.mem_insert_of_mem hid)
    · rcases List.mem_cons.mp hid with rfl | hid
      · exact .inl (Finset.mem_insert_self _ _)
      · exact .inr (List.mem_append_left _ hid)
  closed x hx c hc := by
    rcases Finset.mem_insert.mp hx with rfl | hx
    · exact .inr (List.mem_append_right _ (Finset.mem_sorted.mpr hc))
    · rcases h.closed x hx c hc with hvis | hque
      · exact .inl (Finset.mem_insert_of_mem hvis)
      · rcases List.mem_cons.mp hque with rfl | hque
        · exact .inl (Finset.mem_insert_self _ _)
        · exact .inr (List.mem_append_left _ hque)
  descends x hx := by
    have hcur : g.Reaches cur id := h.descends cur (.inr List.mem_cons_self)
    rcases hx with hx | hx
    · rcases Finset.mem_insert.mp hx with rfl | hx
      · exact hcur
      · exact h.descends x (.inl hx)
    · rcases List.mem_append.mp hx with hx | hx
      · exact h.descends x (.inr (.tail _ hx))
      · have hdep : cur ∈ g.deps x := (hg.mem_children cur x).mp (Finset.mem_sorted.mp hx)
        exact .head hdep hcur

theorem spreadStep_cases {cur : Blake3Hash} {visited : Finset Blake3Hash}
    {pushed : List Blake3Hash} {next : Finset Blake3Hash × BisectState}
    (h : spreadStep g (visited, st) cur = .ok (pushed, next)) :
    (cur ∈ visited ∧ pushed = [] ∧ next = (visited, st))
      ∨ (cur ∉ visited ∧ pushed = g.childIds cur ∧ next.1 = insert cur visited
        ∧ Marks st next.2 (· = cur) .bad) := by
  rw [spreadStep] at h
  split_ifs at h with hvis hcand
  · obtain ⟨rfl, rfl⟩ := Prod.mk.inj (Except.ok.inj h)
    exact .inl ⟨hvis, rfl, rfl⟩
  · cases hset : setCheckedMark st cur .bad with
    | error e => simp [hset] at h
    | ok st' =>
        simp only [hset] at h
        obtain ⟨rfl, rfl⟩ := Prod.mk.inj (Except.ok.inj h)
        exact .inr ⟨hvis, rfl, rfl, marks_of_set hcand hset⟩
  · obtain ⟨rfl, rfl⟩ := Prod.mk.inj (Except.ok.inj h)
    exact .inr ⟨hvis, rfl, rfl, marks_skip hcand .bad⟩

theorem Spreading.step (hg : g.Indexed) {cur : Blake3Hash} {queue pushed : List Blake3Hash}
    {s next : Finset Blake3Hash × BisectState} (h : Spreading g id st (cur :: queue) s)
    (hstep : spreadStep g s cur = .ok (pushed, next)) :
    Spreading g id st (queue ++ pushed) next := by
  obtain ⟨visited, st₁⟩ := s
  rcases spreadStep_cases hstep with ⟨hcur, rfl, rfl⟩ | ⟨-, rfl, hvisited, hmark⟩
  · rw [List.append_nil]
    exact h.skip hcur
  · obtain ⟨visited', st₂⟩ := next
    obtain rfl : visited' = insert cur visited := hvisited
    exact h.visit hg hmark

theorem Spreading.mem_iff (hg : g.Indexed) {next : Finset Blake3Hash × BisectState}
    (h : Spreading g id st [] next) (x : Blake3Hash) : x ∈ next.1 ↔ g.Reaches x id := by
  have hclosed : ∀ x ∈ next.1, ∀ c ∈ g.children x, c ∈ next.1 := by simpa using h.closed
  refine ⟨fun hx => h.descends x (.inl hx), fun hx => ?_⟩
  induction hx using Relation.ReflTransGen.head_induction_on with
  | refl => simpa using h.start
  | head hstep _ ih => exact hclosed _ ih _ ((hg.mem_children _ _).mpr hstep)

/-! ## What a successful mark does -/

/-- The ids that a mark spreads to: the ancestors for `Good`, the descendants for `Bad`. -/
def Scope (g : ChangeGraph) (id : Blake3Hash) : BisectMark → Blake3Hash → Prop
  | .good, x => g.Reaches id x
  | .bad, x => g.Reaches x id
  | .untested, x => x = id

theorem mem_ancestors_sorted {x : Blake3Hash} :
    x ∈ (g.ancestors {id}).sorted ↔ g.Reaches id x := by
  rw [Finset.mem_sorted, ChangeGraph.ancestors, ChangeGraph.mem_ancestorsInclusive]
  simp

/-- **A successful mark** changes exactly the candidates in its scope. -/
theorem mark_marks (hg : g.Indexed) {m : BisectMark} (hm : m = .good ∨ m = .bad)
    (h : mark g st id m = (.ok (), st')) : Marks st st' (Scope g id m) m := by
  rcases hm with rfl | rfl
  · exact (markAll_marks h).congr fun x => mem_ancestors_sorted
  · rw [mark] at h
    match hrun : Worklist.process (spreadStep g) (spreadFuel g) [id] (∅, st) with
    | none => simp [hrun] at h
    | some (.error (e, st₁)) => simp [hrun] at h
    | some (.ok next) =>
        have hspread : Spreading g id st [] next :=
          Worklist.process_ok (Spreading g id st) (fun _ _ _ _ _ hI => hI.step hg)
            (Spreading.init g id st) hrun
        obtain rfl : next.2 = st' := by simpa [hrun] using h
        exact hspread.marks.congr (hspread.mem_iff hg)

theorem exists_mark (hg : g.Indexed) {m : BisectMark} (hm : m = .good ∨ m = .bad)
    (h : Compatible st (Scope g id m) m) : ∃ st', mark g st id m = (.ok (), st') := by
  rcases hm with rfl | rfl
  · exact exists_markAll fun x hx hmem => h x hx (mem_ancestors_sorted.mp hmem)
  · let μ : List Blake3Hash → Finset Blake3Hash × BisectState → ℕ := fun queue next =>
      Worklist.potential g.children g.reverseEdges.keys queue next.1
    have hsupp : ∀ x, x ∉ g.reverseEdges.keys → g.children x = ∅ := fun x hx => by
      rw [ChangeGraph.children, FMap.notMem_keys_iff.mp hx, Option.getD_none]
    obtain ⟨next, hrun⟩ : ∃ next,
        Worklist.process (spreadStep g) (spreadFuel g) [id] (∅, st) = some (.ok next) := by
      refine Worklist.exists_process_ok (Spreading g id st) μ ?_ (Spreading.init g id st) ?_
      · rintro cur queue ⟨visited, st₁⟩ hI
        by_cases hvis : cur ∈ visited
        · refine ⟨[], (visited, st₁), by rw [spreadStep, if_pos hvis], ?_, ?_⟩
          · rw [List.append_nil]
            exact hI.skip hvis
          · simp [μ, Worklist.potential]
        · have hfall : μ (queue ++ g.childIds cur) (insert cur visited, st₁)
              < μ (cur :: queue) (visited, st₁) :=
            Worklist.potential_push hsupp hvis (Finset.length_sorted _).le
          by_cases hcand : cur ∈ st₁.candidates
          · have hfree : ¬ Contradicts (st₁.markOf cur) .bad :=
              hI.marks.compatible h cur hcand (hI.descends cur (.inr List.mem_cons_self))
            have hset := setCheckedMark_eq_ok_iff.mpr ⟨hfree, rfl⟩
            refine ⟨_, (insert cur visited, _), ?_, hI.visit hg (marks_of_set hcand hset), hfall⟩
            rw [spreadStep, if_neg hvis, if_pos hcand, hset]
          · refine ⟨_, (insert cur visited, st₁), ?_, hI.visit hg (marks_skip hcand .bad), hfall⟩
            rw [spreadStep, if_neg hvis, if_neg hcand]
      · simp only [μ, Worklist.potential, spreadFuel, List.length_singleton, Finset.sdiff_empty]
        omega
    exact ⟨next.2, by rw [mark, hrun]⟩

/-! ## The marks stay closed -/

/-- Within the candidates the ids with mark `m` are closed under a relation. -/
def ClosedUnder (R : Blake3Hash → Blake3Hash → Prop) (st : BisectState) (m : BisectMark) : Prop :=
  ∀ x ∈ st.candidates, st.marks.lookup x = some m →
    ∀ y ∈ st.candidates, R x y → st.marks.lookup y = some m

section Closed

variable {R : Blake3Hash → Blake3Hash → Prop} {S : Blake3Hash → Prop} {m m' : BisectMark}

theorem ClosedUnder.marks (h : ClosedUnder R st m) (hmarks : Marks st st' S m)
    (hS : ∀ x y, S x → R x y → S y) : ClosedUnder R st' m := by
  rw [ClosedUnder, hmarks.candidates]
  intro x hx hxm y hy hxy
  by_cases hSy : S y
  · exact hmarks.marked y hy hSy
  · have hSx : ¬ S x := fun hSx => hSy (hS x y hSx hxy)
    rw [hmarks.kept y fun hboth => hSy hboth.1]
    rw [hmarks.kept x fun hboth => hSx hboth.1] at hxm
    exact h x hx hxm y hy hxy

theorem ClosedUnder.marks_of_ne (h : ClosedUnder R st m) (hmarks : Marks st st' S m')
    (hne : m' ≠ m) (hS : ∀ x y, S y → R x y → S x) : ClosedUnder R st' m := by
  rw [ClosedUnder, hmarks.candidates]
  intro x hx hxm y hy hxy
  have hSx : ¬ S x := by
    intro hSx
    rw [hmarks.marked x hx hSx, Option.some_inj] at hxm
    exact hne hxm
  have hSy : ¬ S y := fun hSy => hSx (hS x y hSy hxy)
  rw [hmarks.kept y fun hboth => hSy hboth.1]
  rw [hmarks.kept x fun hboth => hSx hboth.1] at hxm
  exact h x hx hxm y hy hxy

end Closed

/-- Exactly the candidates have a mark; good marks are closed under ancestors within the
candidates and bad ones under descendants. -/
structure ClosedMarks (g : ChangeGraph) (st : BisectState) : Prop where
  keys : st.marks.keys = st.candidates
  good : ClosedUnder g.Reaches st .good
  bad : ClosedUnder (fun x d => g.Reaches d x) st .bad

theorem lookup_start (rangeExpr : String) (candidates : Finset Blake3Hash) (findGood : Bool)
    (time : ℕ) (x : Blake3Hash) : (start rangeExpr candidates findGood time).marks.lookup x
      = if x ∈ candidates then some .untested else none :=
  FMap.lookup_constOn candidates BisectMark.untested x

theorem closedMarks_start (g : ChangeGraph) (rangeExpr : String) (candidates : Finset Blake3Hash)
    (findGood : Bool) (time : ℕ) : ClosedMarks g (start rangeExpr candidates findGood time) := by
  refine ⟨?_, fun x hx hgood => ?_, fun x hx hbad => ?_⟩
  · ext x
    rw [FMap.mem_keys_iff]
    simp only [lookup_start]
    change _ ↔ x ∈ candidates
    split_ifs with hx <;> simp [hx]
  · rw [lookup_start] at hgood
    split_ifs at hgood
    cases hgood
  · rw [lookup_start] at hbad
    split_ifs at hbad
    cases hbad

theorem Marks.keys {S : Blake3Hash → Prop} {m : BisectMark} (h : Marks st st' S m)
    (hkeys : st.marks.keys = st.candidates) : st'.marks.keys = st'.candidates := by
  rw [h.candidates]
  ext x
  by_cases hx : x ∈ st.candidates
  · by_cases hS : S x
    · simp [FMap.mem_keys_iff, h.marked x hx hS, hx]
    · rw [FMap.mem_keys_iff, h.kept x fun hboth => hS hboth.1, ← FMap.mem_keys_iff, hkeys]
  · rw [FMap.mem_keys_iff, h.kept x fun hboth => hx hboth.2, ← FMap.mem_keys_iff, hkeys]

/-- **A successful mark keeps the marks closed.** -/
theorem ClosedMarks.mark (hg : g.Indexed) (h : ClosedMarks g st) {m : BisectMark}
    (hm : m = .good ∨ m = .bad) (hmark : mark g st id m = (.ok (), st')) : ClosedMarks g st' := by
  have hmarks := mark_marks hg hm hmark
  have hkeys := hmarks.keys h.keys
  rcases hm with rfl | rfl
  · exact ⟨hkeys, h.good.marks hmarks fun x y hx hxy => hx.trans hxy,
      h.bad.marks_of_ne hmarks (by decide) fun x y hy hxy => hy.trans hxy⟩
  · exact ⟨hkeys, h.good.marks_of_ne hmarks (by decide) fun x y hy hxy => hxy.trans hy,
      h.bad.marks hmarks fun x y hx hxy => hxy.trans hx⟩

/-! ## Progress -/

theorem ClosedMarks.compatible (h : ClosedMarks g st) (hid : id ∈ st.candidates)
    (huntested : st.marks.lookup id = some .untested) {m : BisectMark}
    (hm : m = .good ∨ m = .bad) : Compatible st (Scope g id m) m := by
  intro x hx hscope hcontra
  have hmarkOf : ∀ m', m' ≠ .untested → st.markOf x = m' → st.marks.lookup x = some m' := by
    intro m' hne hx
    rw [BisectState.markOf] at hx
    cases hlook : st.marks.lookup x with
    | none => exact absurd (by rw [← hx, hlook]; rfl) hne
    | some m'' => rw [← hx, hlook, Option.getD_some]
  rcases hm with rfl | rfl
  · have hbad : st.markOf x = .bad := by
      cases hxm : st.markOf x <;> simp [hxm, Contradicts] at hcontra ⊢
    have hown := h.bad x hx (hmarkOf .bad (by decide) hbad) id hid hscope
    simp [huntested] at hown
  · have hgood : st.markOf x = .good := by
      cases hxm : st.markOf x <;> simp [hxm, Contradicts] at hcontra ⊢
    have hown := h.good x hx (hmarkOf .good (by decide) hgood) id hid hscope
    simp [huntested] at hown

theorem scope_self (g : ChangeGraph) (id : Blake3Hash) (m : BisectMark) : Scope g id m id := by
  cases m with
  | good => exact .refl
  | bad => exact .refl
  | untested => exact rfl

theorem untestedCount_lt {S : Blake3Hash → Prop} {m : BisectMark} (hmarks : Marks st st' S m)
    (hm : m ≠ .untested) (hid : id ∈ st.candidates) (hS : S id)
    (huntested : st.marks.lookup id = some .untested) : st'.untestedCount < st.untestedCount := by
  have hnew : st'.marks.lookup id ≠ some .untested := by
    rw [hmarks.marked id hid hS]
    exact fun h => hm (Option.some_inj.mp h)
  refine Finset.card_lt_card ⟨fun x hx => ?_, fun hsub => ?_⟩
  · rw [Finset.mem_filter] at hx ⊢
    have hold : st.marks.lookup x = some .untested := by
      rw [← hx.2]
      refine (hmarks.kept x fun hboth => ?_).symm
      rw [hmarks.marked x hboth.2 hboth.1] at hx
      exact hm (Option.some_inj.mp hx.2)
    exact ⟨FMap.mem_keys_of_lookup hold, hold⟩
  · have hmem := hsub (Finset.mem_filter.mpr ⟨FMap.mem_keys_of_lookup huntested, huntested⟩)
    exact hnew (Finset.mem_filter.mp hmem).2

theorem untestedCount_pos_iff : 0 < st.untestedCount ↔ ∃ x, st.marks.lookup x = some .untested := by
  rw [BisectState.untestedCount, Finset.card_pos]
  constructor
  · rintro ⟨x, hx⟩
    exact ⟨x, (Finset.mem_filter.mp hx).2⟩
  · rintro ⟨x, hx⟩
    exact ⟨x, Finset.mem_filter.mpr ⟨FMap.mem_keys_of_lookup hx, hx⟩⟩

/-- **The midpoint is an untested candidate**, whenever there is one. -/
theorem selectNext_spec (hg : g.Indexed) (hac : g.Acyclic) (h : ClosedMarks g st) :
    (0 < st.untestedCount → ∃ id ∈ st.candidates, selectNext g st = some id
        ∧ st.marks.lookup id = some .untested)
      ∧ (st.untestedCount = 0 → selectNext g st = none) := by
  obtain ⟨order, hrun, horder⟩ := hg.topologicalSort_spec hac st.candidates
  have hmem : ∀ x, x ∈ (order.filter (· ∈ st.candidates)).filter
    (fun id => st.markOf id = .untested)
      ↔ x ∈ st.candidates ∧ st.marks.lookup x = some .untested := by
    intro x
    have horder' : x ∈ st.candidates → x ∈ order := fun hx =>
      (horder.mem_iff x).mpr (g.subset_ancestorsInclusive _ hx)
    have hmark : x ∈ st.candidates → (st.markOf x = .untested
        ↔ st.marks.lookup x = some .untested) := by
      intro hx
      obtain ⟨m, hm⟩ := FMap.mem_keys_iff.mp (h.keys ▸ hx)
      simp [BisectState.markOf, hm]
    simp only [List.mem_filter, decide_eq_true_eq]
    constructor
    · rintro ⟨⟨-, hx⟩, hm⟩
      exact ⟨hx, (hmark hx).mp hm⟩
    · rintro ⟨hx, hm⟩
      exact ⟨⟨horder' hx, hx⟩, (hmark hx).mpr hm⟩
  have hselect : selectNext g st = ((order.filter (· ∈ st.candidates)).filter
      (fun id => st.markOf id = .untested))[((order.filter (· ∈ st.candidates)).filter
        (fun id => st.markOf id = .untested)).length / 2]? := by
    simp only [selectNext, ChangeGraph.topologicalSortIds, hrun, Option.map_some]
  rw [hselect]
  generalize (order.filter (· ∈ st.candidates)).filter (fun id => st.markOf id = .untested)
    = untested
    at hmem
  constructor
  · intro hpos
    obtain ⟨x, hx⟩ := untestedCount_pos_iff.mp hpos
    have hcand : x ∈ st.candidates := h.keys ▸ FMap.mem_keys_of_lookup hx
    have hlen : 0 < untested.length := List.length_pos_of_mem ((hmem x).mpr ⟨hcand, hx⟩)
    have hlt : untested.length / 2 < untested.length := Nat.div_lt_self hlen (by decide)
    obtain ⟨hid, huntested⟩ := (hmem _).mp (List.getElem_mem hlt)
    exact ⟨_, hid, List.getElem?_eq_getElem hlt, huntested⟩
  · intro hzero
    have hnil : untested = [] := by
      refine List.eq_nil_iff_forall_not_mem.mpr fun x hx => ?_
      have hpos := untestedCount_pos_iff.mpr ⟨x, ((hmem x).mp hx).2⟩
      omega
    rw [hnil]
    rfl

/-! ## Sessions -/

def MarkStep (g : ChangeGraph) (st : BisectState) (event : Blake3Hash × BisectMark)
    (st' : BisectState) : Prop :=
  (event.2 = .good ∨ event.2 = .bad) ∧ mark g st event.1 event.2 = (.ok (), st')

/-- The revision that is marked is the recommended one. -/
def SessionStep (g : ChangeGraph) (st : BisectState) (event : Blake3Hash × BisectMark)
    (st' : BisectState) : Prop :=
  selectNext g st = some event.1 ∧ MarkStep g st event st'

theorem ClosedMarks.of_trace (hg : g.Indexed) {st₀ : BisectState} (h₀ : ClosedMarks g st₀)
    {events : List (Blake3Hash × BisectMark)} (h : Trace (MarkStep g) st₀ events st) :
    ClosedMarks g st ∧ st.candidates = st₀.candidates := by
  induction h with
  | nil => exact ⟨h₀, rfl⟩
  | snoc _ hstep ih =>
      exact ⟨ih.1.mark hg hstep.1 hstep.2,
        (mark_marks hg hstep.1 hstep.2).candidates.trans ih.2⟩

theorem SessionStep.untestedCount_lt (hg : g.Indexed) (hac : g.Acyclic) (h : ClosedMarks g st)
    {event : Blake3Hash × BisectMark} (hstep : SessionStep g st event st') :
    st'.untestedCount < st.untestedCount := by
  obtain ⟨hselect, hm, hmark⟩ := hstep
  obtain ⟨hpos, hnone⟩ := selectNext_spec hg hac h
  have huntested : 0 < st.untestedCount := by
    by_contra hzero
    rw [hnone (by omega)] at hselect
    cases hselect
  obtain ⟨id, hid, hselect', hlook⟩ := hpos huntested
  obtain rfl : event.1 = id := Option.some_inj.mp (hselect.symm.trans hselect')
  refine BisectEngine.untestedCount_lt (mark_marks hg hm hmark) ?_ hid (scope_self g _ _) hlook
  rcases hm with hm | hm <;> simp [hm]

theorem untestedCount_start_le (rangeExpr : String) (candidates : Finset Blake3Hash)
    (findGood : Bool) (time : ℕ) :
    (start rangeExpr candidates findGood time).untestedCount ≤ candidates.card := by
  refine Finset.card_le_card fun x hx => ?_
  have hlook := (Finset.mem_filter.mp hx).2
  rw [lookup_start] at hlook
  by_contra hnot
  simp [hnot] at hlook

/-- **Bisection is sound and ends.** After every run of successful good and bad marks the good
marks are closed under ancestors and the bad ones under descendants within the candidates, and no
candidate has both. While an untested candidate remains, `select_next` returns one, either mark of
it succeeds, and fewer are untested afterwards. So a session marks each candidate at most once. -/
theorem bisect_marks_closed_and_ends (hg : g.Indexed) (hac : g.Acyclic) (rangeExpr : String)
    (candidates : Finset Blake3Hash) (findGood : Bool) (time : ℕ) :
    (∀ events st, Trace (MarkStep g) (start rangeExpr candidates findGood time) events st →
        st.candidates = candidates ∧ ClosedMarks g st
        ∧ (∀ x, ¬ (st.marks.lookup x = some .good ∧ st.marks.lookup x = some .bad))
        ∧ (0 < st.untestedCount → ∃ id ∈ st.candidates, selectNext g st = some id
          ∧ st.marks.lookup id = some .untested
          ∧ ∀ m, m = .good ∨ m = .bad → ∃ st', SessionStep g st (id, m) st'
            ∧ st'.untestedCount < st.untestedCount)
        ∧ (st.untestedCount = 0 → selectNext g st = none)
        ∧ ∀ event st', SessionStep g st event st' → st'.untestedCount < st.untestedCount)
      ∧ ∀ events st, Trace (SessionStep g) (start rangeExpr candidates findGood time) events st →
        events.length + st.untestedCount ≤ candidates.card := by
  have hstart := closedMarks_start g rangeExpr candidates findGood time
  constructor
  · intro events st htrace
    obtain ⟨hclosed, hcand⟩ := hstart.of_trace hg htrace
    obtain ⟨hpos, hnone⟩ := selectNext_spec hg hac hclosed
    refine ⟨hcand, hclosed, fun x hx => ?_, fun huntested => ?_, hnone, fun event st' hstep =>
      hstep.untestedCount_lt hg hac hclosed⟩
    · rw [hx.1] at hx
      cases hx.2
    · obtain ⟨id, hid, hselect, hlook⟩ := hpos huntested
      refine ⟨id, hid, hselect, hlook, fun m hm => ?_⟩
      obtain ⟨st', hmark⟩ := exists_mark hg hm (hclosed.compatible hid hlook hm)
      have hstep : SessionStep g st (id, m) st' := ⟨hselect, hm, hmark⟩
      exact ⟨st', hstep, hstep.untestedCount_lt hg hac hclosed⟩
  · intro events st htrace
    induction htrace with
    | nil => simpa using untestedCount_start_le rangeExpr candidates findGood time
    | @snoc st st' events event htrace hstep ih =>
        have hclosed := (hstart.of_trace hg (htrace.mono fun _ _ _ h => h.2)).1
        have hlt := hstep.untestedCount_lt hg hac hclosed
        rw [List.length_append, List.length_singleton]
        omega

/-- Of two changes, one on the other, the later one is tested first: when it is good, so is the
other and the session is over. -/
theorem bisect_two_changes :
    let a := Change.sample ∅ "a.rs" "b"
    let b := Change.sample {a.id} "b.rs" "c"
    let g := ChangeGraph.ofChanges [a, b]
    ∃ st, Trace (SessionStep g) (start "all()" {a.id, b.id} false 0) [(b.id, .good)] st
      ∧ ClosedMarks g st ∧ selectNext g st = none ∧ 1 + st.untestedCount ≤ 2 := by
  intro a b g
  have hg : g.Indexed := ChangeGraph.indexed_ofChanges (by decide)
  have hac : g.Acyclic := ChangeGraph.acyclic_of_lt (by decide)
  obtain ⟨st, hstep, hzero⟩ : ∃ st,
      SessionStep g (start "all()" {a.id, b.id} false 0) (b.id, .good) st
        ∧ st.untestedCount = 0 := by
    have hselect : selectNext g (start "all()" {a.id, b.id} false 0) = some b.id := by
      decide
    have hmark : (mark g (start "all()" {a.id, b.id} false 0) b.id .good).1 = .ok () := by
      decide
    have hzero : (mark g (start "all()" {a.id, b.id} false 0) b.id .good).2.untestedCount = 0 := by
      decide
    generalize hst : mark g (start "all()" {a.id, b.id} false 0) b.id .good = p at hmark hzero
    obtain ⟨r, st⟩ := p
    obtain rfl : r = .ok () := hmark
    exact ⟨st, ⟨hselect, .inl rfl, hst⟩, hzero⟩
  have htrace : Trace (SessionStep g) (start "all()" {a.id, b.id} false 0) [(b.id, .good)] st :=
    .snoc (.nil _) hstep
  obtain ⟨hruns, hsessions⟩ :=
    @bisect_marks_closed_and_ends g hg hac "all()" {a.id, b.id} false 0
  obtain ⟨-, hclosed, -, -, hnone, -⟩ := hruns _ st (htrace.mono fun _ _ _ h => h.2)
  have hcard : ({a.id, b.id} : Finset Blake3Hash).card = 2 := by decide
  have hbound := hsessions _ st htrace
  rw [hcard] at hbound
  exact ⟨st, htrace, hclosed, hnone hzero, hbound⟩

end BisectEngine

end ArcVcs
