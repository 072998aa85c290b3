import ArcVcs.Lib.Collections
import Mathlib.Data.List.Lex
import Mathlib.Data.List.Nodup
import Mathlib.Data.Prod.Lex

/-!
# The order of a breadth-first search

A breadth-first search from one vertex, over vertices with lists of successors. It comes to the
vertices in the order of their first paths: a path is the list of the positions of its steps, paths
are ordered by their lengths and, at one length, as lists.
-/

namespace BreadthFirst

variable {V : Type*} {next : V → List V} {start v w : V} {path path' : List ℕ} {i j : ℕ}

/-- A path from the start, as the positions of its vertices among the successors. -/
inductive Leads (next : V → List V) (start : V) : List ℕ → V → Prop
  | nil : Leads next start [] start
  | snoc {path : List ℕ} {v w : V} {i : ℕ} (leads : Leads next start path v)
      (step : (next v)[i]? = some w) : Leads next start (path ++ [i]) w

theorem Leads.trans (h : Leads next start path v) (h' : Leads next v path' w) :
    Leads next start (path ++ path') w := by
  induction h' with
  | nil => rwa [List.append_nil]
  | snoc _ hstep ih =>
      rw [← List.append_assoc]
      exact ih.snoc hstep

theorem Leads.eq_start (h : Leads next start path v) (hnone : next start = []) : v = start := by
  induction h with
  | nil => rfl
  | snoc _ hstep ih =>
      rw [ih, hnone] at hstep
      cases hstep

def rank (path : List ℕ) : ℕ ×ₗ List ℕ := toLex (path.length, path)

theorem rank_lt_iff :
    rank path < rank path' ↔ path.length < path'.length
      ∨ path.length = path'.length ∧ path < path' := Prod.Lex.toLex_lt_toLex

theorem length_le_of_rank_le (h : rank path ≤ rank path') : path.length ≤ path'.length := by
  by_contra hlt
  exact absurd h (rank_lt_iff.mpr (Or.inl (Nat.lt_of_not_le hlt))).not_ge

theorem rank_lt_append (i : ℕ) : rank path < rank (path ++ [i]) :=
  rank_lt_iff.mpr (Or.inl (by simp))

theorem append_lt_append {path path' suffix suffix' : List ℕ}
    (hlen : path.length = path'.length) (h : path < path') :
    path ++ suffix < path' ++ suffix' := by
  induction path generalizing path' with
  | nil =>
      rw [List.length_eq_zero_iff.mp hlen.symm] at h
      exact absurd h (lt_irrefl _)
  | cons i path ih =>
      cases path' with
      | nil => cases hlen
      | cons j path' =>
          rw [List.cons_append, List.cons_append, List.cons_lt_cons_iff]
          rcases List.cons_lt_cons_iff.mp h with hij | ⟨rfl, hlt⟩
          · exact Or.inl hij
          · exact Or.inr ⟨rfl, ih (Nat.succ_injective hlen) hlt⟩

theorem rank_append_lt (h : rank path < rank path') :
    rank (path ++ [i]) < rank (path' ++ [j]) := by
  rw [rank_lt_iff, List.length_append, List.length_append]
  rcases rank_lt_iff.mp h with hlen | ⟨hlen, hlt⟩
  · exact Or.inl (Nat.add_lt_add_right hlen 1)
  · exact Or.inr ⟨by rw [hlen]; rfl, append_lt_append hlen hlt⟩

theorem rank_append_lt_of_lt (hij : i < j) : rank (path ++ [i]) < rank (path ++ [j]) := by
  refine rank_lt_iff.mpr (Or.inr ⟨by simp, ?_⟩)
  exact List.append_left_lt (List.cons_lt_cons_iff.mpr (Or.inl hij))

theorem rank_append_le (h : rank path ≤ rank path') :
    rank (path ++ [i]) ≤ rank (path' ++ [i]) := by
  rcases h.lt_or_eq with hlt | heq
  · exact (rank_append_lt hlt).le
  · have hpath : path = path' := congrArg (fun r => (ofLex r).2) heq
    rw [hpath]

/-! ## The queue -/

/-- The successors of a vertex with their paths. -/
def steps (next : V → List V) (v : V) (path : List ℕ) : List (V × List ℕ) :=
  (next v).mapIdx fun i w => (w, path ++ [i])

theorem mem_steps_iff {e : V × List ℕ} :
    e ∈ steps next v path ↔ ∃ i w, (next v)[i]? = some w ∧ (w, path ++ [i]) = e := by
  rw [steps, List.mem_mapIdx]
  constructor
  · rintro ⟨i, hi, rfl⟩
    exact ⟨i, _, List.getElem?_eq_getElem hi, rfl⟩
  · rintro ⟨i, w, hget, rfl⟩
    obtain ⟨hi, rfl⟩ := List.getElem?_eq_some_iff.mp hget
    exact ⟨i, hi, rfl⟩

theorem map_fst_steps : (steps next v path).map Prod.fst = next v :=
  List.ext_getElem (by simp [steps]) fun i _ _ => by simp [steps]

theorem pairwise_steps :
    (steps next v path).Pairwise fun e e' => rank e.2 < rank e'.2 := by
  rw [List.pairwise_iff_getElem]
  intro i j hi hj hij
  simp only [steps, List.getElem_mapIdx]
  exact rank_append_lt_of_lt hij

/-- The visited and the queued vertices with the paths on which the search came to them. -/
structure Search (next : V → List V) (start : V) (done todo : List (V × List ℕ)) : Prop where
  leads : ∀ e ∈ done ++ todo, Leads next start e.2 e.1
  sorted : (done ++ todo).Pairwise fun e e' => rank e.2 < rank e'.2
  /-- No queued path is longer than another one with a step. -/
  near : ∀ e ∈ todo, ∀ e' ∈ todo, rank e.2 < rank (e'.2 ++ [0])
  nodup : (done.map Prod.fst).Nodup
  started : ∃ e ∈ done ++ todo, e.1 = start ∧ rank e.2 ≤ rank []
  closed : ∀ e ∈ done, ∀ i w, (next e.1)[i]? = some w →
    ∃ e' ∈ done ++ todo, e'.1 = w ∧ rank e'.2 ≤ rank (e.2 ++ [i])

namespace Search

variable {done todo : List (V × List ℕ)} {e : V × List ℕ}

theorem init : Search next start [] [(start, [])] where
  leads e he := by
    rw [List.mem_singleton.mp he]
    exact .nil
  sorted := List.pairwise_singleton _ _
  near e he e' he' := by
    rw [List.mem_singleton.mp he, List.mem_singleton.mp he']
    exact rank_lt_append 0
  nodup := List.nodup_nil
  started := ⟨(start, []), List.mem_cons_self, rfl, le_rfl⟩
  closed e he := absurd he List.not_mem_nil

theorem skip (h : Search next start done (e :: todo)) (hvisited : e.1 ∈ done.map Prod.fst) :
    Search next start done todo := by
  obtain ⟨first, hfirst, hsame⟩ := List.mem_map.mp hvisited
  have hlt : rank first.2 < rank e.2 :=
    (List.pairwise_append.mp h.sorted).2.2 first hfirst e List.mem_cons_self
  have hsub {x : V × List ℕ} (hx : x ∈ done ++ todo) : x ∈ done ++ e :: todo := by
    rcases List.mem_append.mp hx with hx | hx
    · exact List.mem_append_left _ hx
    · exact List.mem_append_right _ (List.mem_cons_of_mem _ hx)
  have hcover {w : V} {path : List ℕ}
      (hw : ∃ x ∈ done ++ e :: todo, x.1 = w ∧ rank x.2 ≤ rank path) :
      ∃ x ∈ done ++ todo, x.1 = w ∧ rank x.2 ≤ rank path := by
    obtain ⟨x, hx, rfl, hle⟩ := hw
    rcases List.mem_append.mp hx with hx | hx
    · exact ⟨x, List.mem_append_left _ hx, rfl, hle⟩
    · rcases List.mem_cons.mp hx with rfl | hx
      · exact ⟨first, List.mem_append_left _ hfirst, hsame, hlt.le.trans hle⟩
      · exact ⟨x, List.mem_append_right _ hx, rfl, hle⟩
  refine ⟨fun x hx => h.leads x (hsub hx), ?_, fun x hx x' hx' => ?_, h.nodup, hcover h.started,
    fun x hx i w hstep => hcover (h.closed x hx i w hstep)⟩
  · exact h.sorted.sublist (List.Sublist.append (List.Sublist.refl _) (List.sublist_cons_self _ _))
  · exact h.near x (List.mem_cons_of_mem _ hx) x' (List.mem_cons_of_mem _ hx')

theorem visit (h : Search next start done (e :: todo)) (hnew : e.1 ∉ done.map Prod.fst) :
    Search next start (done ++ [e]) (todo ++ steps next e.1 e.2) := by
  have hlist : done ++ [e] ++ (todo ++ steps next e.1 e.2)
      = done ++ e :: todo ++ steps next e.1 e.2 := by simp
  obtain ⟨-, hqueue, hbefore⟩ := List.pairwise_append.mp h.sorted
  have hnext {x : V × List ℕ} (hx : x ∈ todo) {i : ℕ} : rank x.2 < rank (e.2 ++ [i]) := by
    refine (h.near x (List.mem_cons_of_mem _ hx) e List.mem_cons_self).trans_le ?_
    rcases Nat.eq_zero_or_pos i with rfl | hi
    · exact le_rfl
    · exact (rank_append_lt_of_lt hi).le
  have hcover {w : V} {path : List ℕ}
      (hw : ∃ x ∈ done ++ e :: todo, x.1 = w ∧ rank x.2 ≤ rank path) :
      ∃ x ∈ done ++ [e] ++ (todo ++ steps next e.1 e.2), x.1 = w ∧ rank x.2 ≤ rank path := by
    obtain ⟨x, hx, hrest⟩ := hw
    exact ⟨x, hlist ▸ List.mem_append_left _ hx, hrest⟩
  refine ⟨?_, ?_, ?_, ?_, hcover h.started, ?_⟩
  · rw [hlist]
    intro x hx
    rcases List.mem_append.mp hx with hx | hx
    · exact h.leads x hx
    · obtain ⟨i, w, hstep, rfl⟩ := mem_steps_iff.mp hx
      exact .snoc (h.leads e (List.mem_append_right _ List.mem_cons_self)) hstep
  · rw [hlist]
    refine List.pairwise_append.mpr ⟨h.sorted, pairwise_steps, fun x hx x' hx' => ?_⟩
    obtain ⟨i, w, -, rfl⟩ := mem_steps_iff.mp hx'
    rcases List.mem_append.mp hx with hx | hx
    · exact (hbefore x hx e List.mem_cons_self).trans (rank_lt_append i)
    · rcases List.mem_cons.mp hx with rfl | hx
      · exact rank_lt_append i
      · exact hnext hx
  · intro x hx x' hx'
    rcases List.mem_append.mp hx with hx | hx <;> rcases List.mem_append.mp hx' with hx' | hx'
    · exact h.near x (List.mem_cons_of_mem _ hx) x' (List.mem_cons_of_mem _ hx')
    · obtain ⟨i, w, -, rfl⟩ := mem_steps_iff.mp hx'
      exact (hnext hx).trans (rank_lt_append 0)
    · obtain ⟨i, w, -, rfl⟩ := mem_steps_iff.mp hx
      exact rank_append_lt ((List.pairwise_cons.mp hqueue).1 x' hx')
    · obtain ⟨i, w, -, rfl⟩ := mem_steps_iff.mp hx
      obtain ⟨j, w', -, rfl⟩ := mem_steps_iff.mp hx'
      exact rank_append_lt (rank_lt_append j)
  · rw [List.map_append, List.map_singleton]
    exact List.nodup_append.mpr ⟨h.nodup, List.nodup_singleton _, fun x hx y hy => by
      rw [List.mem_singleton.mp hy]
      exact fun heq => hnew (heq ▸ hx)⟩
  · intro x hx i w hstep
    rcases List.mem_append.mp hx with hx | hx
    · exact hcover (h.closed x hx i w hstep)
    · rw [List.mem_singleton.mp hx] at hstep ⊢
      refine ⟨(w, e.2 ++ [i]), ?_, rfl, le_rfl⟩
      rw [hlist]
      exact List.mem_append_right _ (mem_steps_iff.mpr ⟨i, w, hstep, rfl⟩)

theorem exists_le (h : Search next start done []) (hpath : Leads next start path v) :
    ∃ e ∈ done, e.1 = v ∧ rank e.2 ≤ rank path := by
  induction hpath with
  | nil => simpa using h.started
  | @snoc path v w i _ hstep ih =>
      obtain ⟨e, he, rfl, hle⟩ := ih
      obtain ⟨e', he', hw, hle'⟩ := h.closed e he i w hstep
      rw [List.append_nil] at he'
      exact ⟨e', he', hw, hle'.trans (rank_append_le hle)⟩

end Search

/-! ## The order of the visits -/

/-- The vertices in the order of the visits, and the queue. -/
def Explored (next : V → List V) (start : V) (order queue : List V) : Prop :=
  ∃ done todo, Search next start done todo ∧ done.map Prod.fst = order ∧ todo.map Prod.fst = queue

namespace Explored

variable {order queue : List V}

theorem init : Explored next start [] [start] := ⟨[], [(start, [])], Search.init, rfl, rfl⟩

theorem skip (h : Explored next start order (v :: queue)) (hvisited : v ∈ order) :
    Explored next start order queue := by
  obtain ⟨done, todo, hsearch, rfl, htodo⟩ := h
  obtain ⟨e, todo, rfl, rfl, rfl⟩ := List.map_eq_cons_iff.mp htodo
  exact ⟨done, todo, hsearch.skip hvisited, rfl, rfl⟩

theorem visit (h : Explored next start order (v :: queue)) (hnew : v ∉ order) :
    Explored next start (order ++ [v]) (queue ++ next v) := by
  obtain ⟨done, todo, hsearch, rfl, htodo⟩ := h
  obtain ⟨e, todo, rfl, rfl, rfl⟩ := List.map_eq_cons_iff.mp htodo
  exact ⟨_, _, hsearch.visit hnew, by simp, by rw [List.map_append, map_fst_steps]⟩

theorem nodup (h : Explored next start order queue) : order.Nodup := by
  obtain ⟨done, todo, hsearch, rfl, -⟩ := h
  exact hsearch.nodup

theorem leads_of_mem_queue (h : Explored next start order queue) (hv : v ∈ queue) :
    ∃ path, Leads next start path v := by
  obtain ⟨done, todo, hsearch, -, rfl⟩ := h
  obtain ⟨e, he, rfl⟩ := List.mem_map.mp hv
  exact ⟨e.2, hsearch.leads e (List.mem_append_right _ he)⟩

theorem mem_iff (h : Explored next start order []) :
    v ∈ order ↔ ∃ path, Leads next start path v := by
  obtain ⟨done, todo, hsearch, rfl, htodo⟩ := h
  obtain rfl := List.map_eq_nil_iff.mp htodo
  constructor
  · intro hv
    obtain ⟨e, he, rfl⟩ := List.mem_map.mp hv
    exact ⟨e.2, hsearch.leads e (List.mem_append_left _ he)⟩
  · rintro ⟨path, hpath⟩
    obtain ⟨e, he, rfl, -⟩ := hsearch.exists_le hpath
    exact List.mem_map_of_mem he

/-- **The vertices come before their successors** exactly if some path to a vertex is before all
paths to a successor. -/
theorem precedes_iff (h : Explored next start order []) :
    (∀ before v after, order = before ++ v :: after → ∀ w ∈ next v, w ∈ after)
      ↔ ∀ v, (∃ path, Leads next start path v) → ∀ w ∈ next v,
        ∃ path, Leads next start path v
          ∧ ∀ path', Leads next start path' w → rank path < rank path' := by
  have hmem {v : V} := h.mem_iff (v := v)
  obtain ⟨done, todo, hsearch, rfl, htodo⟩ := h
  obtain rfl := List.map_eq_nil_iff.mp htodo
  obtain ⟨hleads, hsorted, -, -, -, -⟩ := id hsearch
  rw [List.append_nil] at hleads hsorted
  have hfirst {v : V} {path : List ℕ} (hv : (v, path) ∈ done) {path' : List ℕ}
      (hpath : Leads next start path' v) : rank path ≤ rank path' := by
    obtain ⟨e, he, rfl, hle⟩ := hsearch.exists_le hpath
    have hsame : (e.1, path) = e := List.inj_on_of_nodup_map hsearch.nodup hv he rfl
    rwa [show path = e.2 from congrArg Prod.snd hsame]
  constructor
  · intro hafter v hv w hw
    obtain ⟨⟨v, path⟩, he, rfl⟩ := List.mem_map.mp (hmem.mpr hv)
    obtain ⟨before, after, rfl⟩ := List.append_of_mem he
    refine ⟨path, hleads _ he, fun path' hpath' => ?_⟩
    obtain ⟨e', he', rfl⟩ := List.mem_map.mp
      (hafter (before.map Prod.fst) v (after.map Prod.fst) (by simp) w hw)
    have hlt := (List.pairwise_cons.mp (List.pairwise_append.mp hsorted).2.1).1 e' he'
    exact hlt.trans_le (hfirst (List.mem_append_right _ (List.mem_cons_of_mem _ he')) hpath')
  · intro hfirsts before v after hsplit w hw
    obtain ⟨before, tail, rfl, rfl, htail⟩ := List.map_eq_append_iff.mp hsplit
    obtain ⟨⟨v, path⟩, after, rfl, rfl, rfl⟩ := List.map_eq_cons_iff.mp htail
    have he : (v, path) ∈ before ++ (v, path) :: after :=
      List.mem_append_right _ List.mem_cons_self
    have hv : Leads next start path v := hleads _ he
    obtain ⟨i, hstep⟩ := List.mem_iff_getElem?.mp hw
    obtain ⟨e', he', rfl, -⟩ := hsearch.exists_le (hv.snoc hstep)
    obtain ⟨first, hpath, hlt⟩ := hfirsts v ⟨path, hv⟩ e'.1 hw
    have hbefore : rank path < rank e'.2 :=
      (hfirst he hpath).trans_lt (hlt e'.2 (hleads e' he'))
    rcases List.mem_append.mp he' with hin | hin
    · have hlt' := (List.pairwise_append.mp hsorted).2.2 e' hin (v, path) List.mem_cons_self
      exact absurd hbefore hlt'.le.not_gt
    · rcases List.mem_cons.mp hin with heq | hin
      · rw [heq] at hbefore
        exact absurd hbefore (lt_irrefl _)
      · exact List.mem_map_of_mem hin

theorem rank_le_of_length_le
    (hone : ∀ path v, Leads next start path v → (next v).length ≤ 1) (h : Leads next start path v)
    (h' : Leads next start path' w) (hlen : path.length ≤ path'.length) :
    rank path ≤ rank path' := by
  have hzero {path : List ℕ} {v : V} (h : Leads next start path v) :
      path = List.replicate path.length 0 := by
    induction h with
    | nil => rfl
    | @snoc path v w i hpath hstep ih =>
        obtain ⟨hi, -⟩ := List.getElem?_eq_some_iff.mp hstep
        obtain rfl : i = 0 := by
          have hlen := hone path v hpath
          omega
        rw [List.length_append, List.length_singleton, List.replicate_succ', ← ih]
  rcases hlen.lt_or_eq with hlt | heq
  · exact (rank_lt_iff.mpr (Or.inl hlt)).le
  · rw [hzero h, hzero h', heq]

/-- **Where no vertex has two successors**, every visit is followed by that of the successor. -/
theorem isChain (h : Explored next start order [])
    (hone : ∀ path v, Leads next start path v → (next v).length ≤ 1) :
    order.IsChain fun v w => next v = [w] := by
  obtain ⟨done, todo, hsearch, rfl, htodo⟩ := h
  obtain rfl := List.map_eq_nil_iff.mp htodo
  obtain ⟨hleads, hsorted, -, -, -, hclosed⟩ := id hsearch
  rw [List.append_nil] at hleads hsorted hclosed
  rw [List.isChain_map, List.isChain_iff_forall_rel_of_append_cons_cons]
  rintro e e' before after rfl
  have he : e ∈ before ++ e :: e' :: after := by simp
  have he' : e' ∈ before ++ e :: e' :: after := by simp
  obtain ⟨-, htail, hbefore⟩ := List.pairwise_append.mp hsorted
  have hlt : rank e.2 < rank e'.2 := (List.pairwise_cons.mp htail).1 e' List.mem_cons_self
  have hlength {x y : V × List ℕ} (hx : x ∈ before ++ e :: e' :: after)
      (hy : y ∈ before ++ e :: e' :: after) (hxy : rank x.2 < rank y.2) :
      x.2.length < y.2.length := by
    by_contra hle
    have hyx := rank_le_of_length_le hone (hleads y hy) (hleads x hx) (Nat.le_of_not_lt hle)
    exact absurd hxy hyx.not_gt
  obtain ⟨e'w, e'path⟩ := e'
  -- the vertex before the second one on its path has been visited
  cases hleads _ he' with
  | nil => exact absurd (rank_lt_iff.mp hlt) (by simp)
  | @snoc path v _ i hpath hstep =>
      obtain ⟨d, hd, rfl, hle⟩ := hsearch.exists_le hpath
      obtain ⟨x, hx, hxw, hxle⟩ := hclosed d hd i _ hstep
      obtain rfl : x = (e'w, path ++ [i]) := List.inj_on_of_nodup_map hsearch.nodup hx he' hxw
      have hsingle : next d.1 = [e'w] := by
        obtain ⟨hi, hget⟩ := List.getElem?_eq_some_iff.mp hstep
        have hdone := hone d.2 d.1 (hleads d hd)
        obtain ⟨y, hy⟩ := List.length_eq_one_iff.mp (show (next d.1).length = 1 by omega)
        rw [hy] at hstep ⊢
        obtain ⟨-, rfl⟩ := List.getElem?_eq_some_iff.mp hstep
        simp
      have hdlt : rank d.2 < rank (path ++ [i]) := hle.trans_lt (rank_lt_append i)
      rcases List.mem_append.mp hd with hin | hin
      · -- the first vertex would lie between two successive ones
        have hde := hlength hd he (hbefore d hin e List.mem_cons_self)
        have hee' : e.2.length < (path ++ [i]).length := hlength he he' hlt
        have hd' : (path ++ [i]).length ≤ (d.2 ++ [i]).length := length_le_of_rank_le hxle
        simp only [List.length_append, List.length_singleton] at hd' hee'
        omega
      · rcases List.mem_cons.mp hin with rfl | hin
        · exact hsingle
        · rcases List.mem_cons.mp hin with rfl | hin
          · exact absurd hdlt (lt_irrefl _)
          · have hlater := (List.pairwise_cons.mp (List.pairwise_cons.mp htail).2).1 d hin
            exact absurd hdlt hlater.not_gt

end Explored

/-! ## The end of a search -/

section Potential

variable [DecidableEq V] {support visited : Finset V} {queue : List V}

/-- The queue and the successors of what may still be visited. -/
def potential (next : V → List V) (support visited : Finset V) (queue : List V) : ℕ :=
  queue.length + ∑ v ∈ support \ visited, (next v).length

theorem potential_skip :
    potential next support visited queue < potential next support visited (v :: queue) := by
  rw [potential, potential, List.length_cons]
  omega

theorem potential_visit (hsupport : ∀ v, v ∉ support → next v = []) (hnew : v ∉ visited) :
    potential next support (insert v visited) (queue ++ next v)
      < potential next support visited (v :: queue) := by
  have hsum : (next v).length + ∑ w ∈ support \ insert v visited, (next w).length
      ≤ ∑ w ∈ support \ visited, (next w).length :=
    Finset.add_sum_sdiff_insert_le (fun w => (next w).length)
      (fun w hw => by rw [hsupport w hw, List.length_nil]) hnew
  rw [potential, potential, List.length_append, List.length_cons]
  omega

end Potential

end BreadthFirst
