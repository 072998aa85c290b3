import ArcVcs.Lib.Collections
import ArcVcs.Lib.LinearExtension
import Mathlib.Data.Fintype.Card
import Mathlib.Order.RelClasses

/-!
# Kahn's algorithm

A queue of nodes whose dependencies were all emitted, first in first out, with ties broken
by the order of the nodes. The loop fails when it would decrement a missing or zero
in-degree. On a graph whose child sets transpose its dependency sets it never fails, and it
emits every node of an acyclic graph after the node's dependencies.
-/

namespace Kahn

variable {α : Type*} [LinearOrder α]

/-- Lower the in-degree of each child and queue those that reach zero. -/
def relax : List α → FMap α ℕ → List α → Option (FMap α ℕ × List α)
  | [], deg, queue => some (deg, queue)
  | c :: cs, deg, queue =>
      match deg.lookup c with
      | some (n + 1) => relax cs (deg.insert c n) (if n = 0 then queue ++ [c] else queue)
      | _ => none

/-- The main loop. `none` means a failed decrement, or that the fuel ran out. -/
def loop (children : α → List α) : ℕ → FMap α ℕ → List α → List α → Option (List α)
  | 0, _, _, _ => none
  | _ + 1, _, [], order => some order
  | fuel + 1, deg, a :: queue, order =>
      match relax (children a) deg queue with
      | none => none
      | some (deg', queue') => loop children fuel deg' queue' (order ++ [a])

/-- The number of dependencies among the nodes. -/
def inDegree (nodes : Finset α) (deps : α → Finset α) (a : α) : ℕ :=
  ((deps a).filter fun d => d ∈ nodes).card

def initialDegrees (nodes : Finset α) (deps : α → Finset α) : FMap α ℕ :=
  FMap.insertAll ∅ (nodes.sorted.map fun a => (a, inDegree nodes deps a))

def roots (nodes : Finset α) (deps : α → Finset α) : List α :=
  nodes.sorted.filter fun a => decide (inDegree nodes deps a = 0)

def childrenIn (nodes : Finset α) (children : α → Finset α) (a : α) : List α :=
  ((children a).filter fun c => c ∈ nodes).sorted

/-- The nodes in the order of Kahn's algorithm. -/
def sort (nodes : Finset α) (deps children : α → Finset α) : Option (List α) :=
  loop (childrenIn nodes children) (nodes.card + 1) (initialDegrees nodes deps)
    (roots nodes deps) []

@[simp] theorem mem_childrenIn {nodes : Finset α} {children : α → Finset α} {a c : α} :
    c ∈ childrenIn nodes children a ↔ c ∈ children a ∧ c ∈ nodes := by
  simp [childrenIn]

theorem nodup_childrenIn (nodes : Finset α) (children : α → Finset α) (a : α) :
    (childrenIn nodes children a).Nodup :=
  Finset.nodup_sorted _

theorem nodup_roots (nodes : Finset α) (deps : α → Finset α) : (roots nodes deps).Nodup :=
  nodes.nodup_sorted.filter _

@[simp] theorem mem_roots {nodes : Finset α} {deps : α → Finset α} {a : α} :
    a ∈ roots nodes deps ↔ a ∈ nodes ∧ inDegree nodes deps a = 0 := by
  simp [roots]

theorem lookup_initialDegrees (nodes : Finset α) (deps : α → Finset α) (a : α) :
    (initialDegrees nodes deps).lookup a
      = if a ∈ nodes then some (inDegree nodes deps a) else none := by
  have hkeys : (nodes.sorted.map fun b => (b, inDegree nodes deps b)).map Prod.fst
      = nodes.sorted := by simp [Function.comp_def]
  split_ifs with ha
  · obtain ⟨e, he, rfl, hlook⟩ := FMap.lookup_insertAll_of_mem ∅
      (nodes.sorted.map fun b => (b, inDegree nodes deps b)) (k := a)
      (by rw [hkeys]; exact Finset.mem_sorted.mpr ha)
    obtain ⟨b, -, rfl⟩ := List.mem_map.mp he
    exact hlook
  · rw [initialDegrees, FMap.lookup_insertAll_of_notMem _ _ (by rw [hkeys]; simpa using ha)]
    rfl

/-! ## One round -/

/-- The children that wait for one more node. -/
def unblocked (deg : FMap α ℕ) (cs : List α) : List α :=
  cs.filter fun c => decide (deg.lookup c = some 1)

theorem relax_eq {cs : List α} (deg : FMap α ℕ) (queue : List α) (hnodup : cs.Nodup)
    (hpos : ∀ c ∈ cs, ∃ n, deg.lookup c = some (n + 1)) :
    ∃ deg', relax cs deg queue = some (deg', queue ++ unblocked deg cs)
      ∧ ∀ c, deg'.lookup c
          = if c ∈ cs then (deg.lookup c).map (· - 1) else deg.lookup c := by
  induction cs generalizing deg queue with
  | nil => exact ⟨deg, by simp [relax, unblocked], by simp⟩
  | cons c cs ih =>
      obtain ⟨n, hn⟩ := hpos c List.mem_cons_self
      obtain ⟨hc, hcs⟩ := List.nodup_cons.mp hnodup
      have hother : ∀ d ∈ cs, (deg.insert c n).lookup d = deg.lookup d := fun d hd => by
        rw [FMap.lookup_insert_eq, if_neg]
        rintro rfl
        exact hc hd
      obtain ⟨deg', hrun, hdeg⟩ := ih (deg.insert c n)
        (if n = 0 then queue ++ [c] else queue) hcs fun d hd => by
          rw [hother d hd]
          exact hpos d (.tail _ hd)
      refine ⟨deg', ?_, fun d => ?_⟩
      · have hfilter : unblocked (deg.insert c n) cs = unblocked deg cs :=
          List.filter_congr fun d hd => by rw [hother d hd]
        simp only [relax, hn]
        rw [hrun, hfilter]
        by_cases hz : n = 0 <;> simp [unblocked, hz, hn]
      · rw [hdeg]
        by_cases hd : d = c
        · subst hd
          simp [hc, hn]
        · by_cases hdcs : d ∈ cs <;> simp [hd, hdcs]

/-- Child sets transpose dependency sets among the nodes. -/
def Transposed (nodes : Finset α) (deps children : α → Finset α) : Prop :=
  ∀ a, ∀ c ∈ nodes, c ∈ children a ↔ a ∈ deps c

/-- The loop invariant. -/
structure Inv (nodes : Finset α) (deps : α → Finset α) (deg : FMap α ℕ)
    (queue order : List α) : Prop where
  nodup : (order ++ queue).Nodup
  mem_nodes : ∀ a ∈ order ++ queue, a ∈ nodes
  degree : ∀ c ∈ nodes,
    deg.lookup c = some ((deps c).filter fun d => d ∈ nodes ∧ d ∉ order).card
  ready : ∀ c ∈ nodes, c ∈ order ++ queue ↔ ∀ d ∈ deps c, d ∈ nodes → d ∈ order
  respects : LinearExtension.Respects (fun d c => d ∈ deps c) order

theorem Inv.of_roots {nodes : Finset α} {deps : α → Finset α} {deg : FMap α ℕ} {queue : List α}
    (hdeg : ∀ c ∈ nodes, deg.lookup c = some (inDegree nodes deps c))
    (hqueue : queue.Perm (roots nodes deps)) : Inv nodes deps deg queue [] where
  nodup := by simpa using hqueue.nodup_iff.mpr (nodup_roots nodes deps)
  mem_nodes a ha := (mem_roots.mp (hqueue.mem_iff.mp (by simpa using ha))).1
  degree c hc := by rw [hdeg c hc]; simp [inDegree]
  ready c hc := by
    simp only [List.nil_append, hqueue.mem_iff, mem_roots, hc, true_and, inDegree,
      Finset.card_eq_zero, Finset.filter_eq_empty_iff, List.not_mem_nil]
  respects := List.Pairwise.nil

theorem Inv.init (nodes : Finset α) (deps : α → Finset α) :
    Inv nodes deps (initialDegrees nodes deps) (roots nodes deps) [] :=
  .of_roots (fun c hc => by rw [lookup_initialDegrees, if_pos hc]) (List.Perm.refl _)

variable {nodes : Finset α} {deps children : α → Finset α}

/-- A dependency of `c` that is a node and was not emitted keeps `c` out of the queue. -/
theorem Inv.notMem_of_pending {deg : FMap α ℕ} {queue order : List α}
    (h : Inv nodes deps deg queue order) {c d : α} (hc : c ∈ nodes) (hd : d ∈ deps c)
    (hdn : d ∈ nodes) (hdo : d ∉ order) : c ∉ order ++ queue :=
  fun hmem => hdo ((h.ready c hc).mp hmem d hd hdn)

theorem pending_append (order : List α) (a c : α) :
    ((deps c).filter fun d => d ∈ nodes ∧ d ∉ order ++ [a])
      = ((deps c).filter fun d => d ∈ nodes ∧ d ∉ order).erase a := by
  ext d
  simp only [List.mem_append, List.mem_singleton, not_or, Finset.mem_filter, Finset.mem_erase]
  tauto

theorem mem_childrenIn_iff_mem_deps (htr : Transposed nodes deps children) {a c : α} :
    c ∈ childrenIn nodes children a ↔ c ∈ nodes ∧ a ∈ deps c := by
  rw [mem_childrenIn]
  exact ⟨fun hc => ⟨hc.2, (htr a c hc.2).mp hc.1⟩, fun hc => ⟨(htr a c hc.1).mpr hc.2, hc.1⟩⟩

/-- Each node lists, once, the nodes that depend on it. -/
structure Wired (nodes : Finset α) (deps : α → Finset α) (ch : α → List α) : Prop where
  nodup : ∀ a, (ch a).Nodup
  mem_iff : ∀ a c, c ∈ ch a ↔ c ∈ nodes ∧ a ∈ deps c

theorem Transposed.wired (htr : Transposed nodes deps children) :
    Wired nodes deps (childrenIn nodes children) :=
  ⟨nodup_childrenIn nodes children, fun _ _ => mem_childrenIn_iff_mem_deps htr⟩

theorem Inv.head_notMem {deg : FMap α ℕ} {queue order : List α} {a : α}
    (h : Inv nodes deps deg (a :: queue) order) : a ∉ order :=
  fun hmem => (List.nodup_append.mp h.nodup).2.2 a hmem a List.mem_cons_self rfl

theorem Inv.head_pending {deg : FMap α ℕ} {queue order : List α} {a c : α}
    (h : Inv nodes deps deg (a :: queue) order) (hac : a ∈ deps c) :
    a ∈ (deps c).filter fun d => d ∈ nodes ∧ d ∉ order :=
  Finset.mem_filter.mpr ⟨hac, h.mem_nodes a (by simp), h.head_notMem⟩

variable {ch : α → List α}

/-- A child is unblocked by `a` iff `a` is the last node it waits for. -/
theorem Inv.mem_unblocked {deg : FMap α ℕ} {queue order : List α} {a : α}
    (hw : Wired nodes deps ch) (h : Inv nodes deps deg (a :: queue) order) {c : α} :
    c ∈ unblocked deg (ch a) ↔
      c ∈ nodes ∧ a ∈ deps c ∧ ∀ d ∈ deps c, d ∈ nodes → d ∈ order ++ [a] := by
  rw [unblocked, List.mem_filter, hw.mem_iff, decide_eq_true_iff, and_assoc]
  refine and_congr_right fun hcn => and_congr_right fun hac => ?_
  have hmem := h.head_pending hac
  rw [h.degree c hcn, Option.some_inj, Finset.card_eq_one]
  constructor
  · rintro ⟨b, hb⟩ d hd hdn
    by_contra hdo
    rw [List.mem_append, List.mem_singleton, not_or] at hdo
    have hd' : d ∈ (deps c).filter fun d => d ∈ nodes ∧ d ∉ order :=
      Finset.mem_filter.mpr ⟨hd, hdn, hdo.1⟩
    rw [hb, Finset.mem_singleton] at hd' hmem
    exact hdo.2 (hd'.trans hmem.symm)
  · intro hall
    refine ⟨a, Finset.eq_singleton_iff_unique_mem.mpr ⟨hmem, fun d hd => ?_⟩⟩
    obtain ⟨hd, hdn, hdo⟩ := Finset.mem_filter.mp hd
    simpa [hdo] using hall d hd hdn

theorem Inv.step {deg : FMap α ℕ} {queue order : List α} {a : α}
    (hw : Wired nodes deps ch) (h : Inv nodes deps deg (a :: queue) order) :
    ∃ deg' queue', relax (ch a) deg queue = some (deg', queue')
      ∧ Inv nodes deps deg' queue' (order ++ [a]) := by
  have ha : a ∈ nodes := h.mem_nodes a (by simp)
  have hpos : ∀ c ∈ ch a, ∃ n, deg.lookup c = some (n + 1) := by
    intro c hc
    obtain ⟨hcn, hac⟩ := (hw.mem_iff a c).mp hc
    have hcard := Finset.card_pos.mpr ⟨a, h.head_pending hac⟩
    exact ⟨_, (h.degree c hcn).trans (congrArg some (Nat.succ_pred_eq_of_pos hcard).symm)⟩
  obtain ⟨deg', hrun, hdeg⟩ := relax_eq deg queue (hw.nodup a) hpos
  have hnew : ∀ c, c ∈ unblocked deg (ch a) ↔
      c ∈ nodes ∧ a ∈ deps c ∧ ∀ d ∈ deps c, d ∈ nodes → d ∈ order ++ [a] :=
    fun c => h.mem_unblocked hw
  refine ⟨deg', _, hrun, ?_, ?_, ?_, ?_, ?_⟩
  · have hfresh : ∀ c ∈ unblocked deg (ch a), c ∉ order ++ a :: queue := by
      intro c hc
      obtain ⟨hcn, hac, -⟩ := (hnew c).mp hc
      exact h.notMem_of_pending hcn hac ha h.head_notMem
    have hnd : ((order ++ a :: queue) ++ unblocked deg (ch a)).Nodup :=
      List.nodup_append.mpr ⟨h.nodup, (hw.nodup a).filter _,
        fun x hx y hy hxy => hfresh y hy (hxy ▸ hx)⟩
    simpa only [List.append_assoc, List.cons_append, List.nil_append] using hnd
  · intro c hc
    simp only [List.mem_append, List.mem_singleton] at hc
    rcases hc with (hc | rfl) | hc | hc
    · exact h.mem_nodes c (by simp [hc])
    · exact ha
    · exact h.mem_nodes c (by simp [hc])
    · exact ((hnew c).mp hc).1
  · intro c hcn
    rw [hdeg, h.degree c hcn, pending_append]
    by_cases hac : a ∈ deps c
    · rw [if_pos ((hw.mem_iff a c).mpr ⟨hcn, hac⟩), Option.map_some,
        Finset.card_erase_of_mem (h.head_pending hac)]
    · rw [if_neg fun hc => hac ((hw.mem_iff a c).mp hc).2, Finset.erase_eq_of_notMem]
      exact fun hmem => hac (Finset.mem_filter.mp hmem).1
  · intro c hcn
    have hsplit : c ∈ (order ++ [a]) ++ (queue ++ unblocked deg (ch a)) ↔
        c ∈ order ++ a :: queue ∨ (a ∈ deps c ∧ ∀ d ∈ deps c, d ∈ nodes → d ∈ order ++ [a]) := by
      rw [← List.append_assoc, List.mem_append, hnew]
      simp only [hcn, true_and, List.append_assoc, List.singleton_append]
    rw [hsplit, h.ready c hcn]
    constructor
    · rintro (hall | ⟨-, hall⟩) d hd hdn
      · exact List.mem_append_left _ (hall d hd hdn)
      · exact hall d hd hdn
    · intro hall
      by_cases hac : a ∈ deps c
      · exact .inr ⟨hac, hall⟩
      · refine .inl fun d hd hdn => ?_
        rcases List.mem_append.mp (hall d hd hdn) with hdo | hda
        · exact hdo
        · exact absurd (List.mem_singleton.mp hda ▸ hd) hac
  · refine List.pairwise_append.mpr ⟨h.respects, List.pairwise_singleton _ _, ?_⟩
    intro b hb c hc hcb
    obtain rfl := List.mem_singleton.mp hc
    have hbn : b ∈ nodes := h.mem_nodes b (List.mem_append_left _ hb)
    exact h.head_notMem ((h.ready b hbn).mp (List.mem_append_left _ hb) c hcb ha)

/-! ## The whole run -/

theorem loop_spec (hw : Wired nodes deps ch) {fuel : ℕ} {deg : FMap α ℕ}
    {queue order : List α} (h : Inv nodes deps deg queue order)
    (hfuel : nodes.card < fuel + order.length) :
    ∃ out deg', loop ch fuel deg queue order = some out ∧ Inv nodes deps deg' [] out := by
  induction fuel generalizing deg queue order with
  | zero =>
      have hle : order.toFinset.card ≤ nodes.card :=
        Finset.card_le_card fun a ha =>
          h.mem_nodes a (List.mem_append_left _ (List.mem_toFinset.mp ha))
      rw [List.toFinset_card_of_nodup (List.nodup_append.mp h.nodup).1] at hle
      omega
  | succ fuel ih =>
      cases queue with
      | nil => exact ⟨order, deg, rfl, h⟩
      | cons a queue =>
          obtain ⟨deg', queue', hrun, h'⟩ := h.step hw
          simp only [loop, hrun]
          exact ih h' (by simp only [List.length_append, List.length_singleton]; omega)

theorem loop_notMem_deps (hw : Wired nodes deps ch) {fuel : ℕ} {deg : FMap α ℕ}
    {queue order out : List α} (h : Inv nodes deps deg queue order)
    (horder : ∀ a ∈ order, a ∉ deps a) (hrun : loop ch fuel deg queue order = some out) :
    ∀ a ∈ out, a ∉ deps a := by
  induction fuel generalizing deg queue order with
  | zero => simp [loop] at hrun
  | succ fuel ih =>
      cases queue with
      | nil =>
          obtain rfl : order = out := by simpa [loop] using hrun
          exact horder
      | cons a queue =>
          obtain ⟨deg', queue', hrelax, h'⟩ := h.step hw
          simp only [loop, hrelax] at hrun
          refine ih h' (fun b hb => ?_) hrun
          rcases List.mem_append.mp hb with hb | hb
          · exact horder b hb
          · obtain rfl := List.mem_singleton.mp hb
            have hbn : b ∈ nodes := h.mem_nodes b (by simp)
            intro hself
            exact h.head_notMem ((h.ready b hbn).mp (by simp) b hself hbn)

theorem relax_nodup {cs : List α} {deg deg₁ : FMap α ℕ} {queue queue₁ order : List α}
    (hrun : relax cs deg queue = some (deg₁, queue₁)) (hnodup : (order ++ queue).Nodup)
    (hzero : ∀ a ∈ order ++ queue, deg.lookup a = some 0) :
    (order ++ queue₁).Nodup ∧ ∀ a ∈ order ++ queue₁, deg₁.lookup a = some 0 := by
  induction cs generalizing deg queue with
  | nil =>
      obtain ⟨rfl, rfl⟩ : deg = deg₁ ∧ queue = queue₁ := by simpa [relax] using hrun
      exact ⟨hnodup, hzero⟩
  | cons c cs ih =>
      rw [relax] at hrun
      split at hrun
      · rename_i n hn
        have hc : c ∉ order ++ queue := by
          intro hmem
          simpa [hn] using hzero c hmem
        have hother : ∀ a ∈ order ++ queue, (deg.insert c n).lookup a = some 0 := by
          intro a ha
          rw [FMap.lookup_insert_eq, if_neg (by rintro rfl; exact hc ha)]
          exact hzero a ha
        by_cases hz : n = 0
        · subst hz
          rw [if_pos rfl] at hrun
          refine ih hrun ?_ ?_
          · rw [← List.append_assoc]
            exact List.nodup_append'.mpr ⟨hnodup, by simp, by simpa using hc⟩
          · intro a ha
            rw [← List.append_assoc] at ha
            rcases List.mem_append.mp ha with ha | ha
            · exact hother a ha
            · obtain rfl := List.mem_singleton.mp ha
              rw [FMap.lookup_insert_eq, if_pos rfl]
        · rw [if_neg hz] at hrun
          exact ih hrun hnodup hother
      · simp at hrun

/-- **No node is emitted twice**, whatever the edges are: a queued node has in-degree zero, and a
further decrement would fail. -/
theorem loop_nodup {ch : α → List α} {fuel : ℕ} {deg : FMap α ℕ} {queue order out : List α}
    (hrun : loop ch fuel deg queue order = some out) (hnodup : (order ++ queue).Nodup)
    (hzero : ∀ a ∈ order ++ queue, deg.lookup a = some 0) : out.Nodup := by
  induction fuel generalizing deg queue order with
  | zero => simp [loop] at hrun
  | succ fuel ih =>
      cases queue with
      | nil =>
          obtain rfl : order = out := by simpa [loop] using hrun
          simpa using hnodup
      | cons a queue =>
          rw [loop] at hrun
          split at hrun
          · simp at hrun
          · rename_i deg' queue' hrelax
            have happend : order ++ a :: queue = (order ++ [a]) ++ queue := by simp
            rw [happend] at hnodup hzero
            obtain ⟨hnodup', hzero'⟩ := relax_nodup hrelax hnodup hzero
            exact ih hrun hnodup' hzero'

theorem sort_notMem_deps (htr : Transposed nodes deps children) {out : List α}
    (hrun : sort nodes deps children = some out) : ∀ a ∈ out, a ∉ deps a :=
  loop_notMem_deps htr.wired (Inv.init nodes deps) (by simp) hrun

/-- **Kahn's algorithm is correct**: it emits distinct nodes, each after its dependencies, and
every node all of whose dependencies are emitted. -/
theorem sort_spec (htr : Transposed nodes deps children) :
    ∃ out, sort nodes deps children = some out ∧ out.Nodup ∧ (∀ a ∈ out, a ∈ nodes)
      ∧ LinearExtension.Respects (fun d c => d ∈ deps c) out
      ∧ ∀ c ∈ nodes, c ∈ out ↔ ∀ d ∈ deps c, d ∈ nodes → d ∈ out := by
  obtain ⟨out, deg', hrun, h⟩ := loop_spec htr.wired (Inv.init nodes deps) (Nat.lt_succ_self _)
  refine ⟨out, hrun, by simpa using h.nodup, by simpa using h.mem_nodes, h.respects, ?_⟩
  simpa using h.ready

/-- No dependency chain among the nodes returns to its start. -/
def Acyclic (nodes : Finset α) (deps : α → Finset α) : Prop :=
  ∀ a, ¬ Relation.TransGen (fun d c => d ∈ deps c ∧ d ∈ nodes ∧ c ∈ nodes) a a

omit [LinearOrder α] in
theorem Acyclic.induction (h : Acyclic nodes deps) {P : α → Prop}
    (hstep : ∀ c ∈ nodes, (∀ d ∈ deps c, d ∈ nodes → P d) → P c) {c : α} (hc : c ∈ nodes) :
    P c := by
  let r : nodes → nodes → Prop := Relation.TransGen fun d c => d.1 ∈ deps c.1
  have hlift : ∀ {x y : nodes}, r x y →
      Relation.TransGen (fun d c => d ∈ deps c ∧ d ∈ nodes ∧ c ∈ nodes) x.1 y.1 :=
    fun {x y} hxy => Relation.TransGen.lift (fun z : nodes => z.1)
      (fun a b hab => ⟨hab, a.2, b.2⟩) x y hxy
  have : IsTrans nodes r := ⟨fun _ _ _ => Relation.TransGen.trans⟩
  have : Std.Irrefl r := ⟨fun x hx => h x.1 (hlift hx)⟩
  have hwf : WellFounded r := Finite.wellFounded_of_trans_of_irrefl r
  have hall : ∀ x : nodes, P x.1 := fun x =>
    hwf.induction x fun y ih => hstep y.1 y.2 fun d hd hdn => ih ⟨d, hdn⟩ (.single hd)
  exact hall ⟨c, hc⟩

theorem Inv.mem_iff {deg : FMap α ℕ} {out : List α} (h : Inv nodes deps deg [] out)
    (hac : Acyclic nodes deps) (a : α) : a ∈ out ↔ a ∈ nodes := by
  have hready : ∀ c ∈ nodes, c ∈ out ↔ ∀ d ∈ deps c, d ∈ nodes → d ∈ out := by
    simpa using h.ready
  refine ⟨fun ha => h.mem_nodes a (by simpa using ha), fun ha => ?_⟩
  exact hac.induction (P := fun c => c ∈ out) (fun c hc ih => (hready c hc).mpr ih) ha

theorem sort_perm (htr : Transposed nodes deps children) (hac : Acyclic nodes deps) :
    ∃ out, sort nodes deps children = some out ∧ out.Nodup ∧ (∀ a, a ∈ out ↔ a ∈ nodes)
      ∧ LinearExtension.Respects (fun d c => d ∈ deps c) out := by
  obtain ⟨out, deg', hrun, h⟩ := loop_spec htr.wired (Inv.init nodes deps) (Nat.lt_succ_self _)
  exact ⟨out, hrun, by simpa using h.nodup, h.mem_iff hac, h.respects⟩

theorem loop_append {ch : α → List α} {fuel : ℕ} {deg : FMap α ℕ} {queue order out : List α}
    (h : loop ch fuel deg queue order = some out) : ∃ rest, out = order ++ rest := by
  induction fuel generalizing deg queue order with
  | zero => simp [loop] at h
  | succ fuel ih =>
      cases queue with
      | nil => exact ⟨[], by simpa [loop] using h.symm⟩
      | cons a queue =>
          simp only [loop] at h
          cases hrel : relax (ch a) deg queue with
          | none => simp [hrel] at h
          | some p =>
              simp only [hrel] at h
              obtain ⟨rest, rfl⟩ := ih h
              exact ⟨a :: rest, by rw [List.append_assoc, List.singleton_append]⟩

/-! ## Restriction to a down-closed part -/

theorem loop_mono {ch : α → List α} {fuel : ℕ} (extra : ℕ) {deg : FMap α ℕ}
    {queue order out : List α}
    (h : loop ch fuel deg queue order = some out) :
    loop ch (fuel + extra) deg queue order = some out := by
  induction fuel generalizing deg queue order with
  | zero => simp [loop] at h
  | succ fuel ih =>
      rw [Nat.add_right_comm]
      cases queue with
      | nil => simpa [loop] using h
      | cons a queue =>
          simp only [loop] at h ⊢
          cases hrel : relax (ch a) deg queue with
          | none => simp [hrel] at h
          | some p =>
              simp only [hrel] at h ⊢
              exact ih h

theorem relax_filter (p : α → Bool) {cs : List α} {deg deg₁ : FMap α ℕ} (deg' : FMap α ℕ)
    {queue queue₁ : List α} (h : relax cs deg queue = some (deg₁, queue₁))
    (hagree : ∀ c, p c → deg'.lookup c = deg.lookup c) :
    ∃ deg₁', relax (cs.filter p) deg' (queue.filter p) = some (deg₁', queue₁.filter p)
      ∧ ∀ c, p c → deg₁'.lookup c = deg₁.lookup c := by
  induction cs generalizing deg deg' queue with
  | nil =>
      obtain ⟨rfl, rfl⟩ : deg = deg₁ ∧ queue = queue₁ := by simpa [relax] using h
      exact ⟨deg', rfl, hagree⟩
  | cons c cs ih =>
      rw [relax] at h
      split at h
      · rename_i n hn
        by_cases hp : p c
        · rw [List.filter_cons_of_pos hp, relax, hagree c hp, hn]
          obtain ⟨deg₁', hrun, h₁⟩ := ih (deg'.insert c n) h fun d hd => by
            simp only [FMap.lookup_insert_eq, hagree d hd]
          refine ⟨deg₁', ?_, h₁⟩
          by_cases hz : n = 0 <;> simp_all
        · rw [List.filter_cons_of_neg hp]
          obtain ⟨deg₁', hrun, h₁⟩ := ih deg' h fun d hd => by
            rw [FMap.lookup_insert_eq, if_neg (by rintro rfl; exact hp hd), hagree d hd]
          refine ⟨deg₁', ?_, h₁⟩
          by_cases hz : n = 0 <;> simp_all
      · simp at h

theorem relax_queue_subset {cs : List α} {deg deg₁ : FMap α ℕ} {queue queue₁ : List α}
    (h : relax cs deg queue = some (deg₁, queue₁)) : queue₁ ⊆ queue ++ cs := by
  induction cs generalizing deg queue with
  | nil =>
      obtain ⟨-, rfl⟩ : deg = deg₁ ∧ queue = queue₁ := by simpa [relax] using h
      simp
  | cons c cs ih =>
      rw [relax] at h
      split at h
      · intro a ha
        have hmem := ih h ha
        split_ifs at hmem <;> simp at hmem ⊢ <;> tauto
      · simp at h

/-- A run restricts to the part selected by `p` when no unselected node has a selected child. -/
theorem loop_filter (p : α → Bool) {ch ch' : α → List α} {nodes : Finset α}
    (hch : ∀ a, ∀ c ∈ ch a, c ∈ nodes) (hsel : ∀ a, p a → ch' a = (ch a).filter p)
    (hnot : ∀ a ∈ nodes, ¬ p a → (ch a).filter p = [])
    {fuel : ℕ} {deg deg' : FMap α ℕ} {queue order out : List α}
    (h : loop ch fuel deg queue order = some out) (hqueue : ∀ a ∈ queue, a ∈ nodes)
    (hagree : ∀ c, p c → deg'.lookup c = deg.lookup c) :
    loop ch' fuel deg' (queue.filter p) (order.filter p) = some (out.filter p) := by
  induction fuel generalizing deg deg' queue order with
  | zero => simp [loop] at h
  | succ fuel ih =>
      cases queue with
      | nil =>
          obtain rfl : order = out := by simpa [loop] using h
          simp [loop]
      | cons a queue =>
          simp only [loop] at h
          cases hrel : relax (ch a) deg queue with
          | none => simp [hrel] at h
          | some r =>
              obtain ⟨deg₁, queue₁⟩ := r
              rw [hrel] at h
              obtain ⟨deg₁', hrun, h₁⟩ := relax_filter p deg' hrel hagree
              have hqueue₁ : ∀ b ∈ queue₁, b ∈ nodes := fun b hb => by
                rcases List.mem_append.mp (relax_queue_subset hrel hb) with hb | hb
                · exact hqueue b (.tail _ hb)
                · exact hch a b hb
              have hrec := ih h hqueue₁ h₁
              by_cases hp : p a
              · rw [List.filter_cons_of_pos hp, loop, hsel a hp, hrun]
                simpa [hp] using hrec
              · rw [hnot a (hqueue a List.mem_cons_self) hp] at hrun
                obtain ⟨rfl, hq⟩ : deg' = deg₁' ∧ queue.filter p = queue₁.filter p := by
                  simpa [relax] using hrun
                rw [List.filter_cons_of_neg hp, hq]
                exact loop_mono 1 (by simpa [hp] using hrec)

theorem inDegree_congr {nodes₁ nodes₂ : Finset α} {deps₁ deps₂ : α → Finset α} {a : α}
    (h : ∀ d, d ∈ deps₁ a ∧ d ∈ nodes₁ ↔ d ∈ deps₂ a ∧ d ∈ nodes₂) :
    inDegree nodes₁ deps₁ a = inDegree nodes₂ deps₂ a := by
  refine congrArg Finset.card (Finset.ext fun d => ?_)
  simp only [Finset.mem_filter, h d]

/-- **Restriction.** The order of a graph, restricted to a part that is closed under
dependencies, is the order of any graph with those nodes and the same wiring on them. -/
theorem sort_filter (p : α → Prop) [DecidablePred p] {nodes' : Finset α}
    {deps' children' : α → Finset α} {out : List α}
    (hnodes : ∀ a, a ∈ nodes' ↔ a ∈ nodes ∧ p a)
    (hdeps : ∀ a ∈ nodes', ∀ d, d ∈ deps' a ∧ d ∈ nodes' ↔ d ∈ deps a ∧ d ∈ nodes)
    (htr : Transposed nodes deps children) (htr' : Transposed nodes' deps' children')
    (h : sort nodes deps children = some out) :
    sort nodes' deps' children' = some (out.filter fun a => decide (p a)) := by
  have hset : nodes.filter p = nodes' := by
    ext a
    rw [hnodes, Finset.mem_filter]
  have hsub : nodes'.card ≤ nodes.card := hset ▸ Finset.card_filter_le _ _
  have hdegree : ∀ a ∈ nodes', inDegree nodes' deps' a = inDegree nodes deps a :=
    fun a ha => inDegree_congr (hdeps a ha)
  have hroots : (roots nodes deps).filter (fun a => decide (a ∈ nodes')) = roots nodes' deps' := by
    have hsort : nodes'.sorted = nodes.sorted.filter fun a => decide (a ∈ nodes') := by
      rw [Finset.filter_sorted]
      refine congrArg Finset.sorted (Finset.ext fun a => ?_)
      simp only [Finset.mem_filter, hnodes, and_self_left]
    rw [roots, roots, hsort, List.filter_filter, List.filter_filter]
    refine List.filter_congr fun a _ => ?_
    by_cases ha : a ∈ nodes'
    · simp [ha, hdegree a ha]
    · simp [ha]
  have hagree : ∀ c, decide (c ∈ nodes') = true →
      (initialDegrees nodes' deps').lookup c = (initialDegrees nodes deps).lookup c := by
    intro c hc
    have hcn' := of_decide_eq_true hc
    rw [lookup_initialDegrees, lookup_initialDegrees, if_pos hcn', if_pos ((hnodes c).mp hcn').1,
      hdegree c hcn']
  have hsel : ∀ a, decide (a ∈ nodes') = true → childrenIn nodes' children' a
      = (childrenIn nodes children a).filter fun c => decide (c ∈ nodes') := by
    intro a ha
    rw [childrenIn, childrenIn, Finset.filter_sorted]
    refine congrArg Finset.sorted (Finset.ext fun c => ?_)
    simp only [Finset.mem_filter]
    constructor
    · rintro ⟨hca, hc⟩
      have hac := (hdeps c hc a).mp ⟨(htr' a c hc).mp hca, of_decide_eq_true ha⟩
      have hcn := ((hnodes c).mp hc).1
      exact ⟨⟨(htr a c hcn).mpr hac.1, hcn⟩, hc⟩
    · rintro ⟨⟨hca, hcn⟩, hc⟩
      have ha' := ((hnodes a).mp (of_decide_eq_true ha)).1
      exact ⟨(htr' a c hc).mpr ((hdeps c hc a).mpr ⟨(htr a c hcn).mp hca, ha'⟩).1, hc⟩
  have hnot : ∀ a ∈ nodes, ¬ decide (a ∈ nodes') = true →
      (childrenIn nodes children a).filter (fun c => decide (c ∈ nodes')) = [] := by
    intro a han ha
    refine List.filter_eq_nil_iff.mpr fun c hc hc' => ?_
    obtain ⟨hcn, hac⟩ := (mem_childrenIn_iff_mem_deps htr).mp hc
    exact ha (decide_eq_true ((hdeps c (of_decide_eq_true hc') a).mpr ⟨hac, han⟩).2)
  have hlong := loop_filter (fun a => decide (a ∈ nodes')) (fun a c hc => (mem_childrenIn.mp hc).2)
    hsel hnot h (fun a ha => (mem_roots.mp ha).1) hagree
  rw [hroots, List.filter_nil] at hlong
  obtain ⟨out', hout', -, hsub', -⟩ := sort_spec htr'
  have hshort := loop_mono (nodes.card - nodes'.card) hout'
  rw [Nat.add_right_comm, Nat.add_sub_cancel' hsub, hlong, Option.some_inj] at hshort
  rw [hout', ← hshort]
  refine congrArg some (List.filter_congr fun a ha => ?_)
  have han : a ∈ nodes := by
    obtain ⟨_, hrun, -, hmem, -⟩ := sort_spec htr
    exact hmem a (Option.some_inj.mp (hrun.symm.trans h) ▸ ha)
  simp [hnodes, han]

end Kahn
