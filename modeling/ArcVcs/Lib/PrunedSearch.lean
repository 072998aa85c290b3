import Mathlib.Data.List.Nodup
import Mathlib.Data.Set.Card
import Mathlib.Logic.Relation

/-!
# Breadth-first search with a cut

A search with a queue that turns back at the nodes that are held already. It gets the others from a
source, puts what it gets into the store and queues the successors. The source may have nothing for
a node, and the search may be stopped between two nodes.
-/

namespace PrunedSearch

variable {α β τ : Type*} [DecidableEq α] {holds : τ → α → Prop} {put : τ → β → τ}
  {source : α → β → Prop} {next : β → List α}

variable (holds put source next) in
/-- The nodes at which a search turns back, the nodes that it gets with what it gets for them, and
whether it has come to its end. -/
inductive Search : τ → List α → List α → List α → List (α × β) → Bool → Prop
  | stop (t : τ) (queue seen : List α) : Search t queue seen [] [] false
  | done (t : τ) (seen : List α) : Search t [] seen [] [] true
  | skip {t : τ} {a : α} {queue seen turned : List α} {got : List (α × β)} {ended : Bool}
      (ha : a ∈ seen) (hrest : Search t queue seen turned got ended) :
      Search t (a :: queue) seen turned got ended
  | turn {t : τ} {a : α} {queue seen turned : List α} {got : List (α × β)} {ended : Bool}
      (ha : a ∉ seen) (h : holds t a) (hrest : Search t queue (seen ++ [a]) turned got ended) :
      Search t (a :: queue) seen (a :: turned) got ended
  | get {t : τ} {a : α} {b : β} {queue seen turned : List α} {got : List (α × β)} {ended : Bool}
      (ha : a ∉ seen) (h : ¬ holds t a) (hb : source a b)
      (hrest : Search (put t b) (queue ++ (next b).filter fun d => d ∉ seen ++ [a]) (seen ++ [a])
        turned got ended) :
      Search t (a :: queue) seen turned ((a, b) :: got) ended

variable {t : τ} {queue seen turned : List α} {got : List (α × β)} {ended : Bool}

abbrev nodes (got : List (α × β)) : List α := got.map Prod.fst

theorem Search.source_of_mem (h : Search holds put source next t queue seen turned got ended)
    {p : α × β} (hp : p ∈ got) : source p.1 p.2 := by
  induction h with
  | stop | done => simp at hp
  | skip _ _ ih | turn _ _ _ ih => exact ih hp
  | get _ _ hb _ ih =>
      rcases List.mem_cons.mp hp with rfl | hp
      · exact hb
      · exact ih hp

theorem Search.restrict (source' : α → β → Prop)
    (h : Search holds put source next t queue seen turned got ended)
    (hsource : ∀ p ∈ got, source' p.1 p.2) :
    Search holds put source' next t queue seen turned got ended := by
  induction h with
  | stop => exact .stop _ _ _
  | done => exact .done _ _
  | skip ha _ ih => exact .skip ha (ih hsource)
  | turn ha hheld _ ih => exact .turn ha hheld (ih hsource)
  | get ha hheld _ _ ih =>
      exact .get ha hheld (hsource _ List.mem_cons_self)
        (ih fun p hp => hsource p (List.mem_cons_of_mem _ hp))

theorem Search.not_mem_seen (h : Search holds put source next t queue seen turned got ended) {a : α}
    (ha : a ∈ turned ∨ a ∈ nodes got) : a ∉ seen := by
  induction h with
  | stop | done => simp at ha
  | skip _ _ ih => exact ih ha
  | @turn t x queue seen turned got ended hx _ _ ih =>
      rw [List.mem_cons, or_assoc] at ha
      rcases ha with rfl | ha
      · exact hx
      · exact fun hseen => ih ha (List.mem_append_left _ hseen)
  | @get t x b queue seen turned got ended hx _ _ _ ih =>
      rw [nodes, List.map_cons, List.mem_cons, or_left_comm] at ha
      rcases ha with rfl | ha
      · exact hx
      · exact fun hseen => ih ha (List.mem_append_left _ hseen)

theorem Search.nodup (h : Search holds put source next t queue seen turned got ended) :
    (nodes got).Nodup := by
  induction h with
  | stop | done => exact List.nodup_nil
  | skip _ _ ih | turn _ _ _ ih => exact ih
  | @get t a b queue seen turned got ended ha _ _ hrest ih =>
      refine List.nodup_cons.mpr ⟨fun hmem => ?_, ih⟩
      exact hrest.not_mem_seen (.inr hmem) (by simp)

/-- **A search that has come to its end** has turned back at, or got, all that it was to visit. -/
theorem Search.covers (h : Search holds put source next t queue seen turned got ended)
    (hended : ended = true) :
    (∀ a ∈ queue, a ∈ seen ∨ a ∈ turned ∨ a ∈ nodes got)
      ∧ ∀ p ∈ got, ∀ d ∈ next p.2, d ∈ seen ∨ d ∈ turned ∨ d ∈ nodes got := by
  induction h with
  | stop => simp at hended
  | done => simp
  | skip hx _ ih =>
      obtain ⟨hqueue, hnext⟩ := ih hended
      exact ⟨List.forall_mem_cons.mpr ⟨.inl hx, hqueue⟩, hnext⟩
  | @turn t x queue seen turned got ended hx _ _ ih =>
      obtain ⟨hqueue, hnext⟩ := ih hended
      have hmove {a : α} (h : a ∈ seen ++ [x] ∨ a ∈ turned ∨ a ∈ nodes got) :
          a ∈ seen ∨ a ∈ x :: turned ∨ a ∈ nodes got := by
        simp only [List.mem_append, List.mem_cons] at h ⊢
        tauto
      refine ⟨List.forall_mem_cons.mpr ⟨.inr (.inl List.mem_cons_self), ?_⟩, ?_⟩
      · exact fun a ha => hmove (hqueue a ha)
      · exact fun p hp d hd => hmove (hnext p hp d hd)
  | @get t x b queue seen turned got ended hx _ hb _ ih =>
      obtain ⟨hqueue, hnext⟩ := ih hended
      have hmove {a : α} (h : a ∈ seen ++ [x] ∨ a ∈ turned ∨ a ∈ nodes got) :
          a ∈ seen ∨ a ∈ turned ∨ a ∈ nodes ((x, b) :: got) := by
        simp only [List.mem_append, nodes, List.map_cons, List.mem_cons] at h ⊢
        tauto
      refine ⟨List.forall_mem_cons.mpr ⟨.inr (.inr List.mem_cons_self), ?_⟩, ?_⟩
      · exact fun a ha => hmove (hqueue a (List.mem_append_left _ ha))
      · refine List.forall_mem_cons.mpr ⟨fun d hd => hmove ?_,
          fun p hp d hd => hmove (hnext p hp d hd)⟩
        by_cases hseen : d ∈ seen ++ [x]
        · exact .inl hseen
        · exact hqueue d (List.mem_append_right _ (List.mem_filter.mpr ⟨hd, by simpa using hseen⟩))

theorem Search.reached (h : Search holds put source next t queue seen turned got ended) {a : α}
    (ha : a ∈ turned ∨ a ∈ nodes got) :
    ∃ q ∈ queue, Relation.ReflTransGen (fun x y => ∃ b, (x, b) ∈ got ∧ y ∈ next b) q a := by
  induction h with
  | stop | done => simp at ha
  | skip _ _ ih =>
      obtain ⟨q, hq, hpath⟩ := ih ha
      exact ⟨q, List.mem_cons_of_mem _ hq, hpath⟩
  | turn _ _ _ ih =>
      rw [List.mem_cons, or_assoc] at ha
      rcases ha with rfl | ha
      · exact ⟨a, List.mem_cons_self, .refl⟩
      · obtain ⟨q, hq, hpath⟩ := ih ha
        exact ⟨q, List.mem_cons_of_mem _ hq, hpath⟩
  | @get t x b queue seen turned got ended _ _ _ _ ih =>
      rw [nodes, List.map_cons, List.mem_cons, or_left_comm] at ha
      rcases ha with rfl | ha
      · exact ⟨a, List.mem_cons_self, .refl⟩
      · obtain ⟨q, hq, hpath⟩ := ih ha
        have hmono : Relation.ReflTransGen (fun x' y => ∃ c, (x', c) ∈ (x, b) :: got ∧ y ∈ next c)
            q a := by
          refine Relation.ReflTransGen.mono (fun y z hyz => ?_) _ _ hpath
          obtain ⟨c, hc, hz⟩ := hyz
          exact ⟨c, List.mem_cons_of_mem _ hc, hz⟩
        rcases List.mem_append.mp hq with hq | hq
        · exact ⟨q, List.mem_cons_of_mem _ hq, hmono⟩
        · refine ⟨x, List.mem_cons_self, .head ?_ hmono⟩
          exact ⟨b, List.mem_cons_self, (List.mem_filter.mp hq).1⟩

/-! ## Faithful sources -/

variable (holds put source) in
/-- What the source has for a node makes the store hold that node and no other one. -/
structure Faithful : Prop where
  mono : ∀ t a b x, source a b → holds t x → holds (put t b) x
  only : ∀ t a b x, source a b → holds (put t b) x → holds t x ∨ x = a

theorem Search.holds_of_turned (h : Search holds put source next t queue seen turned got ended)
    (hfaithful : Faithful holds put source) {a : α} (ha : a ∈ turned) : holds t a := by
  induction h with
  | stop | done => simp at ha
  | skip _ _ ih => exact ih ha
  | turn _ hx _ ih =>
      rcases List.mem_cons.mp ha with rfl | ha
      · exact hx
      · exact ih ha
  | get _ _ hb hrest ih =>
      refine (hfaithful.only _ _ _ _ hb (ih ha)).resolve_right ?_
      rintro rfl
      exact hrest.not_mem_seen (.inl ha) (by simp)

theorem Search.held_or_got (h : Search holds put source next t queue [] turned got ended)
    (hfaithful : Faithful holds put source) {a : α}
    (ha : a ∈ ([] : List α) ∨ a ∈ turned ∨ a ∈ nodes got) : holds t a ∨ a ∈ nodes got := by
  rcases ha with ha | ha | ha
  · cases ha
  · exact .inl (h.holds_of_turned hfaithful ha)
  · exact .inr ha

theorem Search.not_holds_of_got (h : Search holds put source next t queue seen turned got ended)
    (hfaithful : Faithful holds put source) {a : α} (ha : a ∈ nodes got) : ¬ holds t a := by
  induction h with
  | stop | done => simp at ha
  | skip _ _ ih | turn _ _ _ ih => exact ih ha
  | get _ hx hb _ ih =>
      rcases List.mem_cons.mp ha with rfl | ha
      · exact hx
      · exact fun hheld => ih ha (hfaithful.mono _ _ _ _ hb hheld)

/-- **The queue comes first.** The search gets the missing nodes of the queue before any other. -/
theorem Search.queue_first [∀ t, DecidablePred (holds t)] {first rest : List α}
    (h : Search holds put source next t (first ++ rest) seen turned got ended)
    (hfaithful : Faithful holds put source) (hnodup : first.Nodup)
    (hseen : ∀ a ∈ first, a ∉ seen) :
    nodes got <+: first.filter (fun a => ¬ holds t a)
      ∨ first.filter (fun a => ¬ holds t a) <+: nodes got := by
  generalize hqueue : first ++ rest = queue at h
  induction h generalizing first rest with
  | stop => exact .inl List.nil_prefix
  | done =>
      obtain ⟨rfl, rfl⟩ := List.append_eq_nil_iff.mp hqueue
      exact .inl (List.prefix_refl _)
  | @skip t x queue seen turned got ended hx _ ih =>
      cases first with
      | nil => exact .inr List.nil_prefix
      | cons a first =>
          obtain ⟨rfl, rfl⟩ := List.cons_eq_cons.mp hqueue
          exact absurd hx (hseen a List.mem_cons_self)
  | @turn t x queue seen turned got ended hx hheld _ ih =>
      cases first with
      | nil => exact .inr List.nil_prefix
      | cons a first =>
          obtain ⟨rfl, rfl⟩ := List.cons_eq_cons.mp hqueue
          obtain ⟨ha, hnodup⟩ := List.nodup_cons.mp hnodup
          rw [List.filter_cons_of_neg (by simpa using hheld)]
          refine ih hnodup (fun b hb hmem => ?_) rfl
          rcases List.mem_append.mp hmem with hmem | hmem
          · exact hseen b (List.mem_cons_of_mem _ hb) hmem
          · exact ha (List.mem_singleton.mp hmem ▸ hb)
  | @get t x b queue seen turned got ended hx hheld hb _ ih =>
      cases first with
      | nil => exact .inr List.nil_prefix
      | cons a first =>
          obtain ⟨rfl, rfl⟩ := List.cons_eq_cons.mp hqueue
          obtain ⟨ha, hnodup⟩ := List.nodup_cons.mp hnodup
          have hfilter : first.filter (fun d => ¬ holds (put t b) d)
              = first.filter fun d => ¬ holds t d := by
            refine List.filter_congr fun d hd => ?_
            have hiff : holds (put t b) d ↔ holds t d :=
              ⟨fun h => (hfaithful.only _ _ _ _ hb h).resolve_right fun hda => ha (hda ▸ hd),
                hfaithful.mono _ _ _ _ hb⟩
            simp [hiff]
          have hunseen : ∀ d ∈ first, d ∉ seen ++ [a] := by
            intro d hd hmem
            rcases List.mem_append.mp hmem with hmem | hmem
            · exact hseen d (List.mem_cons_of_mem _ hd) hmem
            · exact ha (List.mem_singleton.mp hmem ▸ hd)
          have hrest := ih hnodup hunseen (List.append_assoc ..).symm
          rw [hfilter] at hrest
          rw [List.filter_cons_of_pos (by simpa using hheld), nodes, List.map_cons]
          simpa only [List.cons_prefix_cons, true_and] using hrest

end PrunedSearch
