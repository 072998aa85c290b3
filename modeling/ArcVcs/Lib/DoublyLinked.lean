import Mathlib.Data.List.Induction
import Mathlib.Data.List.Nodup

/-!
# Doubly linked lists

Nodes with links to the previous and to the next one. A list of nodes is linked when the links of
each node, the head and the tail are what its place in the list says. A node is taken out of the
list by linking its neighbours, and put at the end behind the tail.
-/

structure Links (ι : Type*) where
  prev : ι → Option ι
  next : ι → Option ι
  head : Option ι
  tail : Option ι

namespace Links

variable {ι : Type*}

/-- The links are those of the list of nodes. -/
structure Are (links : Links ι) (order : List ι) : Prop where
  nodup : order.Nodup
  head : links.head = order.head?
  tail : links.tail = order.getLast?
  node : ∀ before i after, order = before ++ i :: after →
    links.prev i = before.getLast? ∧ links.next i = after.head?

variable {links : Links ι} {order before after : List ι} {i : ι}

theorem Are.congr {links' : Links ι} (h : links.Are order) (hhead : links'.head = links.head)
    (htail : links'.tail = links.tail)
    (hnode : ∀ i ∈ order, links'.prev i = links.prev i ∧ links'.next i = links.next i) :
    links'.Are order where
  nodup := h.nodup
  head := hhead.trans h.head
  tail := htail.trans h.tail
  node before i after heq := by
    obtain ⟨hprev, hnext⟩ := hnode i (heq ▸ List.mem_append_right before List.mem_cons_self)
    rw [hprev, hnext]
    exact h.node before i after heq

variable [DecidableEq ι]

/-- Link the neighbours of a node. -/
def detach (links : Links ι) (i : ι) : Links ι where
  prev j := if j = i then none else if links.next i = some j then links.prev i else links.prev j
  next j := if j = i then none else if links.prev i = some j then links.next i else links.next j
  head := if links.head = some i then links.next i else links.head
  tail := if links.tail = some i then links.prev i else links.tail

/-- Link a node behind the tail. -/
def pushBack (links : Links ι) (i : ι) : Links ι where
  prev j := if j = i then links.tail else links.prev j
  next j := if j = i then none else if links.tail = some j then some i else links.next j
  head := if links.tail = none then some i else links.head
  tail := some i

theorem Are.detach_after {c back : List ι} {j : ι}
    (h : links.Are (before ++ i :: (c ++ j :: back))) :
    (links.detach i).prev j = (before ++ c).getLast? ∧ (links.detach i).next j = back.head? := by
  obtain ⟨hprev, hnext⟩ := h.node before i (c ++ j :: back) rfl
  obtain ⟨hprevj, hnextj⟩ := h.node (before ++ i :: c) j back (by
    rw [List.append_assoc, List.cons_append])
  have hnodup := h.nodup
  rw [List.nodup_append, List.nodup_cons, List.nodup_append] at hnodup
  obtain ⟨-, ⟨hi, -, -, hdisjoint⟩, hbefore⟩ := hnodup
  have hmem : j ∈ c ++ j :: back := List.mem_append_right c List.mem_cons_self
  have hji : j ≠ i := fun heq => hi (heq ▸ hmem)
  constructor
  · simp only [detach, if_neg hji, hnext, hprev]
    cases c with
    | nil => rw [List.nil_append, List.head?_cons, if_pos rfl, List.append_nil]
    | cons a c =>
        have haj : a ≠ j := hdisjoint a List.mem_cons_self j List.mem_cons_self
        rw [List.cons_append, List.head?_cons, if_neg (by simpa using haj), hprevj,
          List.getLast?_append_of_ne_nil _ (List.cons_ne_nil a c),
          List.getLast?_append_of_ne_nil _ (List.cons_ne_nil i (a :: c)), List.getLast?_cons_cons]
  · have hlast : before.getLast? ≠ some j := fun heq =>
      hbefore j (List.mem_of_getLast? heq) j (List.mem_cons_of_mem i hmem) rfl
    simp only [detach, if_neg hji, hprev, if_neg hlast, hnextj]

theorem Are.detach_before {front c : List ι} {j : ι}
    (h : links.Are (front ++ j :: c ++ i :: after)) :
    (links.detach i).prev j = front.getLast? ∧ (links.detach i).next j = (c ++ after).head? := by
  obtain ⟨hprev, hnext⟩ := h.node (front ++ j :: c) i after rfl
  obtain ⟨hprevj, hnextj⟩ := h.node front j (c ++ i :: after) (by
    rw [List.append_assoc, List.cons_append])
  have hnodup := h.nodup
  rw [List.nodup_append, List.nodup_append, List.nodup_cons] at hnodup
  obtain ⟨⟨-, ⟨hj, -⟩, -⟩, -, hafter⟩ := hnodup
  have hmem : j ∈ front ++ j :: c := List.mem_append_right front List.mem_cons_self
  have hji : j ≠ i := hafter j hmem i List.mem_cons_self
  constructor
  · have hhead : after.head? ≠ some j := fun heq =>
      hafter j hmem j (List.mem_cons_of_mem i (List.mem_of_mem_head? heq)) rfl
    simp only [detach, if_neg hji, hnext, if_neg hhead, hprevj]
  · simp only [detach, if_neg hji, hnext, hprev]
    cases c with
    | nil => rw [List.getLast?_concat, if_pos rfl, List.nil_append]
    | cons a c =>
        have hlast : (front ++ j :: a :: c).getLast? ≠ some j := by
          rw [List.getLast?_append_of_ne_nil _ (List.cons_ne_nil j _), List.getLast?_cons_cons]
          exact fun heq => hj (List.mem_of_getLast? heq)
        rw [if_neg hlast, hnextj]
        rfl

theorem Are.detach (h : links.Are (before ++ i :: after)) :
    (links.detach i).Are (before ++ after) := by
  obtain ⟨hprev, hnext⟩ := h.node before i after rfl
  have hnodup := h.nodup
  rw [List.nodup_append, List.nodup_cons] at hnodup
  obtain ⟨-, ⟨hi, -⟩, hdisjoint⟩ := hnodup
  refine ⟨?_, ?_, ?_, fun front j back heq => ?_⟩
  · exact h.nodup.sublist (List.Sublist.append_left (List.sublist_cons_self i after) before)
  · simp only [Links.detach, h.head, hnext]
    cases before with
    | nil => exact if_pos rfl
    | cons b before =>
        refine if_neg fun heq => hdisjoint b List.mem_cons_self i List.mem_cons_self ?_
        exact Option.some.inj heq
  · simp only [Links.detach, h.tail, hprev]
    cases after using List.reverseRecOn with
    | nil => rw [List.getLast?_concat, if_pos rfl, List.append_nil]
    | append_singleton after a _ =>
        have hlast : (before ++ i :: (after ++ [a])).getLast? = some a := by
          rw [← List.cons_append, ← List.append_assoc, List.getLast?_concat]
        rw [hlast, ← List.append_assoc, List.getLast?_concat]
        refine if_neg fun heq => hi ?_
        rw [← Option.some.inj heq]
        exact List.mem_append_right after List.mem_cons_self
  · rcases List.append_eq_append_iff.mp heq with ⟨c, rfl, rfl⟩ | ⟨c, rfl, hback⟩
    · exact h.detach_after
    · cases c with
      | nil =>
          obtain rfl : j :: back = after := hback
          rw [List.append_nil] at h
          have hafter := Are.detach_after (c := []) h
          rwa [List.append_nil] at hafter
      | cons b c =>
          obtain ⟨rfl, rfl⟩ := List.cons.inj hback
          exact h.detach_before

theorem Are.pushBack (h : links.Are order) (hi : i ∉ order) :
    (links.pushBack i).Are (order ++ [i]) := by
  refine ⟨?_, ?_, ?_, fun front j back heq => ?_⟩
  · refine List.nodup_append.mpr ⟨h.nodup, List.nodup_singleton i, fun a ha b hb hab => hi ?_⟩
    rwa [hab, List.mem_singleton.mp hb] at ha
  · simp only [Links.pushBack, h.tail, h.head]
    cases order with
    | nil => rfl
    | cons a order => rw [if_neg (by simp), List.cons_append, List.head?_cons, List.head?_cons]
  · rw [List.getLast?_concat]
    rfl
  · simp only [Links.pushBack, h.tail]
    cases back using List.reverseRecOn with
    | nil =>
        obtain ⟨rfl, hij⟩ := List.append_inj' heq rfl
        obtain rfl : i = j := by simpa using hij
        rw [if_pos rfl, if_pos rfl]
        exact ⟨rfl, rfl⟩
    | append_singleton back b _ =>
        rw [← List.cons_append, ← List.append_assoc] at heq
        obtain ⟨rfl, hib⟩ := List.append_inj' heq rfl
        obtain rfl : i = b := by simpa using hib
        obtain ⟨hprevj, hnextj⟩ := h.node front j back rfl
        have hji : j ≠ i := fun heq => hi (heq ▸ List.mem_append_right front List.mem_cons_self)
        rw [if_neg hji, if_neg hji, hprevj, hnextj]
        refine ⟨rfl, ?_⟩
        cases back with
        | nil => rw [List.getLast?_concat, if_pos rfl, List.nil_append, List.head?_cons]
        | cons a back =>
            have hlast : (front ++ j :: a :: back).getLast? ≠ some j := by
              rw [List.getLast?_append_of_ne_nil _ (List.cons_ne_nil j _), List.getLast?_cons_cons]
              have hnodup := h.nodup
              rw [List.nodup_append, List.nodup_cons] at hnodup
              exact fun heq => hnodup.2.1.1 (List.mem_of_getLast? heq)
            rw [if_neg hlast, List.cons_append, List.head?_cons, List.head?_cons]

end Links
