import Mathlib.Data.List.Induction
import Mathlib.Data.List.Perm.Basic
import Mathlib.Data.Nat.Notation
import Mathlib.Tactic.TypeStar

/-!
# Histories of a stack

What callers did to a stack, in the order in which it took effect. A history is legal when every
pop takes the top.
-/

namespace StackHistory

/-- A change of the stack carries the number of the version that it makes. -/
inductive Effect (ι α : Type*)
  | pushed (i : ι) (a : α) (version : ℕ)
  | popped (i : ι) (a : α) (version : ℕ)
  | foundEmpty (i : ι)
  | listed (i : ι)

variable {ι α : Type*}

namespace Effect

def version : Effect ι α → Option ℕ
  | .pushed _ _ v | .popped _ _ v => some v
  | .foundEmpty _ | .listed _ => none

def changedBy [DecidableEq ι] (i : ι) : Effect ι α → Bool
  | .pushed j _ _ | .popped j _ _ => decide (j = i)
  | .foundEmpty _ | .listed _ => false

def apply [DecidableEq α] (stack : List α) : Effect ι α → Option (List α)
  | .pushed _ a _ => some (a :: stack)
  | .popped _ a _ => if stack.head? = some a then some stack.tail else none
  | .foundEmpty _ => if stack = [] then some stack else none
  | .listed _ => some stack

def item : Effect ι α → List α
  | .pushed _ a _ => [a]
  | _ => []

def poppedItem : Effect ι α → List α
  | .popped _ a _ => [a]
  | _ => []

end Effect

/-- The stack after a history, if the history is legal. -/
def replay [DecidableEq α] (start : List α) (history : List (Effect ι α)) : Option (List α) :=
  history.foldlM Effect.apply start

def versions (history : List (Effect ι α)) : List ℕ := history.filterMap Effect.version

def changesBy [DecidableEq ι] (i : ι) (history : List (Effect ι α)) : List (Effect ι α) :=
  history.filter (Effect.changedBy i)

def pushes (history : List (Effect ι α)) : List α := history.flatMap Effect.item

def pops (history : List (Effect ι α)) : List α := history.flatMap Effect.poppedItem

section Replay

variable [DecidableEq α] {start stack : List α} {history : List (Effect ι α)}

theorem replay_append (start : List α) (history history' : List (Effect ι α)) :
    replay start (history ++ history') = (replay start history).bind (replay · history') :=
  List.foldlM_append

theorem replay_append_singleton (start : List α) (history : List (Effect ι α)) (e : Effect ι α) :
    replay start (history ++ [e]) = (replay start history).bind fun stack => e.apply stack := by
  simp [replay, List.foldlM_append]

theorem replay_fixed (h : ∀ e ∈ history, e.apply stack = some stack) :
    replay stack history = some stack := by
  induction history with
  | nil => rfl
  | cons e history ih =>
      rw [replay, List.foldlM_cons, h e List.mem_cons_self]
      exact ih fun e' he' => h e' (.tail _ he')

/-- **What is on the stack.** Everything that was pushed and not popped, once for each push. -/
theorem perm_of_replay (h : replay start history = some stack) :
    (start ++ pushes history).Perm (stack ++ pops history) := by
  induction history using List.reverseRecOn generalizing stack with
  | nil =>
      obtain rfl : start = stack := by simpa [replay] using h
      exact .refl _
  | append_singleton history e ih =>
      rw [replay_append_singleton] at h
      obtain ⟨before, hbefore, hstep⟩ := Option.bind_eq_some_iff.mp h
      have hperm := ih hbefore
      cases e with
      | pushed i a v =>
          obtain rfl : a :: before = stack := Option.some.inj hstep
          simp only [pushes, pops, List.flatMap_append, List.flatMap_singleton, Effect.item,
            Effect.poppedItem, List.append_nil] at hperm ⊢
          rw [← List.append_assoc]
          exact (List.perm_append_singleton a _).trans (hperm.cons a)
      | popped i a v =>
          rw [Effect.apply] at hstep
          split_ifs at hstep with htop
          obtain rfl := Option.some.inj hstep
          obtain ⟨rest, rfl⟩ := List.head?_eq_some_iff.mp htop
          simp only [pushes, pops, List.flatMap_append, List.flatMap_singleton, Effect.item,
            Effect.poppedItem, List.append_nil, List.tail_cons] at hperm ⊢
          rw [← List.append_assoc]
          exact hperm.trans (List.perm_append_singleton a _).symm
      | foundEmpty i =>
          rw [Effect.apply] at hstep
          split_ifs at hstep with hnil
          obtain rfl := Option.some.inj hstep
          simpa [pushes, pops, Effect.item, Effect.poppedItem] using hperm
      | listed i =>
          obtain rfl := Option.some.inj hstep
          simpa [pushes, pops, Effect.item, Effect.poppedItem] using hperm

end Replay

theorem versions_append (history history' : List (Effect ι α)) :
    versions (history ++ history') = versions history ++ versions history' :=
  List.filterMap_append

theorem versions_append_singleton (history : List (Effect ι α)) {e : Effect ι α} {v : ℕ}
    (h : e.version = some v) : versions (history ++ [e]) = versions history ++ [v] := by
  simp [versions, List.filterMap_append, h]

theorem versions_eq_nil {history : List (Effect ι α)} (h : ∀ e ∈ history, e.version = none) :
    versions history = [] :=
  List.filterMap_eq_nil_iff.mpr h

section Callers

variable [DecidableEq ι]

theorem Effect.changedBy_of_version_eq_none {e : Effect ι α} (h : e.version = none) (i : ι) :
    e.changedBy i = false := by
  cases e <;> first | rfl | cases h

theorem changesBy_append (i : ι) (history history' : List (Effect ι α)) :
    changesBy i (history ++ history') = changesBy i history ++ changesBy i history' :=
  List.filter_append ..

theorem changesBy_append_singleton {i : ι} (history : List (Effect ι α)) {e : Effect ι α}
    (h : e.changedBy i = true) : changesBy i (history ++ [e]) = changesBy i history ++ [e] := by
  simp [changesBy, List.filter_append, h]

theorem changesBy_append_of_not_changed {i : ι} {history history' : List (Effect ι α)}
    (h : ∀ e ∈ history', e.changedBy i = false) :
    changesBy i (history ++ history') = changesBy i history := by
  have hnil : changesBy i history' = [] := by
    rw [changesBy, List.filter_eq_nil_iff]
    exact fun e he => by simp [h e he]
  rw [changesBy_append, hnil, List.append_nil]

end Callers

end StackHistory
