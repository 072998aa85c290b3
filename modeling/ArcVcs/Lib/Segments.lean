import Mathlib.Data.List.Basic
import Mathlib.Data.List.DropRight

/-!
# Segments of a list

A list is cut into segments at a separator. Runs of separators at its ends are empty segments, and
one list begins another at a segment exactly when its segments begin those of the other.
-/

namespace Segments

variable {α : Type*} [DecidableEq α] {sep a : α} {l l' : List α}

omit [DecidableEq α] in
theorem rdropWhile_append {p : α → Bool} (h : ∀ a, l.getLast? = some a → p a = false)
    (hl' : ∀ a ∈ l', p a) : (l ++ l').rdropWhile p = l := by
  rw [List.rdropWhile, List.reverse_append,
    List.dropWhile_append_of_pos fun a ha => hl' a (List.mem_reverse.mp ha)]
  have hreverse : l.reverse.dropWhile p = l.reverse := by
    cases hrev : l.reverse with
    | nil => rfl
    | cons a rest =>
        have hlast : l.getLast? = some a := by
          rw [← List.head?_reverse, hrev]
          rfl
        rw [List.dropWhile_cons, h a hlast, if_neg Bool.false_ne_true]
  rw [hreverse, List.reverse_reverse]

omit [DecidableEq α] in
theorem rdropWhile_append_of_mem {p : α → Bool} (ha : a ∈ l') (hp : p a = false) :
    (l ++ l').rdropWhile p = l ++ l'.rdropWhile p := by
  have hne : l'.reverse.dropWhile p ≠ [] := by
    rw [Ne, List.dropWhile_eq_nil_iff]
    intro hall
    rw [hall a (List.mem_reverse.mpr ha)] at hp
    cases hp
  rw [List.rdropWhile, List.reverse_append, List.dropWhile_append, if_neg (by simpa using hne),
    List.reverse_append, List.reverse_reverse, List.rdropWhile]

omit [DecidableEq α] in
theorem rdropWhile_append_of_forall {p : α → Bool} (h : ∀ a ∈ l', p a = true) :
    (l ++ l').rdropWhile p = l.rdropWhile p := by
  rw [List.rdropWhile, List.reverse_append,
    List.dropWhile_append_of_pos fun a ha => h a (List.mem_reverse.mp ha), List.rdropWhile]

/-- **When separators in front can be dropped.** Either nothing is left anyway, or what is put in
front is nothing but separators and the list itself begins with none. -/
theorem rdropWhile_dropWhile_append_iff {p : α → Bool} (hp : p sep = true) {x : List α} :
    ((x ++ l).dropWhile fun a => a = sep).rdropWhile p = l.rdropWhile p
      ↔ (∀ a ∈ x ++ l, p a = true) ∨ ((∀ a ∈ x, a = sep) ∧ l.head? ≠ some sep) := by
  by_cases hx : ∀ a ∈ x, a = sep
  · have hxp : ∀ a ∈ x, p a = true := fun a ha => hx a ha ▸ hp
    rw [List.dropWhile_append_of_pos fun a ha => by simpa using hx a ha]
    cases l with
    | nil =>
        refine iff_of_true rfl (.inl ?_)
        rwa [List.append_nil]
    | cons b l =>
        by_cases hb : b = sep
        · subst hb
          rw [List.dropWhile_cons, if_pos (by simp), or_iff_left fun h => h.2 rfl,
            List.forall_mem_append, and_iff_right hxp, ← List.rdropWhile_eq_nil_iff]
          refine ⟨fun heq => by_contra fun hne => ?_, fun hnil => ?_⟩
          · rw [List.rdropWhile_eq_nil_iff, List.forall_mem_cons, and_iff_right hp] at hne
            push Not at hne
            obtain ⟨a, ha, hpa⟩ := hne
            have hpa : p a = false := by simpa using hpa
            have hsplit := List.takeWhile_append_dropWhile (p := fun c => decide (c = b)) (l := l)
            have hkept : a ∈ l.dropWhile fun c => c = b := by
              rw [← hsplit] at ha
              refine (List.mem_append.mp ha).resolve_left fun htake => ?_
              have heq : a = b := by simpa using List.mem_takeWhile_imp htake
              rw [heq, hp] at hpa
              cases hpa
            rw [← hsplit, ← List.cons_append, rdropWhile_append_of_mem hkept hpa, hsplit] at heq
            have hlength := congrArg List.length heq
            simp at hlength
            omega
          · rw [hnil, List.rdropWhile_eq_nil_iff]
            intro a ha
            exact List.rdropWhile_eq_nil_iff.mp hnil a
              (List.mem_cons_of_mem _ ((List.dropWhile_sublist _).subset ha))
        · rw [List.dropWhile_cons, if_neg (by simpa using hb)]
          exact iff_of_true rfl (.inr ⟨hx, by simpa using hb⟩)
  · have hy : x.dropWhile (fun a => a = sep) ≠ [] := by
      rw [Ne, List.dropWhile_eq_nil_iff]
      simpa using hx
    have hxy : (∀ a ∈ x, p a = true) ↔ ∀ a ∈ x.dropWhile (fun a => a = sep), p a = true := by
      refine ⟨fun h a ha => h a ((List.dropWhile_sublist _).subset ha), fun h a ha => ?_⟩
      rw [← List.takeWhile_append_dropWhile (p := fun a => decide (a = sep)) (l := x)] at ha
      rcases List.mem_append.mp ha with ha | ha
      · have heq : a = sep := by simpa using List.mem_takeWhile_imp ha
        rw [heq, hp]
      · exact h a ha
    rw [List.dropWhile_append, if_neg (by simpa using hy), or_iff_left fun h => hx h.1,
      List.forall_mem_append, hxy]
    by_cases hl : ∀ a ∈ l, p a = true
    · rw [rdropWhile_append_of_forall hl, List.rdropWhile_eq_nil_iff.mpr hl,
        List.rdropWhile_eq_nil_iff, and_iff_left hl]
    · push Not at hl
      obtain ⟨a, ha, hpa⟩ := hl
      have hpa : p a = false := by simpa using hpa
      rw [rdropWhile_append_of_mem ha hpa]
      refine iff_of_false (fun heq => hy (List.append_left_eq_self.mp heq)) fun h => ?_
      rw [h.2 a ha] at hpa
      cases hpa

theorem splitOn_cons_sep (l : List α) : (sep :: l).splitOn sep = [] :: l.splitOn sep := by
  rw [List.splitOn_cons_eq_if_modifyHead, if_pos (beq_self_eq_true sep)]

theorem splitOn_cons_of_ne (h : a ≠ sep) (l : List α) :
    ∃ seg segs, l.splitOn sep = seg :: segs ∧ (a :: l).splitOn sep = (a :: seg) :: segs := by
  obtain ⟨seg, segs, hl⟩ := List.exists_cons_of_ne_nil (List.splitOn_ne_nil sep l)
  refine ⟨seg, segs, hl, ?_⟩
  rw [List.splitOn_cons_eq_if_modifyHead, if_neg (by simpa using h), hl]
  rfl

theorem notMem_of_mem_splitOn {part : List α} (h : part ∈ l.splitOn sep) : sep ∉ part := by
  induction l generalizing part with
  | nil =>
      obtain rfl : part = [] := by simpa using h
      exact List.not_mem_nil
  | cons a l ih =>
      by_cases ha : a = sep
      · subst ha
        rw [splitOn_cons_sep] at h
        rcases List.mem_cons.mp h with rfl | hpart
        · exact List.not_mem_nil
        · exact ih hpart
      · obtain ⟨seg, segs, hsplit, hcons⟩ := splitOn_cons_of_ne ha l
        rw [hcons] at h
        rcases List.mem_cons.mp h with rfl | hpart
        · exact List.not_mem_cons_of_ne_of_not_mem (Ne.symm ha)
            (ih (hsplit ▸ List.mem_cons_self))
        · exact ih (hsplit ▸ List.mem_cons_of_mem _ hpart)

theorem splitOn_append_of_notMem (h : sep ∉ l) (l' : List α) :
    (l ++ l').splitOn sep = (l'.splitOn sep).modifyHead (l ++ ·) := by
  induction l with
  | nil =>
      obtain ⟨seg, segs, hl'⟩ := List.exists_cons_of_ne_nil (List.splitOn_ne_nil sep l')
      rw [List.nil_append, hl']
      rfl
  | cons a l ih =>
      obtain ⟨ha, hl⟩ := List.ne_and_not_mem_of_not_mem_cons h
      obtain ⟨seg, segs, hl', hcons⟩ := splitOn_cons_of_ne ha.symm (l ++ l')
      obtain ⟨seg', segs', hsplit⟩ := List.exists_cons_of_ne_nil (List.splitOn_ne_nil sep l')
      rw [List.cons_append, hcons]
      rw [ih hl, hsplit, List.modifyHead_cons, List.cons_eq_cons] at hl'
      rw [hsplit, List.modifyHead_cons, ← hl'.1, ← hl'.2]
      rfl

/-- **A list begins another at a segment when its segments do.** By induction on the first list. -/
theorem splitOn_prefix_iff :
    l.splitOn sep <+: l'.splitOn sep ↔ l = l' ∨ l ++ [sep] <+: l' := by
  induction l generalizing l' with
  | nil =>
      cases l' with
      | nil => simp
      | cons b l' =>
          by_cases hb : b = sep
          · subst hb
            rw [splitOn_cons_sep, List.splitOn_nil]
            simp
          · obtain ⟨seg, segs, -, hsplit⟩ := splitOn_cons_of_ne hb l'
            rw [hsplit, List.splitOn_nil]
            simp [Ne.symm hb]
  | cons a l ih =>
      have hcons (b : α) (l' : List α) : (a :: l = b :: l' ∨ a :: l ++ [sep] <+: b :: l')
          ↔ a = b ∧ (l = l' ∨ l ++ [sep] <+: l') := by
        rw [List.cons_append, List.cons_prefix_cons, List.cons_eq_cons, ← and_or_left]
      have hnil : ¬ (a :: l = [] ∨ a :: l ++ [sep] <+: []) := by simp
      by_cases ha : a = sep
      · subst ha
        rw [splitOn_cons_sep]
        cases l' with
        | nil =>
            rw [List.splitOn_nil, List.cons_prefix_cons, List.prefix_nil]
            exact iff_of_false (fun h => List.splitOn_ne_nil _ _ h.2) hnil
        | cons b l' =>
            rw [hcons]
            by_cases hb : b = a
            · subst hb
              rw [splitOn_cons_sep, List.cons_prefix_cons, and_iff_right rfl, ih,
                and_iff_right rfl]
            · obtain ⟨seg, segs, -, hsplit⟩ := splitOn_cons_of_ne hb l'
              rw [hsplit, List.cons_prefix_cons]
              exact iff_of_false (fun h => absurd h.1 (by simp)) fun h => hb h.1.symm
      · obtain ⟨seg, segs, hl, hsplit⟩ := splitOn_cons_of_ne ha l
        rw [hsplit]
        cases l' with
        | nil =>
            rw [List.splitOn_nil, List.cons_prefix_cons]
            exact iff_of_false (fun h => absurd h.1 (by simp)) hnil
        | cons b l' =>
            rw [hcons]
            by_cases hb : b = sep
            · subst hb
              rw [splitOn_cons_sep, List.cons_prefix_cons]
              exact iff_of_false (fun h => absurd h.1 (by simp)) fun h => ha h.1
            · obtain ⟨seg', segs', hl', hsplit'⟩ := splitOn_cons_of_ne hb l'
              rw [hsplit', List.cons_prefix_cons, List.cons_eq_cons, ← ih, hl, hl',
                List.cons_prefix_cons, and_assoc]

theorem splitOn_replicate_append (n : ℕ) (l : List α) :
    (List.replicate n sep ++ l).splitOn sep = List.replicate n [] ++ l.splitOn sep := by
  induction n with
  | zero => rfl
  | succ n ih =>
      rw [List.replicate_succ, List.cons_append, splitOn_cons_sep, ih]
      rfl

theorem splitOn_append_replicate (n : ℕ) (l : List α) :
    (l ++ List.replicate n sep).splitOn sep = l.splitOn sep ++ List.replicate n [] := by
  cases n with
  | zero => rw [List.replicate_zero, List.replicate_zero, List.append_nil, List.append_nil]
  | succ n =>
      have hreplicate := @splitOn_replicate_append _ _ sep n []
      rw [List.append_nil, List.splitOn_nil, ← List.replicate_succ'] at hreplicate
      rw [List.replicate_succ, List.splitOn_append_cons_self, hreplicate]

theorem splitOn_concat_of_ne (h : a ≠ sep) (l : List α) :
    ∃ segs seg, (l ++ [a]).splitOn sep = segs ++ [seg ++ [a]] := by
  induction l with
  | nil =>
      refine ⟨[], [], ?_⟩
      rw [List.nil_append, List.splitOn_eq_singleton (by simpa using h.symm)]
      rfl
  | cons b l ih =>
      obtain ⟨segs, seg, hsplit⟩ := ih
      by_cases hb : b = sep
      · subst hb
        exact ⟨[] :: segs, seg, by rw [List.cons_append, splitOn_cons_sep, hsplit]; rfl⟩
      · obtain ⟨first, rest, hl, hcons⟩ := splitOn_cons_of_ne hb (l ++ [a])
        rw [List.cons_append, hcons]
        rw [hsplit] at hl
        cases segs with
        | nil =>
            obtain ⟨rfl, rfl⟩ := List.cons_eq_cons.mp hl
            exact ⟨[], b :: seg, rfl⟩
        | cons seg' segs =>
            obtain ⟨rfl, rfl⟩ := List.cons_eq_cons.mp hl
            exact ⟨(b :: seg') :: segs, seg, rfl⟩

end Segments

/-!
## Cutting a list after each terminator

The pieces keep their terminators, so they append to the list. Only the last one may lack its
terminator, and then it is not empty. There is one way to cut a list like this.
-/

namespace Terminated

variable {α : Type*} [DecidableEq α] {sep : α}

/-- The pieces of a list, each up to its terminator. -/
def cut (sep : α) : List α → List (List α)
  | [] => []
  | a :: l =>
      if a = sep then [a] :: cut sep l
      else match cut sep l with
        | [] => [[a]]
        | piece :: pieces => (a :: piece) :: pieces

/-- Pieces that end with their only terminator, but for a last one that is open. -/
inductive Pieces (sep : α) : List (List α) → Prop
  | nil : Pieces sep []
  | last {piece : List α} : piece ≠ [] → sep ∉ piece → Pieces sep [piece]
  | cons {body : List α} {pieces : List (List α)} :
      sep ∉ body → Pieces sep pieces → Pieces sep ((body ++ [sep]) :: pieces)

@[simp] theorem flatten_cut (l : List α) : (cut sep l).flatten = l := by
  induction l with
  | nil => rfl
  | cons a l ih =>
      rw [cut]
      split_ifs with ha
      · rw [List.flatten_cons, ih, List.singleton_append]
      · cases hcut : cut sep l with
        | nil =>
            rw [hcut] at ih
            rw [← ih]
            rfl
        | cons piece pieces =>
            rw [hcut] at ih
            rw [← ih]
            rfl

omit [DecidableEq α] in
theorem Pieces.cons_cons {a : α} {piece : List α} {pieces : List (List α)} (ha : a ≠ sep)
    (h : Pieces sep (piece :: pieces)) : Pieces sep ((a :: piece) :: pieces) := by
  cases h with
  | last hne hsep =>
      have hnotMem := List.not_mem_cons_of_ne_of_not_mem ha.symm hsep
      exact .last (List.cons_ne_nil a piece) hnotMem
  | @cons body pieces hsep hpieces =>
      exact @Pieces.cons α sep (a :: body) pieces
        (List.not_mem_cons_of_ne_of_not_mem ha.symm hsep) hpieces

omit [DecidableEq α] in
theorem Pieces.of_mem {pieces : List (List α)} (h : Pieces sep pieces) {piece : List α}
    (hmem : piece ∈ pieces) : sep ∉ piece ∨ ∃ body, sep ∉ body ∧ piece = body ++ [sep] := by
  induction h with
  | nil => exact absurd hmem List.not_mem_nil
  | last _ hsep => exact Or.inl (List.mem_singleton.mp hmem ▸ hsep)
  | cons hsep _ ih =>
      rcases List.mem_cons.mp hmem with rfl | hmem
      · exact Or.inr ⟨_, hsep, rfl⟩
      · exact ih hmem

theorem pieces_cut (sep : α) (l : List α) : Pieces sep (cut sep l) := by
  induction l with
  | nil => exact .nil
  | cons a l ih =>
      rw [cut]
      split_ifs with ha
      · rw [ha]
        exact @Pieces.cons α sep [] _ List.not_mem_nil ih
      · cases hcut : cut sep l with
        | nil => exact .last (List.cons_ne_nil a []) (by simpa using Ne.symm ha)
        | cons piece pieces => exact (hcut ▸ ih).cons_cons ha

theorem cut_of_notMem {l : List α} (hne : l ≠ []) (hsep : sep ∉ l) : cut sep l = [l] := by
  induction l with
  | nil => exact absurd rfl hne
  | cons a l ih =>
      obtain ⟨ha, hl⟩ := List.ne_and_not_mem_of_not_mem_cons hsep
      rw [cut, if_neg (Ne.symm ha)]
      cases l with
      | nil => rfl
      | cons b l => rw [ih (List.cons_ne_nil b l) hl]

theorem cut_append_terminator {body : List α} (hsep : sep ∉ body) (l : List α) :
    cut sep (body ++ sep :: l) = (body ++ [sep]) :: cut sep l := by
  induction body with
  | nil => rw [List.nil_append, List.nil_append, cut, if_pos rfl]
  | cons a body ih =>
      obtain ⟨ha, hbody⟩ := List.ne_and_not_mem_of_not_mem_cons hsep
      rw [List.cons_append, cut, if_neg (Ne.symm ha), ih hbody]
      rfl

theorem cut_flatten {pieces : List (List α)} (h : Pieces sep pieces) :
    cut sep pieces.flatten = pieces := by
  induction h with
  | nil => rfl
  | last hne hsep => rw [List.flatten_singleton, cut_of_notMem hne hsep]
  | cons hsep _ ih =>
      rw [List.flatten_cons, List.append_assoc, List.singleton_append, cut_append_terminator hsep,
        ih]

theorem cut_eq_cons {l : List α} (hne : l ≠ []) :
    cut sep l = l.take (l.findIdx (· = sep) + 1) :: cut sep (l.drop (l.findIdx (· = sep) + 1)) := by
  induction l with
  | nil => exact absurd rfl hne
  | cons a l ih =>
      rw [cut, List.findIdx_cons]
      by_cases ha : a = sep
      · rw [if_pos ha, decide_eq_true ha]
        rfl
      · rw [if_neg ha, decide_eq_false ha]
        cases l with
        | nil => rfl
        | cons b l =>
            rw [ih (List.cons_ne_nil b l)]
            rfl

end Terminated
