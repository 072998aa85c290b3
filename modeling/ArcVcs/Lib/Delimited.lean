import ArcVcs.Lib.Reader

/-!
# Readers up to a stop

A field ends at the first stop, and a block of lines at the first empty line. What is read has no
stop, and what has none is read back.
-/

namespace Reader

variable {β : Type*} [DecidableEq β] {stop : β} {l s rest : List β}

/-- What comes before the first stop. The stop itself is dropped. -/
def upTo (stop : β) : Reader β (List β)
  | [] => none
  | b :: s => if b = stop then some ([], s) else (upTo stop s).map fun out => (b :: out.1, out.2)

theorem upTo_append_cons (h : stop ∉ l) (rest : List β) :
    upTo stop (l ++ stop :: rest) = some (l, rest) := by
  induction l with
  | nil => rw [List.nil_append, upTo, if_pos rfl]
  | cons b l ih =>
      obtain ⟨hb, hl⟩ := List.ne_and_not_mem_of_not_mem_cons h
      rw [List.cons_append, upTo, if_neg hb.symm, ih hl]
      rfl

theorem upTo_eq_some_iff : upTo stop s = some (l, rest) ↔ stop ∉ l ∧ s = l ++ stop :: rest := by
  refine ⟨fun h => ?_, fun ⟨hl, hs⟩ => hs ▸ upTo_append_cons hl rest⟩
  induction s generalizing l with
  | nil => cases h
  | cons b s ih =>
      rw [upTo] at h
      split_ifs at h with hb
      · obtain ⟨rfl, rfl⟩ := Prod.mk.inj (Option.some_inj.mp h)
        exact ⟨List.not_mem_nil, by rw [hb]; rfl⟩
      · obtain ⟨⟨l', rest'⟩, hout, heq⟩ := Option.map_eq_some_iff.mp h
        obtain ⟨rfl, rfl⟩ := Prod.mk.inj heq
        obtain ⟨hl, rfl⟩ := ih hout
        exact ⟨List.not_mem_cons_of_ne_of_not_mem (Ne.symm hb) hl, rfl⟩

/-- The lines up to an empty one, where the first line has begun. -/
def blockFrom (stop : β) (line : List β) : Reader β (List (List β))
  | [] => none
  | b :: s =>
      if b = stop then
        if line = [] then some ([], s)
        else (blockFrom stop [] s).map fun out => (line :: out.1, out.2)
      else blockFrom stop (line ++ [b]) s

def block (stop : β) : Reader β (List (List β)) := blockFrom stop []

theorem blockFrom_append_cons {line : List β} (h : stop ∉ l) (hne : line ++ l ≠ [])
    (rest : List β) : blockFrom stop line (l ++ stop :: rest)
      = (block stop rest).map fun out => ((line ++ l) :: out.1, out.2) := by
  induction l generalizing line with
  | nil =>
      rw [List.append_nil] at hne
      rw [List.nil_append, blockFrom, if_pos rfl, if_neg hne, List.append_nil]
      rfl
  | cons b l ih =>
      obtain ⟨hb, hl⟩ := List.ne_and_not_mem_of_not_mem_cons h
      rw [List.cons_append, blockFrom, if_neg hb.symm, ih hl (by simp)]
      simp

/-- **A block of lines is read back.** -/
theorem block_flatMap {lines : List (List β)} (h : ∀ line ∈ lines, line ≠ [] ∧ stop ∉ line)
    (rest : List β) :
    block stop (lines.flatMap (fun line => line ++ [stop]) ++ stop :: rest)
      = some (lines, rest) := by
  induction lines with
  | nil => rw [List.flatMap_nil, List.nil_append, block, blockFrom, if_pos rfl, if_pos rfl]
  | cons line lines ih =>
      obtain ⟨⟨hne, hstop⟩, hlines⟩ := List.forall_mem_cons.mp h
      rw [List.flatMap_cons, List.append_assoc, List.append_assoc, List.singleton_append, block,
        blockFrom_append_cons hstop (by simpa using hne), ih hlines]
      rfl

theorem stop_notMem_of_blockFrom {line : List β} {lines : List (List β)} (hline : stop ∉ line)
    (h : blockFrom stop line s = some (lines, rest)) : ∀ l ∈ lines, stop ∉ l := by
  induction s generalizing line lines with
  | nil => cases h
  | cons b s ih =>
      rw [blockFrom] at h
      split_ifs at h with hb hempty
      · obtain ⟨rfl, -⟩ := Prod.mk.inj (Option.some_inj.mp h)
        simp
      · obtain ⟨⟨lines', rest'⟩, hout, heq⟩ := Option.map_eq_some_iff.mp h
        obtain ⟨rfl, -⟩ := Prod.mk.inj heq
        obtain rfl := (Prod.mk.inj heq).2
        exact List.forall_mem_cons.mpr ⟨hline, ih List.not_mem_nil hout⟩
      · refine ih ?_ h
        rw [List.mem_append, List.mem_singleton]
        exact fun hmem => hmem.elim hline fun heq => hb heq.symm

theorem stop_notMem_of_block {lines : List (List β)} (h : block stop s = some (lines, rest)) :
    ∀ l ∈ lines, stop ∉ l := stop_notMem_of_blockFrom List.not_mem_nil h

end Reader
