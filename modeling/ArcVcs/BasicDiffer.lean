import ArcVcs.Lib.Occurrences
import ArcVcs.Lib.Encoding
import Mathlib.Algebra.GroupWithZero.Nat

/-!
# The text differ

`BasicDiffer` fills a table with the lengths of the longest common sublists of all pairs of
suffixes, in scratch memory that it keeps, and walks through it from the start of both sequences.
-/

namespace ArcVcs.Differ

/-- The most `u32` cells that a vector can have, `isize::MAX` bytes of them. -/
def vecMax : ℕ := (2 ^ 63 - 1) / 4

structure Range where
  start : ℕ
  stop : ℕ
deriving DecidableEq

inductive Edit where
  | delete (before : Range)
  | insert (at_ : ℕ) (after : Range)
  | replace (before after : Range)
deriving DecidableEq

structure ScratchBuffer where
  dp : List UInt32
  bounded : dp.length ≤ vecMax

namespace ScratchBuffer

def new : ScratchBuffer := ⟨[], Nat.zero_le _⟩

/-- `prepare_dp`. There is no result when `resize` panics, as the cells do not fit in a vector. -/
def prepareDp (scratch : ScratchBuffer) (rows cols : ℕ) : Option ScratchBuffer :=
  let needed := Usize.saturatingMul rows cols
  if h : scratch.dp.length < needed then
    if hneeded : needed ≤ vecMax then
      some {
        dp := scratch.dp ++ List.replicate (needed - scratch.dp.length) 0
        bounded := by
          rw [List.length_append, List.length_replicate]
          omega }
    else none
  else
    some {
      dp := List.replicate needed 0 ++ scratch.dp.drop needed
      bounded := by
        have hbounded := scratch.bounded
        rw [List.length_append, List.length_replicate, List.length_drop]
        omega }

end ScratchBuffer

/-- The borrowed cells of a scratch buffer, and the cells after them. -/
structure DpSlice where
  cells : List UInt32
  rest : List UInt32
  bounded : cells.length + rest.length ≤ vecMax

namespace DpSlice

/-- `dp[k]`, which panics out of bounds. -/
def get? (dp : DpSlice) (k : ℕ) : Option UInt32 := dp.cells[k]?

/-- `dp[k] = value`, which panics out of bounds. -/
def set? (dp : DpSlice) (k : ℕ) (value : UInt32) : Option DpSlice :=
  if k < dp.cells.length then
    some { dp with
      cells := dp.cells.set k value
      bounded := by
        rw [List.length_set]
        exact dp.bounded }
  else none

/-- The scratch buffer after the borrow. -/
def release (dp : DpSlice) : ScratchBuffer :=
  ⟨dp.cells ++ dp.rest, by rw [List.length_append]; exact dp.bounded⟩

end DpSlice

/-- `dp_mut`, which prepares the buffer once more. -/
def ScratchBuffer.dpMut (scratch : ScratchBuffer) (rows cols : ℕ) : Option DpSlice :=
  (scratch.prepareDp rows cols).map fun scratch =>
    let needed := Usize.saturatingMul rows cols
    { cells := scratch.dp.take needed
      rest := scratch.dp.drop needed
      bounded := by
        rw [← List.length_append, List.take_append_drop]
        exact scratch.bounded }

structure BasicDiffer where
  scratch : ScratchBuffer

def BasicDiffer.new : BasicDiffer := ⟨.new⟩

def idx (i j cols : ℕ) : ℕ := i * cols + j

section Diff

variable {T : Type*} [DecidableEq T]

/-- `for j in (0..m).rev()`, with the element of `before` in this row. -/
def fillRow (element : T) (after : List T) (i cols : ℕ) : ℕ → DpSlice → Option DpSlice
  | 0, dp => some dp
  | j + 1, dp => after[j]?.bind fun other => do
      let value ←
        if element = other then (dp.get? (idx (i + 1) (j + 1) cols)).map (· + 1)
        else do
          let below ← dp.get? (idx (i + 1) j cols)
          let right ← dp.get? (idx i (j + 1) cols)
          pure (max below right)
      fillRow element after i cols j (← dp.set? (idx i j cols) value)

/-- `for i in (0..n).rev()`. -/
def fillTable (before after : List T) (cols : ℕ) : ℕ → DpSlice → Option DpSlice
  | 0, dp => some dp
  | i + 1, dp => before[i]?.bind fun element => do
      fillTable before after cols i (← fillRow element after i cols after.length dp)

/-- The last two loops: what is left of `before` is deleted, and then what is left of `after` is
inserted. -/
def tails (n m i j : ℕ) : List Edit :=
  (List.range' i (n - i)).map (fun k => .delete ⟨k, k + 1⟩)
    ++ (List.range' j (m - j)).map fun k => .insert (max i n) ⟨k, k + 1⟩

/-- The edits that the loops push from here on. -/
def traceback (before after : List T) (dp : DpSlice) (cols : ℕ) (i j : ℕ) : Option (List Edit) :=
  if h : i < before.length ∧ j < after.length then
    if before[i] = after[j] then traceback before after dp cols (i + 1) (j + 1)
    else do
      let deleteScore ← dp.get? (idx (i + 1) j cols)
      let insertScore ← dp.get? (idx i (j + 1) cols)
      if insertScore ≤ deleteScore then
        return .delete ⟨i, i + 1⟩ :: (← traceback before after dp cols (i + 1) j)
      else
        return .insert i ⟨j, j + 1⟩ :: (← traceback before after dp cols i (j + 1))
  else some (tails before.length after.length i j)
termination_by before.length - i + (after.length - j)

def coalesceReplace : List Edit → List Edit
  | .delete before :: .insert at_ after :: edits =>
      if at_ = before.start ∨ at_ = before.stop then .replace before after :: coalesceReplace edits
      else .delete before :: coalesceReplace (.insert at_ after :: edits)
  | edit :: edits => edit :: coalesceReplace edits
  | [] => []

/-- The script before it is coalesced, and the differ afterwards. -/
def BasicDiffer.rawDiff (differ : BasicDiffer) (before after : List T) :
    Option (BasicDiffer × List Edit) := do
  let n := before.length
  let m := after.length
  let cols := m + 1
  let rows := n + 1
  let scratch ← differ.scratch.prepareDp rows cols
  let dp ← scratch.dpMut rows cols
  let dp ← fillTable before after cols n dp
  let script ← traceback before after dp cols 0 0
  return (⟨dp.release⟩, script)

def BasicDiffer.diff (differ : BasicDiffer) (before after : List T) :
    Option (BasicDiffer × List Edit) :=
  (differ.rawDiff before after).map fun out => (out.1, coalesceReplace out.2)

/-- A slice of a sequence, which panics out of bounds. -/
def slice (l : List T) (start stop : ℕ) : Option (List T) :=
  if start ≤ stop ∧ stop ≤ l.length then some ((l.drop start).take (stop - start)) else none

def applyFrom (old new : List T) : ℕ → List T → List Edit → Option (List T)
  | cursor, out, [] => (slice old cursor old.length).map (out ++ ·)
  | cursor, out, .delete before :: edits => do
      applyFrom old new before.stop (out ++ (← slice old cursor before.start)) edits
  | cursor, out, .insert at_ after :: edits => do
      let kept ← slice old cursor at_
      applyFrom old new at_ (out ++ kept ++ (← slice new after.start after.stop)) edits
  | cursor, out, .replace before after :: edits => do
      let kept ← slice old cursor before.start
      applyFrom old new before.stop (out ++ kept ++ (← slice new after.start after.stop)) edits

def applyScript (old new : List T) (script : List Edit) : Option (List T) :=
  applyFrom old new 0 [] script

end Diff

/-! ## Paths through both sequences -/

namespace Edit

def deleted : Edit → ℕ
  | .delete before => before.stop - before.start
  | .insert _ _ => 0
  | .replace before _ => before.stop - before.start

def inserted : Edit → ℕ
  | .delete _ => 0
  | .insert _ after => after.stop - after.start
  | .replace _ after => after.stop - after.start

end Edit

/-- How many elements a script deletes and inserts. -/
def cost (script : List Edit) : ℕ :=
  (script.map Edit.deleted).sum + (script.map Edit.inserted).sum

section Paths

variable {T : Type*} {before after : List T} {i j : ℕ} {edits : List Edit}

/-- The edits lead from a position in both sequences to their ends. Between two edits elements that
are equal are kept. -/
inductive Path (before after : List T) : ℕ → ℕ → List Edit → Prop
  | done : Path before after before.length after.length []
  | keep {i j : ℕ} {edits : List Edit} {element : T} :
      before[i]? = some element → after[j]? = some element →
        Path before after (i + 1) (j + 1) edits → Path before after i j edits
  | delete {i j : ℕ} {edits : List Edit} :
      Path before after (i + 1) j edits → Path before after i j (.delete ⟨i, i + 1⟩ :: edits)
  | insert {i j : ℕ} {edits : List Edit} :
      Path before after i (j + 1) edits → Path before after i j (.insert i ⟨j, j + 1⟩ :: edits)
  | replace {i j : ℕ} {edits : List Edit} :
      Path before after (i + 1) (j + 1) edits →
        Path before after i j (.replace ⟨i, i + 1⟩ ⟨j, j + 1⟩ :: edits)

theorem Path.le (h : Path before after i j edits) : i ≤ before.length ∧ j ≤ after.length := by
  induction h with
  | done => exact ⟨le_rfl, le_rfl⟩
  | keep _ _ _ ih | delete _ ih | insert _ ih | replace _ ih => omega

theorem slice_eq {l : List T} {start stop : ℕ} (h : start ≤ stop) (hstop : stop ≤ l.length) :
    slice l start stop = some ((l.take stop).drop start) := by
  rw [slice, if_pos ⟨h, hstop⟩, List.drop_take]

theorem take_append_slice (l : List T) (j : ℕ) :
    l.take j ++ (l.take (j + 1)).drop j = l.take (j + 1) := by
  have h := List.take_append_drop j (l.take (j + 1))
  rwa [List.take_take, min_eq_left (Nat.le_succ j)] at h

/-- Applying the edits from a cursor on gives the second sequence, when what is written and what is
still to be copied are its part up to the position. -/
theorem applyFrom_of_path (h : Path before after i j edits) {cursor : ℕ} {out : List T}
    (hcursor : cursor ≤ i) (hout : out ++ (before.take i).drop cursor = after.take j) :
    applyFrom before after cursor out edits = some after := by
  induction h generalizing cursor out with
  | done =>
      rw [applyFrom, slice_eq hcursor le_rfl, Option.map_some, hout, List.take_length]
  | @keep i j edits element hi hj hpath ih =>
      obtain ⟨hilt, rfl⟩ := List.getElem?_eq_some_iff.mp hi
      obtain ⟨hjlt, heq⟩ := List.getElem?_eq_some_iff.mp hj
      refine ih (hcursor.trans (Nat.le_succ i)) ?_
      have hlen : cursor ≤ (before.take i).length := by
        rw [List.length_take]
        omega
      rw [← List.take_append_getElem hilt, ← List.take_append_getElem hjlt,
        List.drop_append_of_le_length hlen, ← List.append_assoc, hout, heq]
  | @delete i j edits hpath ih =>
      have hi := hpath.le.1
      rw [applyFrom, slice_eq hcursor (by omega)]
      refine ih le_rfl ?_
      rw [hout, List.drop_take_self, List.append_nil]
  | @insert i j edits hpath ih =>
      have hle := hpath.le
      rw [applyFrom, slice_eq hcursor hle.1, slice_eq (Nat.le_succ j) hle.2]
      refine ih le_rfl ?_
      rw [hout, List.drop_take_self, List.append_nil, take_append_slice]
  | @replace i j edits hpath ih =>
      have hle := hpath.le
      rw [applyFrom, slice_eq hcursor (by omega), slice_eq (Nat.le_succ j) hle.2]
      refine ih le_rfl ?_
      rw [hout, List.drop_take_self, List.append_nil, take_append_slice]

theorem applyScript_of_path (h : Path before after 0 0 edits) :
    applyScript before after edits = some after :=
  applyFrom_of_path h le_rfl rfl

theorem Path.insert_cases {at_ : ℕ} {range : Range}
    (h : Path before after i j (.insert at_ range :: edits)) :
    i ≤ at_ ∧ (at_ = i → range = ⟨j, j + 1⟩ ∧ Path before after i (j + 1) edits) := by
  generalize hscript : Edit.insert at_ range :: edits = script at h
  induction h with
  | done => cases hscript
  | keep _ _ _ ih =>
      obtain ⟨hle, -⟩ := ih hscript
      exact ⟨(Nat.le_succ _).trans hle, fun heq => by omega⟩
  | delete | replace => cases hscript
  | insert hpath =>
      cases hscript
      exact ⟨le_rfl, fun _ => ⟨rfl, hpath⟩⟩

theorem Path.coalesceReplace (h : Path before after i j edits) :
    Path before after i j (coalesceReplace edits) := by
  induction h with
  | done => exact .done
  | keep hi hj _ ih => exact .keep hi hj ih
  | @delete i j edits _ ih =>
      cases edits with
      | nil => exact .delete ih
      | cons edit edits =>
          cases edit with
          | delete | replace => exact .delete ih
          | insert at_ range =>
              rw [Differ.coalesceReplace]
              split_ifs with hat
              · have hinsert : Differ.coalesceReplace (.insert at_ range :: edits)
                    = .insert at_ range :: Differ.coalesceReplace edits := rfl
                obtain ⟨hle, hnext⟩ := (hinsert ▸ ih).insert_cases
                have heq : at_ = i + 1 := by
                  rcases hat with hat | hat
                  · have hat : at_ = i := hat
                    omega
                  · exact hat
                obtain ⟨rfl, hpath⟩ := hnext heq
                exact .replace hpath
              · exact .delete ih
  | insert _ ih => exact .insert ih
  | replace _ ih => exact .replace ih

theorem cost_coalesceReplace (edits : List Edit) : cost (coalesceReplace edits) = cost edits := by
  fun_induction Differ.coalesceReplace edits with
  | case1 before at_ after edits h ih =>
      simp only [cost, List.map_cons, List.sum_cons, Edit.deleted, Edit.inserted] at ih ⊢
      omega
  | case2 before at_ after edits h ih =>
      simp only [cost, List.map_cons, List.sum_cons, Edit.deleted, Edit.inserted] at ih ⊢
      omega
  | case3 edit edits h ih =>
      simp only [cost, List.map_cons, List.sum_cons] at ih ⊢
      omega
  | case4 => rfl

theorem path_inserts {k : ℕ} (h : j + k = after.length) :
    Path before after before.length j
      ((List.range' j k).map fun k => .insert before.length ⟨k, k + 1⟩) := by
  induction k generalizing j with
  | zero =>
      obtain rfl : j = after.length := h
      exact .done
  | succ k ih => exact .insert (ih (by omega))

theorem path_tails (hi : i ≤ before.length) (hj : j ≤ after.length) :
    Path before after i j (tails before.length after.length i j) := by
  rw [tails, max_eq_right hi]
  obtain ⟨k, hk⟩ := Nat.exists_eq_add_of_le hi
  rw [hk, Nat.add_sub_cancel_left, ← hk]
  induction k generalizing i with
  | zero =>
      obtain rfl : before.length = i := hk
      exact path_inserts (Nat.add_sub_cancel' hj)
  | succ k ih => exact .delete (ih (by omega) (by omega))

theorem cost_tails (n m i j : ℕ) : cost (tails n m i j) = n - i + (m - j) := by
  have hone : ∀ k : ℕ, k + 1 - k = 1 := fun k => Nat.add_sub_cancel_left k 1
  simp only [cost, tails, List.map_append, List.map_map, Function.comp_def, Edit.deleted,
    Edit.inserted, hone, List.map_const', List.sum_append_nat, List.sum_replicate_nat,
    List.length_range']
  omega

end Paths

/-! ## The table -/

section Table

variable {T : Type*} [DecidableEq T] {before after : List T}

/-- The entry of the table for two suffixes. -/
def lcsAt (before after : List T) (i j : ℕ) : ℕ := (before.drop i).lcsLength (after.drop j)

theorem lcsAt_of_eq {i j : ℕ} {element : T} (hi : before[i]? = some element)
    (hj : after[j]? = some element) :
    lcsAt before after i j = lcsAt before after (i + 1) (j + 1) + 1 := by
  obtain ⟨hilt, rfl⟩ := List.getElem?_eq_some_iff.mp hi
  obtain ⟨hjlt, heq⟩ := List.getElem?_eq_some_iff.mp hj
  rw [lcsAt, List.drop_eq_getElem_cons hilt, List.drop_eq_getElem_cons hjlt, heq, List.lcsLength,
    if_pos rfl]
  rfl

theorem lcsAt_of_ne {i j : ℕ} {element other : T} (hi : before[i]? = some element)
    (hj : after[j]? = some other) (hne : element ≠ other) :
    lcsAt before after i j = max (lcsAt before after (i + 1) j) (lcsAt before after i (j + 1)) := by
  obtain ⟨hilt, rfl⟩ := List.getElem?_eq_some_iff.mp hi
  obtain ⟨hjlt, rfl⟩ := List.getElem?_eq_some_iff.mp hj
  rw [lcsAt, List.drop_eq_getElem_cons hilt, List.drop_eq_getElem_cons hjlt, List.lcsLength,
    if_neg hne, lcsAt, lcsAt, List.drop_eq_getElem_cons hilt, List.drop_eq_getElem_cons hjlt]

theorem lcsAt_of_length_le {i j : ℕ} (h : before.length ≤ i ∨ after.length ≤ j) :
    lcsAt before after i j = 0 := by
  rw [lcsAt]
  rcases h with h | h
  · rw [List.drop_eq_nil_of_le h, List.lcsLength_nil_left]
  · rw [List.drop_eq_nil_of_le h, List.lcsLength_nil_right]

theorem lcsAt_lt (h : (before.length + 1) * (after.length + 1) ≤ vecMax) (i j : ℕ) :
    lcsAt before after i j < 2 ^ 32 - 1 := by
  have hleft : lcsAt before after i j ≤ before.length :=
    (List.lcsLength_le_left _ _).trans (by rw [List.length_drop]; omega)
  have hright : lcsAt before after i j ≤ after.length :=
    (List.lcsLength_le_right _ _).trans (by rw [List.length_drop]; omega)
  have hsquare := Nat.mul_le_mul (Nat.succ_le_succ hleft) (Nat.succ_le_succ hright)
  by_contra hge
  have hbig : 2 ^ 32 * 2 ^ 32 ≤ (before.length + 1) * (after.length + 1) :=
    (Nat.mul_le_mul (by omega) (by omega)).trans hsquare
  rw [vecMax] at h
  omega

theorem idx_lt {i j n m : ℕ} (hi : i ≤ n) (hj : j ≤ m) : idx i j (m + 1) < (n + 1) * (m + 1) := by
  have hmul := Nat.mul_le_mul_right (m + 1) hi
  rw [idx, Nat.succ_mul]
  omega

theorem idx_inj {i j i' j' m : ℕ} (hj : j ≤ m) (hj' : j' ≤ m) :
    idx i j (m + 1) = idx i' j' (m + 1) ↔ i = i' ∧ j = j' := by
  constructor
  · intro h
    rw [idx, idx, Nat.add_comm, Nat.add_comm (i' * (m + 1))] at h
    have hdiv := congrArg (· / (m + 1)) h
    have hmod := congrArg (· % (m + 1)) h
    simp only [Nat.add_mul_div_right _ _ (Nat.succ_pos m), Nat.add_mul_mod_self_right,
      Nat.div_eq_of_lt (Nat.lt_succ_of_le hj), Nat.div_eq_of_lt (Nat.lt_succ_of_le hj'),
      Nat.mod_eq_of_lt (Nat.lt_succ_of_le hj), Nat.mod_eq_of_lt (Nat.lt_succ_of_le hj'),
      Nat.zero_add] at hdiv hmod
    exact ⟨hdiv, hmod⟩
  · rintro ⟨rfl, rfl⟩
    rfl

/-- The rows below row `i`, the cells of row `i` from column `j` on, and the last row and column
have their entries. -/
structure Filled (before after : List T) (dp : DpSlice) (i j : ℕ) : Prop where
  length : dp.cells.length = (before.length + 1) * (after.length + 1)
  cell : ∀ i' ≤ before.length, ∀ j' ≤ after.length,
    i < i' ∨ i = i' ∧ j ≤ j' ∨ before.length = i' ∨ after.length = j' →
      dp.get? (idx i' j' (after.length + 1)) = some (.ofNat (lcsAt before after i' j'))

theorem ofNat_le_ofNat_iff {x y : ℕ} (hx : x < 2 ^ 32) (hy : y < 2 ^ 32) :
    UInt32.ofNat x ≤ UInt32.ofNat y ↔ x ≤ y := by
  rw [UInt32.le_iff_toNat_le, UInt32.toNat_ofNat', UInt32.toNat_ofNat', Nat.mod_eq_of_lt hx,
    Nat.mod_eq_of_lt hy]

theorem max_ofNat {x y : ℕ} (hx : x < 2 ^ 32) (hy : y < 2 ^ 32) :
    max (UInt32.ofNat x) (UInt32.ofNat y) = .ofNat (max x y) := by
  change (if _ then _ else _) = _
  simp only [ofNat_le_ofNat_iff hx hy]
  split_ifs with h
  · rw [max_eq_right h]
  · rw [max_eq_left (not_le.mp h).le]

theorem Filled.get? {dp : DpSlice} {i j i' j' : ℕ} (h : Filled before after dp i j)
    (hi' : i' ≤ before.length) (hj' : j' ≤ after.length)
    (hfilled : i < i' ∨ i = i' ∧ j ≤ j' ∨ before.length = i' ∨ after.length = j') :
    dp.get? (idx i' j' (after.length + 1)) = some (.ofNat (lcsAt before after i' j')) :=
  h.cell i' hi' j' hj' hfilled

theorem Filled.set {dp : DpSlice} {i j : ℕ} (h : Filled before after dp i (j + 1))
    (hi : i < before.length) (hj : j < after.length) :
    ∃ dp', dp.set? (idx i j (after.length + 1)) (.ofNat (lcsAt before after i j)) = some dp'
      ∧ Filled before after dp' i j := by
  have hlt := idx_lt hi.le hj.le
  rw [← h.length] at hlt
  refine ⟨_, if_pos hlt, ?_, fun i' hi' j' hj' hfilled => ?_⟩
  · rw [List.length_set, h.length]
  · rw [DpSlice.get?, List.getElem?_set]
    split_ifs with heq
    · obtain ⟨rfl, rfl⟩ := (idx_inj hj.le hj').mp heq
      rfl
    · have hne : ¬ (i = i' ∧ j = j') := fun hne => heq ((idx_inj hj.le hj').mpr hne)
      exact h.cell i' hi' j' hj' (by omega)

theorem fillRow_spec (hfit : (before.length + 1) * (after.length + 1) ≤ vecMax) {i : ℕ}
    {element : T} (hi : before[i]? = some element) {j : ℕ} (hj : j ≤ after.length) {dp : DpSlice}
    (h : Filled before after dp i j) :
    ∃ dp', fillRow element after i (after.length + 1) j dp = some dp'
      ∧ Filled before after dp' i 0 := by
  induction j generalizing dp with
  | zero => exact ⟨dp, rfl, h⟩
  | succ j ih =>
      have hilt := (List.getElem?_eq_some_iff.mp hi).1
      have hother : after[j]? = some after[j] := List.getElem?_eq_getElem hj
      obtain ⟨dp', hset, hfilled⟩ := h.set hilt hj
      obtain ⟨dp'', hrow, hdone⟩ := ih (Nat.le_of_succ_le hj) hfilled
      refine ⟨dp'', ?_, hdone⟩
      rw [fillRow, hother, Option.bind_some]
      by_cases heq : element = after[j]
      · have hvalue : (dp.get? (idx (i + 1) (j + 1) (after.length + 1))).map (· + 1)
            = some (.ofNat (lcsAt before after i j)) := by
          rw [h.get? hilt hj (by omega), lcsAt_of_eq hi (heq ▸ hother), UInt32.ofNat_add]
          rfl
        rw [if_pos heq, hvalue]
        exact (congrArg (· >>= _) hset).trans hrow
      · rw [if_neg heq, h.get? hilt (Nat.le_of_succ_le hj) (by omega), h.get? hilt.le hj (by omega)]
        have hvalue : max (UInt32.ofNat (lcsAt before after (i + 1) j))
            (.ofNat (lcsAt before after i (j + 1))) = .ofNat (lcsAt before after i j) := by
          have hbelow := lcsAt_lt hfit (i + 1) j
          have hright := lcsAt_lt hfit i (j + 1)
          rw [max_ofNat (by omega) (by omega), lcsAt_of_ne hi hother heq]
        change (dp.set? _ (max _ _) >>= _) = _
        rw [hvalue]
        exact (congrArg (· >>= _) hset).trans hrow

theorem fillTable_spec (hfit : (before.length + 1) * (after.length + 1) ≤ vecMax) {i : ℕ}
    (hi : i ≤ before.length) {dp : DpSlice} (h : Filled before after dp i 0) :
    ∃ dp', fillTable before after (after.length + 1) i dp = some dp'
      ∧ Filled before after dp' 0 0 := by
  induction i generalizing dp with
  | zero => exact ⟨dp, rfl, h⟩
  | succ i ih =>
      have helement : before[i]? = some before[i] := List.getElem?_eq_getElem hi
      have hrow : Filled before after dp i after.length :=
        ⟨h.length, fun i' hi' j' hj' hfilled => h.cell i' hi' j' hj' (by omega)⟩
      obtain ⟨dp', hfill, hfilled⟩ := fillRow_spec hfit helement le_rfl hrow
      obtain ⟨dp'', htable, hdone⟩ := ih (Nat.le_of_succ_le hi) hfilled
      refine ⟨dp'', ?_, hdone⟩
      rw [fillTable, helement, Option.bind_some]
      exact (congrArg (· >>= _) hfill).trans htable

/-! ## The walk through the table -/

theorem traceback_congr {dp dp' : DpSlice} {cols : ℕ}
    (h : ∀ i ≤ before.length, ∀ j ≤ after.length, dp.get? (idx i j cols) = dp'.get? (idx i j cols))
    (i j : ℕ) :
    traceback before after dp cols i j = traceback before after dp' cols i j := by
  induction hsize : before.length - i + (after.length - j) using Nat.strong_induction_on
    generalizing i j with
  | _ n ih =>
      rw [traceback.eq_def before after dp, traceback.eq_def before after dp']
      split_ifs with hlt heq
      · exact ih _ (by omega) (i + 1) (j + 1) rfl
      · rw [h (i + 1) hlt.1 j hlt.2.le, h i hlt.1.le (j + 1) hlt.2,
          ih _ (by omega) (i + 1) j rfl, ih _ (by omega) i (j + 1) rfl]
      · rfl

theorem traceback_spec (hfit : (before.length + 1) * (after.length + 1) ≤ vecMax) {dp : DpSlice}
    (hfilled : Filled before after dp 0 0) {i j : ℕ} (hi : i ≤ before.length)
    (hj : j ≤ after.length) :
    ∃ script, traceback before after dp (after.length + 1) i j = some script
      ∧ Path before after i j script
      ∧ cost script + 2 * lcsAt before after i j = before.length - i + (after.length - j) := by
  induction hsize : before.length - i + (after.length - j) using Nat.strong_induction_on
    generalizing i j with
  | _ n ih =>
      rw [traceback]
      split_ifs with hlt heq
      · obtain ⟨script, hscript, hpath, hcost⟩ :=
          ih _ (by omega) (i := i + 1) (j := j + 1) hlt.1 hlt.2 rfl
        have hkeep : before[i]? = some before[i] := List.getElem?_eq_getElem hlt.1
        have hkeep' : after[j]? = some before[i] := by
          rw [List.getElem?_eq_getElem hlt.2, heq]
        refine ⟨script, hscript, .keep hkeep hkeep' hpath, ?_⟩
        rw [lcsAt_of_eq hkeep hkeep']
        omega
      · have hmax := lcsAt_of_ne (List.getElem?_eq_getElem hlt.1) (List.getElem?_eq_getElem hlt.2)
          heq
        have hdelete := lcsAt_lt hfit (i + 1) j
        have hinsert := lcsAt_lt hfit i (j + 1)
        have hbelow : dp.get? (idx (i + 1) j (after.length + 1))
            = some (.ofNat (lcsAt before after (i + 1) j)) :=
          hfilled.get? hlt.1 hlt.2.le (by omega)
        have hright : dp.get? (idx i (j + 1) (after.length + 1))
            = some (.ofNat (lcsAt before after i (j + 1))) :=
          hfilled.get? hlt.1.le hlt.2 (by omega)
        rw [hbelow, hright]
        simp only [Option.bind_eq_bind, Option.bind_some]
        simp only [ofNat_le_ofNat_iff (hinsert.trans (by decide)) (hdelete.trans (by decide))]
        split_ifs with hscore
        · obtain ⟨script, hscript, hpath, hcost⟩ :=
            ih _ (by omega) (i := i + 1) (j := j) hlt.1 hlt.2.le rfl
          refine ⟨_, congrArg (· >>= _) hscript, hpath.delete, ?_⟩
          rw [max_eq_left hscore] at hmax
          simp only [cost, List.map_cons, List.sum_cons, Edit.deleted, Edit.inserted] at hcost ⊢
          omega
        · obtain ⟨script, hscript, hpath, hcost⟩ :=
            ih _ (by omega) (i := i) (j := j + 1) hlt.1.le hlt.2 rfl
          refine ⟨_, congrArg (· >>= _) hscript, hpath.insert, ?_⟩
          rw [max_eq_right (not_le.mp hscore).le] at hmax
          simp only [cost, List.map_cons, List.sum_cons, Edit.deleted, Edit.inserted] at hcost ⊢
          omega
      · refine ⟨_, rfl, path_tails hi hj, ?_⟩
        rw [cost_tails, lcsAt_of_length_le (by omega)]
        omega

/-! ## The scratch memory -/

section Scratch

variable {rows cols : ℕ}

theorem vecMax_lt_greatest : vecMax < Usize.greatest := by decide

theorem prepareDp_eq_none (scratch : ScratchBuffer) (h : vecMax < rows * cols) :
    scratch.prepareDp rows cols = none := by
  have hbounded := scratch.bounded
  have hneeded : vecMax < Usize.saturatingMul rows cols := lt_min h vecMax_lt_greatest
  rw [ScratchBuffer.prepareDp, dif_pos (hbounded.trans_lt hneeded),
    dif_neg (not_le.mpr hneeded)]

theorem exists_prepareDp (scratch : ScratchBuffer) (h : rows * cols ≤ vecMax) :
    ∃ scratch', scratch.prepareDp rows cols = some scratch'
      ∧ rows * cols ≤ scratch'.dp.length := by
  have hneeded := Usize.saturatingMul_eq (h.trans vecMax_lt_greatest.le)
  rw [ScratchBuffer.prepareDp]
  split_ifs with hlen hvec
  · refine ⟨_, rfl, ?_⟩
    rw [List.length_append, List.length_replicate]
    omega
  · exact absurd (hneeded.trans_le h) hvec
  · refine ⟨_, rfl, ?_⟩
    rw [List.length_append, List.length_replicate]
    omega

theorem exists_dpMut {scratch : ScratchBuffer} (h : rows * cols ≤ vecMax)
    (hlen : rows * cols ≤ scratch.dp.length) :
    ∃ dp, scratch.dpMut rows cols = some dp ∧ dp.cells = List.replicate (rows * cols) 0 := by
  have hneeded := Usize.saturatingMul_eq (h.trans vecMax_lt_greatest.le)
  rw [ScratchBuffer.dpMut, ScratchBuffer.prepareDp, dif_neg (by omega)]
  refine ⟨_, rfl, ?_⟩
  dsimp only
  rw [hneeded, List.take_left' List.length_replicate]

end Scratch

theorem filled_of_cells_eq {dp : DpSlice}
    (h : dp.cells = List.replicate ((before.length + 1) * (after.length + 1)) 0) :
    Filled before after dp before.length 0 := by
  refine ⟨by rw [h, List.length_replicate], fun i' hi' j' hj' hfilled => ?_⟩
  have hzero : lcsAt before after i' j' = 0 := lcsAt_of_length_le (by omega)
  rw [DpSlice.get?, h, List.getElem?_replicate, if_pos (idx_lt hi' hj'), hzero]
  rfl

theorem exists_rawDiff (hfit : (before.length + 1) * (after.length + 1) ≤ vecMax) :
    ∃ script, (∀ differ : BasicDiffer, ∃ differ',
        differ.rawDiff before after = some (differ', script))
      ∧ Path before after 0 0 script
      ∧ cost script + 2 * before.lcsLength after = before.length + after.length := by
  have hfill : ∀ differ : BasicDiffer, ∃ scratch dp dp',
      differ.scratch.prepareDp (before.length + 1) (after.length + 1) = some scratch
        ∧ scratch.dpMut (before.length + 1) (after.length + 1) = some dp
        ∧ fillTable before after (after.length + 1) before.length dp = some dp'
        ∧ Filled before after dp' 0 0 := by
    intro differ
    obtain ⟨scratch, hscratch, hlen⟩ := exists_prepareDp differ.scratch hfit
    obtain ⟨dp, hdp, hcells⟩ := exists_dpMut hfit hlen
    obtain ⟨dp', hdp', hfilled⟩ := fillTable_spec hfit le_rfl (filled_of_cells_eq hcells)
    exact ⟨scratch, dp, dp', hscratch, hdp, hdp', hfilled⟩
  obtain ⟨-, -, dp₀, -, -, -, hfilled₀⟩ := hfill .new
  obtain ⟨script, hscript, hpath, hcost⟩ :=
    traceback_spec hfit hfilled₀ (Nat.zero_le _) (Nat.zero_le _)
  refine ⟨script, fun differ => ?_, hpath, hcost⟩
  obtain ⟨scratch, dp, dp', hscratch, hdp, hdp', hfilled⟩ := hfill differ
  have hcongr := traceback_congr (fun i hi j hj => (hfilled.get? hi hj (by omega)).trans
    (hfilled₀.get? hi hj (by omega)).symm) 0 0
  refine ⟨⟨dp'.release⟩, ?_⟩
  simp only [BasicDiffer.rawDiff, hscratch, Option.bind_eq_bind, Option.bind_some, hdp, hdp',
    hcongr, hscript]
  rfl

theorem rawDiff_eq_none (differ : BasicDiffer)
    (h : vecMax < (before.length + 1) * (after.length + 1)) :
    differ.rawDiff before after = none := by
  simp only [BasicDiffer.rawDiff, prepareDp_eq_none differ.scratch h, Option.bind_eq_bind,
    Option.bind_none]

/-- The differ returns if the table fits in a vector. Whatever its scratch memory has been used for,
the script is the one of a new differ. Before and after it is coalesced, the script makes `after` of
`before`, and it deletes and inserts all elements but two for each of a longest common sublist. -/
theorem basic_differ_diff (differ : BasicDiffer) (before after : List T) :
    ((∃ out, differ.diff before after = some out)
        ↔ (before.length + 1) * (after.length + 1) ≤ vecMax)
      ∧ ∀ differ' script, differ.diff before after = some (differ', script) →
        (∃ fresh, BasicDiffer.new.diff before after = some (fresh, script))
          ∧ ∃ raw, differ.rawDiff before after = some (differ', raw)
            ∧ script = coalesceReplace raw
            ∧ applyScript before after raw = some after
            ∧ applyScript before after script = some after
            ∧ ∃ lcs, IsGreatest {k | ∃ common : List T, common.Sublist before
                ∧ common.Sublist after ∧ common.length = k} lcs
              ∧ cost raw + 2 * lcs = before.length + after.length
              ∧ cost script + 2 * lcs = before.length + after.length := by
  by_cases hfit : (before.length + 1) * (after.length + 1) ≤ vecMax
  · obtain ⟨raw, hraw, hpath, hcost⟩ := @exists_rawDiff T _ before after hfit
    have hdiff : ∀ differ : BasicDiffer, ∃ differ',
        differ.diff before after = some (differ', coalesceReplace raw) := by
      intro differ
      obtain ⟨differ', h⟩ := hraw differ
      exact ⟨differ', by rw [BasicDiffer.diff, h]; rfl⟩
    refine ⟨iff_of_true ?_ hfit, fun differ' script h => ?_⟩
    · obtain ⟨differ', h⟩ := hdiff differ
      exact ⟨_, h⟩
    · obtain ⟨differ₁, h₁⟩ := hraw differ
      rw [BasicDiffer.diff, h₁] at h
      obtain ⟨rfl, rfl⟩ : differ₁ = differ' ∧ coalesceReplace raw = script := by
        simpa only [Option.map_some, Option.some.injEq, Prod.mk.injEq] using h
      exact ⟨hdiff .new, raw, h₁, rfl, applyScript_of_path hpath,
        applyScript_of_path hpath.coalesceReplace, _, List.isGreatest_lcsLength before after, hcost,
        by rw [cost_coalesceReplace, hcost]⟩
  · have hnone : differ.diff before after = none := by
      rw [BasicDiffer.diff, rawDiff_eq_none differ (not_le.mp hfit)]
      rfl
    refine ⟨iff_of_false ?_ hfit, fun differ' script h => ?_⟩
    · rintro ⟨out, h⟩
      cases hnone.symm.trans h
    · cases hnone.symm.trans h

end Table

end ArcVcs.Differ
