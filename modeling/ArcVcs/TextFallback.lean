import ArcVcs.GitText
import ArcVcs.ItemPatch
import ArcVcs.Lib.Occurrences
import ArcVcs.Revisions

/-!
# The text fallback

`TextFallbackPlugin` keeps a text as one entry for each line, under the number of the line. Its
`diff` matches equal lines, removes the other old lines under their old numbers and inserts the
other new lines under their new numbers. A matched line stays under its old number.
-/

namespace ArcVcs

namespace TextFallback

/-! ## The plugin -/

/-- `str::lines`. -/
def sourceLines (src : String) : List String := (Git.lines src.toList).map String.ofList

def linePath (lineNum : ℕ) : NodePath := ["file", "line", toString lineNum]

/-- The lines that are not marked as used, with their numbers from `lineNum` on. -/
def unused : ℕ → List String → List Bool → List (ℕ × String)
  | lineNum, line :: lines, used :: marks =>
      if used then unused (lineNum + 1) lines marks
      else (lineNum, line) :: unused (lineNum + 1) lines marks
  | _, _, _ => []

section Diff

variable [Crypto]

/-- Removals of the old lines without a partner, then insertions of the new ones. -/
def diffPairs (oldLines newLines : List String) : List (Atom × Bytes) :=
  let used := Occurrences.matchAll newLines oldLines (List.replicate newLines.length false)
  (unused 1 oldLines used.1).map (fun entry => deletePair (linePath entry.1) (utf8 entry.2))
    ++ (unused 1 newLines used.2).map fun entry => insertPair (linePath entry.1) (utf8 entry.2)

def diff (oldSrc newSrc : String) : List Atom × List Bytes :=
  let pairs := diffPairs (sourceLines oldSrc) (sourceLines newSrc)
  (sortAtoms (pairs.map Prod.fst), pairs.map Prod.snd)

end Diff

/-- The number in the segment at index 2. A key without one sorts before all numbers. -/
def lineNumber (key : NodePath) : WithBot ℕ := key[2]?.bind fun segment => parseUsize segment.toList

/-- The entries under `file` and `line`, in the order in which the map lists its keys. -/
def lineEntries (order : List NodePath) (state : MaterializedState) : List (NodePath × Bytes) :=
  (order.filter fun key => key.length ≥ 2 ∧ key.take 2 = ["file", "line"]).filterMap
    fun key => (state.lookup key).map fun content => (key, content)

def unparse (order : List NodePath) (state : MaterializedState) : String :=
  let lines := lineEntries order state
  if lines = [] then ""
  else
    "\n".intercalate ((lines.insertionSort fun a b => lineNumber a.1 ≤ lineNumber b.1).map
      fun entry => fromUtf8Lossy entry.2)

/-- The plugin, for maps that list their keys in the given order. -/
def plugin [Crypto] (order : MaterializedState → List NodePath) : LanguagePlugin where
  unparse state _ := unparse (order state) state
  diff oldSrc newSrc := .ok (diff oldSrc newSrc)

/-! ## Lines under numbers -/

theorem linePath_injective : Function.Injective linePath := by
  intro m n h
  have hdigits : toString m = toString n := by simpa [linePath] using h
  rw [Nat.toString_eq_repr, Nat.toString_eq_repr] at hdigits
  have hchars := congrArg (fun s : String => Nat.ofDigitChars 10 s.toList 0) hdigits
  simpa only [Nat.toList_repr, Nat.ofDigitChars_ten_toDigits] using hchars

theorem lineNumber_linePath {n : ℕ} (h : n < 2 ^ 64) :
    lineNumber (linePath n) = WithBot.some n := by
  change parseUsize (toString n).toList = _
  rw [Nat.toString_eq_repr, Nat.toList_repr, parseUsize_toDigits h]
  rfl

/-- The state has the line `f k` under the number `k + 1`, and no other entry for a line. -/
structure HoldsAt (state : MaterializedState) (f : ℕ → Option String) : Prop where
  lookup_eq : ∀ k, state.lookup (linePath (k + 1)) = (f k).map utf8
  other : ∀ key : NodePath, key.take 2 = ["file", "line"] → (∀ k, key ≠ linePath (k + 1)) →
    state.lookup key = none

def HoldsLines (state : MaterializedState) (lines : List String) : Prop :=
  HoldsAt state fun k => lines[k]?

section Unparse

variable {state : MaterializedState} {f : ℕ → Option String} {order : List NodePath}

theorem mem_lineEntries_iff (h : HoldsAt state f) (horder : order.Perm state.keys.sorted)
    {entry : NodePath × Bytes} :
    entry ∈ lineEntries order state
      ↔ ∃ k line, f k = some line ∧ entry = (linePath (k + 1), utf8 line) := by
  simp only [lineEntries, List.mem_filterMap, List.mem_filter, decide_eq_true_eq,
    Option.map_eq_some_iff]
  constructor
  · rintro ⟨key, ⟨-, -, hprefix⟩, content, hlook, rfl⟩
    by_cases hkey : ∃ k, key = linePath (k + 1)
    · obtain ⟨k, rfl⟩ := hkey
      rw [h.lookup_eq, Option.map_eq_some_iff] at hlook
      obtain ⟨line, hline, rfl⟩ := hlook
      exact ⟨k, line, hline, rfl⟩
    · push Not at hkey
      rw [h.other key hprefix hkey] at hlook
      cases hlook
  · rintro ⟨k, line, hline, rfl⟩
    have hlook : state.lookup (linePath (k + 1)) = some (utf8 line) := by
      rw [h.lookup_eq, hline, Option.map_some]
    refine ⟨_, ⟨horder.mem_iff.mpr (mem_sorted_keys_iff.mpr ?_), ?_, rfl⟩, _, hlook, rfl⟩
    · rw [hlook]
      exact Option.some_ne_none _
    · simp [linePath]

theorem nodup_lineEntries (horder : order.Perm state.keys.sorted) :
    (lineEntries order state).Nodup := by
  apply List.Nodup.filterMap
  · intro key other item hitem hother
    obtain ⟨content, -, rfl⟩ := Option.map_eq_some_iff.mp hitem
    obtain ⟨content', -, heq⟩ := Option.map_eq_some_iff.mp hother
    exact (congrArg Prod.fst heq).symm
  · exact (horder.nodup_iff.mpr (Finset.nodup_sorted _)).filter _

def numbered (n : ℕ) (f : ℕ → Option String) : List (NodePath × Bytes) :=
  (List.range n).filterMap fun k => (f k).map fun line => (linePath (k + 1), utf8 line)

theorem mem_numbered_iff {n : ℕ} {entry : NodePath × Bytes} :
    entry ∈ numbered n f
      ↔ ∃ k < n, ∃ line, f k = some line ∧ entry = (linePath (k + 1), utf8 line) := by
  simp only [numbered, List.mem_filterMap, List.mem_range, Option.map_eq_some_iff]
  constructor
  · rintro ⟨k, hk, line, hline, rfl⟩
    exact ⟨k, hk, line, hline, rfl⟩
  · rintro ⟨k, hk, line, hline, rfl⟩
    exact ⟨k, hk, line, hline, rfl⟩

theorem pairwise_numbered {n : ℕ} (hn : n < 2 ^ 64) :
    (numbered n f).Pairwise fun a b => lineNumber a.1 < lineNumber b.1 := by
  rw [numbered, List.pairwise_filterMap]
  refine List.pairwise_lt_range.imp_of_mem fun {i j} hi hj hij a ha b hb => ?_
  obtain ⟨_, -, rfl⟩ := Option.map_eq_some_iff.mp ha
  obtain ⟨_, -, rfl⟩ := Option.map_eq_some_iff.mp hb
  have hi := List.mem_range.mp hi
  have hj := List.mem_range.mp hj
  dsimp only
  rw [lineNumber_linePath (by omega), lineNumber_linePath (by omega), WithBot.coe_lt_coe]
  omega

/-- **Unparsing lists the lines in the order of their numbers.** -/
theorem unparse_eq (h : HoldsAt state f) (horder : order.Perm state.keys.sorted) {n : ℕ}
    (hn : n < 2 ^ 64) (hf : ∀ k, n ≤ k → f k = none) :
    unparse order state = "\n".intercalate ((List.range n).filterMap f) := by
  have hstrict := pairwise_numbered (f := f) hn
  have hperm : (lineEntries order state).Perm (numbered n f) := by
    rw [List.perm_ext_iff_of_nodup (nodup_lineEntries horder)
      (hstrict.imp fun hlt heq => absurd hlt (by rw [heq]; exact lt_irrefl _))]
    intro entry
    rw [mem_lineEntries_iff h horder, mem_numbered_iff]
    constructor
    · rintro ⟨k, line, hline, rfl⟩
      refine ⟨k, Nat.lt_of_not_le fun hk => ?_, line, hline, rfl⟩
      rw [hf k hk] at hline
      cases hline
    · rintro ⟨k, -, line, hline, rfl⟩
      exact ⟨k, line, hline, rfl⟩
  have hsort : (lineEntries order state).insertionSort (fun a b => lineNumber a.1 ≤ lineNumber b.1)
      = numbered n f := by
    have htotal : Std.Total fun a b : NodePath × Bytes => lineNumber a.1 ≤ lineNumber b.1 :=
      ⟨fun a b => le_total (lineNumber a.1) (lineNumber b.1)⟩
    have htrans : IsTrans _ fun a b : NodePath × Bytes => lineNumber a.1 ≤ lineNumber b.1 :=
      ⟨fun _ _ _ => le_trans⟩
    have hsorted := List.pairwise_insertionSort
      (fun a b : NodePath × Bytes => lineNumber a.1 ≤ lineNumber b.1) (lineEntries order state)
    refine List.Perm.eq_of_pairwise ?_ hsorted (hstrict.imp le_of_lt)
      ((List.perm_insertionSort _ _).trans hperm)
    intro a b ha hb hab hba
    obtain ⟨i, hi, line, hline, rfl⟩ := mem_numbered_iff.mp
      (hperm.mem_iff.mp ((List.mem_insertionSort _).mp ha))
    obtain ⟨j, hj, line', hline', rfl⟩ := mem_numbered_iff.mp hb
    have hnumber := le_antisymm hab hba
    dsimp only at hnumber
    rw [lineNumber_linePath (by omega), lineNumber_linePath (by omega), WithBot.coe_inj] at hnumber
    obtain rfl : i = j := Nat.succ_injective hnumber
    rw [hline, Option.some_inj] at hline'
    rw [hline']
  have htexts : (numbered n f).map (fun entry => fromUtf8Lossy entry.2)
      = (List.range n).filterMap f := by
    rw [numbered, List.map_filterMap]
    refine List.filterMap_congr fun k _ => ?_
    rw [Option.map_map]
    refine (Option.map_congr fun line _ => ?_).trans Option.map_id'
    exact fromUtf8Lossy_utf8 line
  rw [unparse]
  split_ifs with hnil
  · have hnone : numbered n f = [] := by
      rw [hnil] at hperm
      exact hperm.symm.eq_nil
    rw [← htexts, hnone]
    rfl
  · rw [hsort, htexts]

end Unparse

/-! ## What the atoms do -/

/-- A line that finds no partner among `others`: fewer than `k` lines before it. -/
def unmatched (lines others : List String) (k : ℕ) : Option String :=
  lines[k]?.filter fun line => others.count line ≤ (lines.take k).count line

theorem opsAt_unused_of_lt (op : String → EntryOp Bytes) {n lineNum : ℕ} (h : n < lineNum)
    (lines : List String) (marks : List Bool) :
    EntryOp.opsAt (linePath n)
      ((unused lineNum lines marks).map fun entry => (linePath entry.1, op entry.2)) = [] := by
  induction lines generalizing lineNum marks with
  | nil => rfl
  | cons line lines ih =>
      cases marks with
      | nil => rfl
      | cons used marks =>
          rw [unused]
          split_ifs
          · exact ih (Nat.lt_succ_of_lt h) marks
          · have hne : linePath lineNum ≠ linePath n := fun heq =>
              Nat.ne_of_gt h (linePath_injective heq)
            rw [List.map_cons, EntryOp.opsAt_cons_of_ne hne]
            exact ih (Nat.lt_succ_of_lt h) marks

theorem opsAt_unused (op : String → EntryOp Bytes) (lineNum k : ℕ) (lines : List String)
    (marks : List Bool) :
    EntryOp.opsAt (linePath (lineNum + k))
        ((unused lineNum lines marks).map fun entry => (linePath entry.1, op entry.2))
      = (lines[k]?.filter fun _ => marks[k]? = some false).toList.map op := by
  induction lines generalizing lineNum k marks with
  | nil => rfl
  | cons line lines ih =>
      cases marks with
      | nil => simp [unused]
      | cons used marks =>
          cases k with
          | zero =>
              have hrest := opsAt_unused_of_lt op (Nat.lt_succ_self lineNum) lines marks
              cases used with
              | true => simpa [unused] using hrest
              | false =>
                  simp only [unused, Bool.false_eq_true, if_false, List.map_cons, Nat.add_zero]
                  rw [EntryOp.opsAt_cons_self, hrest]
                  rfl
          | succ k =>
              have hrest := ih (lineNum + 1) k marks
              rw [Nat.add_right_comm] at hrest
              have hne : linePath lineNum ≠ linePath (lineNum + k + 1) := fun heq =>
                absurd (linePath_injective heq) (by omega)
              rw [unused, ← Nat.add_assoc]
              split_ifs
              · simpa using hrest
              · rw [List.map_cons, EntryOp.opsAt_cons_of_ne hne]
                simpa using hrest

theorem filter_firsts (lines others : List String) (k : ℕ) :
    (lines[k]?.filter fun _ =>
        (Occurrences.firsts (fun line => others.count line) lines)[k]? = some false)
      = unmatched lines others k := by
  rw [Occurrences.getElem?_firsts, unmatched]
  cases lines[k]? with
  | none => rfl
  | some line => simp [Option.filter]

section Ops

variable [Crypto] {store : BlobStore} {oldLines newLines : List String}

theorem filterMap_entryOp_delete (entries : List (ℕ × String)) :
    ((entries.map fun entry => deletePair (linePath entry.1) (utf8 entry.2)).map
        Prod.fst).filterMap (Atom.entryOp store)
      = entries.map fun entry => (linePath entry.1, EntryOp.remove) := by
  rw [List.map_map, List.filterMap_map, ← List.filterMap_eq_map]
  rfl

theorem filterMap_entryOp_insert {entries : List (ℕ × String)}
    (h : ∀ entry ∈ entries, store (Crypto.hashBytes (utf8 entry.2)) = .ok (utf8 entry.2)) :
    ((entries.map fun entry => insertPair (linePath entry.1) (utf8 entry.2)).map
        Prod.fst).filterMap (Atom.entryOp store)
      = entries.map fun entry => (linePath entry.1, EntryOp.write (utf8 entry.2)) := by
  rw [List.map_map, List.filterMap_map, ← List.filterMap_eq_map]
  exact List.filterMap_congr fun entry hentry => entryOp_insertPair (h entry hentry)

theorem readable_of_mem {entry : ℕ × String}
    (h : Readable store ((diffPairs oldLines newLines).map Prod.snd))
    (hentry : entry ∈ unused 1 newLines
      (Occurrences.firsts (fun line => oldLines.count line) newLines)) :
    store (Crypto.hashBytes (utf8 entry.2)) = .ok (utf8 entry.2) := by
  refine h _ (List.mem_map.mpr ⟨insertPair (linePath entry.1) (utf8 entry.2), ?_, rfl⟩)
  rw [diffPairs, Occurrences.matchAll_replicate]
  exact List.mem_append_right _ (List.mem_map.mpr ⟨entry, hentry, rfl⟩)

theorem filterMap_entryOp_diffPairs
    (h : Readable store ((diffPairs oldLines newLines).map Prod.snd)) :
    ((diffPairs oldLines newLines).map Prod.fst).filterMap (Atom.entryOp store)
      = (unused 1 oldLines (Occurrences.firsts (fun line => newLines.count line) oldLines)).map
          (fun entry => (linePath entry.1, EntryOp.remove))
        ++ (unused 1 newLines (Occurrences.firsts (fun line => oldLines.count line) newLines)).map
          fun entry => (linePath entry.1, EntryOp.write (utf8 entry.2)) := by
  have hread := fun entry hentry => @readable_of_mem _ store oldLines newLines entry h hentry
  rw [diffPairs, Occurrences.matchAll_replicate, List.map_append, List.filterMap_append]
  dsimp only
  rw [filterMap_entryOp_delete, filterMap_entryOp_insert hread]

/-- **The operations at the number of a line.** -/
theorem opsAtKey_linePath (h : Readable store ((diffPairs oldLines newLines).map Prod.snd))
    (k : ℕ) :
    opsAtKey store (linePath (k + 1)) ((diffPairs oldLines newLines).map Prod.fst)
      = ((unmatched oldLines newLines k).toList.map fun _ => EntryOp.remove)
        ++ (unmatched newLines oldLines k).toList.map fun line => EntryOp.write (utf8 line) := by
  rw [opsAtKey, filterMap_entryOp_diffPairs h, EntryOp.opsAt_append, Nat.add_comm,
    opsAt_unused (fun _ => EntryOp.remove), opsAt_unused (fun line => EntryOp.write (utf8 line)),
    filter_firsts, filter_firsts]

theorem opsAtKey_other (h : Readable store ((diffPairs oldLines newLines).map Prod.snd))
    {key : NodePath} (hkey : ∀ k, key ≠ linePath (k + 1)) :
    opsAtKey store key ((diffPairs oldLines newLines).map Prod.fst) = [] := by
  rw [opsAtKey, filterMap_entryOp_diffPairs h]
  by_cases hzero : key = linePath 0
  · rw [hzero, EntryOp.opsAt_append, opsAt_unused_of_lt (fun _ => EntryOp.remove) Nat.zero_lt_one,
      opsAt_unused_of_lt (fun line => EntryOp.write (utf8 line)) Nat.zero_lt_one, List.append_nil]
  · have hall : ∀ k, key ≠ linePath k := fun k => by
      cases k with
      | zero => exact hzero
      | succ k => exact hkey k
    refine EntryOp.opsAt_eq_nil fun op hop => ?_
    rcases List.mem_append.mp hop with hop | hop
    · obtain ⟨entry, -, heq⟩ := List.mem_map.mp hop
      exact hall _ (congrArg Prod.fst heq).symm
    · obtain ⟨entry, -, heq⟩ := List.mem_map.mp hop
      exact hall _ (congrArg Prod.fst heq).symm

theorem isSome_entryOp (h : Readable store ((diffPairs oldLines newLines).map Prod.snd)) :
    ∀ atom ∈ (diffPairs oldLines newLines).map Prod.fst, (atom.entryOp store).isSome := by
  intro atom hatom
  have hread := fun entry hentry => @readable_of_mem _ store oldLines newLines entry h hentry
  rw [diffPairs, Occurrences.matchAll_replicate, List.map_append, List.mem_append, List.map_map,
    List.map_map] at hatom
  rcases hatom with hatom | hatom
  · obtain ⟨entry, -, rfl⟩ := List.mem_map.mp hatom
    rfl
  · obtain ⟨entry, hentry, rfl⟩ := List.mem_map.mp hatom
    rw [Function.comp_apply, entryOp_insertPair (hread entry hentry)]
    rfl

end Ops

/-! ## The lines afterwards -/

/-- A line that finds a partner among `others`, which has at least one more of its kind than stand
before it. -/
def matched (lines others : List String) (k : ℕ) : Option String :=
  lines[k]?.filter fun line => (lines.take k).count line < others.count line

/-- The line under the number `k + 1`: the new line of that number when it is inserted, else the old
one of that number when it is kept. -/
def lineAt (oldLines newLines : List String) (k : ℕ) : Option String :=
  (unmatched newLines oldLines k).or (matched oldLines newLines k)

/-- The kept lines under their old numbers and the inserted ones under their new numbers. -/
def renumbered (oldLines newLines : List String) : List String :=
  (List.range (max oldLines.length newLines.length)).filterMap (lineAt oldLines newLines)

/-- In the order of their numbers, the kept and the inserted lines are the new lines. -/
def Aligned (oldLines newLines : List String) : Prop := renumbered oldLines newLines = newLines

instance (oldLines newLines : List String) : Decidable (Aligned oldLines newLines) :=
  inferInstanceAs (Decidable (_ = _))

variable {oldLines newLines : List String}

theorem final_lineAt (k : ℕ) :
    EntryOp.final (oldLines[k]?.map utf8)
        (((unmatched oldLines newLines k).toList.map fun _ => EntryOp.remove)
          ++ (unmatched newLines oldLines k).toList.map fun line => EntryOp.write (utf8 line))
      = (lineAt oldLines newLines k).map utf8 := by
  rw [lineAt]
  cases hnew : unmatched newLines oldLines k with
  | some line => simp [EntryOp.final_append, EntryOp.next]
  | none =>
      rw [Option.toList_none, List.map_nil, List.append_nil, Option.none_or, unmatched, matched]
      cases oldLines[k]? with
      | none => rfl
      | some line =>
          by_cases hcount : newLines.count line ≤ (oldLines.take k).count line
          · simp [Option.filter_some, hcount, EntryOp.next]
          · simp [Option.filter_some, hcount, Nat.lt_of_not_le hcount]

theorem safe_lineAt (k : ℕ) :
    EntryOp.Safe (oldLines[k]?.map utf8).isSome
      (((unmatched oldLines newLines k).toList.map fun _ => EntryOp.remove)
        ++ (unmatched newLines oldLines k).toList.map fun line => EntryOp.write (utf8 line))
      = true := by
  rw [unmatched]
  cases oldLines[k]? with
  | none => cases unmatched newLines oldLines k <;> rfl
  | some line =>
      by_cases hcount : newLines.count line ≤ (oldLines.take k).count line
      · cases unmatched newLines oldLines k <;> simp [Option.filter_some, hcount, EntryOp.Safe]
      · cases unmatched newLines oldLines k <;> simp [Option.filter_some, hcount, EntryOp.Safe]

theorem lineAt_of_le {k : ℕ} (h : max oldLines.length newLines.length ≤ k) :
    lineAt oldLines newLines k = none := by
  have hold : oldLines[k]? = none := List.getElem?_eq_none (le_trans (le_max_left _ _) h)
  have hnew : newLines[k]? = none := List.getElem?_eq_none (le_trans (le_max_right _ _) h)
  simp [lineAt, unmatched, matched, hold, hnew]

theorem renumbered_eq_nil_iff : renumbered oldLines newLines = [] ↔ newLines = [] := by
  rw [renumbered, List.filterMap_eq_nil_iff]
  constructor
  · intro hnone
    by_contra hne
    obtain ⟨line, rest, rfl⟩ := List.exists_cons_of_ne_nil hne
    by_cases hold : line ∈ oldLines
    · -- the first old line like it is kept
      obtain ⟨pre, post, rfl, hpre⟩ := List.eq_append_cons_of_mem hold
      have hkept : matched (pre ++ line :: post) (line :: rest) pre.length = some line := by
        simp [matched, Option.filter_some, List.count_eq_zero.mpr hpre]
      have hlast := hnone pre.length (by simp)
      rw [lineAt, hkept, Option.or_eq_none_iff] at hlast
      cases hlast.2
    · have hzero := hnone 0 (by simp)
      simp [lineAt, unmatched, Option.filter_some, List.count_eq_zero.mpr hold] at hzero
  · rintro rfl k -
    simp [lineAt, unmatched, matched]

theorem mem_of_mem_renumbered {line : String} (h : line ∈ renumbered oldLines newLines) :
    line ∈ oldLines ∨ line ∈ newLines := by
  obtain ⟨k, -, hline⟩ := List.mem_filterMap.mp h
  rcases Option.or_eq_some_iff.mp hline with hline | ⟨-, hline⟩
  · exact .inr (List.mem_of_getElem? (Option.eq_some_of_filter_eq_some hline))
  · exact .inl (List.mem_of_getElem? (Option.eq_some_of_filter_eq_some hline))

/-! ## Joined lines -/

theorem notMem_of_mem_linesOf {s line part : List Char} (hline : '\n' ∉ line)
    (h : part ∈ Git.linesOf line s) : '\n' ∉ part := by
  induction line, s using Git.linesOf.induct with
  | case1 => simp [Git.linesOf] at h
  | case2 line hne =>
      obtain rfl : part = line := by simpa [Git.linesOf, hne] using h
      exact hline
  | case3 line s ih =>
      rw [Git.linesOf] at h
      rcases List.mem_cons.mp h with rfl | h
      · exact hline
      · exact ih List.not_mem_nil h
  | case4 line s ih =>
      rw [Git.linesOf] at h
      rcases List.mem_cons.mp h with rfl | h
      · exact hline
      · exact ih List.not_mem_nil h
  | case5 line c s hcrlf hlf ih =>
      rw [Git.linesOf] at h
      · exact ih (by simpa [hline] using fun hc => hlf hc.symm) h
      · exact hcrlf
      · exact hlf

theorem notMem_of_mem_sourceLines {src line : String} (h : line ∈ sourceLines src) :
    '\n' ∉ line.toList := by
  obtain ⟨part, hpart, rfl⟩ := List.mem_map.mp h
  rw [String.toList_ofList]
  exact notMem_of_mem_linesOf List.not_mem_nil hpart

theorem intercalate_inj {as bs : List String} (ha : ∀ line ∈ as, '\n' ∉ line.toList)
    (hb : ∀ line ∈ bs, '\n' ∉ line.toList) (hnil : as = [] ↔ bs = []) :
    "\n".intercalate as = "\n".intercalate bs ↔ as = bs := by
  constructor
  · intro heq
    by_cases has : as = []
    · rw [has, hnil.mp has]
    · have hsplit : ∀ lines : List String, lines ≠ [] → (∀ line ∈ lines, '\n' ∉ line.toList) →
          ("\n".intercalate lines).toList.splitOn '\n' = lines.map String.toList := by
        intro lines hne hlines
        rw [String.toList_intercalate]
        refine List.splitOn_intercalate '\n' (fun part hpart => ?_) (by simpa using hne)
        obtain ⟨line, hline, rfl⟩ := List.mem_map.mp hpart
        exact hlines line hline
      have hchars : as.map String.toList = bs.map String.toList := by
        rw [← hsplit as has ha, ← hsplit bs (fun hbs => has (hnil.mpr hbs)) hb, heq]
      exact List.map_injective_iff.mpr (fun _ _ => String.toList_injective) hchars
  · exact fun h => h ▸ rfl

/-! ## The round trip -/

/-- Applying the change succeeds, and unparsing gives the lines of the new text. -/
def RoundTrips (plugin : LanguagePlugin) (env : ApplyEnv) (change : Change) (r : Replay)
    (newSrc filepath : String) : Prop :=
  ∃ out, applyChangeScoped env change r = (.ok (), out)
    ∧ plugin.unparse out.state filepath = "\n".intercalate (sourceLines newSrc)

theorem not_roundTrips_of_violates {plugin : LanguagePlugin} {env : ApplyEnv} {change : Change}
    {r : Replay} {newSrc filepath : String} (h : change.violates env = true) :
    ¬ RoundTrips plugin env change r newSrc filepath := by
  rintro ⟨out, hout, -⟩
  have hrun := applyChangeScoped_eq_ok_iff.mp ⟨out, hout, rfl⟩
  rw [Change.effect_eq, if_pos h] at hrun
  simp at hrun

section RoundTrip

variable [Crypto]

theorem exists_apply_diff {store : BlobStore} {agentIgnore : Gitignore} {change : Change}
    {r : Replay} {oldSrc newSrc : String} (hread : Readable store (diff oldSrc newSrc).2)
    (hatoms : change.atoms = (diff oldSrc newSrc).1)
    (hauthor : change.violates ⟨store, agentIgnore, none⟩ = false)
    (hold : HoldsLines r.state (sourceLines oldSrc)) :
    ∃ out, applyChangeScoped ⟨store, agentIgnore, none⟩ change r = (.ok (), out)
      ∧ HoldsAt out.state (lineAt (sourceLines oldSrc) (sourceLines newSrc)) := by
  have hops : ∀ key, EntryOp.opsAt key
      (change.atoms.filterMap (Atom.plannedOp ⟨store, agentIgnore, none⟩))
      = opsAtKey store key
          ((diffPairs (sourceLines oldSrc) (sourceLines newSrc)).map Prod.fst) := by
    intro key
    rw [Atom.plannedOp_of_full rfl, hatoms]
    exact opsAtKey_sortAtoms key _
  have hsome : ∀ atom ∈ change.atoms, (atom.entryOp store).isSome := by
    intro atom hatom
    rw [hatoms] at hatom
    exact isSome_entryOp hread atom ((List.mem_insertionSort _).mp hatom)
  have hother : ∀ key, (∀ k, key ≠ linePath (k + 1)) → EntryOp.opsAt key
      (change.atoms.filterMap (Atom.plannedOp ⟨store, agentIgnore, none⟩)) = [] :=
    fun key hkey => (hops key).trans (opsAtKey_other hread hkey)
  have hline : ∀ k, EntryOp.opsAt (linePath (k + 1))
      (change.atoms.filterMap (Atom.plannedOp ⟨store, agentIgnore, none⟩)) = _ :=
    fun k => (hops _).trans (opsAtKey_linePath hread k)
  obtain ⟨state, hrun⟩ := @exists_run_of_safe ⟨store, agentIgnore, none⟩ _ hsome
    r.state fun key => by
      by_cases hkey : ∃ k, key = linePath (k + 1)
      · obtain ⟨k, rfl⟩ := hkey
        rw [hline, hold.lookup_eq]
        exact safe_lineAt k
      · push Not at hkey
        rw [hother key hkey]
        rfl
  have hfinal := (run_plainEffect_iff hsome).mp hrun
  obtain ⟨out, hout, rfl⟩ := applyChangeScoped_eq_ok_iff.mpr (show
    (change.effect ⟨store, agentIgnore, none⟩).run r.state = some state by
      rw [Change.effect_eq, hauthor, if_neg Bool.false_ne_true]
      exact hrun)
  refine ⟨out, hout, fun k => ?_, fun key hprefix hkey => ?_⟩
  · rw [(hfinal _).2, hline, hold.lookup_eq]
    exact final_lineAt k
  · rw [(hfinal _).2, hother key hkey, EntryOp.final_nil, hold.other key hprefix hkey]

/-- **When the text fallback round-trips.** The atoms between two texts give the new text back
exactly when the author check lets them pass and the kept lines under their old numbers, with the
inserted ones under their new numbers, are the new lines. -/
theorem fallback_roundTrips_iff {order : MaterializedState → List NodePath}
    (horder : ∀ state, (order state).Perm state.keys.sorted) {blobs : FMap Blake3Hash Bytes}
    {oldSrc newSrc filepath : String} {atoms : List Atom} {contents : List Bytes}
    (hdiff : (plugin order).diff oldSrc newSrc = .ok (atoms, contents))
    (hblobs : Repo.Storable blobs contents)
    (hold64 : (sourceLines oldSrc).length < 2 ^ 64) (hnew64 : (sourceLines newSrc).length < 2 ^ 64)
    {agentIgnore : Gitignore} {change : Change} (hatoms : change.atoms = atoms) {r : Replay}
    (hstate : HoldsLines r.state (sourceLines oldSrc)) :
    RoundTrips (plugin order) ⟨Repo.readBlob (Repo.putContents blobs contents), agentIgnore, none⟩
        change r newSrc filepath
      ↔ change.violates ⟨Repo.readBlob (Repo.putContents blobs contents), agentIgnore, none⟩ = false
        ∧ Aligned (sourceLines oldSrc) (sourceLines newSrc) := by
  have hpair : diff oldSrc newSrc = (atoms, contents) := Except.ok.inj hdiff
  obtain rfl : (diff oldSrc newSrc).1 = atoms := by rw [hpair]
  obtain rfl : (diff oldSrc newSrc).2 = contents := by rw [hpair]
  have hread : Readable (Repo.readBlob (Repo.putContents blobs (diff oldSrc newSrc).2))
      (diff oldSrc newSrc).2 := fun content hc => hblobs.readBlob hc
  cases hauthor : change.violates
      ⟨Repo.readBlob (Repo.putContents blobs (diff oldSrc newSrc).2), agentIgnore, none⟩ with
  | true => exact iff_of_false (not_roundTrips_of_violates hauthor) (by simp)
  | false =>
      obtain ⟨out, hout, hholds⟩ := exists_apply_diff hread hatoms hauthor hstate
      have hunparse : (plugin order).unparse out.state filepath
          = "\n".intercalate (renumbered (sourceLines oldSrc) (sourceLines newSrc)) :=
        unparse_eq hholds (horder _) (max_lt hold64 hnew64) fun k hk => lineAt_of_le hk
      have hjoin := @intercalate_inj
        (renumbered (sourceLines oldSrc) (sourceLines newSrc)) (sourceLines newSrc)
        (fun line hline => (mem_of_mem_renumbered hline).elim notMem_of_mem_sourceLines
          notMem_of_mem_sourceLines) (fun line => notMem_of_mem_sourceLines) renumbered_eq_nil_iff
      rw [and_iff_right rfl, Aligned, ← hjoin, ← hunparse]
      constructor
      · rintro ⟨out', hout', htext⟩
        rw [hout] at hout'
        cases hout'
        exact htext
      · exact fun htext => ⟨out, hout, htext⟩

end RoundTrip

/-! ## Two texts -/

/-- The entries of a list of lines. -/
def stateOf (lines : List String) : MaterializedState :=
  FMap.insertAll ∅ (lines.zipIdx.map fun entry => (linePath (entry.2 + 1), utf8 entry.1))

theorem holdsLines_stateOf (lines : List String) : HoldsLines (stateOf lines) lines := by
  have hkeys : (lines.zipIdx.map fun entry => (linePath (entry.2 + 1), utf8 entry.1)).map Prod.fst
      = (List.range lines.length).map fun k => linePath (k + 1) := by
    rw [List.map_map, List.range_eq_range', ← List.zipIdx_map_snd 0 lines, List.map_map]
    rfl
  have hmem : ∀ {key}, key ∉ (List.range lines.length).map (fun k => linePath (k + 1)) →
      (stateOf lines).lookup key = none := by
    intro key hkey
    rw [stateOf, FMap.lookup_insertAll_of_notMem _ _ (hkeys ▸ hkey)]
    rfl
  refine ⟨fun k => ?_, fun key _ hkey => hmem ?_⟩
  · cases hline : lines[k]? with
    | none =>
        refine hmem fun hk => ?_
        obtain ⟨j, hj, heq⟩ := List.mem_map.mp hk
        obtain rfl : j = k := Nat.succ_injective (linePath_injective heq)
        rw [List.getElem?_eq_none_iff] at hline
        exact absurd (List.mem_range.mp hj) (Nat.not_lt.mpr hline)
    | some line =>
        have hnodup : ((lines.zipIdx.map fun entry =>
            (linePath (entry.2 + 1), utf8 entry.1)).map Prod.fst).Nodup := by
          rw [hkeys]
          exact List.nodup_range.map fun i j hij => Nat.succ_injective (linePath_injective hij)
        have hentry : (line, k) ∈ lines.zipIdx := List.mk_mem_zipIdx_iff_getElem?.mpr hline
        exact FMap.lookup_insertAll_of_nodup hnodup (List.mem_map.mpr ⟨_, hentry, rfl⟩)
  · rintro hk
    obtain ⟨k, -, heq⟩ := List.mem_map.mp hk
    exact hkey k heq.symm

/-- A line is appended. -/
theorem fallback_roundTrips_append :
    let contents := (@diff Crypto.sample "a" "a\nb").2
    let env : ApplyEnv :=
      ⟨@Repo.readBlob Crypto.sample (@Repo.putContents Crypto.sample ∅ contents), fun _ _ => false,
        none⟩
    RoundTrips (@plugin Crypto.sample fun state => state.keys.sorted) env
      (Change.bare 1 ∅ (@diff Crypto.sample "a" "a\nb").1) ⟨stateOf ["a"], none⟩ "a\nb"
      "notes.txt" := by
  intro contents env
  have hblobs : @Repo.Storable Crypto.sample ∅ contents :=
    @Repo.Storable.of_all Crypto.sample ∅ contents (by decide +kernel) (by decide +kernel)
  have hold : HoldsLines (stateOf ["a"]) (sourceLines "a") := by
    rw [show sourceLines "a" = ["a"] by decide +kernel]
    exact holdsLines_stateOf ["a"]
  exact (@fallback_roundTrips_iff Crypto.sample _ (fun _ => List.Perm.refl _) ∅ "a" "a\nb"
    "notes.txt" _ contents rfl hblobs (by decide +kernel) (by decide +kernel) (fun _ _ => false)
    (Change.bare 1 ∅ (@diff Crypto.sample "a" "a\nb").1) rfl ⟨stateOf ["a"], none⟩ hold).mpr
    ⟨by decide +kernel, by decide +kernel⟩

/-- A line is inserted before a line that keeps its number, and takes its place. -/
theorem fallback_loses_line :
    let contents := (@diff Crypto.sample "a\nb" "a\nx\nb").2
    let env : ApplyEnv :=
      ⟨@Repo.readBlob Crypto.sample (@Repo.putContents Crypto.sample ∅ contents), fun _ _ => false,
        none⟩
    HoldsLines (stateOf ["a", "b"]) (sourceLines "a\nb")
      ∧ ¬ RoundTrips (@plugin Crypto.sample fun state => state.keys.sorted) env
        (Change.bare 1 ∅ (@diff Crypto.sample "a\nb" "a\nx\nb").1) ⟨stateOf ["a", "b"], none⟩
        "a\nx\nb" "notes.txt" := by
  intro contents env
  constructor
  · rw [show sourceLines "a\nb" = ["a", "b"] by decide +kernel]
    exact holdsLines_stateOf ["a", "b"]
  · rintro ⟨out, hout, htext⟩
    have hstate : out = (applyChangeScoped env
        (Change.bare 1 ∅ (@diff Crypto.sample "a\nb" "a\nx\nb").1)
        ⟨stateOf ["a", "b"], none⟩).2 := by rw [hout]
    rw [hstate] at htext
    revert htext
    decide +kernel

end TextFallback

end ArcVcs
