import ArcVcs.AstPlugin
import ArcVcs.Lib.Segments

/-!
# Rewriting policy text line by line

`iter_lines` yields the lines of a text with their endings. `rewrite_policy_text_lossless` asks a
callback about the content of each line and writes the line as it is, or the replacement with the
ending of the line.
-/

namespace ArcVcs

structure LineView where
  raw : Bytes
  content : Bytes
  lineNo : ℕ
deriving DecidableEq

/-- What comes after the content. -/
def LineView.newline (line : LineView) : Bytes := line.raw.drop line.content.length

structure LineIter where
  input : Bytes
  pos : ℕ
  lineNo : ℕ

/-- The line without one line feed and then without one carriage return. -/
def lineContent (raw : Bytes) : Bytes :=
  let contentEnd := raw.length
  let contentEnd :=
    if 0 < contentEnd ∧ raw[contentEnd - 1]? = some 10 then contentEnd - 1 else contentEnd
  let contentEnd :=
    if 0 < contentEnd ∧ raw[contentEnd - 1]? = some 13 then contentEnd - 1 else contentEnd
  raw.take contentEnd

def LineIter.next (it : LineIter) : Option (LineView × LineIter) :=
  if it.input.length ≤ it.pos then none
  else
    let stop := it.pos + (it.input.drop it.pos).findIdx (· = 10)
    let rawEnd := if stop < it.input.length then stop + 1 else stop
    let raw := (it.input.drop it.pos).take (rawEnd - it.pos)
    some (⟨raw, lineContent raw, it.lineNo⟩, { it with pos := rawEnd, lineNo := it.lineNo + 1 })

theorem LineIter.next_eq_some {it it' : LineIter} {line : LineView}
    (h : it.next = some (line, it')) :
    it.pos < it.input.length ∧ it'.input = it.input ∧ it.pos < it'.pos
      ∧ it'.input.drop it'.pos
        = (it.input.drop it.pos).drop ((it.input.drop it.pos).findIdx (· = 10) + 1)
      ∧ line.raw = (it.input.drop it.pos).take ((it.input.drop it.pos).findIdx (· = 10) + 1)
      ∧ line.content = lineContent line.raw := by
  rw [LineIter.next] at h
  split_ifs at h with hpos
  have hidx := @List.findIdx_le_length UInt8 (· = 10) (it.input.drop it.pos)
  rw [List.length_drop] at hidx
  simp only [Option.some.injEq, Prod.mk.injEq] at h
  obtain ⟨rfl, rfl⟩ := h
  rcases lt_or_ge (it.pos + (it.input.drop it.pos).findIdx (· = 10)) it.input.length
    with hstop | hstop
  · refine ⟨not_le.mp hpos, rfl, ?_, ?_, ?_, rfl⟩ <;> simp only [if_pos hstop]
    · omega
    · rw [List.drop_drop, Nat.add_assoc]
    · rw [Nat.add_assoc, Nat.add_sub_cancel_left]
  · refine ⟨not_le.mp hpos, rfl, ?_, ?_, ?_, rfl⟩ <;> simp only [if_neg (not_lt.mpr hstop)]
    · omega
    · rw [List.drop_drop, List.drop_eq_nil_of_le hstop, List.drop_eq_nil_of_le]
      omega
    · rw [Nat.add_sub_cancel_left, List.take_of_length_le, List.take_of_length_le]
      all_goals
        rw [List.length_drop]
        omega

def LineIter.collect (it : LineIter) : List LineView :=
  match h : it.next with
  | none => []
  | some (line, it') =>
      have : it'.input.length - it'.pos < it.input.length - it.pos := by
        obtain ⟨hpos, hinput, hlt, -⟩ := LineIter.next_eq_some h
        rw [hinput]
        omega
      line :: it'.collect
termination_by it.input.length - it.pos

def iterLines (input : Bytes) : List LineView := (⟨input, 0, 1⟩ : LineIter).collect

section Rewrite

variable {σ : Type*}

/-- The callback may change its own state. It appends to the output. -/
def rewriteLossless (input : Bytes) (rewrite : σ → LineView → Bytes → σ × Bytes) (s : σ) :
    σ × Bytes :=
  (iterLines input).foldl (fun acc line => rewrite acc.1 line acc.2) (s, [])

def rewritePolicyTextLossless (input : Bytes) (rewriteLine : σ → String → σ × Option String)
    (s : σ) : σ × Bytes :=
  rewriteLossless input (fun s line out =>
    match rewriteLine s (fromUtf8Lossy line.content) with
    | (s', some replacement) => (s', out ++ utf8 replacement ++ line.newline)
    | (s', none) => (s', out ++ line.raw)) s

end Rewrite

theorem LineIter.map_raw_collect (it : LineIter) :
    it.collect.map LineView.raw = Terminated.cut 10 (it.input.drop it.pos) := by
  fun_induction LineIter.collect it with
  | case1 it h =>
      rw [LineIter.next] at h
      split_ifs at h with hpos
      rw [List.drop_eq_nil_of_le hpos]
      rfl
  | case2 it line it' h _ ih =>
      obtain ⟨hpos, -, -, hdrop, hraw, -⟩ := LineIter.next_eq_some h
      have hne : it.input.drop it.pos ≠ [] := by
        rw [Ne, List.drop_eq_nil_iff]
        exact not_le.mpr hpos
      rw [List.map_cons, ih, Terminated.cut_eq_cons hne, hraw, hdrop]

theorem LineIter.content_of_mem {it : LineIter} {line : LineView} (h : line ∈ it.collect) :
    line.content = lineContent line.raw := by
  fun_induction LineIter.collect it with
  | case1 it => exact absurd h List.not_mem_nil
  | case2 it first it' hnext _ ih =>
      rcases List.mem_cons.mp h with rfl | h
      · exact (LineIter.next_eq_some hnext).2.2.2.2.2
      · exact ih h

theorem map_raw_iterLines (input : Bytes) :
    (iterLines input).map LineView.raw = Terminated.cut 10 input :=
  LineIter.map_raw_collect _

theorem content_of_mem_iterLines {input : Bytes} {line : LineView} (h : line ∈ iterLines input) :
    line.content = lineContent line.raw :=
  LineIter.content_of_mem h

/-! ## The ending of a line -/

theorem lineContent_append_lf (body : Bytes) :
    lineContent (body ++ [10]) = if body.getLast? = some 13 then body.dropLast else body := by
  have hlast : (body ++ [(10 : UInt8)])[(body ++ [(10 : UInt8)]).length - 1]? = some 10 := by
    simp
  have hpos : 0 < (body ++ [(10 : UInt8)]).length := by simp
  simp only [lineContent, if_pos (And.intro hpos hlast)]
  rw [List.length_append, List.length_singleton, Nat.add_sub_cancel]
  cases body using List.reverseRecOn with
  | nil => rfl
  | append_singleton body b =>
      by_cases hb : b = 13
      · subst hb
        simp
      · rw [if_neg (by simp [hb]), if_neg (by simpa using hb), List.take_left]

theorem lineContent_of_notMem {raw : Bytes} (h : (10 : UInt8) ∉ raw) :
    lineContent raw = if raw.getLast? = some 13 then raw.dropLast else raw := by
  have hlast : ¬ (0 < raw.length ∧ raw[raw.length - 1]? = some 10) := fun hlast =>
    h (List.mem_of_getElem? hlast.2)
  simp only [lineContent, if_neg hlast]
  cases raw using List.reverseRecOn with
  | nil => rfl
  | append_singleton body b =>
      by_cases hb : b = 13
      · subst hb
        simp
      · simp [hb]

theorem exists_append_cr (l : Bytes) :
    ∃ cr ∈ [[], [(13 : UInt8)]], (if l.getLast? = some 13 then l.dropLast else l) ++ cr = l := by
  split_ifs with h
  · exact ⟨[13], by simp, List.dropLast_append_getLast? 13 h⟩
  · exact ⟨[], by simp, List.append_nil l⟩

theorem newline_of_raw_eq {line : LineView} {body : Bytes}
    (hraw : line.raw = body ++ [10]) (hcontent : line.content = lineContent line.raw) :
    ∃ cr ∈ [[], [(13 : UInt8)]], line.content ++ cr = body ∧ line.newline = cr ++ [10] := by
  obtain ⟨cr, hcr, happend⟩ := exists_append_cr body
  rw [hraw, lineContent_append_lf] at hcontent
  rw [← hcontent] at happend
  refine ⟨cr, hcr, happend, ?_⟩
  rw [LineView.newline, hraw, ← happend, List.append_assoc, List.drop_left]

theorem newline_of_notMem {line : LineView} (hraw : (10 : UInt8) ∉ line.raw)
    (hcontent : line.content = lineContent line.raw) :
    ∃ cr ∈ [[], [(13 : UInt8)]], line.content ++ cr = line.raw ∧ line.newline = cr := by
  obtain ⟨cr, hcr, happend⟩ := exists_append_cr line.raw
  rw [← lineContent_of_notMem hraw, ← hcontent] at happend
  refine ⟨cr, hcr, happend, ?_⟩
  rw [LineView.newline, ← happend, List.drop_left]

/-! ## What the callback replaces -/

section Replies

variable {σ : Type*} (rewriteLine : σ → String → σ × Option String)

/-- What the callback says of each line, one after the other. -/
def replies : σ → List LineView → List (Option String)
  | _, [] => []
  | s, line :: lines =>
      let (s', reply) := rewriteLine s (fromUtf8Lossy line.content)
      reply :: replies s' lines

def LineView.rewritten (line : LineView) : Option String → Bytes
  | none => line.raw
  | some replacement => utf8 replacement ++ line.newline

theorem length_replies (s : σ) (lines : List LineView) :
    (replies rewriteLine s lines).length = lines.length := by
  induction lines generalizing s with
  | nil => rfl
  | cons line lines ih => rw [replies, List.length_cons, List.length_cons, ih]

theorem rewritePolicyTextLossless_eq (input : Bytes) (s : σ) :
    (rewritePolicyTextLossless input rewriteLine s).2
      = (List.zipWith LineView.rewritten (iterLines input)
          (replies rewriteLine s (iterLines input))).flatten := by
  have hfold : ∀ (lines : List LineView) (s : σ) (out : Bytes),
      (lines.foldl (fun acc line => ((rewriteLine acc.1 (fromUtf8Lossy line.content)).1,
        acc.2 ++ line.rewritten (rewriteLine acc.1 (fromUtf8Lossy line.content)).2)) (s, out)).2
      = out ++ (List.zipWith LineView.rewritten lines (replies rewriteLine s lines)).flatten := by
    intro lines
    induction lines with
    | nil => exact fun s out => (List.append_nil out).symm
    | cons line lines ih =>
        intro s out
        rw [List.foldl_cons, ih, replies, List.zipWith_cons_cons, List.flatten_cons,
          List.append_assoc]
  refine Eq.trans ?_ ((hfold _ s []).trans (List.nil_append _))
  rw [rewritePolicyTextLossless, rewriteLossless]
  congr 2
  funext acc line
  rcases rewriteLine acc.1 (fromUtf8Lossy line.content) with ⟨s', _ | replacement⟩
  · rfl
  · exact congrArg (s', ·) (List.append_assoc acc.2 _ _)

end Replies

/-- A reply that keeps its line one line: the replacement has no line feed, and it is not empty
where the line has no ending. -/
def KeepsLine (line : LineView) (reply : Option String) : Prop :=
  ∀ replacement, reply = some replacement →
    (10 : UInt8) ∉ utf8 replacement ∧ (line.newline = [] → replacement ≠ "")

theorem lf_notMem_of_mem {cr : Bytes} (h : cr ∈ [[], [(13 : UInt8)]]) : (10 : UInt8) ∉ cr := by
  rcases List.mem_pair.mp h with rfl | rfl <;> simp

theorem pieces_rewritten {lines : List LineView} {replies : List (Option String)}
    (hpieces : Terminated.Pieces 10 (lines.map LineView.raw))
    (hcontent : ∀ line ∈ lines, line.content = lineContent line.raw)
    (hkeeps : List.Forall₂ KeepsLine lines replies) :
    Terminated.Pieces 10 (List.zipWith LineView.rewritten lines replies) := by
  induction hkeeps with
  | nil => exact .nil
  | @cons line reply lines replies hkeep _ ih =>
      have hline := hcontent line List.mem_cons_self
      have htail := fun other h => hcontent other (List.mem_cons_of_mem line h)
      rw [List.map_cons] at hpieces
      rw [List.zipWith_cons_cons]
      generalize hraw : line.raw = raw at hpieces
      generalize hraws : lines.map LineView.raw = raws at hpieces ih
      cases hpieces with
      | last hne hlf =>
          rw [List.map_eq_nil_iff.mp hraws, List.zipWith_nil_left]
          cases reply with
          | none =>
              rw [LineView.rewritten, hraw]
              exact .last hne hlf
          | some replacement =>
              obtain ⟨cr, hcr, -, hnewline⟩ := newline_of_notMem (hraw ▸ hlf) hline
              obtain ⟨hreplacement, hempty⟩ := hkeep replacement rfl
              refine .last (fun hnil => ?_) ?_
              · obtain ⟨hutf8, hnil⟩ := List.append_eq_nil_iff.mp hnil
                exact hempty hnil (utf8_injective (hutf8.trans (utf8_eq "").symm))
              · rw [LineView.rewritten, hnewline, List.mem_append, not_or]
                exact ⟨hreplacement, lf_notMem_of_mem hcr⟩
      | @cons body _ hlf hrest =>
          cases reply with
          | none =>
              rw [LineView.rewritten, hraw]
              exact .cons hlf (ih hrest htail)
          | some replacement =>
              obtain ⟨cr, hcr, -, hnewline⟩ := newline_of_raw_eq hraw hline
              rw [LineView.rewritten, hnewline, ← List.append_assoc]
              refine .cons ?_ (ih hrest htail)
              rw [List.mem_append, not_or]
              exact ⟨(hkeep replacement rfl).1, lf_notMem_of_mem hcr⟩

theorem line_of_mem_iterLines {input : Bytes} {line : LineView} (h : line ∈ iterLines input) :
    line.raw = line.content ++ line.newline ∧ (10 : UInt8) ∉ line.content
      ∧ line.newline ∈ [[], [13], [10], [13, 10]] := by
  have hcontent := content_of_mem_iterLines h
  have hpieces := Terminated.pieces_cut 10 input
  rw [← map_raw_iterLines] at hpieces
  rcases hpieces.of_mem (List.mem_map_of_mem h) with hlf | ⟨body, hlf, hraw⟩
  · obtain ⟨cr, hcr, happend, hnewline⟩ := newline_of_notMem hlf hcontent
    refine ⟨by rw [hnewline, happend], fun hmem => hlf ?_, ?_⟩
    · exact happend ▸ List.mem_append_left cr hmem
    · rw [hnewline]
      rcases List.mem_pair.mp hcr with rfl | rfl <;> simp
  · obtain ⟨cr, hcr, happend, hnewline⟩ := newline_of_raw_eq hraw hcontent
    refine ⟨by rw [hnewline, hraw, ← happend, List.append_assoc], fun hmem => hlf ?_, ?_⟩
    · exact happend ▸ List.mem_append_left cr hmem
    · rw [hnewline]
      rcases List.mem_pair.mp hcr with rfl | rfl <;> simp

theorem zipWith_rewritten_none {lines : List LineView} {replies : List (Option String)}
    (hlength : replies.length = lines.length) (hnone : ∀ reply ∈ replies, reply = none) :
    List.zipWith LineView.rewritten lines replies = lines.map LineView.raw := by
  induction lines generalizing replies with
  | nil => rfl
  | cons line lines ih =>
      cases replies with
      | nil => exact absurd hlength.symm (Nat.succ_ne_zero _)
      | cons reply replies =>
          rw [List.zipWith_cons_cons, hnone reply List.mem_cons_self, LineView.rewritten,
            List.map_cons, ih (Nat.succ_injective hlength) fun other h =>
              hnone other (List.mem_cons_of_mem reply h)]

/-- The raw lines append to the text. Each line is its content and its ending. The output has, for
each line, the line itself or its replacement with the ending, so it is the text when nothing is
replaced. When each reply keeps its line one line, these are the lines of the output. -/
theorem rewrite_policy_text {σ : Type*} (input : Bytes)
    (rewriteLine : σ → String → σ × Option String) (s : σ) :
    ((iterLines input).map LineView.raw).flatten = input
      ∧ (∀ line ∈ iterLines input, line.raw = line.content ++ line.newline
        ∧ (10 : UInt8) ∉ line.content ∧ line.newline ∈ [[], [13], [10], [13, 10]])
      ∧ (replies rewriteLine s (iterLines input)).length = (iterLines input).length
      ∧ (rewritePolicyTextLossless input rewriteLine s).2
        = (List.zipWith LineView.rewritten (iterLines input)
            (replies rewriteLine s (iterLines input))).flatten
      ∧ ((∀ reply ∈ replies rewriteLine s (iterLines input), reply = none) →
        (rewritePolicyTextLossless input rewriteLine s).2 = input)
      ∧ (List.Forall₂ KeepsLine (iterLines input) (replies rewriteLine s (iterLines input)) →
        (iterLines (rewritePolicyTextLossless input rewriteLine s).2).map LineView.raw
            = List.zipWith LineView.rewritten (iterLines input)
                (replies rewriteLine s (iterLines input))
          ∧ (iterLines (rewritePolicyTextLossless input rewriteLine s).2).length
            = (iterLines input).length) := by
  have hflatten : ((iterLines input).map LineView.raw).flatten = input := by
    rw [map_raw_iterLines, Terminated.flatten_cut]
  have hlength := length_replies rewriteLine s (iterLines input)
  have hout := rewritePolicyTextLossless_eq rewriteLine input s
  refine ⟨hflatten, fun line => line_of_mem_iterLines, hlength, hout, fun hnone => ?_,
    fun hkeeps => ?_⟩
  · rw [hout, zipWith_rewritten_none hlength hnone, hflatten]
  · have hpieces : Terminated.Pieces 10 ((iterLines input).map LineView.raw) := by
      rw [map_raw_iterLines]
      exact Terminated.pieces_cut 10 input
    have hraws : (iterLines (rewritePolicyTextLossless input rewriteLine s).2).map LineView.raw
        = List.zipWith LineView.rewritten (iterLines input)
            (replies rewriteLine s (iterLines input)) := by
      rw [map_raw_iterLines, hout]
      exact Terminated.cut_flatten
        (pieces_rewritten hpieces (fun line => content_of_mem_iterLines) hkeeps)
    refine ⟨hraws, ?_⟩
    rw [← List.length_map LineView.raw, hraws, List.length_zipWith, hlength, min_self]

theorem iterLines_a : iterLines [97] = [⟨[97], [97], 1⟩] := by
  simp [iterLines, LineIter.collect, LineIter.next, lineContent]

/-- A replacement with a line feed makes two lines of one. -/
theorem lines_of_rewrite_differ :
    ¬ ∀ (input : Bytes) (rewriteLine : Unit → String → Unit × Option String),
      (iterLines (rewritePolicyTextLossless input rewriteLine ()).2).length
        = (iterLines input).length := by
  intro h
  have hout : (rewritePolicyTextLossless [97] (fun _ _ => ((), some "x\ny")) ()).2
      = [120, 10, 121] := by
    rw [rewritePolicyTextLossless_eq, iterLines_a]
    simp only [replies, List.zipWith, LineView.rewritten, LineView.newline, utf8_eq]
    rfl
  have hlen := h [97] fun _ _ => ((), some "x\ny")
  rw [hout, iterLines_a, ← List.length_map LineView.raw, map_raw_iterLines] at hlen
  exact absurd hlen (by decide)

end ArcVcs
