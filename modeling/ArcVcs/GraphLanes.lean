import ArcVcs.Change
import ArcVcs.Lib.Lanes

/-!
# Lanes of the log graph

The rows of `arc log`, newest change first. A change that was drawn as a dependency before takes
its lane, any other a new lane at the left. Its lane passes to its first visible dependency, and
each further dependency that has no lane gets one. The index of a new lane counts the
dependencies that had one too, so a merge at the right whose dependencies have lanes at the left
inserts past the end, and this aborts the command. All rows of all other runs have the right
lanes.
-/

namespace ArcVcs

open Lanes

/-! ## Labels -/

/-- The styles of `owo_colors` that the rows use. -/
inductive RowStyle where
  | brightBlack | brightBlue | brightGreen | red | magenta | cyan | yellow | bold

inductive TemplateField where
  | id | idShort | author | intent | stateBadges | refBadges | badges

inductive TemplatePart where
  | literal (text : String)
  | field (field : TemplateField)

structure LogTemplate where
  parts : List TemplatePart

structure TemplateContext where
  id : String
  idShort : String
  author : String
  intent : String
  stateBadges : String
  refBadges : String
  badges : String

structure RowFlags where
  isAi : Bool
  hasConflict : Bool
  isCurrent : Bool
  isActiveHead : Bool

def TemplateField.render (ctx : TemplateContext) : TemplateField → String
  | id => ctx.id
  | idShort => ctx.idShort
  | author => ctx.author
  | intent => ctx.intent
  | stateBadges => ctx.stateBadges
  | refBadges => ctx.refBadges
  | badges => ctx.badges

def LogTemplate.render (template : LogTemplate) (ctx : TemplateContext) : String :=
  template.parts.foldl (fun rendered part => rendered ++
    match part with
    | .literal text => text
    | .field field => field.render ctx) ""

/-- Decorations keyed by change id. -/
structure GraphDecorations where
  tags : FMap Blake3Hash (List String)
  remotes : FMap Blake3Hash (List String)
  current : Option Blake3Hash
  activeHeads : Finset Blake3Hash
  stableAncestors : Finset Blake3Hash

def GraphDecorations.default : GraphDecorations := ⟨∅, ∅, none, ∅, ∅⟩

def changeHasConflict (change : Change) : Bool :=
  change.atoms.any fun
    | .conflict .. => true
    | _ => false

def changeIsAi (change : Change) : Bool := change.author.isAi

def authorLabel : Author → String
  | .human name email _ => name ++ " <" ++ email ++ ">"
  | .ai model humanSponsor =>
      let sponsor := (Blake3Hash.ofNat humanSponsor.val).toHex
      model ++ " sponsor:" ++ String.ofList (sponsor.toList.take 8)
  | .server canonicalId _ => canonicalId ++ " [server]"
  | .transient sessionId _ => sessionId ++ " [transient]"

structure GraphRenderer where
  useColor : Bool
  /-- The text in the styles. -/
  paint : List RowStyle → String → String

/-- Plain text without any styles. -/
def GraphRenderer.monochrome : GraphRenderer := ⟨false, fun _ text => text⟩

namespace GraphRenderer

variable (r : GraphRenderer) (decorations : GraphDecorations) (template : Option LogTemplate)

/-- The text, in the styles if the renderer uses colors. -/
def painted (styles : List RowStyle) (text : String) : String :=
  if r.useColor then r.paint styles text else text

def rowFlags (change : Change) : RowFlags where
  isAi := changeIsAi change
  hasConflict := changeHasConflict change
  isCurrent := decorations.current = some change.id
  isActiveHead := change.id ∈ decorations.activeHeads

def nodeSymbol (change : Change) : String :=
  let flags := rowFlags decorations change
  if !r.useColor then
    if flags.isCurrent then "@"
    else if flags.hasConflict then "⊗"
    else if flags.isAi then "◉"
    else if flags.isActiveHead then "●"
    else "○"
  else if flags.isCurrent then r.paint [.brightBlue, .bold] "@"
  else if flags.isActiveHead then r.paint [.brightGreen, .bold] "●"
  else if flags.hasConflict then r.paint [.red, .bold] "⊗"
  else if flags.isAi then r.paint [.magenta, .bold] "◉"
  else if change.id ∈ decorations.stableAncestors then r.paint [.brightBlack] "○"
  else r.paint [.cyan] "○"

def refBadge (name : String) (isTag : Bool) : String :=
  r.painted (if isTag then [.cyan] else [.yellow]) ("[" ++ name ++ "]")

def rowLabel (change : Change) : String :=
  let flags := rowFlags decorations change
  let fullId := change.id.toHex
  let shortId := String.ofList (fullId.toList.take 8)
  let author := authorLabel change.author
  let stateBadges := (if flags.hasConflict then r.painted [.red, .bold] "⚠" else "")
    ++ (if flags.isAi then r.painted [.magenta, .bold] "🤖" else "")
    ++ (if flags.isCurrent then r.painted [.brightBlue, .bold] "@" else "")
  let refBadges := " ".intercalate
    (((decorations.tags.lookup change.id).getD []).map (r.refBadge · true)
      ++ ((decorations.remotes.lookup change.id).getD []).map (r.refBadge · false))
  let badges := " ".intercalate ([stateBadges, refBadges].filter (· ≠ ""))
  match template with
  | some template =>
      template.render ⟨fullId, shortId, author, change.intent, stateBadges, refBadges, badges⟩
  | none =>
      let label :=
        if badges = "" then shortId ++ " " ++ author ++ " | " ++ change.intent
        else shortId ++ " " ++ badges ++ " " ++ author ++ " | " ++ change.intent
      if r.useColor && decide (change.id ∈ decorations.stableAncestors) && !flags.isActiveHead
          && !flags.isCurrent && !flags.isAi && !flags.hasConflict then
        r.paint [.brightBlack] label
      else label

/-! ## Rows -/

/-- The cells left of the label: the symbol in the lane of the change, a bar in every other. -/
def graphPrefix (active : List Blake3Hash) (col : ℕ) (symbol : String) : String :=
  " ".intercalate (active.zipIdx.map fun (_, idx) => if idx = col then symbol else "│")

def mergeEdgeLine (active : List Blake3Hash) (fromCol parentCount : ℕ) : String :=
  let toCol := fromCol + (parentCount - 1)
  let width := max active.length (toCol + 1)
  " ".intercalate ((List.range width).map fun col =>
    if col < fromCol then "│"
    else if col = fromCol then "├"
    else if col = toCol then "╮"
    else if fromCol < col ∧ col < toCol then "─"
    else if col < active.length then "│"
    else " ")

def elisionHeadRows : ℕ := 40

def elisionTailRows : ℕ := 20

def elisionRow (dropped : ℕ) : String :=
  r.painted [.brightBlack] ("┆ … " ++ toString dropped ++ " commits elided …")

/-- The output with the row of what was dropped before, if anything was. -/
def flushDropped (output : List String) (dropped : ℕ) : List String :=
  if 0 < dropped then output ++ [r.elisionRow dropped] else output

def collapseLinearRows (rows : List (String × Bool)) : List String :=
  if rows.length ≤ elisionHeadRows + elisionTailRows then rows.map Prod.fst
  else
    let middleStart := elisionHeadRows
    let middleEnd := rows.length - elisionTailRows
    let (output, dropped) := rows.zipIdx.foldl
      (fun (output, dropped) ((line, simple), idx) =>
        if idx < middleStart ∨ middleEnd ≤ idx then (r.flushDropped output dropped ++ [line], 0)
        else if simple then (output, dropped + 1)
        else (r.flushDropped output dropped ++ [line], 0))
      ([], 0)
    r.flushDropped output dropped

/-! ## Lanes -/

/-- The dependencies of the change that the list shows, in increasing order. -/
def parents (changes : List Change) (change : Change) : List Blake3Hash :=
  (change.deps.filter (· ∈ changes.map Change.id)).sorted

/-- The lanes of the row of a change, and its own. -/
def enterLane (active : List Blake3Hash) (id : Blake3Hash) : List Blake3Hash × ℕ :=
  match active.idxOf? id with
  | some existing => (active, existing)
  | none => (id :: active, 0)

def dedupeColumns (active : List Blake3Hash) : List Blake3Hash := active.eraseDups

/-- The lane `col` of a change passes to its first dependency, and the others get lanes. -/
def passLane (active : List Blake3Hash) (col : ℕ) : List Blake3Hash → Option (List Blake3Hash)
  | [] => removeAt active col
  | first :: others => do
      let active ← assignAt active col first
      insertMissing col (first :: others).zipIdx.tail active

/-- The lanes below the row of a change, unless an edit is out of bounds. -/
def leaveLane (active : List Blake3Hash) (col : ℕ) (parents : List Blake3Hash) :
    Option (List Blake3Hash) :=
  (passLane active col parents).map dedupeColumns

structure Rows where
  active : List Blake3Hash
  rows : List (String × Bool)

/-- One turn of the loop, which fails where the source panics. -/
def drawChange (changes : List Change) (s : Rows) (change : Change) : Option Rows := do
  let parents := parents changes change
  let (active, col) := enterLane s.active change.id
  let flags := rowFlags decorations change
  let symbol := r.nodeSymbol decorations change
  let line := graphPrefix active col symbol ++ " " ++ r.rowLabel decorations template change
  let hasRefBadges := decide (change.id ∈ decorations.tags ∨ change.id ∈ decorations.remotes)
  let linearSimple := decide (parents.length ≤ 1) && !hasRefBadges && !flags.isAi
    && !flags.hasConflict && !flags.isCurrent && !flags.isActiveHead
  let rows := s.rows ++ [(line, linearSimple)]
  let active ← leaveLane active col parents
  some ⟨active, if 1 < parents.length then
    rows ++ [(mergeEdgeLine active col parents.length, false)] else rows⟩

/-- The state of the loop over `changes` after the changes in `done`. -/
def drawAll (changes done : List Change) : Option Rows :=
  done.foldlM (r.drawChange decorations template changes) ⟨[], []⟩

def renderWithDecorationsAndTemplate (changes : List Change) : Option (List String) := do
  let s ← r.drawAll decorations template changes changes
  some (r.collapseLinearRows s.rows)

def renderWithDecorations (changes : List Change) : Option (List String) :=
  r.renderWithDecorationsAndTemplate decorations none changes

def render (changes : List Change) : Option (List String) :=
  r.renderWithDecorations .default changes

end GraphRenderer

/-- Distinct changes, each before all of its dependencies. -/
structure NewestFirst (changes : List Change) : Prop where
  nodup : (changes.map Change.id).Nodup
  later : changes.Pairwise fun earlier change => earlier.id ∉ change.deps
  irrefl : ∀ change ∈ changes, change.id ∉ change.deps

theorem NewestFirst.notMem_deps {done rest : List Change} {change : Change}
    (h : NewestFirst (done ++ change :: rest)) :
    ∀ m ∈ done ++ [change], m.id ∉ change.deps := by
  intro m hm
  rcases List.mem_append.mp hm with hm | hm
  · exact (List.pairwise_append.mp h.later).2.2 m hm change List.mem_cons_self
  · obtain rfl := List.mem_singleton.mp hm
    exact h.irrefl m (by simp)

namespace GraphRenderer

/-! ## One row -/

section Row

variable {active left right ps : List Blake3Hash} {id : Blake3Hash}

theorem mem_parents {changes : List Change} {change : Change} :
    id ∈ parents changes change ↔ id ∈ change.deps ∧ id ∈ changes.map Change.id := by
  rw [parents, Finset.mem_sorted, Finset.mem_filter]

theorem enterLane_of_mem (h : id ∉ left) :
    enterLane (left ++ id :: right) id = (left ++ id :: right, left.length) := by
  have hidx : (left ++ id :: right).idxOf? id = some left.length := by
    induction left with
    | nil => simp [List.idxOf?_cons]
    | cons a left ih =>
        rw [List.mem_cons, not_or] at h
        rw [List.cons_append, List.idxOf?_cons, if_neg (by simpa using Ne.symm h.1), ih h.2]
        rfl
  rw [enterLane, hidx]

theorem enterLane_of_notMem (h : id ∉ active) : enterLane active id = (id :: active, 0) := by
  have hidx : active.idxOf? id = none := List.idxOf?_eq_none_iff.mpr h
  rw [enterLane, hidx]

theorem exists_enterLane (h : active.Nodup) (id : Blake3Hash) :
    ∃ left right, enterLane active id = (left ++ id :: right, left.length)
      ∧ (left ++ id :: right).Nodup ∧ (∀ x, x ∈ left ++ right ↔ x ∈ active ∧ x ≠ id)
      ∧ ((id ∈ active ∧ active.length - (active.idxOf id + 1) = right.length)
        ∨ (id ∉ active ∧ right = active)) := by
  by_cases hid : id ∈ active
  · obtain ⟨left, right, rfl, hleft⟩ := List.eq_append_cons_of_mem hid
    refine ⟨left, right, enterLane_of_mem hleft, h, fun x => ?_, .inl ⟨hid, ?_⟩⟩
    · have hright := (List.nodup_cons.mp (List.nodup_append.mp h).2.1).1
      simp only [List.mem_append, List.mem_cons]
      constructor
      · rintro (hx | hx)
        exacts [⟨.inl hx, fun heq => hleft (heq ▸ hx)⟩,
          ⟨.inr (.inr hx), fun heq => hright (heq ▸ hx)⟩]
      · rintro ⟨hx | rfl | hx, hne⟩
        exacts [.inl hx, absurd rfl hne, .inr hx]
    · rw [List.idxOf_append_of_notMem hleft, List.idxOf_cons_self, List.length_append,
        List.length_cons]
      omega
  · refine ⟨[], active, enterLane_of_notMem hid, List.nodup_cons.mpr ⟨hid, h⟩, fun x => ?_,
      .inr ⟨hid, rfl⟩⟩
    exact ⟨fun hx => ⟨hx, fun heq => hid (heq ▸ hx)⟩, fun hx => hx.1⟩

theorem leaveLane_cons (first : Blake3Hash) :
    leaveLane (left ++ id :: right) left.length (first :: ps)
      = (insertMissing left.length (ps.zipIdx 1) (left ++ first :: right)).map dedupeColumns := by
  rw [leaveLane, passLane, assignAt_length]
  rfl

theorem mem_leaveLane (h : leaveLane (left ++ id :: right) left.length ps = some active)
    (x : Blake3Hash) : x ∈ active ↔ x ∈ left ++ right ∨ x ∈ ps := by
  cases ps with
  | nil =>
      rw [leaveLane, passLane, removeAt_length] at h
      obtain rfl : dedupeColumns (left ++ right) = active := Option.some.inj h
      simp [dedupeColumns]
  | cons first ps =>
      rw [leaveLane_cons] at h
      obtain ⟨filled, hfilled, rfl⟩ := Option.map_eq_some_iff.mp h
      rw [dedupeColumns, List.mem_eraseDups, mem_insertMissing hfilled]
      simp only [List.mem_append, List.mem_cons]
      tauto

theorem nodup_leaveLane {col : ℕ} {next : List Blake3Hash}
    (h : leaveLane active col ps = some next) : next.Nodup := by
  obtain ⟨filled, -, rfl⟩ := Option.map_eq_some_iff.mp h
  exact nodup_eraseDups _

/-- The edits are within bounds when the dependencies that have a lane already, before one that
has none, are no more than the lanes at the right. -/
theorem leaveLane_isSome_iff (hps : ps.Nodup) :
    (leaveLane (left ++ id :: right) left.length ps).isSome
      ↔ ∀ i (hi : i < ps.length), ps[i] ∉ left ++ right →
          ((ps.take i).drop 1).countP (· ∈ left ++ right) ≤ right.length := by
  cases ps with
  | nil => simp [leaveLane, passLane, removeAt_length]
  | cons first ps =>
      obtain ⟨hfirst, hps⟩ := List.nodup_cons.mp hps
      have hmem {x : Blake3Hash} (hx : x ∈ ps) :
          x ∈ left ++ first :: right ↔ x ∈ left ++ right := by
        have hne : x ≠ first := fun heq => hfirst (heq ▸ hx)
        simp [hne]
      have hcount (i : ℕ) : (ps.take i).countP (· ∈ left ++ first :: right)
          = (ps.take i).countP (· ∈ left ++ right) :=
        List.countP_congr fun x hx => by simpa using hmem (List.mem_of_mem_take hx)
      rw [leaveLane_cons, Option.isSome_map, insertMissing_isSome_iff hps]
      constructor
      · rintro h (_ | i) hi hopen
        · simp
        · have hi : i < ps.length := by simpa using hi
          have hle := h i hi fun hin => hopen ((hmem (List.getElem_mem hi)).mp hin)
          rw [hcount, List.length_append, List.length_cons] at hle
          rw [List.take_succ_cons, List.drop_one, List.tail_cons]
          omega
      · intro h i hi hopen
        have hle := h (i + 1) (by simpa using hi) fun hin =>
          hopen ((hmem (List.getElem_mem hi)).mpr hin)
        rw [List.take_succ_cons, List.drop_one, List.tail_cons] at hle
        rw [hcount, List.length_append, List.length_cons]
        omega

end Row

/-! ## Whole runs -/

variable (r : GraphRenderer) (decorations : GraphDecorations) (template : Option LogTemplate)

/-- The lanes after the changes in `done`: one for each dependency that is shown and still to
be drawn. -/
structure LanesRight (changes done : List Change) (active : List Blake3Hash) : Prop where
  nodup : active.Nodup
  mem_iff : ∀ id, id ∈ active ↔ IsOpen Change.id Change.deps changes done id

/-- Before each dependency without a lane, leaving out the first, no more dependencies have a
lane than there are lanes right of the change's own. A change in a new lane always fits. -/
def Fits (changes : List Change) (active : List Blake3Hash) (change : Change) : Prop :=
  change.id ∈ active → ∀ i (hi : i < (parents changes change).length),
    (parents changes change)[i] ∉ active →
      (((parents changes change).take i).drop 1).countP (· ∈ active)
        ≤ active.length - (active.idxOf change.id + 1)

/-- No edit of the loop is out of bounds. Each row starts with the right lanes and draws its
change in the only lane of the change, and no lane is left below the last row. -/
structure DrawsLanes (changes : List Change) : Prop where
  completes : (r.renderWithDecorationsAndTemplate decorations template changes).isSome
  before_row : ∀ done change rest, changes = done ++ change :: rest →
    ∃ s, r.drawAll decorations template changes done = some s
      ∧ LanesRight changes done s.active
      ∧ ∀ i, (enterLane s.active change.id).1[i]? = some change.id
          ↔ i = (enterLane s.active change.id).2
  none_left : ∃ s, r.drawAll decorations template changes changes = some s ∧ s.active = []

section Runs

variable {r decorations template} {changes done rest : List Change} {change : Change}
  {active : List Blake3Hash} {s s' : Rows}

theorem drawChange_eq_some (h : r.drawChange decorations template changes s change = some s') :
    leaveLane (enterLane s.active change.id).1 (enterLane s.active change.id).2
      (parents changes change) = some s'.active := by
  obtain ⟨active, hactive, hs⟩ := Option.bind_eq_some_iff.mp h
  obtain rfl := Option.some.inj hs
  exact hactive

theorem isSome_drawChange :
    (r.drawChange decorations template changes s change).isSome
      = (leaveLane (enterLane s.active change.id).1 (enterLane s.active change.id).2
          (parents changes change)).isSome := by
  rw [drawChange]
  obtain ⟨active, col⟩ := enterLane s.active change.id
  exact (Option.isSome_bind _ _).trans Option.any_true

theorem LanesRight.drawChange (h : LanesRight changes done s.active)
    (hafter : ∀ m ∈ done ++ [change], m.id ∉ change.deps)
    (hstep : r.drawChange decorations template changes s change = some s') :
    LanesRight changes (done ++ [change]) s'.active := by
  have hleave := drawChange_eq_some hstep
  refine ⟨nodup_leaveLane hleave, fun id => ?_⟩
  obtain ⟨left, right, henter, -, hothers, -⟩ := exists_enterLane h.nodup change.id
  rw [henter] at hleave
  rw [mem_leaveLane hleave, hothers, h.mem_iff, mem_parents, isOpen_snoc_iff hafter]

theorem isSome_drawChange_iff (h : s.active.Nodup) (hself : change.id ∉ change.deps) :
    (r.drawChange decorations template changes s change).isSome
      ↔ Fits changes s.active change := by
  have hparents : (parents changes change).Nodup := Finset.nodup_sorted _
  have hne {x : Blake3Hash} (hx : x ∈ parents changes change) : x ≠ change.id :=
    fun heq => hself (heq ▸ (mem_parents.mp hx).1)
  obtain ⟨left, right, henter, -, hothers, hlanes⟩ := exists_enterLane h change.id
  have hmem {x : Blake3Hash} (hx : x ∈ parents changes change) :
      x ∈ left ++ right ↔ x ∈ s.active := by
    rw [hothers]
    exact and_iff_left (hne hx)
  have hcount (i : ℕ) : (((parents changes change).take i).drop 1).countP (· ∈ left ++ right)
      = (((parents changes change).take i).drop 1).countP (· ∈ s.active) :=
    List.countP_congr fun x hx => by
      simpa using hmem (List.mem_of_mem_take (List.mem_of_mem_drop hx))
  rw [isSome_drawChange, henter, leaveLane_isSome_iff hparents]
  rcases hlanes with ⟨hid, hright⟩ | ⟨hid, rfl⟩
  · rw [Fits, hright]
    constructor
    · intro hall _ i hi hopen
      rw [← hcount]
      exact hall i hi fun hin => hopen ((hmem (List.getElem_mem hi)).mp hin)
    · intro hall i hi hopen
      rw [hcount]
      exact hall hid i hi fun hin => hopen ((hmem (List.getElem_mem hi)).mpr hin)
  · refine iff_of_true (fun i hi _ => ?_) fun hin => absurd hin hid
    -- a new lane is the leftmost one, and distinct lanes are no more than all lanes
    rw [hcount, List.countP_eq_length_filter]
    refine (List.subperm_of_subset ?_ fun x hx => ?_).length_le
    · exact ((hparents.sublist (List.take_sublist _ _)).sublist (List.drop_sublist _ _)).filter _
    · simpa using (List.mem_filter.mp hx).2

theorem drawAll_snoc : r.drawAll decorations template changes (done ++ [change])
    = (r.drawAll decorations template changes done).bind
        (r.drawChange decorations template changes · change) := by
  rw [drawAll, List.foldlM_append]
  simp [drawAll]

theorem lanesRight_drawAll (h : NewestFirst changes) (hchanges : changes = done ++ rest)
    (hrun : r.drawAll decorations template changes done = some s) :
    LanesRight changes done s.active := by
  induction done using List.reverseRecOn generalizing rest s with
  | nil =>
      obtain rfl := Option.some.inj hrun
      exact ⟨List.nodup_nil, fun id => by simpa using not_isOpen_nil id⟩
  | append_singleton done change ih =>
      rw [List.append_assoc, List.singleton_append] at hchanges
      rw [drawAll_snoc] at hrun
      obtain ⟨t, ht, hstep⟩ := Option.bind_eq_some_iff.mp hrun
      exact (ih hchanges ht).drawChange (hchanges ▸ h).notMem_deps hstep

theorem exists_drawAll (h : NewestFirst changes)
    (hfits : ∀ done change rest s, changes = done ++ change :: rest →
      r.drawAll decorations template changes done = some s → Fits changes s.active change)
    (hchanges : changes = done ++ rest) :
    ∃ s, r.drawAll decorations template changes done = some s := by
  induction done using List.reverseRecOn generalizing rest with
  | nil => exact ⟨_, rfl⟩
  | append_singleton done change ih =>
      rw [List.append_assoc, List.singleton_append] at hchanges
      obtain ⟨s, hs⟩ := ih hchanges
      have hself := (hchanges ▸ h).notMem_deps change (by simp)
      have hnodup := (lanesRight_drawAll h hchanges hs).nodup
      have hstep : (r.drawChange decorations template changes s change).isSome :=
        (isSome_drawChange_iff hnodup hself).mpr (hfits _ _ _ _ hchanges hs)
      rw [drawAll_snoc, hs]
      exact Option.isSome_iff_exists.mp hstep

theorem isSome_drawChange_of_drawAll
    (h : r.drawAll decorations template changes (done ++ change :: rest) = some s')
    (hs : r.drawAll decorations template changes done = some s) :
    (r.drawChange decorations template changes s change).isSome := by
  rw [drawAll, List.foldlM_append, ← drawAll, hs] at h
  change (change :: rest).foldlM (r.drawChange decorations template changes) s = some s' at h
  obtain ⟨next, hnext, -⟩ := Option.bind_eq_some_iff.mp h
  exact Option.isSome_of_eq_some hnext

theorem getElem?_enterLane_iff (h : active.Nodup) (id : Blake3Hash) (i : ℕ) :
    (enterLane active id).1[i]? = some id ↔ i = (enterLane active id).2 := by
  obtain ⟨left, right, henter, hnodup, -⟩ := exists_enterLane h id
  have hlane : (left ++ id :: right)[left.length]? = some id := by simp
  rw [henter]
  constructor
  · intro hi
    have hlt : i < (left ++ id :: right).length := (List.getElem?_eq_some_iff.mp hi).1
    exact (List.getElem?_inj hlt hnodup).mp (hi.trans hlane.symm)
  · rintro rfl
    exact hlane

end Runs

/-- **Lanes.** The loop draws every row in the right lanes exactly when every change that is drawn
in a lane it had before fits. -/
theorem drawsLanes_iff {changes : List Change} (h : NewestFirst changes) :
    r.DrawsLanes decorations template changes
      ↔ ∀ done change rest s, changes = done ++ change :: rest →
          r.drawAll decorations template changes done = some s →
          Fits changes s.active change := by
  constructor
  · intro hdraws done change rest s hchanges hs
    have hself := (hchanges ▸ h).notMem_deps change (by simp)
    have hnodup := (lanesRight_drawAll h hchanges hs).nodup
    obtain ⟨last, hlast, -⟩ := hdraws.none_left
    have hwhole : r.drawAll decorations template changes (done ++ change :: rest) = some last := by
      rw [← hchanges]
      exact hlast
    exact (isSome_drawChange_iff hnodup hself).mp (isSome_drawChange_of_drawAll hwhole hs)
  · intro hfits
    have hrun {done rest : List Change} (hchanges : changes = done ++ rest) :=
      exists_drawAll h hfits hchanges
    obtain ⟨last, hlast⟩ := hrun (List.append_nil changes).symm
    refine ⟨?_, fun done change rest hchanges => ?_, last, hlast, ?_⟩
    · rw [renderWithDecorationsAndTemplate, hlast]
      rfl
    · obtain ⟨s, hs⟩ := hrun hchanges
      have hright := lanesRight_drawAll h hchanges hs
      exact ⟨s, hs, hright, getElem?_enterLane_iff hright.nodup change.id⟩
    · have hright := lanesRight_drawAll h (List.append_nil changes).symm hlast
      exact List.eq_nil_iff_forall_not_mem.mpr fun id hid =>
        not_isOpen_all id ((hright.mem_iff id).mp hid)

theorem fits_of_length_parents_le_two {changes : List Change} {change : Change}
    (h : (parents changes change).length ≤ 2) (active : List Blake3Hash) :
    Fits changes active change := by
  intro _ i hi _
  have hnil : ((parents changes change).take i).drop 1 = [] := by
    apply List.drop_eq_nil_of_le
    rw [List.length_take]
    omega
  rw [hnil]
  exact Nat.zero_le _

def mergeOfTwo : List Change :=
  [.bare 4 {2, 3} [], .bare 3 {1} [], .bare 2 {1} [], .bare 1 ∅ []]

theorem newestFirst_mergeOfTwo : NewestFirst mergeOfTwo := ⟨by decide, by decide, by decide⟩

theorem drawsLanes_mergeOfTwo : monochrome.DrawsLanes .default none mergeOfTwo :=
  (drawsLanes_iff _ _ _ newestFirst_mergeOfTwo).mpr fun done change rest _ hchanges _ => by
    have hall : ∀ change ∈ mergeOfTwo, (parents mergeOfTwo change).length ≤ 2 := by decide
    exact fits_of_length_parents_le_two (hall change (by simp [hchanges])) _

/-- A merge of three changes in the right of two lanes, the second of them in the left one. -/
def mergeAtRight : List Change :=
  [.bare 30 {10, 20} [], .bare 20 {5, 10, 15} [], .bare 15 ∅ [], .bare 10 ∅ [], .bare 5 ∅ []]

/-- The third dependency of the merge is inserted at index 3 of two lanes. -/
theorem mergeAtRight_panics : NewestFirst mergeAtRight
    ∧ monochrome.render mergeAtRight = none
    ∧ ¬ monochrome.DrawsLanes .default none mergeAtRight := by
  have hnone : monochrome.render mergeAtRight = none := by decide +kernel
  refine ⟨⟨by decide, by decide, by decide⟩, hnone, fun h => ?_⟩
  have hsome : (monochrome.render mergeAtRight).isSome := h.completes
  rw [hnone] at hsome
  exact Bool.false_ne_true hsome

end GraphRenderer

end ArcVcs
