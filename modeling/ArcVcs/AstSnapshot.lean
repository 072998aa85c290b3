import ArcVcs.AstPlugin
import ArcVcs.Lib.Segments
import ArcVcs.Lib.Trace

/-!
# Snapshots of a source file

A snapshot compares the new source of a file with the source that the materialized state unparses
to. The paths of the unparsed items need not be the paths under which they are stored: an item
without a name is counted, and unparsing lists `#10` before `#2`. The stored items stay the items
of the last source exactly when this does no harm.
-/

namespace ArcVcs

/-- A named child of the root in some parse. -/
def AstParser.HasItem (parser : AstParser) (node : SyntaxNode) : Prop :=
  node.isNamed = true ∧ ∃ src tree, parser.parse src = .ok tree ∧ node ∈ tree.children

/-- The parser recovers, in order, items that are joined by blank lines. -/
def AstParser.RecoversItems (parser : AstParser) (root : String) : Prop :=
  ∀ nodes : List SyntaxNode, (∀ node ∈ nodes, parser.HasItem node) →
    parser.parse ("\n\n".intercalate (nodes.map SyntaxNode.text)) = .ok ⟨root, nodes⟩

/-- A file: its last source, and the materialized state if the last change could be applied. -/
structure TrackedFile where
  src : String
  state : Option MaterializedState

/-- A snapshot: the new source, the change that records it and the blobs stored before. -/
structure FileSnap where
  src : String
  change : Change
  blobs : FMap Blake3Hash Bytes

/-! ## Running a snapshot -/

section Snapshot

variable [Crypto]

/-- The atoms of one file in the delta of the working directory, and the contents they store. -/
def snapshotFile (parser : AstParser) (priorities : List (String × ℕ)) (state : MaterializedState)
    (filepath newSrc : String) : Except RepoError (List Atom × List Bytes) :=
  patchFiles (parser.itemParser.plugin (unparse priorities)) (unparse priorities state)
    (fun _ => newSrc) [filepath]

/-- The store after the contents have been written. -/
def FileSnap.env (e : FileSnap) (contents : List Bytes) (agentIgnore : Gitignore)
    (sparse : Option SparseMatcher) : ApplyEnv :=
  ⟨Repo.readBlob (Repo.putContents e.blobs contents), agentIgnore, sparse⟩

/-- A file inside the sparse boundary is snapped and the change is applied. -/
inductive SnapsFile (parser : AstParser) (priorities : List (String × ℕ)) (filepath : String)
    (agentIgnore : Gitignore) (sparse : Option SparseMatcher) :
    TrackedFile → FileSnap → TrackedFile → Prop
  | snap {src : String} {state : MaterializedState} {e : FileSnap} {tree : SyntaxTree}
      {contents : List Bytes} (hparse : parser.parse e.src = .ok tree)
      (hinside : fileInBoundary sparse filepath = true)
      (hatoms : snapshotFile parser priorities state filepath e.src
        = .ok (e.change.atoms, contents))
      (hblobs : Repo.Storable e.blobs contents) :
      SnapsFile parser priorities filepath agentIgnore sparse ⟨src, some state⟩ e
        ⟨e.src, (applySequence (e.env contents agentIgnore sparse) [e.change] state).toOption⟩

end Snapshot

/-- The stored items of the file are exactly the items of its last source. -/
def Exact (parser : AstParser) (filepath : String) (s : TrackedFile) : Prop :=
  ∃ tree state, parser.parse s.src = .ok tree ∧ s.state = some state ∧ tree.paths.Nodup
    ∧ ∀ path, itemAt state filepath path = tree.content path

/-- The parse of the source that a file with the items of `tree` unparses to. -/
def SyntaxTree.reread (root : String) (tree : SyntaxTree) : SyntaxTree :=
  ⟨root, tree.sortedItems.map Prod.snd⟩

/-- The new items differ in their paths. What the new source shares with the reread one was stored
so, what it takes from the reread one was stored, and an author who may not write the file finds
nothing to write. -/
structure KeepsItems (root : String) (barred : Bool) (old new : SyntaxTree) : Prop where
  nodup : new.paths.Nodup
  shared : ∀ path, (old.reread root).content path = new.content path →
    old.content path = new.content path
  taken : ∀ path, (old.reread root).content path ≠ new.content path →
    ((old.reread root).content path).isSome → (old.content path).isSome = true
  unwritten : barred = true → ∀ path, (old.reread root).content path = new.content path

/-- The author of the change is an AI that may not write the file. -/
def FileSnap.barred (agentIgnore : Gitignore) (filepath : String) (e : FileSnap) : Bool :=
  e.change.author.isAi && fileRestricted agentIgnore filepath

/-- What a snapshot asks of the old and the new source. -/
def SnapKeeps (parser : AstParser) (root filepath : String) (agentIgnore : Gitignore)
    (s : TrackedFile) (e : FileSnap) : Prop :=
  ∃ old new, parser.parse s.src = .ok old ∧ parser.parse e.src = .ok new
    ∧ KeepsItems root (e.barred agentIgnore filepath) old new

/-! ## Reading the old source back -/

section Reread

variable {parser : AstParser} {root filepath src : String} {priorities : List (String × ℕ)}
  {tree : SyntaxTree} {state : MaterializedState}

theorem hasItem_of_mem_sortedItems (hparse : parser.parse src = .ok tree)
    {node : SyntaxNode} (h : node ∈ tree.sortedItems.map Prod.snd) : parser.HasItem node := by
  obtain ⟨item, hitem, rfl⟩ := List.mem_map.mp h
  obtain ⟨-, hmem, hnamed⟩ := path_eq_of_mem_namedChildren (SyntaxTree.mem_sortedItems.mp hitem)
  exact ⟨hnamed, src, tree, hparse, hmem⟩

variable (priorities) in
theorem parse_unparse (hrec : parser.RecoversItems root) (hparse : parser.parse src = .ok tree)
    (hnodup : tree.paths.Nodup)
    (hstate : ∀ path, itemAt state filepath path = tree.content path) :
    parser.parse (unparse priorities state filepath) = .ok (tree.reread root) := by
  have htext : unparse priorities state filepath
      = "\n\n".intercalate ((tree.sortedItems.map Prod.snd).map SyntaxNode.text) := by
    rw [SyntaxTree.unparse_eq priorities hnodup hstate, List.map_map]
    rfl
  rw [htext]
  exact hrec _ fun node hnode => hasItem_of_mem_sortedItems hparse hnode

theorem exact_empty (hrec : parser.RecoversItems root)
    (hempty : ∀ path, itemAt state filepath path = none) :
    Exact parser filepath ⟨"", some state⟩ :=
  ⟨⟨root, []⟩, state, hrec [] (by simp), rfl, List.nodup_nil, hempty⟩

end Reread

/-! ## The atoms of a snapshot -/

section Atoms

variable [Crypto] {parser : AstParser} {filepath newSrc : String} {priorities : List (String × ℕ)}
  {state : MaterializedState} {atoms : List Atom} {contents : List Bytes}

theorem belowFile_snapshotFile
    (h : snapshotFile parser priorities state filepath newSrc = .ok (atoms, contents)) :
    BelowFile filepath atoms := by
  rcases patchFiles_cons_eq_ok h with ⟨-, hnil⟩ | ⟨oldMap, newMap, rest, -, -, hrest, rfl, -⟩
  · cases hnil
    exact fun atom hatom => absurd hatom List.not_mem_nil
  · cases hrest
    rw [List.append_nil]
    exact belowFile_diffAtoms oldMap newMap filepath

theorem snapshotFile_eq_nil
    (h : snapshotFile parser priorities state filepath newSrc = .ok (atoms, contents))
    (hsame : ∀ path, parser.itemParser.itemsOf (unparse priorities state filepath) path
      = parser.itemParser.itemsOf newSrc path) : atoms = [] := by
  rcases patchFiles_cons_eq_ok h with
    ⟨-, hnil⟩ | ⟨oldMap, newMap, rest, hold, hnew, hrest, rfl, -⟩
  · cases hnil
    rfl
  · cases hrest
    have hmaps : oldMap = newMap := by
      refine Finmap.ext_lookup fun path => ?_
      have hpath := hsame path
      rw [ItemParser.itemsOf, ItemParser.itemsOf, hold, hnew] at hpath
      exact hpath
    rw [hmaps, diffAtoms_self]
    rfl

end Atoms

/-! ## Taking the items of one parse to those of another -/

/-- At every item of the file the change takes the content in `old` to that in `new`, and it does
nothing elsewhere. -/
structure TakesItems (env : ApplyEnv) (change : Change) (filepath : String)
    (old new : SyntaxTree) : Prop where
  isSome : ∀ atom ∈ [change].flatMap Change.atoms, (atom.entryOp env.store).isSome
  file : ∀ path, opsOf env [change] ("file" :: filepath :: path)
    = EntryOp.diff (old.content path) (new.content path)
  other : ∀ key, (∀ path, key ≠ "file" :: filepath :: path) → opsOf env [change] key = []

section Takes

variable {env : ApplyEnv} {change : Change} {filepath : String} {old new : SyntaxTree}
  {state out : MaterializedState}

theorem TakesItems.safe_iff (h : TakesItems env change filepath old new) :
    (∀ key, EntryOp.Safe (state.lookup key).isSome (opsOf env [change] key) = true)
      ↔ ∀ path, old.content path ≠ new.content path → (old.content path).isSome →
        (itemAt state filepath path).isSome = true := by
  constructor
  · intro hsafe path
    have hpath := hsafe ("file" :: filepath :: path)
    rw [h.file] at hpath
    exact (EntryOp.safe_diff_iff _ _ _).mp hpath
  · intro hfound key
    by_cases hkey : ∃ path, key = "file" :: filepath :: path
    · obtain ⟨path, rfl⟩ := hkey
      rw [h.file]
      apply (EntryOp.safe_diff_iff _ _ _).mpr
      exact hfound path
    · rw [h.other key fun path hpath => hkey ⟨path, hpath⟩]
      rfl

theorem TakesItems.exists_apply_iff (h : TakesItems env change filepath old new) :
    (∃ out, applySequence env [change] state = .ok out)
      ↔ change.violates env = false ∧ ∀ path, old.content path ≠ new.content path →
        (old.content path).isSome → (itemAt state filepath path).isSome = true := by
  rw [← h.safe_iff]
  constructor
  · rintro ⟨out, hrun⟩
    have hviolates : ∀ c ∈ [change], c.violates env = false := fun c hc =>
      not_violates_of_run (applySequence_eq_ok_iff.mp hrun) hc
    refine ⟨hviolates _ List.mem_cons_self, ?_⟩
    exact (exists_applySequence_iff_safe env hviolates h.isSome).mp ⟨out, hrun⟩
  · rintro ⟨hviolates, hsafe⟩
    apply (exists_applySequence_iff_safe env (List.forall_mem_singleton.mpr hviolates)
      h.isSome).mpr
    exact hsafe

theorem TakesItems.itemAt_eq (h : TakesItems env change filepath old new)
    (hrun : applySequence env [change] state = .ok out) (path : NodePath) :
    itemAt out filepath path = if old.content path = new.content path
      then itemAt state filepath path else new.content path := by
  have hviolates : ∀ c ∈ [change], c.violates env = false := fun c hc =>
    not_violates_of_run (applySequence_eq_ok_iff.mp hrun) hc
  have hkeys := (applySequence_eq_ok_iff_entries env hviolates h.isSome).mp hrun
  rw [itemAt, (hkeys _).2, h.file, EntryOp.final_diff]
  rfl

end Takes

section Step

variable [Crypto] {parser : AstParser} {root filepath : String} {priorities : List (String × ℕ)}
  {agentIgnore : Gitignore} {sparse : Option SparseMatcher} {state : MaterializedState}
  {e : FileSnap} {contents : List Bytes} {old new : SyntaxTree}

variable (agentIgnore) in
theorem takesItems_snapshotFile
    (h : snapshotFile parser priorities state filepath e.src = .ok (e.change.atoms, contents))
    (hblobs : Repo.Storable e.blobs contents) (hinside : fileInBoundary sparse filepath = true)
    (hold : parser.parse (unparse priorities state filepath) = .ok old)
    (hnew : parser.parse e.src = .ok new) :
    TakesItems (e.env contents agentIgnore sparse) e.change filepath old new := by
  set env := e.env contents agentIgnore sparse
  have hread : Readable env.store contents := fun content hc => hblobs.readBlob hc
  have hops : ∀ key, opsOf env [e.change] key = patchOps parser.itemParser
      (unparse priorities state) (fun _ => e.src) [filepath] key := by
    intro key
    rw [← opsAtKey_patchFiles (List.nodup_singleton _) h hread key, opsOf,
      List.flatMap_singleton, (belowFile_snapshotFile h).filterMap_plannedOp hinside, opsAtKey]
  constructor
  · intro atom hatom
    rw [List.flatMap_singleton] at hatom
    apply Atom.WritesOrRemoves.isSome_entryOp
    exact writesOrRemoves_of_patchFiles h hread atom hatom
  · intro path
    rw [hops, patchOps_of_mem List.mem_cons_self, AstParser.items_of_parse hold,
      AstParser.items_of_parse hnew]
  · intro key hkey
    rw [hops, patchOps_cons_of_ne hkey]
    rcases key with _ | ⟨kind, _ | ⟨file, path⟩⟩ <;> simp [patchOps]

theorem violates_eq_false_iff {env : ApplyEnv} (hignore : env.agentIgnore = agentIgnore)
    (h : snapshotFile parser priorities state filepath e.src = .ok (e.change.atoms, contents))
    (htakes : TakesItems env e.change filepath old new)
    (hold : parser.parse (unparse priorities state filepath) = .ok old)
    (hnew : parser.parse e.src = .ok new) :
    e.change.violates env = false
      ↔ (e.barred agentIgnore filepath = true →
        ∀ path, old.content path = new.content path) := by
  subst hignore
  have hbelow := belowFile_snapshotFile h
  constructor
  · intro hviolates hbarred path
    have hnil : e.change.atoms = [] := by
      by_contra hne
      rw [hbelow.violates hne] at hviolates
      exact Bool.false_ne_true (hviolates.symm.trans hbarred)
    have hpath := htakes.file path
    rw [opsOf, List.flatMap_singleton, hnil] at hpath
    exact EntryOp.diff_eq_nil_iff.mp hpath.symm
  · intro hsame
    cases hbarred : e.barred env.agentIgnore filepath with
    | true =>
        have hnil : e.change.atoms = [] := by
          apply snapshotFile_eq_nil h
          intro path
          rw [AstParser.items_of_parse hold, AstParser.items_of_parse hnew]
          exact hsame hbarred path
        simp [Change.violates, Change.isRestricted, hnil]
    | false => exact hbelow.not_violates hbarred

/-- **One snapshot.** The stored items stay exact iff the old and the new source agree as
`KeepsItems` says. -/
theorem exact_applied_iff (hrec : parser.RecoversItems root) {src : String}
    (hold : parser.parse src = .ok old) (hnodup : old.paths.Nodup)
    (hitems : ∀ path, itemAt state filepath path = old.content path)
    (hnew : parser.parse e.src = .ok new) (hinside : fileInBoundary sparse filepath = true)
    (h : snapshotFile parser priorities state filepath e.src = .ok (e.change.atoms, contents))
    (hblobs : Repo.Storable e.blobs contents) :
    Exact parser filepath
        ⟨e.src, (applySequence (e.env contents agentIgnore sparse) [e.change] state).toOption⟩
      ↔ KeepsItems root (e.barred agentIgnore filepath) old new := by
  have hreread := parse_unparse priorities hrec hold hnodup hitems
  have htakes := takesItems_snapshotFile agentIgnore h hblobs hinside hreread hnew
  have hauthor := violates_eq_false_iff rfl h htakes hreread hnew
  set env := e.env contents agentIgnore sparse
  constructor
  · rintro ⟨tree, out, hparse, hout, hpaths, hlook⟩
    obtain rfl : new = tree := Except.ok.inj (hnew.symm.trans hparse)
    have hrun : applySequence env [e.change] state = .ok out := by
      rw [applySequence_eq_ok_iff, ← applySequence_toOption]
      exact hout
    obtain ⟨hviolates, hfound⟩ := htakes.exists_apply_iff.mp ⟨out, hrun⟩
    refine ⟨hpaths, fun path hsame => ?_, fun path hdiffer hsome => ?_, hauthor.mp hviolates⟩
    · rw [← hitems path, ← hlook path, htakes.itemAt_eq hrun path, if_pos hsame]
    · rw [← hitems path]
      exact hfound path hdiffer hsome
  · intro hkeeps
    obtain ⟨out, hrun⟩ : ∃ out, applySequence env [e.change] state = .ok out := by
      apply htakes.exists_apply_iff.mpr
      refine ⟨hauthor.mpr hkeeps.unwritten, fun path hdiffer hsome => ?_⟩
      rw [hitems path]
      exact hkeeps.taken path hdiffer hsome
    refine ⟨new, out, hnew, congrArg Except.toOption hrun, hkeeps.nodup, fun path => ?_⟩
    rw [htakes.itemAt_eq hrun path, hitems path]
    split_ifs with hsame
    · exact hkeeps.shared path hsame
    · rfl

theorem exact_snapsFile_iff (hrec : parser.RecoversItems root) {s s' : TrackedFile}
    (hs : Exact parser filepath s)
    (hstep : SnapsFile parser priorities filepath agentIgnore sparse s e s') :
    Exact parser filepath s' ↔ SnapKeeps parser root filepath agentIgnore s e := by
  cases hstep with
  | @snap src state e new contents hnew hinside hatoms hblobs =>
      obtain ⟨old, before, hold, hstate, hnodup, hitems⟩ := hs
      cases hstate
      rw [exact_applied_iff hrec hold hnodup hitems hnew hinside hatoms hblobs]
      constructor
      · intro hkeeps
        exact ⟨old, new, hold, hnew, hkeeps⟩
      · rintro ⟨old', new', hold', hnew', hkeeps⟩
        obtain rfl : old = old' := Except.ok.inj (hold.symm.trans hold')
        obtain rfl : new = new' := Except.ok.inj (hnew.symm.trans hnew')
        exact hkeeps

variable (agentIgnore) in
theorem exists_snapsFile {src newSrc : String}
    (hold : parser.parse (unparse priorities state filepath) = .ok old)
    (hnew : parser.parse newSrc = .ok new) (hinside : fileInBoundary sparse filepath = true)
    (hblobs : Repo.Storable ∅
      (diffContents (collectTopLevelItems old) (collectTopLevelItems new))) :
    ∃ e out, e.src = newSrc ∧ e.change.author.isAi = false
      ∧ SnapsFile parser priorities filepath agentIgnore sparse ⟨src, some state⟩ e
        ⟨newSrc, out⟩ := by
  obtain ⟨atoms, contents, hatoms, hstored⟩ : ∃ atoms contents,
      snapshotFile parser priorities state filepath newSrc = .ok (atoms, contents)
        ∧ Repo.Storable ∅ contents := by
    by_cases hsame : unparse priorities state filepath = newSrc
    · refine ⟨[], [], ?_, ⟨by simp, by simp⟩⟩
      rw [snapshotFile, patchFiles, if_pos hsame]
      rfl
    · refine ⟨(diffAtoms (collectTopLevelItems old) (collectTopLevelItems new)).map
        (prefixAtomPath filepath), _, ?_, hblobs⟩
      rw [snapshotFile, patchFiles, if_neg hsame]
      simp only [ItemParser.plugin, AstParser.items_eq_ok hold, AstParser.items_eq_ok hnew]
      simp [patchFiles, bind, Except.bind]
  exact ⟨⟨newSrc, Change.bare 1 ∅ atoms, ∅⟩, _, rfl, rfl, .snap hnew hinside hatoms hstored⟩

variable (agentIgnore) in
theorem exists_exact_snapsFile (hrec : parser.RecoversItems root) {src newSrc : String}
    (hs : Exact parser filepath ⟨src, some state⟩) (hold : parser.parse src = .ok old)
    (hnew : parser.parse newSrc = .ok new) (hinside : fileInBoundary sparse filepath = true)
    (hblobs : Repo.Storable ∅ (diffContents (collectTopLevelItems (old.reread root))
      (collectTopLevelItems new)))
    (hkeeps : KeepsItems root false old new) :
    ∃ e out, SnapsFile parser priorities filepath agentIgnore sparse ⟨src, some state⟩ e
        ⟨newSrc, some out⟩
      ∧ SnapKeeps parser root filepath agentIgnore ⟨src, some state⟩ e
      ∧ Exact parser filepath ⟨newSrc, some out⟩ := by
  obtain ⟨old', _, hold', hstate, hnodup, hitems⟩ := hs
  cases hstate
  obtain rfl : old = old' := Except.ok.inj (hold.symm.trans hold')
  obtain ⟨e, after, rfl, hhuman, hsnap⟩ := exists_snapsFile agentIgnore
    (parse_unparse priorities hrec hold hnodup hitems) hnew hinside hblobs
  have hq : SnapKeeps parser root filepath agentIgnore ⟨src, some state⟩ e := by
    refine ⟨old, new, hold, hnew, ?_⟩
    rwa [FileSnap.barred, hhuman]
  have hexact := (exact_snapsFile_iff hrec ⟨old, state, hold, rfl, hnodup, hitems⟩ hsnap).mpr hq
  obtain ⟨-, out, -, hout, -⟩ := id hexact
  cases hout
  exact ⟨e, out, hsnap, hq, hexact⟩

/-- **Snapshots keep the items of a file** through a run exactly when every snapshot of it finds
the old and the new source in the relation `SnapKeeps`. -/
theorem snapshots_exact_iff (hrec : parser.RecoversItems root)
    (hempty : ∀ path, itemAt state filepath path = none) {events : List FileSnap}
    {s : TrackedFile} :
    Trace (fun s e s' => SnapsFile parser priorities filepath agentIgnore sparse s e s'
        ∧ Exact parser filepath s') ⟨"", some state⟩ events s
      ↔ Trace (fun s e s' => SnapsFile parser priorities filepath agentIgnore sparse s e s'
        ∧ SnapKeeps parser root filepath agentIgnore s e) ⟨"", some state⟩ events s :=
  Trace.guard_iff (exact_empty hrec hempty) fun _ _ _ hs hstep => exact_snapsFile_iff hrec hs hstep

end Step

theorem KeepsItems.of_reread {root : String} {old new : SyntaxTree}
    (hsame : ∀ path, (old.reread root).content path = old.content path)
    (hnodup : new.paths.Nodup) : KeepsItems root false old new where
  nodup := hnodup
  shared path h := (hsame path).symm.trans h
  taken path _ h := by rwa [← hsame path]
  unwritten h := absurd h Bool.false_ne_true

/-! ## Files of `impl` blocks -/

def implItem (text : String) : SyntaxNode := ⟨"impl_item", none, true, text⟩

/-- A parser for files in which every line that is not empty is an `impl` block. -/
def implLines : AstParser where
  parse src := .ok ⟨"source_file",
    ((src.toList.splitOn '\n').filter fun line => line ≠ []).map fun line =>
      implItem (String.ofList line)⟩

def IsLine (text : String) : Prop := text ≠ "" ∧ '\n' ∉ text.toList

instance (text : String) : Decidable (IsLine text) := inferInstanceAs (Decidable (_ ∧ _))

theorem implLines_hasItem {node : SyntaxNode} (h : implLines.HasItem node) :
    ∃ text, IsLine text ∧ node = implItem text := by
  obtain ⟨-, src, tree, hparse, hmem⟩ := h
  cases hparse
  obtain ⟨line, hline, rfl⟩ := List.mem_map.mp hmem
  obtain ⟨hsplit, hne⟩ := List.mem_filter.mp hline
  refine ⟨_, ⟨?_, ?_⟩, rfl⟩
  · simpa using hne
  · simpa using Segments.notMem_of_mem_splitOn hsplit

theorem lines_intercalate {texts : List String} (h : ∀ text ∈ texts, IsLine text) :
    ((("\n\n".intercalate texts).toList.splitOn '\n').filter fun line => line ≠ [])
      = texts.map String.toList := by
  induction texts with
  | nil => simp
  | cons text texts ih =>
      obtain ⟨⟨hne, hnewline⟩, hrest⟩ := List.forall_mem_cons.mp h
      have hline : text.toList ≠ [] := by simpa using hne
      by_cases hnil : texts = []
      · subst hnil
        rw [String.intercalate_singleton, List.splitOn_eq_singleton hnewline]
        simp [hline]
      · have hsplit : ("\n\n".intercalate (text :: texts)).toList.splitOn '\n'
            = text.toList :: [] :: ("\n\n".intercalate texts).toList.splitOn '\n' := by
          rw [String.intercalate_cons_of_ne_nil hnil, String.toList_append, String.toList_append,
            List.append_assoc]
          change (text.toList ++ '\n' :: ([] ++ '\n' :: _)).splitOn '\n' = _
          rw [List.splitOn_append_cons_self_of_not_mem hnewline,
            List.splitOn_append_cons_self_of_not_mem List.not_mem_nil]
          rfl
        rw [hsplit, List.filter_cons_of_pos (by simpa using hline),
          List.filter_cons_of_neg (by simp), ih hrest, List.map_cons]

theorem implLines_parse {texts : List String} (h : ∀ text ∈ texts, IsLine text) :
    implLines.parse ("\n\n".intercalate texts) = .ok ⟨"source_file", texts.map implItem⟩ := by
  change Except.ok (SyntaxTree.mk _ _) = _
  rw [lines_intercalate h, List.map_map]
  congr 2
  exact List.map_congr_left fun text _ => congrArg implItem String.ofList_toList

theorem implLines_recoversItems : implLines.RecoversItems "source_file" := by
  intro nodes hnodes
  have htexts : (nodes.map SyntaxNode.text).map implItem = nodes := by
    rw [List.map_map]
    refine (List.map_congr_left fun node hnode => ?_).trans (List.map_id nodes)
    obtain ⟨text, -, rfl⟩ := implLines_hasItem (hnodes node hnode)
    rfl
  rw [implLines_parse, htexts]
  intro text htext
  obtain ⟨node, hnode, rfl⟩ := List.mem_map.mp htext
  obtain ⟨line, hline, rfl⟩ := implLines_hasItem (hnodes node hnode)
  exact hline

def implTree (texts : List String) : SyntaxTree := ⟨"source_file", texts.map implItem⟩

/-- Snapshots of `a.rs` without `.agentignore` and sparse boundary. -/
abbrev SnapsRust : TrackedFile → FileSnap → TrackedFile → Prop :=
  @SnapsFile Crypto.sample implLines rustPriorities "a.rs" (fun _ _ => false) none

theorem exists_exact_snapsRust (olds news : List String) (holds : ∀ text ∈ olds, IsLine text)
    (hnews : ∀ text ∈ news, IsLine text) {state : MaterializedState}
    (hs : Exact implLines "a.rs" ⟨"\n\n".intercalate olds, some state⟩)
    (hsame : ∀ path, ((implTree olds).reread "source_file").content path
      = (implTree olds).content path)
    (hnodup : (implTree news).paths.Nodup)
    (hblobs : @Repo.Storable Crypto.sample ∅ (@diffContents Crypto.sample
      (collectTopLevelItems ((implTree olds).reread "source_file"))
      (collectTopLevelItems (implTree news)))) :
    ∃ e out, SnapsRust ⟨"\n\n".intercalate olds, some state⟩ e
        ⟨"\n\n".intercalate news, some out⟩
      ∧ SnapKeeps implLines "source_file" "a.rs" (fun _ _ => false)
        ⟨"\n\n".intercalate olds, some state⟩ e
      ∧ Exact implLines "a.rs" ⟨"\n\n".intercalate news, some out⟩ :=
  @exists_exact_snapsFile Crypto.sample _ _ _ _ (fun _ _ => false) _ _ _ _
    implLines_recoversItems _ _ hs (implLines_parse holds) (implLines_parse hnews) rfl hblobs
    (.of_reread hsame hnodup)

/-- A file with one `impl` block, and then with two. -/
theorem snapshots_exact_two :
    ∃ events s, events.length = 2 ∧ Trace (fun s e s' => SnapsRust s e s'
      ∧ Exact implLines "a.rs" s') ⟨"", some ∅⟩ events s := by
  have hempty : Exact implLines "a.rs" ⟨"\n\n".intercalate [], some ∅⟩ :=
    exact_empty implLines_recoversItems fun _ => rfl
  obtain ⟨e₁, s₁, hsnap₁, hkeeps₁, hs₁⟩ := exists_exact_snapsRust [] ["i0"]
    (by decide) (by decide) hempty (fun _ => rfl) (by decide)
    (@Repo.Storable.of_all Crypto.sample ∅ _ (by decide +kernel) (by decide +kernel))
  obtain ⟨e₂, s₂, hsnap₂, hkeeps₂, -⟩ := exists_exact_snapsRust ["i0"] ["i0", "i1"]
    (by decide) (by decide) hs₁ (fun _ => rfl) (by decide)
    (@Repo.Storable.of_all Crypto.sample ∅ _ (by decide +kernel) (by decide +kernel))
  exact ⟨[] ++ [e₁] ++ [e₂], _, rfl, (@snapshots_exact_iff Crypto.sample implLines "source_file"
    "a.rs" rustPriorities (fun _ _ => false) none ∅ implLines_recoversItems (fun _ => rfl) _ _).mpr
      (.snoc (.snoc (.nil _) ⟨hsnap₁, hkeeps₁⟩) ⟨hsnap₂, hkeeps₂⟩)⟩

def elevenLines : List String :=
  ["i0", "i1", "i2", "i3", "i4", "i5", "i6", "i7", "i8", "i9", "i10"]

def editedLines : List String :=
  ["i0", "i1", "i10", "x3", "x4", "x5", "x6", "x7", "x8", "x9", "x10"]

/-- The block `i10` moves to the third place of eleven. Unparsing has listed it there already, so
`i2` is left over and `i10` is gone. -/
theorem eleventh_item_lost :
    ¬ ∀ (parser : AstParser) (root filepath : String) (events : List FileSnap) (s : TrackedFile),
      parser.RecoversItems root →
      Trace (@SnapsFile Crypto.sample parser rustPriorities filepath (fun _ _ => false) none)
        ⟨"", some ∅⟩ events s →
      Exact parser filepath s := by
  intro h
  have hempty : Exact implLines "a.rs" ⟨"\n\n".intercalate [], some ∅⟩ :=
    exact_empty implLines_recoversItems fun _ => rfl
  obtain ⟨e₁, s₁, hsnap₁, -, hs₁⟩ := exists_exact_snapsRust [] elevenLines
    (by decide) (by decide) hempty (fun _ => rfl) (by decide)
    (@Repo.Storable.of_all Crypto.sample ∅ _ (by decide +kernel) (by decide +kernel))
  obtain ⟨old, _, hold, hstate, hnodup, hitems⟩ := id hs₁
  cases hstate
  obtain rfl : implTree elevenLines = old :=
    Except.ok.inj ((implLines_parse (by decide)).symm.trans hold)
  have hnew : implLines.parse ("\n\n".intercalate editedLines) = .ok (implTree editedLines) :=
    implLines_parse (by decide)
  obtain ⟨e₂, out, he, -, hsnap₂⟩ := @exists_snapsFile Crypto.sample implLines "a.rs"
    rustPriorities (fun _ _ => false) none s₁ _ _ ("\n\n".intercalate elevenLines) _
    (parse_unparse rustPriorities implLines_recoversItems hold hnodup hitems) hnew rfl
    (@Repo.Storable.of_all Crypto.sample ∅ _ (by decide +kernel) (by decide +kernel))
  have hexact := h implLines "source_file" "a.rs" _ _ implLines_recoversItems
    (.snoc (.snoc (.nil _) hsnap₁) hsnap₂)
  obtain ⟨old, new, hold', hnew', hkeeps⟩ :=
    (@exact_snapsFile_iff Crypto.sample _ _ _ _ _ _ _ implLines_recoversItems _ _ hs₁ hsnap₂).mp
      hexact
  obtain rfl : implTree elevenLines = old := Except.ok.inj (hold.symm.trans hold')
  obtain rfl : implTree editedLines = new := Except.ok.inj (hnew.symm.trans (he ▸ hnew'))
  have hthird : (implTree elevenLines).content ["source_file", "impl_item#2"]
      ≠ (implTree editedLines).content ["source_file", "impl_item#2"] := by decide +kernel
  exact hthird (hkeeps.shared _ (by decide +kernel))

end ArcVcs
