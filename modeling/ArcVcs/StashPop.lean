import ArcVcs.Stash

/-!
# What a stash keeps

A pop right after a stash writes the base state with the edits of the stash. The tree is as it was
before exactly when no edit is outside what the stash records.
-/

namespace ArcVcs

open GitImport (isRust)

/-! ## A change on the heads -/

namespace ChangeGraph

variable {g : ChangeGraph} {env : ApplyEnv} {c : Change} {state out : MaterializedState}

theorem delta_eq_empty_of_deps (hg : g.Indexed) (hac : g.Acyclic) (hget : g.get c.id = some c) :
    g.delta c.deps {c.id} c.deps = ∅ := by
  rw [delta, Finset.sdiff_eq_empty_iff_subset]
  intro x hx
  obtain ⟨head, hhead, hreach⟩ := mem_ancestorsInclusive.mp hx
  have hstep : g.DependsOn c.id head := by
    rw [DependsOn, hg.deps_eq hget]
    exact hhead
  have hcommon : g.IsCommon c.deps {c.id} x :=
    ⟨⟨head, hhead, hreach⟩, c.id, Finset.mem_singleton_self _, .head hstep hreach⟩
  obtain ⟨base, hbase, hpath⟩ := exists_mergeBase hg hac hcommon
  rw [lcaAncestors, if_neg (Finset.ne_empty_of_mem hbase)]
  exact mem_ancestorsInclusive.mpr ⟨base, hbase, hpath⟩

theorem mergePlan_of_deps [Crypto] (hg : g.Indexed) (hac : g.Acyclic) (hget : g.get c.id = some c)
    (currentState : MaterializedState) :
    g.mergePlan env c.deps {c.id} currentState = .ok .union := by
  rw [mergePlan, delta_eq_empty_of_deps hg hac hget]
  rfl

theorem run_effect_of_deps (hg : g.Indexed) (hac : g.Acyclic) (hget : g.get c.id = some c)
    (hbase : g.materializeHeads env c.deps = .ok state)
    (h : g.materializeHeads env (c.deps ∪ {c.id}) = .ok out) :
    (c.effect env).run state = some out := by
  have hpart : g.ancestorsInclusive c.deps = g.ancestorsInclusive (g.deps c.id) := by
    rw [hg.deps_eq hget]
  set part := g.ancestorsInclusive c.deps
  have hdown : ∀ x ∈ part, g.deps x ⊆ part := fun x hx d hd => ancestorsInclusive_of_mem_deps hx hd
  have hclosed : g.ancestorsInclusive part = part := Finset.Subset.antisymm
    ((subset_ancestorsInclusive_iff hdown).mpr subset_rfl) (subset_ancestorsInclusive g part)
  have hself : c.id ∉ part := by
    rw [hpart, mem_ancestorsInclusive_deps]
    exact hac c.id
  have hmem : ∀ x, x ∈ [c.id] ↔ x ∈ g.ancestorsInclusive (c.deps ∪ {c.id}) ∧ x ∉ part := by
    intro x
    rw [List.mem_singleton]
    constructor
    · rintro rfl
      exact ⟨subset_ancestorsInclusive g _
        (Finset.mem_union_right _ (Finset.mem_singleton_self _)), hself⟩
    · rintro ⟨hx, hout⟩
      obtain ⟨head, hhead, hreach⟩ := mem_ancestorsInclusive.mp hx
      rcases Finset.mem_union.mp hhead with hdep | hid
      · exact absurd (mem_ancestorsInclusive.mpr ⟨head, hdep, hreach⟩) hout
      · rw [Finset.mem_singleton.mp hid] at hreach
        refine (mem_ancestorsInclusive_singleton.mp (mem_ancestorsInclusive.mpr
          ⟨c.id, Finset.mem_singleton_self _, hreach⟩)).resolve_right fun hproper => hout ?_
        rw [hpart]
        exact mem_ancestorsInclusive_deps.mpr hproper
  obtain ⟨base, hsort, -⟩ := hg.exists_topologicalSort c.deps
  have hsort' : g.topologicalSort part = some base := by
    rw [topologicalSort, hclosed]
    exact hsort
  have hsub : part ⊆ g.ancestorsInclusive (c.deps ∪ {c.id}) := fun x hx => by
    obtain ⟨head, hhead, hreach⟩ := mem_ancestorsInclusive.mp hx
    exact mem_ancestorsInclusive.mpr ⟨head, Finset.mem_union_left _ hhead, hreach⟩
  rw [materializeHeads_split hg hac hsub hdown hsort' (List.nodup_singleton _) (.singleton _) hmem
    (fun u hu x hx hnot => ?_)] at h
  · rw [materializeHeads_eq_ok_iff hsort] at hbase
    rw [PartialAction.run_mul, hbase, Option.bind_some, replayAction_singleton,
      effectAt_of_get hget] at h
    exact h
  · rw [List.mem_singleton.mp hx, ← mem_ancestorsInclusive_deps, ← hpart] at hnot
    exact absurd hu hnot

end ChangeGraph

/-! ## The edits -/

section Edited

variable (parser : ItemParser) (priorities : List (String × ℕ)) (base : MaterializedState)
  (w : WorkTree)

/-- The entry of a file after the edits. Where its text and the text written of the base state have
the same item, the item of the base state stays. -/
def stashedItem (filepath : String) (path : NodePath) : Option Bytes :=
  if filepath ∈ w.collectRsFiles then
    if parser.itemsOf (unparse priorities base filepath) path
      = parser.itemsOf ((w.text filepath).getD "") path then itemAt base filepath path
    else parser.itemsOf ((w.text filepath).getD "") path
  else if path = [] ∨ w.exists_ filepath = true then itemAt base filepath path
  else none

def IsEdited (state : MaterializedState) : Prop :=
  ∀ filepath path, itemAt state filepath path = stashedItem parser priorities base w filepath path

/-- No edit is outside what a stash records: a Rust file that is not ignored has the content that is
written of its edited items, and every other file that is written has its recorded content. -/
structure KeepsWork (blobs : FMap Blake3Hash Bytes) : Prop where
  rust : ∀ filepath, w.collects filepath = true → ∀ state,
    (∀ path, itemAt state filepath path = stashedItem parser priorities base w filepath path) →
    writtenBytes priorities blobs state filepath = w.files.lookup filepath
  other : ∀ filepath, w.collects filepath = false → ∀ bytes,
    writtenBytes priorities blobs base filepath = some bytes → w.files.lookup filepath = some bytes

end Edited

section Recorded

variable [Crypto] {parser : ItemParser} {priorities : List (String × ℕ)}
  {order : SetOrder String} {keyOrder : SetOrder NodePath} {base state : MaterializedState}
  {w : WorkTree} {atoms : List Atom} {contents : List Bytes} {env : ApplyEnv} {c : Change}

theorem isEdited_of_effect
    (hdelta : stashDelta (parser.plugin (unparse priorities)) order keyOrder base w
      = .ok (atoms, contents)) (hatoms : c.atoms = atoms) (hsparse : env.sparse = none)
    (hread : Readable env.store contents) (h : (c.effect env).run base = some state) :
    IsEdited parser priorities base w state := by
  obtain ⟨⟨rustAtoms, rustContents⟩, hrust, hout⟩ := Except.bind_eq_ok_iff.mp hdelta
  obtain ⟨rfl, rfl⟩ := Prod.mk.inj (Except.ok.inj hout)
  have hreadRust : Readable env.store rustContents := fun content hcontent =>
    hread content (List.mem_append_left _ hcontent)
  have hguard : c.violates env = false := by
    by_contra hviolates
    rw [Bool.not_eq_false] at hviolates
    rw [Change.effect_eq, if_pos hviolates] at h
    simp at h
  have hops : ∀ atom ∈ c.atoms, (atom.entryOp env.store).isSome := by
    rw [hatoms]
    refine List.forall_mem_append.mpr ⟨fun atom hatom => ?_, fun atom hatom => ?_⟩
    · rw [rustDelta_eq (text_ne_none_of_rustDelta hrust)] at hrust
      exact (writesOrRemoves_of_patchFiles hrust hreadRust atom hatom).isSome_entryOp
    · obtain ⟨key, -, rfl⟩ := List.mem_map.mp hatom
      rfl
  have happlied : applySequence env [c] base = .ok state := by
    rw [applySequence_eq_ok_iff]
    simpa using h
  have hentries := (applySequence_singleton_eq_ok_iff hsparse hguard hops).mp happlied
  intro filepath path
  rw [itemAt, (hentries _).2, hatoms, opsAtKey_append, opsAtKey_stashedKeys, stashedItem]
  by_cases hfile : filepath ∈ w.collectRsFiles
  · have hkept : "file" :: filepath :: path ∉ stashedKeys order keyOrder base w := by
      intro hmem
      obtain ⟨-, file, rest, -, heq, hgone⟩ := mem_stashedKeys_iff.mp hmem
      obtain ⟨rfl, -⟩ : filepath = file ∧ path = rest := by simpa using heq
      rw [exists_of_mem_collectRsFiles hfile] at hgone
      cases hgone
    rw [if_neg hkept, List.append_nil, opsAtKey_rust hrust hreadRust, patchOps_of_mem hfile,
      EntryOp.final_diff, if_pos hfile]
    rfl
  · have hnil : opsAtKey env.store ("file" :: filepath :: path) rustAtoms = [] := by
      refine opsAtKey_rust_eq_nil hrust hreadRust ?_
      rintro ⟨file, hmem, rest, -, heq⟩
      obtain ⟨rfl, -⟩ : filepath = file ∧ path = rest := by simpa using heq
      exact hfile hmem
    rw [if_neg hfile, hnil, List.nil_append]
    by_cases hkept : path = [] ∨ w.exists_ filepath = true
    · have hnot : "file" :: filepath :: path ∉ stashedKeys order keyOrder base w := by
        intro hmem
        obtain ⟨-, file, rest, hrest, heq, hgone⟩ := mem_stashedKeys_iff.mp hmem
        obtain ⟨rfl, rfl⟩ : filepath = file ∧ path = rest := by simpa using heq
        rw [hgone] at hkept
        exact hkept.elim hrest Bool.false_ne_true
      rw [if_neg hnot, if_pos hkept]
      rfl
    · rw [if_neg hkept]
      obtain ⟨hpath, hgone⟩ := not_or.mp hkept
      split_ifs with hmem
      · rfl
      · by_contra hlook
        exact hmem (mem_stashedKeys_iff.mpr
          ⟨hlook, filepath, path, hpath, rfl, Bool.eq_false_of_not_eq_true hgone⟩)

end Recorded

/-! ## The other files -/

section Other

variable {parser : ItemParser} {priorities : List (String × ℕ)} {base state : MaterializedState}
  {w : WorkTree} {blobs : FMap Blake3Hash Bytes} {filepath : String}

theorem stashedItem_of_other (hfile : w.collects filepath = false) (path : NodePath) :
    stashedItem parser priorities base w filepath path
      = if path = [] ∨ w.exists_ filepath = true then itemAt base filepath path else none := by
  have hmem : filepath ∉ w.collectRsFiles := fun hmem => by
    rw [(List.mem_filter.mp hmem).2] at hfile
    cases hfile
  rw [stashedItem, if_neg hmem]

theorem IsEdited.or_written_eq_iff (h : IsEdited parser priorities base w state)
    (hfile : w.collects filepath = false)
    (hproject : filepath ∈ extractFilepathsFromState base →
      ∃ projection, projectFile priorities blobs base filepath = .ok projection) :
    (writtenBytes priorities blobs state filepath).or
        ((writtenBytes priorities blobs base filepath).or (w.files.lookup filepath))
      = w.files.lookup filepath
      ↔ ∀ bytes, writtenBytes priorities blobs base filepath = some bytes →
        w.files.lookup filepath = some bytes := by
  have hitem : ∀ path, state.lookup ("file" :: filepath :: path)
      = if path = [] ∨ w.exists_ filepath = true then
          base.lookup ("file" :: filepath :: path) else none := fun path =>
    (h filepath path).trans (stashedItem_of_other hfile path)
  by_cases hthere : w.exists_ filepath = true
  · have hentries : SameEntries filepath base state := fun path => by
      rw [hitem, if_pos (Or.inr hthere)]
    rw [hentries.writtenBytes_eq]
    cases writtenBytes priorities blobs base filepath with
    | none => simp
    | some bytes => simp [eq_comm]
  · have hgone : w.files.lookup filepath = none := by
      refine FMap.notMem_keys_iff.mp fun hkey => hthere ?_
      exact decide_eq_true (Or.inl hkey)
    rw [hgone, Option.or_none]
    cases hwritten : writtenBytes priorities blobs base filepath with
    | some bytes => simp
    | none =>
        rw [Option.or_none]
        refine iff_of_true ?_ (by simp)
        by_cases htracked : filepath ∈ extractFilepathsFromState base
        · refine writtenBytes_eq_none_of_lost (by rw [hitem, if_pos (Or.inl rfl)])
            (fun path hpath => ?_) (hproject htracked) hwritten
          rw [hitem, if_neg (not_or.mpr ⟨hpath, hthere⟩)]
        · refine writtenBytes_of_untracked fun hmem => htracked ?_
          obtain ⟨path, hlook⟩ := mem_extractFilepathsFromState_iff.mp hmem
          rw [hitem] at hlook
          split_ifs at hlook
          · exact mem_extractFilepathsFromState_iff.mpr ⟨path, hlook⟩
          · exact absurd rfl hlook

end Other

/-! ## The pop after a stash -/

/-- A pop that finds a change on the heads of the view writes what the change makes of their
state. -/
theorem stashPop_of_deps [Crypto] {parser : ItemParser} {priorities : List (String × ℕ)}
    {agentIgnore : Gitignore} {fuel : ℕ} {order : SetOrder String} {t t' : Workspace}
    {name : String} {c : Change} {g : ChangeGraph} {base : MaterializedState}
    (h : stashPop parser priorities agentIgnore fuel order t = some (.ok (), t'))
    (hlast : (stashList order t.repo.views).getLast? = some name)
    (htarget : t.repo.views.lookup name = some {c.id})
    (hview : t.repo.views.lookup t.repo.head = some c.deps)
    (hread : Repo.readChange t.repo.store c.id = .ok c)
    (hloaded : Repo.Loaded t.repo.store t.repo.graph)
    (hac : ∀ g, Repo.Loaded t.repo.store g → g.Acyclic) (hg : Repo.Loaded t.repo.store g)
    (hbase : g.materializeHeads (t.repo.applyEnv agentIgnore) c.deps = .ok base) :
    ∃ state, (c.effect (t.repo.applyEnv agentIgnore)).run base = some state
      ∧ writeStateToWorkingDir priorities t.repo.blobs state order t.tree
        = some (.ok (), t'.tree) := by
  obtain ⟨current, currentState, g₁, plan, hg₁, hcurrent, hours, hplan, hunion⟩ :=
    stashPop_eq_ok h hlast htarget hloaded
  obtain rfl := Option.some_inj.mp (hview.symm.trans hcurrent)
  obtain rfl : currentState = base := hg.materializeHeads_eq hg₁ hbase hours
  have hpresent : g₁.get c.id ≠ none := by
    obtain ⟨-, -, ⟨-, rfl⟩ | ⟨targetState, -, -, -, -, htargetState, -⟩⟩ :=
      ChangeGraph.mergePlan_eq_ok hplan
    · obtain ⟨state, hout, -⟩ := hunion rfl
      exact ChangeGraph.get_ne_none_of_materializeHeads hg₁.indexed hout
        (Finset.mem_union_right _ (Finset.mem_singleton_self _))
    · exact ChangeGraph.get_ne_none_of_materializeHeads hg₁.indexed htargetState
        (Finset.mem_singleton_self _)
  obtain ⟨c', hget⟩ := Option.ne_none_iff_exists'.mp hpresent
  obtain rfl : c' = c := Except.ok.inj ((hg₁.stored c.id c' hget).symm.trans hread)
  have hmerge : g₁.mergePlan (t.repo.applyEnv agentIgnore) c'.deps {c'.id} currentState
      = .ok .union := ChangeGraph.mergePlan_of_deps hg₁.indexed (hac g₁ hg₁) hget currentState
  obtain ⟨state, hout, hwrite⟩ := hunion (Except.ok.inj (hplan.symm.trans hmerge))
  exact ⟨state,
    ChangeGraph.run_effect_of_deps hg₁.indexed (hac g₁ hg₁) hget hours hout, hwrite⟩

/-- No other content and no other change has a hash of the stash. -/
structure NoStashCollisions [Crypto] (r : Repo) (atoms : List Atom) (contents : List Bytes) :
    Prop where
  contents : Repo.Storable r.blobs contents
  change : ∀ heads signer, r.views.lookup r.head = some heads → r.identity = some signer →
    ∀ c, r.store.lookup (stashChange heads atoms signer).id = some c →
      c = stashChange heads atoms signer

section Pop

variable [Crypto] (parser : ItemParser) (priorities : List (String × ℕ)) (agentIgnore : Gitignore)
  (fuel : ℕ) (order : SetOrder String) (keyOrder : SetOrder NodePath)

/-- A stash and its pop, with nothing else changed in between. The pop may be of another process,
which has loaded another part of the history. -/
structure StashAndPop (s s₁ t t' : Workspace) : Prop where
  stash : ∃ name,
    stash parser priorities agentIgnore fuel order keyOrder s = some (.ok name, s₁)
  repo : t.repo = { s₁.repo with graph := t.repo.graph }
  tree : t.tree = s₁.tree
  pop : ∃ fuel' order', stashPop parser priorities agentIgnore fuel' order' t = some (.ok (), t')

variable {parser priorities agentIgnore fuel order keyOrder} {s s₁ t t' : Workspace}
  {base : MaterializedState} {atoms : List Atom} {contents : List Bytes}

theorem StashAndPop.exists_state
    (h : StashAndPop parser priorities agentIgnore fuel order keyOrder s s₁ t t')
    (hbase : ∃ r, viewState fuel (s.tree.workDir parser priorities agentIgnore) s.repo
      = some (.ok base, r))
    (hdelta : stashDelta (parser.plugin (unparse priorities)) order keyOrder base s.tree
      = .ok (atoms, contents))
    (hloaded : Repo.Loaded s.repo.store s.repo.graph)
    (hloaded' : Repo.Loaded t.repo.store t.repo.graph)
    (hac : ∀ g, Repo.Loaded t.repo.store g → g.Acyclic)
    (hnew : NoStashCollisions s.repo atoms contents) :
    ∃ state order', IsEdited parser priorities base s.tree state
      ∧ writeStateToWorkingDir priorities (Repo.putContents s.repo.blobs contents) base order s.tree
        = some (.ok (), t.tree)
      ∧ writeStateToWorkingDir priorities (Repo.putContents s.repo.blobs contents) state order'
        t.tree = some (.ok (), t'.tree) := by
  obtain ⟨name, hstash⟩ := h.stash
  obtain ⟨fuel', order', hpop⟩ := h.pop
  obtain ⟨heads, g, base', atoms', contents', n, signer, hview, hg, hstate, hdelta', hnext,
    hidentity, hrepo, hwrite⟩ := stash_eq_ok hstash
  obtain ⟨r, hbase⟩ := hbase
  obtain ⟨heads', g', hview', hg', hstate', -⟩ := viewState_eq_ok hbase
  obtain rfl := Option.some_inj.mp (hview.symm.trans hview')
  obtain rfl := Except.ok.inj (Option.some_inj.mp (hg.symm.trans hg'))
  obtain rfl : base' = base := Except.ok.inj (hstate.symm.trans hstate')
  obtain ⟨rfl, rfl⟩ := Prod.mk.inj (Except.ok.inj (hdelta'.symm.trans hdelta))
  set c := stashChange heads atoms' signer
  -- What the pop finds in the repository.
  have ht : t.repo = { stashedRepo s.repo g c contents' n with graph := t.repo.graph } := by
    rw [h.repo, hrepo]
  have hviews : t.repo.views = s.repo.views.insert (stashName n) {c.id} := by
    rw [ht]
    rfl
  have hblobs : t.repo.blobs = Repo.putContents s.repo.blobs contents' := by
    rw [ht]
    rfl
  have hstore : t.repo.store = s.repo.store.putOnce c.id c := by
    rw [ht]
    rfl
  have hhead : t.repo.head = s.repo.head := by
    rw [ht]
    rfl
  have hlast := getLast?_stashList order' hnext {c.id}
  rw [← hviews] at hlast
  have htarget : t.repo.views.lookup (stashName n) = some {c.id} := by
    rw [hviews, FMap.lookup_insert_eq, if_pos rfl]
  have hcurrent : t.repo.views.lookup t.repo.head = some c.deps := by
    have hne : s.repo.head ≠ stashName n := by
      intro heq
      exact stashName_notMem hnext (heq ▸ FMap.mem_keys_of_lookup hview)
    rw [hviews, hhead, FMap.lookup_insert_eq, if_neg hne]
    exact hview
  have hread : Repo.readChange t.repo.store c.id = .ok c := by
    rw [hstore]
    exact Repo.readChange_putOnce_self (hnew.change heads signer hview hidentity)
  have hg₁ : Repo.Loaded t.repo.store g := by
    rw [hstore]
    exact (hloaded.hydrateGraph hg).putOnce _ _
  have hmore : ChangeGraph.ReadsMore (s.repo.applyEnv agentIgnore)
      (t.repo.applyEnv agentIgnore) := by
    rw [ht]
    exact ⟨fun _ _ hread => Repo.readBlob_putContents hread, rfl, rfl⟩
  obtain ⟨state, heffect, hwrite'⟩ := stashPop_of_deps hpop hlast htarget hcurrent hread hloaded'
    hac hg₁ (hmore.materializeHeads hg₁.indexed hstate)
  refine ⟨state, order', isEdited_of_effect hdelta rfl rfl (fun content hcontent => ?_) heffect,
    ?_, ?_⟩
  · change Repo.readBlob t.repo.blobs (Crypto.hashBytes content) = .ok content
    rw [hblobs]
    exact hnew.contents.readBlob hcontent
  · rw [h.tree]
    rw [hrepo] at hwrite
    exact hwrite
  · rw [← hblobs]
    exact hwrite'

/-- A pop right after a stash gives the tree back exactly when no edit is outside what the stash
records. -/
theorem stash_keeps_work_iff
    (h : StashAndPop parser priorities agentIgnore fuel order keyOrder s s₁ t t')
    (hbase : ∃ r, viewState fuel (s.tree.workDir parser priorities agentIgnore) s.repo
      = some (.ok base, r))
    (hdelta : stashDelta (parser.plugin (unparse priorities)) order keyOrder base s.tree
      = .ok (atoms, contents))
    (hloaded : Repo.Loaded s.repo.store s.repo.graph)
    (hloaded' : Repo.Loaded t.repo.store t.repo.graph)
    (hac : ∀ g, Repo.Loaded t.repo.store g → g.Acyclic)
    (hnew : NoStashCollisions s.repo atoms contents) :
    t'.tree.files = s.tree.files
      ↔ KeepsWork parser priorities base s.tree (Repo.putContents s.repo.blobs contents) := by
  obtain ⟨state, order', hedited, hstash, hpop⟩ :=
    h.exists_state hbase hdelta hloaded hloaded' hac hnew
  set blobs := Repo.putContents s.repo.blobs contents
  obtain ⟨hprojects, hrules, hfirst⟩ := lookup_writeStateToWorkingDir hstash
  obtain ⟨-, -, hlast⟩ := lookup_writeStateToWorkingDir hpop
  -- The pop ignores what the stash has ignored: the files besides the Rust files are the same.
  have halike (hplain : ∀ filepath, isRust filepath = false → ∀ bytes,
      writtenBytes priorities blobs base filepath = some bytes →
      s.tree.files.lookup filepath = some bytes) : t.tree.collects = s.tree.collects := by
    refine WorkTree.collects_congr hrules fun filepath hfile => ?_
    rw [hfirst, WorkTree.collects_of_plain hfile]
    cases hwritten : writtenBytes priorities blobs base filepath with
    | none => rfl
    | some bytes => exact (hplain filepath hfile bytes hwritten).symm
  have hother : ∀ filepath, s.tree.collects filepath = false → t.tree.collects filepath = false →
      (t'.tree.files.lookup filepath = s.tree.files.lookup filepath
        ↔ ∀ bytes, writtenBytes priorities blobs base filepath = some bytes →
          s.tree.files.lookup filepath = some bytes) := by
    intro filepath hfile hfile'
    rw [hlast, hfirst, hfile, hfile']
    exact hedited.or_written_eq_iff hfile (hprojects filepath)
  constructor
  · intro hsame
    have hcollects := halike fun filepath hfile =>
      (hother filepath (WorkTree.collects_of_plain hfile)
        (WorkTree.collects_of_plain hfile)).mp (by rw [hsame])
    refine ⟨fun filepath hfile state' hstate' => ?_, fun filepath hfile => ?_⟩
    · have hentries : SameEntries filepath state state' := fun path =>
        (hstate' path).trans (hedited filepath path).symm
      rw [hentries.writtenBytes_eq, ← hsame, hlast, hcollects, if_pos hfile, Option.or_none]
    · exact (hother filepath hfile (hcollects ▸ hfile)).mp (by rw [hsame])
  · intro hkeeps
    have hcollects := halike fun filepath hfile =>
      hkeeps.other filepath (WorkTree.collects_of_plain hfile)
    refine Finmap.ext_lookup fun filepath => ?_
    by_cases hfile : s.tree.collects filepath = true
    · rw [hlast, hcollects, if_pos hfile, Option.or_none]
      exact hkeeps.rust filepath hfile state (hedited filepath)
    · rw [Bool.not_eq_true] at hfile
      exact (hother filepath hfile (hcollects ▸ hfile)).mpr (hkeeps.other filepath hfile)

end Pop

/-! ### A function and notes -/

def notesChange : Change := @Change.new Crypto.sample ∅ [putFunction "fn f(){}",
  .blob "notes.md" (@Crypto.hashBytes Crypto.sample [1]) 1] "snap" (.human "" "" 0) 0

def notesState : MaterializedState :=
  (Finmap.singleton functionKey (utf8 "fn f(){}")).insert ["file", "notes.md"]
    (blobToken (@Crypto.hashBytes Crypto.sample [1]))

def notesFiles (source : String) (notes : Bytes) : FMap String Bytes :=
  (Finmap.singleton "a.rs" (utf8 source)).insert "notes.md" notes

/-- A repository that tracks a function and notes, and a tree in which both may be edited. -/
def notesWorkspace (source : String) (notes : Bytes) : Workspace where
  repo := Repo.ofHistory [notesChange] {notesChange.id} [utf8 "fn f(){}", [1]]
  tree :=
    { rules := noRules
      files := notesFiles source notes
      dirs := ∅
      disjoint _ _ := Finset.notMem_empty _
      closed path hpath dir hdir := by
        have hflat : ∀ path ∈ ({"notes.md", "a.rs"} : Finset String), parentDirs path = [] := by
          decide
        rw [hflat path (by simpa [notesFiles, Finmap.mem_keys] using hpath)] at hdir
        cases hdir }

/-- The same files, and a process that has loaded nothing. -/
def Workspace.reopened (s : Workspace) : Workspace :=
  { s with repo := { s.repo with graph := .new } }

def functionEdit : List Atom :=
  [.delete functionKey (@Crypto.hashBytes Crypto.sample (utf8 "fn f(){}")), putFunction "fn f(){1}"]

def notesStash : Change :=
  @stashChange Crypto.sample {notesChange.id} functionEdit (.human "" "" 0, 0)

theorem exists_notesPop {notes : Bytes} (hnotes : notes ∈ ([[1], [2]] : List Bytes)) :
    ∃ s₁ t', @StashAndPop Crypto.sample oneFunction rustPriorities (fun _ _ => false) 5 .sorted
        .sorted (notesWorkspace "fn f(){1}" notes) s₁ s₁.reopened t'
      ∧ s₁.repo.store
        = FMap.insertAll ∅ [(notesChange.id, notesChange), (notesStash.id, notesStash)]
      ∧ t'.tree.files = notesFiles "fn f(){1}" [1] := by
  have hrun : ∀ notes ∈ ([[1], [2]] : List Bytes),
      ((@stash Crypto.sample oneFunction rustPriorities (fun _ _ => false) 5 .sorted .sorted
        (notesWorkspace "fn f(){1}" notes)).bind fun out =>
          (@stashPop Crypto.sample oneFunction rustPriorities (fun _ _ => false) 5 .sorted
            out.2.reopened).map fun out' =>
              ((out.1, out.2.repo.store), out'.1, out'.2.tree.files))
        = some ((.ok ".stash_1", FMap.insertAll ∅ [(notesChange.id, notesChange),
          (notesStash.id, notesStash)]), .ok (), notesFiles "fn f(){1}" [1]) := by
    decide +kernel
  obtain ⟨⟨name, s₁⟩, hstash, hpop⟩ := Option.bind_eq_some_iff.mp (hrun notes hnotes)
  obtain ⟨⟨out, t'⟩, hpop, heq⟩ := Option.map_eq_some_iff.mp hpop
  simp only [Prod.mk.injEq] at heq
  obtain ⟨⟨rfl, hstore⟩, rfl, hfiles⟩ := heq
  exact ⟨s₁, t', @StashAndPop.mk Crypto.sample _ _ _ _ _ _ _ _ _ _ ⟨_, hstash⟩ rfl rfl
    ⟨5, .sorted, hpop⟩, hstore, hfiles⟩

theorem notesWorkspace_stashes {notes : Bytes} (hnotes : notes ∈ ([[1], [2]] : List Bytes)) :
    (∃ r, @viewState Crypto.sample 5 (@WorkTree.workDir Crypto.sample oneFunction rustPriorities
        (fun _ _ => false) (notesWorkspace "fn f(){1}" notes).tree)
        (notesWorkspace "fn f(){1}" notes).repo = some (.ok notesState, r))
      ∧ @stashDelta Crypto.sample (@ItemParser.plugin Crypto.sample oneFunction
          (unparse rustPriorities)) .sorted .sorted notesState
          (notesWorkspace "fn f(){1}" notes).tree
        = .ok (functionEdit, [utf8 "fn f(){}", utf8 "fn f(){1}"])
      ∧ @NoStashCollisions Crypto.sample (notesWorkspace "fn f(){1}" notes).repo functionEdit
        [utf8 "fn f(){}", utf8 "fn f(){1}"] := by
  have hbase : ∀ notes ∈ ([[1], [2]] : List Bytes), (@viewState Crypto.sample 5
      (@WorkTree.workDir Crypto.sample oneFunction rustPriorities (fun _ _ => false)
        (notesWorkspace "fn f(){1}" notes).tree) (notesWorkspace "fn f(){1}" notes).repo).map
      Prod.fst = some (.ok notesState) := by decide +kernel
  have hdelta : ∀ notes ∈ ([[1], [2]] : List Bytes), @stashDelta Crypto.sample
      (@ItemParser.plugin Crypto.sample oneFunction (unparse rustPriorities)) .sorted .sorted
      notesState (notesWorkspace "fn f(){1}" notes).tree
        = .ok (functionEdit, [utf8 "fn f(){}", utf8 "fn f(){1}"]) := by decide +kernel
  obtain ⟨⟨_, r⟩, hrun, rfl⟩ := Option.map_eq_some_iff.mp (hbase notes hnotes)
  have hcontents : @Repo.Storable Crypto.sample (notesWorkspace "fn f(){1}" [1]).repo.blobs
      [utf8 "fn f(){}", utf8 "fn f(){1}"] :=
    @Repo.Storable.of_all Crypto.sample _ _ (by decide +kernel) (by decide +kernel)
  refine ⟨⟨r, hrun⟩, hdelta notes hnotes, @NoStashCollisions.mk Crypto.sample _ _ _ hcontents ?_⟩
  rintro heads signer hview hsigner c hc
  obtain rfl := Option.some_inj.mp hview
  obtain rfl := Option.some_inj.mp hsigner
  have hnone : (FMap.insertAll ∅ [(notesChange.id, notesChange)]).lookup notesStash.id = none := by
    decide +kernel
  exact absurd (hc.symm.trans hnone) (Option.some_ne_none c)

theorem acyclic_of_notes {s : Workspace} {g : ChangeGraph} (hstore : s.repo.store
      = FMap.insertAll ∅ [(notesChange.id, notesChange), (notesStash.id, notesStash)])
    (hg : Repo.Loaded s.repo.store g) : g.Acyclic := by
  rw [hstore] at hg
  exact hg.acyclic_of_lt (by decide +kernel)

/-- The edit of the function is recorded, and the notes are as they were. -/
theorem stash_keeps_function : ∃ s₁ t',
    @StashAndPop Crypto.sample oneFunction rustPriorities (fun _ _ => false) 5 .sorted .sorted
        (notesWorkspace "fn f(){1}" [1]) s₁ s₁.reopened t'
      ∧ t'.tree.files = (notesWorkspace "fn f(){1}" [1]).tree.files
      ∧ KeepsWork oneFunction rustPriorities notesState (notesWorkspace "fn f(){1}" [1]).tree
        (@Repo.putContents Crypto.sample (notesWorkspace "fn f(){1}" [1]).repo.blobs
          [utf8 "fn f(){}", utf8 "fn f(){1}"]) := by
  obtain ⟨s₁, t', hrun, hstore, hfiles⟩ := @exists_notesPop [1] (by decide)
  obtain ⟨hbase, hdelta, hnew⟩ := @notesWorkspace_stashes [1] (by decide)
  exact ⟨s₁, t', hrun, hfiles, (@stash_keeps_work_iff Crypto.sample _ _ _ _ _ _ _ _ _ _ _
    functionEdit _ hrun hbase hdelta (.ofChanges (by decide)) (.new _)
    (fun g hg => acyclic_of_notes (s := s₁) hstore hg) hnew).mp hfiles⟩

/-- The notes of a stash are lost. -/
theorem stash_overwrites_notes : ¬ ∀ (_ : Crypto) (parser : ItemParser)
    (priorities : List (String × ℕ)) (agentIgnore : Gitignore) (fuel : ℕ) (order : SetOrder String)
    (keyOrder : SetOrder NodePath) (s s₁ t t' : Workspace) (base : MaterializedState)
    (atoms : List Atom) (contents : List Bytes) (clean : WorkTree),
    (∃ r, viewState fuel (s.tree.workDir parser priorities agentIgnore) s.repo
      = some (.ok base, r)) →
    isCleanTree (parser.plugin (unparse priorities)) base clean = true →
    (∀ path, clean.files.lookup path = writtenBytes priorities s.repo.blobs base path) →
    stashDelta (parser.plugin (unparse priorities)) order keyOrder base s.tree
      = .ok (atoms, contents) →
    Repo.Loaded s.repo.store s.repo.graph → Repo.Loaded t.repo.store t.repo.graph →
    (∀ g, Repo.Loaded t.repo.store g → g.Acyclic) → NoStashCollisions s.repo atoms contents →
    StashAndPop parser priorities agentIgnore fuel order keyOrder s s₁ t t' →
    t'.tree.files = s.tree.files := by
  intro h
  obtain ⟨s₁, t', hrun, hstore, hfiles⟩ := @exists_notesPop [2] (by decide)
  obtain ⟨hbase, hdelta, hnew⟩ := @notesWorkspace_stashes [2] (by decide)
  have hsame := h Crypto.sample oneFunction rustPriorities (fun _ _ => false) 5 .sorted .sorted
    (notesWorkspace "fn f(){1}" [2]) s₁ s₁.reopened t' notesState functionEdit _
    (notesWorkspace "fn f(){}" [1]).tree hbase (by decide +kernel) (fun path => ?_) hdelta
    (.ofChanges (by decide)) (.new _) (fun g hg => acyclic_of_notes (s := s₁) hstore hg) hnew hrun
  · rw [hfiles] at hsame
    have hnotes := congrArg (Finmap.lookup "notes.md") hsame
    revert hnotes
    decide
  · by_cases hpath : path ∈ ["notes.md", "a.rs"]
    · revert path
      decide +kernel
    · have htracked : ∀ path ∈ extractFilepathsFromState notesState,
          path ∈ ["notes.md", "a.rs"] := by decide
      rw [writtenBytes_of_untracked fun hmem => hpath (htracked path hmem)]
      refine FMap.notMem_keys_iff.mp fun hkey => hpath ?_
      simpa [notesWorkspace, notesFiles, Finmap.mem_keys] using hkey

end ArcVcs
