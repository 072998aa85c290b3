import ArcVcs.Apply

/-!
# Blame

Replay blames a change for every key that one of its atoms names to write. A `directory` atom fills
an absent key and leaves a present one as it is, but takes the blame for it in both cases. So the
blame map names the last change that set each value exactly when no other change only refills it.
-/

namespace ArcVcs

/-- The key at which an atom leaves a value when it runs, and for which it takes the blame. -/
def Atom.writtenKey : Atom → Option NodePath
  | .insert at_ _ => some at_
  | .directory path => some path
  | .blob path _ _ => some ["file", path]
  | .mount path _ => some path
  | .conflict _ _ at_ => some at_
  | .delete .. => none
  | .move .. => none
  | .semanticsPreserving .. => none

/-- The atom sets the value at a key: `directory` only where there is none. -/
def Atom.sets (state : MaterializedState) (key : NodePath) (atom : Atom) : Bool :=
  match atom with
  | .directory path => path = key && (state.lookup key).isNone
  | _ => atom.writtenKey = some key

/-- The atoms that run, each with the state that it finds. -/
def runAtoms (env : ApplyEnv) (change : Change) : List Atom → Replay →
    List (MaterializedState × Atom)
  | [], _ => []
  | atom :: atoms, r =>
      match applyAtom env change r atom with
      | .error _ => []
      | .ok r' =>
          if isSkipped env.sparse atom then runAtoms env change atoms r'
          else (r.state, atom) :: runAtoms env change atoms r'

namespace Change

/-- The application of the change takes the blame for the key. -/
def marks (env : ApplyEnv) (r : Replay) (key : NodePath) (change : Change) : Bool :=
  (runAtoms env change change.atoms r).any fun run => run.2.writtenKey = some key

def setsValue (env : ApplyEnv) (r : Replay) (key : NodePath) (change : Change) : Bool :=
  (runAtoms env change change.atoms r).any fun run => run.2.sets run.1 key

end Change

/-- The maps after a sequence of applications, each of which may fail in the middle. -/
def replayAll (env : ApplyEnv) (changes : List Change) : Replay :=
  changes.foldl (fun r change => (applyChangeScoped env change r).2) ⟨∅, some ∅⟩

/-- The last change of a sequence whose application set the value at the key. -/
def lastSetter (env : ApplyEnv) (key : NodePath) (changes : List Change) : Option Blake3Hash :=
  (changes.foldl (fun (acc : Replay × Option Blake3Hash) change =>
    ((applyChangeScoped env change acc.1).2,
      if change.setsValue env acc.1 key then some change.id else acc.2))
    (⟨∅, some ∅⟩, none)).2

/-- The blame map has the keys of the state, and names the last change that set each value. -/
def BlamesLastSetter (env : ApplyEnv) (changes : List Change) : Prop :=
  ∃ blame, (replayAll env changes).blame = some blame
    ∧ (∀ key, key ∈ blame.keys ↔ key ∈ (replayAll env changes).state.keys)
    ∧ ∀ key ∈ (replayAll env changes).state.keys, blame.lookup key = lastSetter env key changes

def BlameExact (env : ApplyEnv) (changes : List Change) : Prop :=
  ∀ applied, applied <+: changes → BlamesLastSetter env applied

/-- The change finds a value at the key, and the atoms that it runs there are `directory` atoms. -/
structure OnlyRefills (env : ApplyEnv) (r : Replay) (key : NodePath) (change : Change) : Prop where
  present : key ∈ r.state.keys
  refills : ∃ run ∈ runAtoms env change change.atoms r, run.2 = .directory key
  only : ∀ run ∈ runAtoms env change change.atoms r, run.2.writtenKey = some key →
    run.2 = .directory key
  kept : ∀ run ∈ runAtoms env change change.atoms r, ∀ prior, run.2 ≠ .delete key prior

variable {env : ApplyEnv} {change : Change} {key : NodePath}

/-! ## One change -/

/-- The two maps of a replay have the same keys. -/
def Replay.Synced (r : Replay) (blame : BlameState) : Prop :=
  r.blame = some blame ∧ ∀ key, key ∈ blame.keys ↔ key ∈ r.state.keys

theorem Atom.writtenKey_of_sets {state : MaterializedState} {atom : Atom}
    (h : atom.sets state key = true) : atom.writtenKey = some key := by
  cases atom with
  | directory path => simp_all [Atom.sets, Atom.writtenKey]
  | _ => simpa [Atom.sets] using h

/-- What one atom does to the maps when it runs. -/
inductive AtomRun (change : Blake3Hash) (r : Replay) (atom : Atom) (r' : Replay) : Prop
  | write (path : NodePath) (bytes : Bytes) (hkey : atom.writtenKey = some path)
      (h : r' = r.write path bytes change)
  | remove (path : NodePath) (prior : Blake3Hash) (hatom : atom = .delete path prior)
      (h : r' = r.remove path)

theorem executeAtom_cases {r r' : Replay} {atom : Atom} {id : Blake3Hash}
    (h : executeAtom env.store id r atom = .ok r') : AtomRun id r atom r' := by
  cases atom with
  | insert at_ contentHash =>
      rw [executeAtom] at h
      cases hread : env.store contentHash with
      | error e => simp [hread] at h
      | ok bytes => exact .write at_ bytes rfl (by simpa [hread, eq_comm] using h)
  | delete at_ priorHash =>
      rw [executeAtom] at h
      cases hlook : r.state.lookup at_ with
      | none => simp [hlook] at h
      | some bytes => exact .remove at_ priorHash rfl (by simpa [hlook, eq_comm] using h)
  | move from_ to_ => cases h
  | semanticsPreserving at_ description => cases h
  | directory path => exact .write _ _ rfl (Except.ok.inj h).symm
  | blob path hash size => exact .write _ _ rfl (Except.ok.inj h).symm
  | mount path coordinate => exact .write _ _ rfl (Except.ok.inj h).symm
  | conflict bases sides at_ => exact .write _ _ rfl (Except.ok.inj h).symm

theorem applyAtom_cases {r r' : Replay} {atom : Atom} (h : applyAtom env change r atom = .ok r') :
    isSkipped env.sparse atom = true ∧ r' = r
      ∨ isSkipped env.sparse atom = false ∧ AtomRun change.id r atom r' := by
  unfold applyAtom at h
  cases hcheck : checkAgentIgnore env.agentIgnore change.author atom with
  | error e => simp [hcheck] at h
  | ok u =>
      simp only [hcheck] at h
      split_ifs at h with hskip
      · exact .inl ⟨hskip, (Except.ok.inj h).symm⟩
      · exact .inr ⟨by simpa using hskip, executeAtom_cases h⟩

/-- What the atoms of a change do to the blame: the marked keys that are left name the change, and
the others are as before. -/
structure Blames (id : Blake3Hash) (marked : NodePath → Bool) (r : Replay) (blame : BlameState)
    (r' : Replay) (blame' : BlameState) : Prop where
  synced : r'.Synced blame'
  lookup : ∀ key ∈ r'.state.keys,
    blame'.lookup key = if marked key then some id else blame.lookup key
  kept : ∀ key ∈ r'.state.keys, marked key = false → key ∈ r.state.keys

theorem Replay.Synced.write {r : Replay} {blame : BlameState} (h : r.Synced blame)
    (path : NodePath) (bytes : Bytes) (id : Blake3Hash) :
    (r.write path bytes id).Synced (blame.insert path id) := by
  refine ⟨by simp [Replay.write, h.1], fun key => ?_⟩
  have hkey := h.2 key
  simp only [FMap.mem_keys_iff, Replay.write, FMap.lookup_insert_eq] at hkey ⊢
  split_ifs
  · simp
  · exact hkey

theorem Replay.Synced.remove {r : Replay} {blame : BlameState} (h : r.Synced blame)
    (path : NodePath) : (r.remove path).Synced (blame.erase path) := by
  refine ⟨by simp [Replay.remove, h.1], fun key => ?_⟩
  have hkey := h.2 key
  simp only [FMap.mem_keys_iff, Replay.remove, FMap.lookup_erase_eq] at hkey ⊢
  split_ifs
  · simp
  · exact hkey

theorem Blames.refl (id : Blake3Hash) {r : Replay} {blame : BlameState} (h : r.Synced blame) :
    Blames id (fun _ => false) r blame r blame :=
  ⟨h, fun _ _ => rfl, fun _ hkey _ => hkey⟩

theorem Blames.write {id : Blake3Hash} {marked : NodePath → Bool} {r r' : Replay}
    {blame blame' : BlameState} {path : NodePath} {bytes : Bytes}
    (h : Blames id marked (r.write path bytes id) (blame.insert path id) r' blame') :
    Blames id (fun key => decide (path = key) || marked key) r blame r' blame' := by
  refine ⟨h.synced, fun key hkey => ?_, fun key hkey hmarked => ?_⟩
  · rw [h.lookup key hkey, FMap.lookup_insert_eq]
    by_cases hmarked : marked key = true
    · simp [hmarked]
    · by_cases hpath : path = key
      · simp [hmarked, hpath]
      · simp [hmarked, hpath, Ne.symm hpath]
  · obtain ⟨hpath, hmarked⟩ := Bool.or_eq_false_iff.mp hmarked
    obtain ⟨v, hv⟩ := FMap.mem_keys_iff.mp (h.kept key hkey hmarked)
    rw [Replay.write, FMap.lookup_insert_eq, if_neg (Ne.symm (of_decide_eq_false hpath))] at hv
    exact FMap.mem_keys_of_lookup hv

theorem Blames.remove {id : Blake3Hash} {marked : NodePath → Bool} {r r' : Replay}
    {blame blame' : BlameState} {path : NodePath}
    (h : Blames id marked (r.remove path) (blame.erase path) r' blame') :
    Blames id marked r blame r' blame' := by
  have hkept {key : NodePath} (hkey : key ∈ r'.state.keys) (hmarked : marked key = false) :
      key ≠ path ∧ key ∈ r.state.keys := by
    obtain ⟨v, hv⟩ := FMap.mem_keys_iff.mp (h.kept key hkey hmarked)
    rw [Replay.remove, FMap.lookup_erase_eq] at hv
    split_ifs at hv with hpath
    exact ⟨hpath, FMap.mem_keys_of_lookup hv⟩
  refine ⟨h.synced, fun key hkey => ?_, fun key hkey hmarked => (hkept hkey hmarked).2⟩
  rw [h.lookup key hkey]
  by_cases hmarked : marked key = true
  · simp [hmarked]
  · have hpath := (hkept hkey (by simpa using hmarked)).1
    rw [if_neg hmarked, if_neg hmarked, FMap.lookup_erase_eq, if_neg hpath]

/-- By induction on the atoms. -/
theorem applyAtoms_blames {atoms : List Atom} {r : Replay} {blame : BlameState}
    (hr : r.Synced blame) :
    ∃ blame', Blames change.id
      (fun key => (runAtoms env change atoms r).any fun run => run.2.writtenKey = some key)
      r blame (applyAtoms env change atoms r).2 blame' := by
  induction atoms generalizing r blame with
  | nil => exact ⟨blame, .refl change.id hr⟩
  | cons atom atoms ih =>
      rw [applyAtoms, runAtoms]
      cases hatom : applyAtom env change r atom with
      | error e => exact ⟨blame, .refl change.id hr⟩
      | ok r' =>
          dsimp only
          obtain ⟨hskip, rfl⟩ | ⟨hskip, hrun⟩ := applyAtom_cases hatom
          · rw [if_pos hskip]
            exact ih hr
          rw [if_neg (by simp [hskip])]
          cases hrun with
          | write path bytes hkey h =>
              subst h
              obtain ⟨blame', hblames⟩ := ih (hr.write path bytes change.id)
              refine ⟨blame', ?_⟩
              simpa [hkey] using hblames.write
          | remove path prior heq h =>
              subst h heq
              obtain ⟨blame', hblames⟩ := ih (hr.remove path)
              refine ⟨blame', ?_⟩
              simpa [Atom.writtenKey] using hblames.remove

theorem marks_of_setsValue {r : Replay} (h : change.setsValue env r key = true) :
    change.marks env r key = true := by
  obtain ⟨run, hrun, hsets⟩ := List.any_eq_true.mp h
  exact List.any_eq_true.mpr ⟨run, hrun, by simpa using Atom.writtenKey_of_sets hsets⟩

theorem Atom.eq_directory {state : MaterializedState} {atom : Atom}
    (hkey : atom.writtenKey = some key) (hsets : atom.sets state key = false) :
    atom = .directory key ∧ key ∈ state.keys := by
  cases atom with
  | directory path =>
      obtain rfl : path = key := Option.some_inj.mp hkey
      refine ⟨rfl, FMap.mem_keys_iff.mpr (Option.isSome_iff_exists.mp ?_)⟩
      simpa [Atom.sets, ← Option.isSome_iff_ne_none] using hsets
  | _ => simp [Atom.sets, hkey] at hsets

theorem AtomRun.present_iff {id : Blake3Hash} {r r' : Replay} {atom : Atom}
    (h : AtomRun id r atom r') (hsets : atom.sets r.state key = false) :
    key ∈ r'.state.keys ↔ key ∈ r.state.keys ∧ ∀ prior, atom ≠ .delete key prior := by
  cases h with
  | write path bytes hkey h =>
      subst h
      have hkept (prior : Blake3Hash) : atom ≠ .delete key prior := by
        rintro rfl
        simp [Atom.writtenKey] at hkey
      by_cases hpath : path = key
      · subst hpath
        have hpresent := (Atom.eq_directory hkey hsets).2
        exact iff_of_true (by simp [Replay.write, FMap.mem_keys_iff]) ⟨hpresent, hkept⟩
      · simp [Replay.write, FMap.mem_keys_iff, Ne.symm hpath, hkept]
  | remove path prior hatom h =>
      subst h hatom
      by_cases hpath : path = key
      · subst hpath
        simp [Replay.remove, FMap.mem_keys_iff]
      · simp [Replay.remove, FMap.mem_keys_iff, Ne.symm hpath, hpath]

/-- By induction on the atoms: what nothing sets stays until it is deleted. -/
theorem present_iff_of_unset {atoms : List Atom} {r : Replay}
    (hunset : ∀ run ∈ runAtoms env change atoms r, run.2.sets run.1 key = false) :
    key ∈ (applyAtoms env change atoms r).2.state.keys
      ↔ key ∈ r.state.keys ∧ ∀ run ∈ runAtoms env change atoms r, ∀ prior,
        run.2 ≠ .delete key prior := by
  induction atoms generalizing r with
  | nil => simp [applyAtoms, runAtoms]
  | cons atom atoms ih =>
      rw [runAtoms] at hunset ⊢
      rw [applyAtoms]
      cases hatom : applyAtom env change r atom with
      | error e => simp
      | ok r' =>
          simp only [hatom] at hunset ⊢
          obtain ⟨hskip, rfl⟩ | ⟨hskip, hrun⟩ := applyAtom_cases hatom
          · rw [if_pos hskip] at hunset ⊢
            exact ih hunset
          rw [if_neg (by simp [hskip])] at hunset ⊢
          have hhead := hrun.present_iff (hunset _ List.mem_cons_self)
          rw [ih fun run hmem => hunset run (List.mem_cons_of_mem _ hmem), hhead]
          simp only [List.forall_mem_cons, and_assoc]

/-- By induction on the atoms: a value that is only refilled is never found absent. -/
theorem unset_of_only {atoms : List Atom} {r : Replay} (hpresent : key ∈ r.state.keys)
    (honly : ∀ run ∈ runAtoms env change atoms r, run.2.writtenKey = some key →
      run.2 = .directory key)
    (hkept : ∀ run ∈ runAtoms env change atoms r, ∀ prior, run.2 ≠ .delete key prior) :
    ∀ run ∈ runAtoms env change atoms r, run.2.sets run.1 key = false := by
  induction atoms generalizing r with
  | nil => simp [runAtoms]
  | cons atom atoms ih =>
      rw [runAtoms] at honly hkept ⊢
      cases hatom : applyAtom env change r atom with
      | error e => simp
      | ok r' =>
          simp only [hatom] at honly hkept ⊢
          obtain ⟨hskip, rfl⟩ | ⟨hskip, hrun⟩ := applyAtom_cases hatom
          · rw [if_pos hskip] at honly hkept ⊢
            exact ih hpresent honly hkept
          rw [if_neg (by simp [hskip])] at honly hkept ⊢
          rw [List.forall_mem_cons] at honly hkept ⊢
          have hhead : atom.sets r.state key = false := by
            refine Bool.eq_false_iff.mpr fun hsets => ?_
            obtain rfl := honly.1 (Atom.writtenKey_of_sets hsets)
            obtain ⟨bytes, hbytes⟩ := FMap.mem_keys_iff.mp hpresent
            simp [Atom.sets, hbytes] at hsets
          exact ⟨hhead, ih ((hrun.present_iff hhead).mpr ⟨hpresent, hkept.1⟩) honly.2 hkept.2⟩

theorem onlyRefills_iff {r : Replay} :
    OnlyRefills env r key change ↔ change.marks env r key = true
      ∧ change.setsValue env r key = false
      ∧ key ∈ (applyChangeScoped env change r).2.state.keys := by
  constructor
  · intro h
    have hunset := unset_of_only h.present h.only h.kept
    obtain ⟨run, hrun, hdir⟩ := h.refills
    refine ⟨List.any_eq_true.mpr ⟨run, hrun, by simp [hdir, Atom.writtenKey]⟩, ?_, ?_⟩
    · exact List.any_eq_false.mpr fun run hrun => by simp [hunset run hrun]
    · exact (present_iff_of_unset hunset).mpr ⟨h.present, h.kept⟩
  · rintro ⟨hmarks, hunset, hleft⟩
    have hunset (run) (hrun : run ∈ runAtoms env change change.atoms r) :
        run.2.sets run.1 key = false := by
      simpa using List.any_eq_false.mp hunset run hrun
    obtain ⟨hpresent, hkept⟩ := (present_iff_of_unset hunset).mp hleft
    have honly (run) (hrun : run ∈ runAtoms env change change.atoms r)
        (hkey : run.2.writtenKey = some key) : run.2 = .directory key :=
      (Atom.eq_directory hkey (hunset run hrun)).1
    obtain ⟨run, hrun, hkey⟩ := List.any_eq_true.mp hmarks
    exact ⟨hpresent, ⟨run, hrun, honly run hrun (by simpa using hkey)⟩, honly, hkept⟩

/-! ## Sequences of changes -/

variable {changes : List Change}

theorem replayAll_append_singleton (env : ApplyEnv) (changes : List Change) (change : Change) :
    replayAll env (changes ++ [change])
      = (applyChangeScoped env change (replayAll env changes)).2 := by
  rw [replayAll, List.foldl_append]
  rfl

theorem lastSetter_append_singleton (env : ApplyEnv) (key : NodePath) (changes : List Change)
    (change : Change) :
    lastSetter env key (changes ++ [change])
      = if change.setsValue env (replayAll env changes) key then some change.id
        else lastSetter env key changes := by
  have hreplay (acc : Replay × Option Blake3Hash) :
      (changes.foldl (fun (acc : Replay × Option Blake3Hash) change =>
        ((applyChangeScoped env change acc.1).2,
          if change.setsValue env acc.1 key then some change.id else acc.2)) acc).1
        = changes.foldl (fun r change => (applyChangeScoped env change r).2) acc.1 := by
    induction changes generalizing acc with
    | nil => rfl
    | cons c cs ih => exact ih _
  have hempty := hreplay (⟨∅, some ∅⟩, none)
  rw [lastSetter, List.foldl_append, List.foldl_cons, List.foldl_nil, hempty]
  rfl

/-- **The keys always agree.** -/
theorem replayAll_synced (env : ApplyEnv) (changes : List Change) :
    ∃ blame, (replayAll env changes).Synced blame := by
  induction changes using List.reverseRecOn with
  | nil => exact ⟨∅, rfl, fun _ => Iff.rfl⟩
  | append_singleton changes change ih =>
      obtain ⟨blame, hblame⟩ := ih
      obtain ⟨blame', hblames⟩ := applyAtoms_blames hblame
      rw [replayAll_append_singleton]
      exact ⟨blame', hblames.synced⟩

theorem blamesLastSetter_append_singleton_iff (h : BlamesLastSetter env changes) :
    BlamesLastSetter env (changes ++ [change]) ↔ ∀ key,
      OnlyRefills env (replayAll env changes) key change →
        lastSetter env key changes = some change.id := by
  obtain ⟨blame, hblame, hkeys, hlast⟩ := h
  have hbefore : (replayAll env changes).Synced blame := ⟨hblame, hkeys⟩
  obtain ⟨blame', hblames⟩ : ∃ blame', Blames change.id
      (fun key => change.marks env (replayAll env changes) key) (replayAll env changes) blame
      (applyChangeScoped env change (replayAll env changes)).2 blame' :=
    applyAtoms_blames hbefore
  have hafter (key : NodePath)
      (hkey : key ∈ (applyChangeScoped env change (replayAll env changes)).2.state.keys) :
      blame'.lookup key = lastSetter env key (changes ++ [change])
        ↔ (OnlyRefills env (replayAll env changes) key change →
          lastSetter env key changes = some change.id) := by
    rw [lastSetter_append_singleton, hblames.lookup key hkey, onlyRefills_iff]
    by_cases hsets : change.setsValue env (replayAll env changes) key = true
    · rw [if_pos hsets, if_pos (marks_of_setsValue hsets)]
      exact iff_of_true rfl fun hrefills => by simp [hrefills.2.1] at hsets
    rw [if_neg hsets]
    by_cases hmarks : change.marks env (replayAll env changes) key = true
    · rw [if_pos hmarks]
      have hunset : change.setsValue env (replayAll env changes) key = false :=
        Bool.eq_false_iff.mpr hsets
      exact ⟨fun heq _ => heq.symm, fun h => (h ⟨hmarks, hunset, hkey⟩).symm⟩
    · rw [if_neg hmarks]
      refine iff_of_true (hlast key ?_) fun h => absurd h.1 hmarks
      exact hblames.kept key hkey (Bool.eq_false_iff.mpr hmarks)
  rw [BlamesLastSetter, replayAll_append_singleton]
  constructor
  · rintro ⟨blame₂, hblame₂, -, hlast₂⟩ key hrefills
    obtain rfl : blame₂ = blame' := Option.some_inj.mp (hblame₂.symm.trans hblames.synced.1)
    have hkey := (onlyRefills_iff.mp hrefills).2.2
    exact (hafter key hkey).mp (hlast₂ key hkey) hrefills
  · intro h
    exact ⟨blame', hblames.synced.1, hblames.synced.2,
      fun key hkey => (hafter key hkey).mpr (h key)⟩

theorem blameExact_append_singleton_iff :
    BlameExact env (changes ++ [change])
      ↔ BlameExact env changes ∧ BlamesLastSetter env (changes ++ [change]) := by
  constructor
  · intro h
    exact ⟨fun applied happlied => h applied (happlied.trans (List.prefix_append _ _)),
      h _ (List.prefix_refl _)⟩
  · rintro ⟨hbefore, hlast⟩ applied happlied
    rcases List.prefix_concat_iff.mp happlied with rfl | happlied
    · exact hlast
    · exact hbefore applied happlied

/-- **Blame is exact** exactly when every change that only refills a value has the id of the change
that set it. -/
theorem blameExact_iff (env : ApplyEnv) (changes : List Change) :
    BlameExact env changes ↔ ∀ applied change, applied ++ [change] <+: changes → ∀ key,
      OnlyRefills env (replayAll env applied) key change →
        lastSetter env key applied = some change.id := by
  induction changes using List.reverseRecOn with
  | nil =>
      refine iff_of_true (fun applied happlied => ?_) fun applied change happlied => ?_
      · rw [List.prefix_nil.mp happlied]
        exact ⟨∅, rfl, fun _ => Iff.rfl, fun key hkey => by simp [replayAll] at hkey⟩
      · simp [List.prefix_nil] at happlied
  | append_singleton changes change ih =>
      rw [blameExact_append_singleton_iff, ih]
      constructor
      · rintro ⟨hbefore, hlast⟩ applied change' happlied
        rcases List.prefix_concat_iff.mp happlied with heq | happlied
        · obtain ⟨rfl, rfl⟩ := List.append_singleton_inj.mp heq
          exact (blamesLastSetter_append_singleton_iff (ih.mpr hbefore _ (List.prefix_refl _))).mp
            hlast
        · exact hbefore applied change' happlied
      · intro h
        have hbefore (applied : List Change) (change' : Change)
            (happlied : applied ++ [change'] <+: changes) :=
          h applied change' (happlied.trans (List.prefix_append changes [change]))
        refine ⟨hbefore, ?_⟩
        exact (blamesLastSetter_append_singleton_iff (ih.mpr hbefore _ (List.prefix_refl _))).mpr
          (h changes change (List.prefix_refl _))

/-- Recording a folder that is there takes the blame for it. -/
theorem directory_takes_blame :
    ¬ ∀ changes, BlameExact ⟨fun _ => .ok [], fun _ _ => false, none⟩ changes := by
  intro h
  have hexact := h [.bare 1 ∅ [.directory ["dir", "a"]], .bare 2 ∅ [.directory ["dir", "a"]]]
    _ (List.prefix_refl _)
  obtain ⟨blame, hblame, -, hlast⟩ := hexact
  have hkey := hlast ["dir", "a"] (by decide)
  have hnamed : blame.lookup ["dir", "a"] = some 2 := by
    have hrun : (replayAll ⟨fun _ => .ok [], fun _ _ => false, none⟩
        [.bare 1 ∅ [.directory ["dir", "a"]], .bare 2 ∅ [.directory ["dir", "a"]]]).blame.map
        (fun blame => blame.lookup ["dir", "a"]) = some (some 2) := by
      decide
    rw [hblame] at hrun
    exact Option.some_inj.mp hrun
  rw [hnamed] at hkey
  exact absurd hkey (by decide)

end ArcVcs
