import ArcVcs.Apply

/-!
# Isolation of AI authors

`.agentignore` enforcement looks at the paths of an atom, and a `blob` atom reports none. So
a change by an AI author leaves the restricted entries alone exactly when the assets it
tracks there are the ones already tracked.
-/

namespace ArcVcs

/-- The token that the `blob` atoms of a list leave at a key, if one of them takes effect. -/
def lastAsset (sparse : Option SparseMatcher) (key : NodePath) : List Atom → Option Bytes
  | [] => none
  | .blob path hash size :: atoms =>
      if ["file", path] = key ∧ isSkipped sparse (.blob path hash size) = false then
        some ((lastAsset sparse key atoms).getD (blobToken hash))
      else lastAsset sparse key atoms
  | _ :: atoms => lastAsset sparse key atoms

def Isolated (agentIgnore : Gitignore) (before after : MaterializedState) : Prop :=
  ∀ key, isRestricted agentIgnore key = true → after.lookup key = before.lookup key

/-- A restricted file gets no asset, or the one that it has. -/
def TracksNoRestrictedAsset (env : ApplyEnv) (atoms : List Atom) (before : MaterializedState) :
    Prop :=
  ∀ path, isRestricted env.agentIgnore ["file", path] = true →
    ∀ token ∈ lastAsset env.sparse ["file", path] atoms, before.lookup ["file", path] = some token

theorem not_isRestricted_of_check {agentIgnore : Gitignore} {author : Author} {atom : Atom}
    (hai : author.isAi = true) (hcheck : checkAgentIgnore agentIgnore author atom = .ok ())
    {path : NodePath} (hpath : path ∈ atom.paths) : isRestricted agentIgnore path = false := by
  have hnone := checkAgentIgnore_toOption agentIgnore author atom
  rw [hcheck, hai, Bool.true_and] at hnone
  by_contra hres
  have hany : atom.isRestricted agentIgnore = true :=
    List.any_eq_true.mpr ⟨path, hpath, Bool.eq_true_of_not_eq_false hres⟩
  simp [hany, Except.toOption] at hnone

theorem executeAtom_lookup {store : BlobStore} {change : Blake3Hash} {r r' : Replay} {atom : Atom}
    (hblob : ∀ path hash size, atom ≠ .blob path hash size)
    (hrun : executeAtom store change r atom = .ok r') {key : NodePath} (hkey : key ∉ atom.paths) :
    r'.state.lookup key = r.state.lookup key := by
  cases atom with
  | blob path hash size => exact absurd rfl (hblob path hash size)
  | move from_ to_ => simp [executeAtom] at hrun
  | semanticsPreserving at_ description => simp [executeAtom] at hrun
  | insert at_ contentHash =>
      have hne : key ≠ at_ := by simpa [Atom.paths] using hkey
      cases hstore : store contentHash with
      | error e => simp [executeAtom, hstore] at hrun
      | ok bytes =>
          obtain rfl : r.write at_ bytes change = r' := by simpa [executeAtom, hstore] using hrun
          simp [Replay.write, hne]
  | delete at_ priorHash =>
      have hne : key ≠ at_ := by simpa [Atom.paths] using hkey
      cases hentry : r.state.lookup at_ with
      | none => simp [executeAtom, hentry] at hrun
      | some bytes =>
          obtain rfl : r.remove at_ = r' := by simpa [executeAtom, hentry] using hrun
          simp [Replay.remove, hne]
  | _ =>
      have hne : key ≠ _ := List.ne_of_not_mem_cons hkey
      obtain rfl : r.write _ _ change = r' := Except.ok.inj hrun
      simp [Replay.write, hne]

/-- A restricted entry after a change by an AI author: the last asset tracked there, or what
it was before. -/
theorem lookup_restricted_of_applyAtoms {env : ApplyEnv} {change : Change}
    (hai : change.author.isAi = true) {key : NodePath}
    (hkey : isRestricted env.agentIgnore key = true) {atoms : List Atom} {r r' : Replay}
    (hrun : applyAtoms env change atoms r = (.ok (), r')) :
    r'.state.lookup key = (lastAsset env.sparse key atoms).or (r.state.lookup key) := by
  induction atoms generalizing r with
  | nil =>
      obtain rfl : r = r' := by simpa [applyAtoms] using hrun
      simp [lastAsset]
  | cons atom atoms ih =>
      obtain ⟨r₁, hatom, hrun⟩ := applyAtoms_cons_eq_ok_iff.mp hrun
      rw [ih hrun]
      unfold applyAtom at hatom
      cases hcheck : checkAgentIgnore env.agentIgnore change.author atom with
      | error e => simp [hcheck] at hatom
      | ok u =>
          rw [hcheck] at hatom
          dsimp only at hatom
          have hpaths : key ∉ atom.paths := by
            intro hmem
            have := not_isRestricted_of_check hai hcheck hmem
            simp [hkey] at this
          by_cases hskip : isSkipped env.sparse atom = true
          · rw [if_pos hskip] at hatom
            obtain rfl : r = r₁ := by simpa using hatom
            cases atom with
            | blob path hash size => simp [lastAsset, hskip]
            | _ => rfl
          · rw [if_neg hskip] at hatom
            cases atom with
            | blob path hash size =>
                obtain rfl : r.write ["file", path] (blobToken hash) change.id = r₁ := by
                  simpa [executeAtom] using hatom
                by_cases hfile : ["file", path] = key
                · subst hfile
                  cases hlast : lastAsset env.sparse ["file", path] atoms <;>
                    simp [lastAsset, hlast, hskip, Replay.write]
                · simp [lastAsset, hfile, Replay.write, Ne.symm hfile]
            | _ =>
                rw [executeAtom_lookup (by simp) hatom hpaths]
                rfl

theorem exists_path_of_lastAsset {sparse : Option SparseMatcher} {key : NodePath}
    {atoms : List Atom} {token : Bytes} (h : lastAsset sparse key atoms = some token) :
    ∃ path, ["file", path] = key := by
  induction atoms with
  | nil => simp [lastAsset] at h
  | cons atom atoms ih =>
      cases atom with
      | blob path hash size =>
          by_cases hfile : ["file", path] = key
          · exact ⟨path, hfile⟩
          · rw [lastAsset, if_neg fun hc => hfile hc.1] at h
            exact ih h
      | _ => exact ih h

/-- **AI isolation.** A change by an AI author that applies leaves the restricted entries alone
iff it tracks no new asset at a restricted file. -/
theorem isolated_iff {env : ApplyEnv} {change : Change} {r r' : Replay}
    (hai : change.author.isAi = true) (hrun : applyChangeScoped env change r = (.ok (), r')) :
    Isolated env.agentIgnore r.state r'.state
      ↔ TracksNoRestrictedAsset env change.atoms r.state := by
  constructor
  · intro hiso path hpath token htoken
    have hlookup := lookup_restricted_of_applyAtoms hai hpath hrun
    rw [Option.mem_def.mp htoken, hiso _ hpath] at hlookup
    simpa using hlookup
  · intro htracks key hkey
    rw [lookup_restricted_of_applyAtoms hai hkey hrun]
    cases hlast : lastAsset env.sparse key change.atoms with
    | none => rfl
    | some token =>
        obtain ⟨path, rfl⟩ := exists_path_of_lastAsset hlast
        rw [Option.some_or, htracks path hkey token hlast]

/-- An AI author who tracks one asset outside the ignored directory and edits one item. -/
theorem isolated_image :
    let env : ApplyEnv := ⟨fun _ => .ok [1], fun path _ => path = "secret", none⟩
    let change : Change :=
      { Change.bare 1 ∅ [.blob "logo.png" 5 3, .insert ["file", "a.rs", "fn_x"] 6] with
        author := .ai "model" 0 }
    change.author.isAi = true ∧ (applyChangeScoped env change ⟨∅, none⟩).1 = .ok ()
      ∧ (Isolated env.agentIgnore ∅ (applyChangeScoped env change ⟨∅, none⟩).2.state
          ↔ TracksNoRestrictedAsset env change.atoms ∅) := by
  intro env change
  refine ⟨rfl, by decide, ?_⟩
  exact isolated_iff (r := ⟨∅, none⟩) rfl rfl

/-- An AI author replaces `.agentignore` by an asset. -/
theorem blob_escapes_agentignore :
    ¬ ∀ (env : ApplyEnv) (change : Change) (r r' : Replay), change.author.isAi = true →
      applyChangeScoped env change r = (.ok (), r') →
      Isolated env.agentIgnore r.state r'.state := by
  intro h
  have hrun := h ⟨fun _ => .ok [], fun _ _ => false, none⟩
    { Change.bare 1 ∅ [.blob ".agentignore" 5 3] with author := .ai "model" 0 } ⟨∅, none⟩ _ rfl rfl
  have hentry := hrun ["file", ".agentignore"] (by decide)
  revert hentry
  decide

end ArcVcs
