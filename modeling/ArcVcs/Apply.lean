import ArcVcs.Change
import ArcVcs.Lib.KeyedState
import ArcVcs.Sparse

/-!
# Replay of a change

`apply_change_scoped`: the atoms of a change run in order on the materialized state and on
the optional blame map. An error keeps the effects of the atoms before it.
-/

namespace ArcVcs

abbrev MaterializedState := FMap NodePath Bytes

/-- The change that last wrote each live path. -/
abbrev BlameState := FMap NodePath Blake3Hash

/-- `read_blob` of the storage boundary. -/
abbrev BlobStore := Blake3Hash → Except String Bytes

/-- `matched_path_or_any_parents(path, is_dir).is_ignore()` of the `ignore` crate. -/
abbrev Gitignore := String → Bool → Bool

inductive ApplyError where
  | securityViolation (checkedPath : String)
  | casRead (at_ : NodePath) (error : String)
  | deleteMissing (at_ : NodePath)
  | moveUnsupported
  | semanticsPreservingUnsupported
deriving DecidableEq

/-- The arguments that stay fixed during a replay. -/
structure ApplyEnv where
  store : BlobStore
  agentIgnore : Gitignore
  sparse : Option SparseMatcher

/-- The two maps that a replay updates. -/
structure Replay where
  state : MaterializedState
  blame : Option BlameState

namespace Replay

def write (r : Replay) (path : NodePath) (bytes : Bytes) (change : Blake3Hash) : Replay :=
  ⟨r.state.insert path bytes, r.blame.map fun b => b.insert path change⟩

def remove (r : Replay) (path : NodePath) : Replay :=
  ⟨r.state.erase path, r.blame.map fun b => b.erase path⟩

end Replay

/-- The file or directory that `.agentignore` enforcement checks for a node path. -/
def checkedPath : NodePath → Option (String × Bool)
  | kind :: path :: _ =>
      if kind = "file" then some (path, false)
      else if kind = "dir" then some (path, true)
      else none
  | _ => none

/-- A path that an AI author may not touch. `.agentignore` itself is always one. -/
def isRestricted (agentIgnore : Gitignore) (path : NodePath) : Bool :=
  match checkedPath path with
  | some (checked, isDir) => checked = ".agentignore" || agentIgnore checked isDir
  | none => false

/-- The `.agentignore` enforcement, which stops at the first restricted path. -/
def checkAgentIgnore (agentIgnore : Gitignore) (author : Author) (atom : Atom) :
    Except ApplyError Unit :=
  if author.isAi then
    match (atom.paths.find? (isRestricted agentIgnore)).bind checkedPath with
    | some (checked, _) => .error (.securityViolation checked)
    | none => .ok ()
  else .ok ()

/-- The atom lies outside the sparse boundary. -/
def isSkipped (sparse : Option SparseMatcher) (atom : Atom) : Bool :=
  match sparse with
  | some matcher => !matcher.matchesAtom atom
  | none => false

/-- The `match` of `apply_change_scoped` on the kind of an atom. -/
def executeAtom (store : BlobStore) (change : Blake3Hash) (r : Replay) :
    Atom → Except ApplyError Replay
  | .insert at_ contentHash =>
      match store contentHash with
      | .ok bytes => .ok (r.write at_ bytes change)
      | .error e => .error (.casRead at_ e)
  | .delete at_ _ =>
      match r.state.lookup at_ with
      | none => .error (.deleteMissing at_)
      | some _ => .ok (r.remove at_)
  | .directory path => .ok (r.write path ((r.state.lookup path).getD []) change)
  | .move .. => .error .moveUnsupported
  | .semanticsPreserving .. => .error .semanticsPreservingUnsupported
  | .blob path hash _ => .ok (r.write ["file", path] (blobToken hash) change)
  | .mount path coordinate => .ok (r.write path (mountToken coordinate) change)
  | .conflict bases sides at_ => .ok (r.write at_ (conflictToken bases sides at_) change)

/-- One iteration of the loop over the atoms. -/
def applyAtom (env : ApplyEnv) (change : Change) (r : Replay) (atom : Atom) :
    Except ApplyError Replay :=
  match checkAgentIgnore env.agentIgnore change.author atom with
  | .error e => .error e
  | .ok () =>
      if isSkipped env.sparse atom then .ok r else executeAtom env.store change.id r atom

/-- The loop over the atoms, with the maps as the caller finds them afterwards. -/
def applyAtoms (env : ApplyEnv) (change : Change) :
    List Atom → Replay → Except ApplyError Unit × Replay
  | [], r => (.ok (), r)
  | atom :: atoms, r =>
      match applyAtom env change r atom with
      | .error e => (.error e, r)
      | .ok r' => applyAtoms env change atoms r'

def applyChangeScoped (env : ApplyEnv) (change : Change) (r : Replay) :
    Except ApplyError Unit × Replay :=
  applyAtoms env change change.atoms r

/-- Changes applied one after the other, stopping at the first error. -/
def applySequence (env : ApplyEnv) : List Change → MaterializedState →
    Except ApplyError MaterializedState
  | [], state => .ok state
  | change :: changes, state =>
      match applyChangeScoped env change ⟨state, none⟩ with
      | (.error e, _) => .error e
      | (.ok (), r) => applySequence env changes r.state

theorem applyAtoms_cons_eq_ok_iff {env : ApplyEnv} {change : Change} {atom : Atom}
    {atoms : List Atom} {r r' : Replay} :
    applyAtoms env change (atom :: atoms) r = (.ok (), r')
      ↔ ∃ r₁, applyAtom env change r atom = .ok r₁
        ∧ applyAtoms env change atoms r₁ = (.ok (), r') := by
  rw [applyAtoms]
  cases applyAtom env change r atom with
  | error e => simp
  | ok r₁ => exact ⟨fun hrun => ⟨r₁, rfl, hrun⟩, fun ⟨_, hatom, hrun⟩ => Except.ok.inj hatom ▸ hrun⟩

/-! ## The effect of an atom -/

namespace Atom

/-- The operation an atom performs at its key. Atoms that always fail have none. -/
def keyedOp (store : BlobStore) : Atom → Option (KeyedOp NodePath Bytes)
  | insert at_ contentHash =>
      (store contentHash).toOption.map fun bytes => ⟨at_, fun _ => some (some bytes)⟩
  | delete at_ _ => some ⟨at_, fun v => v.map fun _ => none⟩
  | directory path => some ⟨path, fun v => some (some (v.getD []))⟩
  | move .. => none
  | semanticsPreserving .. => none
  | blob path hash _ => some ⟨["file", path], fun _ => some (some (blobToken hash))⟩
  | mount path coordinate => some ⟨path, fun _ => some (some (mountToken coordinate))⟩
  | conflict bases sides at_ =>
      some ⟨at_, fun _ => some (some (conflictToken bases sides at_))⟩

def isRestricted (agentIgnore : Gitignore) (atom : Atom) : Bool :=
  atom.paths.any (ArcVcs.isRestricted agentIgnore)

/-- What an atom does when its author is not checked: nothing, one operation, or a failure. -/
def plainEffect (env : ApplyEnv) (atom : Atom) : PartialAction MaterializedState :=
  if isSkipped env.sparse atom then 1
  else
    match atom.keyedOp env.store with
    | some op => op.act
    | none => 0

def effect (env : ApplyEnv) (author : Author) (atom : Atom) :
    PartialAction MaterializedState :=
  if author.isAi && atom.isRestricted env.agentIgnore then 0 else atom.plainEffect env

end Atom

namespace Change

def effect (env : ApplyEnv) (change : Change) : PartialAction MaterializedState :=
  (change.atoms.map (Atom.effect env change.author)).prod

def plainEffect (env : ApplyEnv) (change : Change) : PartialAction MaterializedState :=
  (change.atoms.map (Atom.plainEffect env)).prod

def isRestricted (env : ApplyEnv) (change : Change) : Bool :=
  change.atoms.any (Atom.isRestricted env.agentIgnore)

/-- The change is an AI author's and touches a path that AI may not touch. -/
def violates (env : ApplyEnv) (change : Change) : Bool :=
  change.author.isAi && change.isRestricted env

theorem effect_eq (env : ApplyEnv) (change : Change) :
    change.effect env = if change.violates env then 0 else change.plainEffect env := by
  split_ifs with h
  · obtain ⟨hai, hres⟩ := Bool.and_eq_true_iff.mp h
    obtain ⟨atom, hatom, hr⟩ := List.any_eq_true.mp hres
    apply PartialAction.prod_eq_zero_of_mem
    exact List.mem_map.mpr ⟨atom, hatom, by simp [Atom.effect, hai, hr]⟩
  · refine congrArg List.prod (List.map_congr_left fun atom hatom => if_neg fun hbad => h ?_)
    obtain ⟨hai, hr⟩ := Bool.and_eq_true_iff.mp hbad
    exact Bool.and_eq_true_iff.mpr ⟨hai, List.any_eq_true.mpr ⟨atom, hatom, hr⟩⟩

end Change

theorem checkedPath_of_isRestricted {agentIgnore : Gitignore} {path : NodePath}
    (h : isRestricted agentIgnore path = true) : ∃ checked, checkedPath path = some checked := by
  unfold isRestricted at h
  cases hc : checkedPath path with
  | none => simp [hc] at h
  | some checked => exact ⟨checked, rfl⟩

theorem checkAgentIgnore_toOption (agentIgnore : Gitignore) (author : Author) (atom : Atom) :
    (checkAgentIgnore agentIgnore author atom).toOption
      = if author.isAi && atom.isRestricted agentIgnore then none else some () := by
  unfold checkAgentIgnore Atom.isRestricted
  cases author.isAi with
  | false => rfl
  | true =>
      cases hfind : atom.paths.find? (isRestricted agentIgnore) with
      | none =>
          have hany : atom.paths.any (isRestricted agentIgnore) = false := by
            simpa using hfind
          simp [hany, Except.toOption]
      | some path =>
          obtain ⟨checked, hc⟩ := checkedPath_of_isRestricted (List.find?_some hfind)
          have hany : atom.paths.any (isRestricted agentIgnore) = true :=
            List.any_eq_true.mpr ⟨path, List.mem_of_find?_eq_some hfind, List.find?_some hfind⟩
          simp [hany, hc, Except.toOption]

theorem executeAtom_state (store : BlobStore) (change : Blake3Hash) (r : Replay) (atom : Atom) :
    (executeAtom store change r atom).toOption.map Replay.state
      = (atom.keyedOp store).bind fun op => op.act.run r.state := by
  cases atom with
  | insert at_ contentHash =>
      cases h : store contentHash <;>
        simp [executeAtom, Atom.keyedOp, h, Except.toOption, Replay.write]
  | delete at_ priorHash =>
      cases h : r.state.lookup at_ <;>
        simp [executeAtom, Atom.keyedOp, h, Except.toOption, Replay.remove]
  | _ => simp [executeAtom, Atom.keyedOp, Except.toOption, Replay.write]

theorem applyAtom_state (env : ApplyEnv) (change : Change) (r : Replay) (atom : Atom) :
    (applyAtom env change r atom).toOption.map Replay.state
      = (atom.effect env change.author).run r.state := by
  have hcheck := checkAgentIgnore_toOption env.agentIgnore change.author atom
  unfold applyAtom Atom.effect
  by_cases hbad : (change.author.isAi && atom.isRestricted env.agentIgnore) = true
  · rw [if_pos hbad] at hcheck ⊢
    cases hres : checkAgentIgnore env.agentIgnore change.author atom with
    | error e => rfl
    | ok u => simp [hres, Except.toOption] at hcheck
  · rw [if_neg hbad] at hcheck ⊢
    cases hres : checkAgentIgnore env.agentIgnore change.author atom with
    | error e => simp [hres, Except.toOption] at hcheck
    | ok u =>
        dsimp only
        unfold Atom.plainEffect
        by_cases hskip : isSkipped env.sparse atom = true
        · rw [if_pos hskip, if_pos hskip]
          rfl
        · rw [if_neg hskip, if_neg hskip, executeAtom_state]
          cases atom.keyedOp env.store <;> rfl

theorem applyAtoms_state (env : ApplyEnv) (change : Change) (atoms : List Atom) (r : Replay) :
    ((applyAtoms env change atoms r).1.toOption.map fun _ =>
        (applyAtoms env change atoms r).2.state)
      = (atoms.map (Atom.effect env change.author)).prod.run r.state := by
  induction atoms generalizing r with
  | nil => rfl
  | cons atom atoms ih =>
      have hatom := applyAtom_state env change r atom
      rw [List.map_cons, List.prod_cons, PartialAction.run_mul, ← hatom, applyAtoms]
      cases applyAtom env change r atom with
      | error e => rfl
      | ok r' => exact ih r'

theorem applyChangeScoped_state (env : ApplyEnv) (change : Change) (r : Replay) :
    ((applyChangeScoped env change r).1.toOption.map fun _ =>
        (applyChangeScoped env change r).2.state)
      = (change.effect env).run r.state :=
  applyAtoms_state env change change.atoms r

/-- **Replay runs the product of the effects.** -/
theorem applySequence_toOption (env : ApplyEnv) (changes : List Change)
    (state : MaterializedState) :
    (applySequence env changes state).toOption
      = (changes.map (Change.effect env)).prod.run state := by
  induction changes generalizing state with
  | nil => rfl
  | cons change changes ih =>
      have hstep := applyChangeScoped_state env change ⟨state, none⟩
      rw [List.map_cons, List.prod_cons, PartialAction.run_mul, ← hstep, applySequence]
      rcases applyChangeScoped env change ⟨state, none⟩ with ⟨e | u, r⟩
      · rfl
      · exact ih r.state

theorem applySequence_eq_ok_iff {env : ApplyEnv} {changes : List Change}
    {state out : MaterializedState} :
    applySequence env changes state = .ok out
      ↔ (changes.map (Change.effect env)).prod.run state = some out := by
  rw [← applySequence_toOption]
  cases applySequence env changes state <;> simp [Except.toOption]

end ArcVcs
