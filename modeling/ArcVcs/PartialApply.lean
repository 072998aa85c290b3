import ArcVcs.Blame

/-!
# Changes that fail in the middle

`apply_change_scoped` executes the atoms in place and returns at the first one that fails. What the
atoms before it have done stays in the two maps, and nothing else does.
-/

namespace ArcVcs

variable {env : ApplyEnv} {change : Change} {r r' : Replay} {e : ApplyError}
  {atoms done : List Atom}
  {key : NodePath}

/-- The application fails at an atom, with the maps as the atoms before it leave them. -/
structure StopsAt (env : ApplyEnv) (change : Change) (r r' : Replay) (e : ApplyError)
    (done : List Atom) (atom : Atom) (rest : List Atom) : Prop where
  atoms : change.atoms = done ++ atom :: rest
  applied : applyAtoms env change done r = (.ok (), r')
  fails : applyAtom env change r' atom = .error e

/-- No atom inside the sparse boundary writes or deletes the key. -/
def Untouched (sparse : Option SparseMatcher) (key : NodePath) (atoms : List Atom) : Prop :=
  ∀ atom ∈ atoms, isSkipped sparse atom = false →
    atom.writtenKey ≠ some key ∧ ∀ prior, atom ≠ .delete key prior

def SameAt (key : NodePath) (r r' : Replay) : Prop :=
  r'.state.lookup key = r.state.lookup key
    ∧ (r'.blame.map fun b => b.lookup key) = r.blame.map fun b => b.lookup key

theorem SameAt.refl (key : NodePath) (r : Replay) : SameAt key r r := ⟨rfl, rfl⟩

theorem SameAt.trans {r'' : Replay} (h : SameAt key r r') (h' : SameAt key r' r'') :
    SameAt key r r'' := ⟨h'.1.trans h.1, h'.2.trans h.2⟩

theorem AtomRun.sameAt {id : Blake3Hash} {atom : Atom} (h : AtomRun id r atom r')
    (hwrite : atom.writtenKey ≠ some key) (hdelete : ∀ prior, atom ≠ .delete key prior) :
    SameAt key r r' := by
  cases h with
  | write path bytes hkey h =>
      have hne : key ≠ path := by
        rintro rfl
        exact hwrite hkey
      subst h
      constructor
      · rw [Replay.write, FMap.lookup_insert_eq, if_neg hne]
      · cases hblame : r.blame with
        | none => simp [Replay.write, hblame]
        | some blame => simp [Replay.write, hblame, FMap.lookup_insert_eq, if_neg hne]
  | remove path prior hatom h =>
      have hne : key ≠ path := by
        rintro rfl
        exact hdelete prior hatom
      subst h
      constructor
      · rw [Replay.remove, FMap.lookup_erase_eq, if_neg hne]
      · cases hblame : r.blame with
        | none => simp [Replay.remove, hblame]
        | some blame => simp [Replay.remove, hblame, FMap.lookup_erase_eq, if_neg hne]

theorem applyAtoms_sameAt (hrun : applyAtoms env change atoms r = (.ok (), r'))
    (h : Untouched env.sparse key atoms) : SameAt key r r' := by
  induction atoms generalizing r with
  | nil =>
      obtain ⟨-, rfl⟩ := Prod.mk.inj hrun
      exact .refl key r
  | cons atom atoms ih =>
      have hrest : Untouched env.sparse key atoms := fun a ha => h a (.tail _ ha)
      obtain ⟨r₁, hatom, hlater⟩ := applyAtoms_cons_eq_ok_iff.mp hrun
      rcases applyAtom_cases hatom with ⟨-, rfl⟩ | ⟨hskip, hatomRun⟩
      · exact ih hlater hrest
      · obtain ⟨hwrite, hdelete⟩ := h atom List.mem_cons_self hskip
        exact (hatomRun.sameAt hwrite hdelete).trans (ih hlater hrest)

theorem applyAtoms_of_skipped (hrun : applyAtoms env change atoms r = (.ok (), r'))
    (h : ∀ atom ∈ atoms, isSkipped env.sparse atom = true) : r' = r := by
  induction atoms generalizing r with
  | nil => exact (Prod.mk.inj hrun).2.symm
  | cons atom atoms ih =>
      obtain ⟨r₁, hatom, hlater⟩ := applyAtoms_cons_eq_ok_iff.mp hrun
      rcases applyAtom_cases hatom with ⟨-, rfl⟩ | ⟨hskip, -⟩
      · exact ih hlater fun a ha => h a (.tail _ ha)
      · simp [h atom List.mem_cons_self] at hskip

theorem exists_failing_atom (h : applyAtoms env change atoms r = (.error e, r')) :
    ∃ done atom rest, atoms = done ++ atom :: rest
      ∧ applyAtoms env change done r = (.ok (), r') ∧ applyAtom env change r' atom = .error e := by
  induction atoms generalizing r with
  | nil => simp [applyAtoms] at h
  | cons atom atoms ih =>
      rw [applyAtoms] at h
      cases hatom : applyAtom env change r atom with
      | error e' =>
          rw [hatom] at h
          obtain ⟨he, rfl⟩ := Prod.mk.inj h
          obtain rfl := Except.error.inj he
          exact ⟨[], atom, atoms, rfl, rfl, hatom⟩
      | ok r₁ =>
          rw [hatom] at h
          obtain ⟨done, failing, rest, rfl, happlied, hfails⟩ := ih h
          refine ⟨atom :: done, failing, rest, rfl, ?_, hfails⟩
          rw [applyAtoms, hatom]
          exact happlied

/-- **A failed application** leaves what the atoms before the failing one have done: the keys that
they do not touch are as before the call, and all are if those atoms are outside the sparse
boundary. -/
theorem applyChangeScoped_error (h : applyChangeScoped env change r = (.error e, r')) :
    ∃ done atom rest, StopsAt env change r r' e done atom rest
      ∧ (∀ key, Untouched env.sparse key done → SameAt key r r')
      ∧ ((∀ a ∈ done, isSkipped env.sparse a = true) → r' = r) := by
  obtain ⟨done, atom, rest, hatoms, happlied, hfails⟩ := exists_failing_atom h
  exact ⟨done, atom, rest, ⟨hatoms, happlied, hfails⟩, fun key => applyAtoms_sameAt happlied,
    applyAtoms_of_skipped happlied⟩

/-- An asset is written before a deletion fails. -/
theorem applyChangeScoped_error_asset :
    let env : ApplyEnv := ⟨fun _ => .ok [], fun _ _ => false, none⟩
    let change : Change := Change.bare 1 ∅ [.blob "a.png" 5 3, .delete ["file", "b.rs", "fn_x"] 6]
    ∃ r', applyChangeScoped env change ⟨∅, some ∅⟩
        = (.error (.deleteMissing ["file", "b.rs", "fn_x"]), r')
      ∧ ∃ done atom rest, StopsAt env change ⟨∅, some ∅⟩ r'
          (.deleteMissing ["file", "b.rs", "fn_x"]) done atom rest
        ∧ (∀ key, Untouched env.sparse key done → SameAt key ⟨∅, some ∅⟩ r')
        ∧ ((∀ a ∈ done, isSkipped env.sparse a = true) → r' = ⟨∅, some ∅⟩) := by
  intro env change
  have hrun : applyChangeScoped env change ⟨∅, some ∅⟩
      = (.error (.deleteMissing ["file", "b.rs", "fn_x"]), _) := rfl
  exact ⟨_, hrun, applyChangeScoped_error hrun⟩

/-- The asset is in the state and in the blame map after the error. -/
theorem failed_change_leaves_asset :
    ¬ ∀ (env : ApplyEnv) (change : Change) (r r' : Replay) (e : ApplyError),
      applyChangeScoped env change r = (.error e, r') → r' = r := by
  intro h
  have hsame := h ⟨fun _ => .ok [], fun _ _ => false, none⟩
    (Change.bare 1 ∅ [.blob "a.png" 5 3, .delete ["file", "b.rs", "fn_x"] 6]) ⟨∅, some ∅⟩ _ _ rfl
  have hentry := congrArg (fun r => (r.state.lookup ["file", "a.png"]).isSome) hsame
  revert hentry
  decide

end ArcVcs
