import ArcVcs.Apply
import ArcVcs.Lib.EntryOps

/-!
# Replay entry by entry

The operations of the atoms write, remove or fill one entry. So a list of atoms runs iff every
removal finds its entry, and what it leaves at a key is decided by the atoms at that key.
-/

namespace ArcVcs

namespace Atom

def isBlob : Atom → Bool
  | blob .. => true
  | _ => false

/-- The key an atom works at and what it does there. Atoms that always fail have none. -/
def entryOp (store : BlobStore) : Atom → Option (NodePath × EntryOp Bytes)
  | insert at_ contentHash =>
      (store contentHash).toOption.map fun bytes => (at_, .write bytes)
  | delete at_ _ => some (at_, .remove)
  | directory path => some (path, .ensure [])
  | move .. => none
  | semanticsPreserving .. => none
  | blob path hash _ => some (["file", path], .write (blobToken hash))
  | mount path coordinate => some (path, .write (mountToken coordinate))
  | conflict bases sides at_ => some (at_, .write (conflictToken bases sides at_))

theorem keyedOp_eq (store : BlobStore) (atom : Atom) :
    atom.keyedOp store = (atom.entryOp store).map fun x => EntryOp.at_ x.1 x.2 := by
  have hwrite (v : Bytes) : (fun _ => some (some v)) = (EntryOp.write v).step := by
    funext e
    cases e <;> rfl
  cases atom with
  | insert at_ contentHash =>
      simp only [keyedOp, entryOp, Option.map_map, hwrite]
      rfl
  | delete at_ priorHash =>
      refine congrArg some (congrArg (KeyedOp.mk at_) (funext fun e => ?_))
      cases e <;> rfl
  | directory path =>
      refine congrArg some (congrArg (KeyedOp.mk path) (funext fun e => ?_))
      cases e <;> rfl
  | move from_ to_ => rfl
  | semanticsPreserving at_ description => rfl
  | _ =>
      simp only [keyedOp, entryOp, hwrite]
      rfl

/-- What an atom does at a key, marked as visible unless it is a `blob`. -/
def entryAt (store : BlobStore) (key : NodePath) (atom : Atom) : Option (Bool × EntryOp Bytes) :=
  (atom.entryOp store).bind fun x => if x.1 = key then some (!atom.isBlob, x.2) else none

/-- What an atom does under a sparse boundary. -/
def plannedOp (env : ApplyEnv) (atom : Atom) : Option (NodePath × EntryOp Bytes) :=
  if isSkipped env.sparse atom then none else atom.entryOp env.store

theorem plannedOp_of_full {env : ApplyEnv} (h : env.sparse = none) :
    plannedOp env = entryOp env.store := by
  funext atom
  simp [plannedOp, isSkipped, h]

end Atom

theorem prod_plainEffect {env : ApplyEnv} {atoms : List Atom}
    (h : ∀ atom ∈ atoms, (atom.entryOp env.store).isSome) :
    (atoms.map (Atom.plainEffect env)).prod
      = (((atoms.filterMap (Atom.plannedOp env)).map fun x => EntryOp.at_ x.1 x.2).map
          KeyedOp.act).prod := by
  induction atoms with
  | nil => rfl
  | cons atom atoms ih =>
      obtain ⟨hatom, hatoms⟩ := List.forall_mem_cons.mp h
      obtain ⟨x, hx⟩ := Option.isSome_iff_exists.mp hatom
      rw [List.map_cons, List.prod_cons, ih hatoms]
      by_cases hskip : isSkipped env.sparse atom = true
      · have hplan : atom.plannedOp env = none := if_pos hskip
        rw [List.filterMap_cons_none hplan, Atom.plainEffect, if_pos hskip, one_mul]
      · have hplan : atom.plannedOp env = some x := (if_neg hskip).trans hx
        rw [List.filterMap_cons_some hplan, Atom.plainEffect, if_neg hskip, Atom.keyedOp_eq, hx]
        rfl

/-- **Replay entry by entry.** Atoms that can succeed run from `state` to `out` iff at every key
the removals find entries and the operations leave the entry of `out`. -/
theorem run_plainEffect_iff {env : ApplyEnv} {atoms : List Atom}
    (h : ∀ atom ∈ atoms, (atom.entryOp env.store).isSome) {state out : MaterializedState} :
    (atoms.map (Atom.plainEffect env)).prod.run state = some out
      ↔ ∀ key, EntryOp.Safe (state.lookup key).isSome
            (EntryOp.opsAt key (atoms.filterMap (Atom.plannedOp env))) = true
          ∧ out.lookup key = EntryOp.final (state.lookup key)
            (EntryOp.opsAt key (atoms.filterMap (Atom.plannedOp env))) := by
  rw [prod_plainEffect h]
  exact EntryOp.runAll_eq_some_iff

theorem isSome_entryOp_of_run {env : ApplyEnv} (hsparse : env.sparse = none) {atoms : List Atom}
    {state out : MaterializedState}
    (hrun : (atoms.map (Atom.plainEffect env)).prod.run state = some out) {atom : Atom}
    (hatom : atom ∈ atoms) : (atom.entryOp env.store).isSome := by
  by_contra hnone
  have hop : atom.keyedOp env.store = none := by
    rw [Atom.keyedOp_eq, Option.not_isSome_iff_eq_none.mp hnone, Option.map_none]
  have hzero : atom.plainEffect env = 0 := by simp [Atom.plainEffect, isSkipped, hsparse, hop]
  rw [PartialAction.prod_eq_zero_of_mem (List.mem_map.mpr ⟨atom, hatom, hzero⟩)] at hrun
  simp at hrun

theorem prod_effect_of_not_violates {env : ApplyEnv} {changes : List Change}
    (h : ∀ change ∈ changes, change.violates env = false) :
    (changes.map (Change.effect env)).prod
      = ((changes.flatMap Change.atoms).map (Atom.plainEffect env)).prod := by
  induction changes with
  | nil => rfl
  | cons change changes ih =>
      obtain ⟨hchange, hchanges⟩ := List.forall_mem_cons.mp h
      rw [List.map_cons, List.prod_cons, ih hchanges, List.flatMap_cons, List.map_append,
        List.prod_append, Change.effect_eq, hchange, if_neg Bool.false_ne_true, Change.plainEffect]

section Sequence

variable {env : ApplyEnv} {changes : List Change} {state : MaterializedState}

/-- The operations of a sequence of changes at a key. -/
def opsOf (env : ApplyEnv) (changes : List Change) (key : NodePath) : List (EntryOp Bytes) :=
  EntryOp.opsAt key ((changes.flatMap Change.atoms).filterMap (Atom.plannedOp env))

variable (env) in
theorem applySequence_eq_ok_iff_entries
    (hviolates : ∀ change ∈ changes, change.violates env = false)
    (hops : ∀ atom ∈ changes.flatMap Change.atoms, (atom.entryOp env.store).isSome)
    {out : MaterializedState} :
    applySequence env changes state = .ok out
      ↔ ∀ key, EntryOp.Safe (state.lookup key).isSome (opsOf env changes key) = true
          ∧ out.lookup key = EntryOp.final (state.lookup key) (opsOf env changes key) := by
  rw [applySequence_eq_ok_iff, prod_effect_of_not_violates hviolates, run_plainEffect_iff hops]
  rfl

variable (env) in
theorem exists_applySequence_iff_safe
    (hviolates : ∀ change ∈ changes, change.violates env = false)
    (hops : ∀ atom ∈ changes.flatMap Change.atoms, (atom.entryOp env.store).isSome) :
    (∃ out, applySequence env changes state = .ok out)
      ↔ ∀ key, EntryOp.Safe (state.lookup key).isSome (opsOf env changes key) = true := by
  simp only [applySequence_eq_ok_iff, prod_effect_of_not_violates hviolates, prod_plainEffect hops]
  rw [← Option.isSome_iff_exists]
  exact EntryOp.isSome_runAll_iff

end Sequence

theorem not_violates_of_run {env : ApplyEnv} {changes : List Change} {state out : MaterializedState}
    (hrun : (changes.map (Change.effect env)).prod.run state = some out) {change : Change}
    (hchange : change ∈ changes) : change.violates env = false := by
  by_contra hbad
  have hzero : change.effect env = 0 := by
    rw [Change.effect_eq, if_pos (Bool.eq_true_of_not_eq_false hbad)]
  rw [PartialAction.prod_eq_zero_of_mem (List.mem_map.mpr ⟨change, hchange, hzero⟩)] at hrun
  simp at hrun

end ArcVcs
