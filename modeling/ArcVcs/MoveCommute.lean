import ArcVcs.CommutePair
import ArcVcs.Lib.Subtree
import Mathlib.Data.List.Lex
import Mathlib.Data.String.Basic

/-!
# Commuting pairs under the documented reading of moves

A `move` is documented to rename a subtree, which replay refuses to do. Under that reading
`commute_pair` rewrites the paths of the first change through the moves of the second, which
is right for what lies below their sources, and the paths of the second change through the
moves of the first, which is the wrong direction. No gate looks at the targets of moves.
-/

namespace ArcVcs

/-! ## The documented reading -/

/-- A `move` renames every entry below its source. The other atoms act as in a replay. -/
def Atom.documentedEffect (store : BlobStore) : Atom → PartialAction MaterializedState
  | .move from_ to_ => FMap.moveSubtree from_ to_
  | atom =>
      match atom.keyedOp store with
      | some op => op.act
      | none => 0

def Change.documentedEffect (env : ApplyEnv) (change : Change) :
    PartialAction MaterializedState :=
  if change.violates env then 0
  else (change.atoms.map (Atom.documentedEffect env.store)).prod

def documentedReplay (env : ApplyEnv) (changes : List Change) (s : MaterializedState) :
    Option MaterializedState :=
  (changes.map (Change.documentedEffect env)).prod.run s

theorem Atom.documentedEffect_of_not_move {store : BlobStore} {atom : Atom}
    (h : atom.isMove = false) {agentIgnore : Gitignore} :
    atom.documentedEffect store = atom.plainEffect ⟨store, agentIgnore, none⟩ := by
  cases atom with
  | move from_ to_ => simp [isMove] at h
  | _ => rfl

theorem documentedReplay_eq_applySequence {store : BlobStore} {agentIgnore : Gitignore}
    {changes : List Change} (h : ∀ change ∈ changes, ∀ atom ∈ change.atoms, atom.isMove = false)
    (s : MaterializedState) :
    documentedReplay ⟨store, agentIgnore, none⟩ changes s
      = (applySequence ⟨store, agentIgnore, none⟩ changes s).toOption := by
  rw [applySequence_toOption, documentedReplay]
  have heffect : ∀ change ∈ changes, change.documentedEffect ⟨store, agentIgnore, none⟩
      = change.effect ⟨store, agentIgnore, none⟩ := by
    intro change hchange
    rw [Change.effect_eq, Change.documentedEffect, Change.plainEffect]
    congr 2
    exact List.map_congr_left fun atom hatom =>
      Atom.documentedEffect_of_not_move (h change hchange atom hatom)
  rw [List.map_congr_left heffect]

/-! ## Atoms that swap -/

namespace Atom

def stateKey : Atom → Option NodePath
  | .move .. => none
  | .insert at_ _ => some at_
  | .delete at_ _ => some at_
  | .semanticsPreserving at_ _ => some at_
  | .directory path => some path
  | .blob path _ _ => some ["file", path]
  | .mount path _ => some path
  | .conflict _ _ at_ => some at_

def isDirectory : Atom → Bool
  | .directory _ => true
  | _ => false

/-- The atom works outside both ends of a move, or only creates an empty entry below the target,
or the move goes nowhere. -/
def ClearOf (atom : Atom) (from_ to_ : NodePath) : Prop :=
  from_ = to_ ∨ ∀ key ∈ atom.stateKey,
    ¬ from_ <+: key ∧ (atom.isDirectory = true ∨ ¬ to_ <+: key)

/-- `x` may come after `y` when its path is rewritten through `y`. -/
def Passes : Atom → Atom → Prop
  | .move from_ to_, .move from' to' =>
      from_ = to_ ∨ from' = to' ∨ (from_.Apart from' ∧ from_.Apart to'
        ∧ (from' <+: to_ ∨ (to_.Apart from' ∧ to_.Apart to')))
  | .move from_ to_, y => y.ClearOf from_ to_
  | .insert at_ contentHash, .move from_ to_ =>
      (Atom.insert at_ contentHash).ClearOf from_ to_ ∨ from_ <+: at_
  | .delete at_ priorHash, .move from_ to_ =>
      (Atom.delete at_ priorHash).ClearOf from_ to_
        ∨ (from_ <+: at_ ∧ from_ <+: to_ ++ at_.drop from_.length)
  | x, .move from_ to_ => x.ClearOf from_ to_
  | x, y => atomPairDisjoint x y = true

/-- The atom with its paths rewritten through one other atom. -/
def follow (y x : Atom) : Atom := rewriteAtomPaths (movePairs [y]) x

variable {store : BlobStore}

theorem documentedEffect_eq (store : BlobStore) {x : Atom} (hx : x.isMove = false) :
    (∃ op, x.keyedOp store = some op ∧ x.stateKey = some op.key
      ∧ x.documentedEffect store = op.act) ∨ x.documentedEffect store = 0 := by
  cases x with
  | move from_ to_ => simp [isMove] at hx
  | insert at_ contentHash =>
      cases h : store contentHash with
      | error e => exact .inr (by simp [documentedEffect, keyedOp, h, Except.toOption])
      | ok bytes =>
          exact .inl ⟨⟨at_, fun _ => some (some bytes)⟩, by simp [keyedOp, h, Except.toOption], rfl,
            by simp [documentedEffect, keyedOp, h, Except.toOption]⟩
  | semanticsPreserving at_ description => exact .inr rfl
  | _ => exact .inl ⟨_, rfl, rfl, rfl⟩

theorem documentedEffect_mul_moveSubtree {x : Atom} (hx : x.isMove = false)
    {from_ to_ : NodePath} (h : x.ClearOf from_ to_) :
    x.documentedEffect store * FMap.moveSubtree from_ to_
      = FMap.moveSubtree from_ to_ * x.documentedEffect store := by
  rcases h with rfl | h
  · rw [FMap.moveSubtree_self, mul_one, one_mul]
  rcases documentedEffect_eq store hx with ⟨op, hop, hkey, heffect⟩ | hzero
  · obtain ⟨hfrom, hdir | hto⟩ := h op.key hkey
    · cases x with
      | directory path =>
          obtain rfl : _ = op := Option.some_inj.mp hop
          exact FMap.create_mul_moveSubtree hfrom []
      | _ => simp [isDirectory] at hdir
    · rw [heffect]
      exact FMap.act_mul_moveSubtree_of_clear hfrom hto
  · rw [hzero, zero_mul, mul_zero]

theorem documentedEffect_commute {x y : Atom} (hx : x.isMove = false) (hy : y.isMove = false)
    (h : atomPairDisjoint x y = true) :
    Commute (x.documentedEffect store) (y.documentedEffect store) := by
  rcases documentedEffect_eq store hx with ⟨opX, hopX, -, hX⟩ | hX
  · rcases documentedEffect_eq store hy with ⟨opY, hopY, -, hY⟩ | hY
    · rw [hX, hY]
      rcases keyedOp_disjoint hopX hopY h with hkey | rfl
      · exact KeyedOp.commute_of_key_ne hkey
      · exact Commute.refl _
    · rw [hY]
      exact Commute.zero_right _
  · rw [hX]
    exact Commute.zero_left _

/-! ## Rewriting through one atom -/

theorem rewritePath_of_below {from_ to_ u : NodePath} (moves : List (NodePath × NodePath)) :
    rewritePath ((from_, to_) :: moves) (from_ ++ u) = to_ ++ u := by
  simp [rewritePath]

theorem rewritePath_of_not_below {from_ to_ path : NodePath}
    {moves : List (NodePath × NodePath)} (h : ¬ from_ <+: path) :
    rewritePath ((from_, to_) :: moves) path = rewritePath moves path := by
  simp [rewritePath, h]

theorem rewritePath_self (from_ path : NodePath) : rewritePath [(from_, from_)] path = path := by
  by_cases h : from_ <+: path
  · obtain ⟨u, rfl⟩ := h
    rw [rewritePath_of_below]
  · rw [rewritePath_of_not_below h, rewritePath_nil]

theorem rewriteAtomPaths_of_forall {moves : List (NodePath × NodePath)} {x : Atom}
    (h : ∀ path ∈ x.rewrittenPaths, rewritePath moves path = path) :
    rewriteAtomPaths moves x = x := by
  cases x <;> simp_all [rewriteAtomPaths, rewrittenPaths]

theorem follow_of_not_move {x y : Atom} (hy : y.isMove = false) : follow y x = x := by
  have hmoves : movePairs [y] = [] := by
    cases y with
    | move from_ to_ => simp [isMove] at hy
    | _ => rfl
  rw [follow, hmoves]
  exact rewriteAtomPaths_of_forall fun _ _ => rfl

theorem mem_stateKey_of_mem_rewrittenPaths {x : Atom} (hx : x.isMove = false) {path : NodePath}
    (h : path ∈ x.rewrittenPaths) : path ∈ x.stateKey := by
  cases x <;> simp_all [rewrittenPaths, stateKey, isMove]

theorem follow_of_clearOf {x : Atom} (hx : x.isMove = false) {from_ to_ : NodePath}
    (h : x.ClearOf from_ to_) : follow (.move from_ to_) x = x := by
  refine rewriteAtomPaths_of_forall fun path hpath => ?_
  rcases h with rfl | h
  · exact rewritePath_self from_ path
  · have hclear := h path (mem_stateKey_of_mem_rewrittenPaths hx hpath)
    exact rewritePath_of_not_below hclear.1

theorem mul_follow_of_clearOf {x : Atom} (hx : x.isMove = false) {from_ to_ : NodePath}
    (h : x.ClearOf from_ to_) :
    x.documentedEffect store * (Atom.move from_ to_).documentedEffect store
      = (Atom.move from_ to_).documentedEffect store
        * (follow (.move from_ to_) x).documentedEffect store := by
  rw [follow_of_clearOf hx h]
  exact documentedEffect_mul_moveSubtree hx h

theorem move_mul_follow {from_ to_ from' to' : NodePath}
    (h : Passes (.move from_ to_) (.move from' to')) :
    (Atom.move from_ to_).documentedEffect store * (Atom.move from' to').documentedEffect store
      = (Atom.move from' to').documentedEffect store
        * (follow (.move from' to') (.move from_ to_)).documentedEffect store := by
  change FMap.moveSubtree from_ to_ * FMap.moveSubtree from' to'
    = FMap.moveSubtree from' to' * FMap.moveSubtree (rewritePath [(from', to')] from_)
      (rewritePath [(from', to')] to_)
  rcases h with rfl | rfl | ⟨hfrom, hfrom', hto⟩
  · rw [FMap.moveSubtree_self, FMap.moveSubtree_self, one_mul, mul_one]
  · rw [rewritePath_self, rewritePath_self, FMap.moveSubtree_self, one_mul, mul_one]
  · rw [rewritePath_of_not_below hfrom.2, rewritePath_nil]
    rcases hto with ⟨u, rfl⟩ | ⟨hto, hto'⟩
    · rw [rewritePath_of_below]
      exact FMap.moveSubtree_chain hfrom hfrom' u
    · rw [rewritePath_of_not_below hto.2, rewritePath_nil]
      exact FMap.moveSubtree_comm hfrom hfrom' hto hto'

theorem Passes.clearOf {y : Atom} {from_ to_ : NodePath} (h : Passes (.move from_ to_) y)
    (hy : y.isMove = false) : y.ClearOf from_ to_ := by
  cases y with
  | move from' to' => simp [isMove] at hy
  | _ => exact h

theorem Passes.disjoint {x y : Atom} (h : x.Passes y) (hx : x.isMove = false)
    (hy : y.isMove = false) : atomPairDisjoint x y = true := by
  cases x <;> cases y <;> simp_all [Passes, isMove]

theorem insert_mul_follow (from_ to_ u : NodePath) (contentHash : Blake3Hash) :
    (Atom.insert (from_ ++ u) contentHash).documentedEffect store
        * (Atom.move from_ to_).documentedEffect store
      = (Atom.move from_ to_).documentedEffect store
        * (follow (.move from_ to_) (.insert (from_ ++ u) contentHash)).documentedEffect store := by
  have hfollow : follow (.move from_ to_) (.insert (from_ ++ u) contentHash)
      = .insert (to_ ++ u) contentHash :=
    congrArg (Atom.insert · contentHash) (rewritePath_of_below [])
  rw [hfollow]
  cases h : store contentHash with
  | error e => simp [documentedEffect, keyedOp, h, Except.toOption]
  | ok bytes =>
      simp only [documentedEffect, keyedOp, h, Except.toOption, Option.map_some]
      exact FMap.write_mul_moveSubtree from_ to_ u bytes

/-- **One swap.** An atom passes another one with its paths rewritten through it. -/
theorem Passes.mul_follow (store : BlobStore) {x y : Atom} (h : x.Passes y) :
    x.documentedEffect store * y.documentedEffect store
      = y.documentedEffect store * (follow y x).documentedEffect store := by
  cases hy : y.isMove with
  | false =>
      rw [follow_of_not_move hy]
      cases hx : x.isMove with
      | false => exact (documentedEffect_commute hx hy (h.disjoint hx hy)).eq
      | true =>
          cases x with
          | move from_ to_ => exact (documentedEffect_mul_moveSubtree hy (h.clearOf hy)).symm
          | _ => simp [isMove] at hx
  | true =>
      cases y with
      | move from' to' =>
          cases x with
          | move from_ to_ => exact move_mul_follow h
          | insert at_ contentHash =>
              rcases h with hclear | ⟨u, rfl⟩
              · exact mul_follow_of_clearOf rfl hclear
              · exact insert_mul_follow from' to' u contentHash
          | delete at_ priorHash =>
              rcases h with hclear | ⟨⟨u, rfl⟩, hu⟩
              · exact mul_follow_of_clearOf rfl hclear
              · have hfollow : follow (.move from' to') (.delete (from' ++ u) priorHash)
                    = .delete (to' ++ u) priorHash :=
                  congrArg (Atom.delete · priorHash) (rewritePath_of_below [])
                rw [hfollow]
                apply FMap.act_mul_moveSubtree_of_below
                simpa using hu
          | _ => exact mul_follow_of_clearOf rfl h
      | _ => simp [isMove] at hy

/-! ## Passing a list of atoms -/

def covers (y x : Atom) : Bool :=
  (movePairs [y]).any fun m => x.rewrittenPaths.any fun path => m.1.isPrefixOf path

def PassesAll (ys : List Atom) (x : Atom) : Prop := ∀ y ∈ ys, x.Passes y ∧ follow y x = x

/-- `x` passes the atoms one after the other. After the first one that renames it, it passes the
rest under its new name, which no further one renames. -/
def PassesThrough : List Atom → Atom → Prop
  | [], _ => True
  | y :: ys, x => x.Passes y
      ∧ if y.covers x = true then PassesAll ys (follow y x) else PassesThrough ys x

theorem rewriteAtomPaths_congr {moves moves' : List (NodePath × NodePath)} {x : Atom}
    (h : ∀ path ∈ x.rewrittenPaths, rewritePath moves path = rewritePath moves' path) :
    rewriteAtomPaths moves x = rewriteAtomPaths moves' x := by
  cases x <;> simp_all [rewriteAtomPaths, rewrittenPaths]

theorem rewrittenPaths_rewriteAtomPaths (moves : List (NodePath × NodePath)) (x : Atom) :
    (rewriteAtomPaths moves x).rewrittenPaths = x.rewrittenPaths.map (rewritePath moves) := by
  cases x <;> rfl

theorem rewritePath_of_rewriteAtomPaths_eq {moves : List (NodePath × NodePath)} {x : Atom}
    (h : rewriteAtomPaths moves x = x) {path : NodePath} (hpath : path ∈ x.rewrittenPaths) :
    rewritePath moves path = path := by
  have hmap : x.rewrittenPaths.map (rewritePath moves) = x.rewrittenPaths.map id := by
    rw [← rewrittenPaths_rewriteAtomPaths, h, List.map_id]
  exact List.map_inj_left.mp hmap path hpath

theorem rewritePath_eq_self_of_forall {ys : List Atom} {path : NodePath}
    (h : ∀ y ∈ ys, rewritePath (movePairs [y]) path = path) :
    rewritePath (movePairs ys) path = path := by
  induction ys with
  | nil => rfl
  | cons y ys ih =>
      obtain ⟨hy, hys⟩ := List.forall_mem_cons.mp h
      cases y with
      | move from_ to_ =>
          by_cases hfrom : from_ <+: path
          · obtain ⟨u, rfl⟩ := hfrom
            exact (rewritePath_of_below _).trans ((rewritePath_of_below []).symm.trans hy)
          · exact (rewritePath_of_not_below hfrom).trans (ih hys)
      | _ => exact ih hys

theorem not_below_of_covers_eq_false {from_ to_ : NodePath} {x : Atom}
    (h : (Atom.move from_ to_).covers x = false) {path : NodePath}
    (hpath : path ∈ x.rewrittenPaths) : ¬ from_ <+: path := by
  intro hbelow
  have hcovers : (Atom.move from_ to_).covers x = true := by
    refine List.any_eq_true.mpr ⟨(from_, to_), List.mem_singleton_self _, ?_⟩
    exact List.any_eq_true.mpr ⟨path, hpath, List.isPrefixOf_iff_prefix.mpr hbelow⟩
  rw [hcovers] at h
  exact Bool.noConfusion h

theorem follow_of_covers_eq_false {x y : Atom} (h : y.covers x = false) : follow y x = x := by
  cases hy : y.isMove with
  | false => exact follow_of_not_move hy
  | true =>
      cases y with
      | move from_ to_ =>
          refine rewriteAtomPaths_of_forall fun path hpath => ?_
          exact rewritePath_of_not_below (not_below_of_covers_eq_false h hpath)
      | _ => simp [isMove] at hy

/-- An atom that does not rename `x` plays no role in its rewriting. -/
theorem rewriteAtomPaths_of_covers_eq_false {x y : Atom} (ys : List Atom)
    (h : y.covers x = false) :
    rewriteAtomPaths (movePairs (y :: ys)) x = rewriteAtomPaths (movePairs ys) x := by
  cases y with
  | move from_ to_ =>
      exact rewriteAtomPaths_congr fun path hpath =>
        rewritePath_of_not_below (not_below_of_covers_eq_false h hpath)
  | _ => rfl

/-- After an atom that renames `x` for good the rest plays no role. -/
theorem rewriteAtomPaths_of_passesAll {x y : Atom} {ys : List Atom}
    (h : ∀ z ∈ ys, follow z (follow y x) = follow y x) :
    rewriteAtomPaths (movePairs (y :: ys)) x = follow y x := by
  have hrest : ∀ path ∈ (follow y x).rewrittenPaths, rewritePath (movePairs ys) path = path :=
    fun path hpath => rewritePath_eq_self_of_forall fun z hz =>
      rewritePath_of_rewriteAtomPaths_eq (h z hz) hpath
  cases hy : y.isMove with
  | false =>
      rw [follow_of_not_move hy] at hrest ⊢
      have hmoves : movePairs (y :: ys) = movePairs ys := by
        cases y with
        | move from_ to_ => simp [isMove] at hy
        | _ => rfl
      rw [hmoves]
      exact rewriteAtomPaths_of_forall hrest
  | true =>
      cases y with
      | move from_ to_ =>
          refine rewriteAtomPaths_congr fun path hpath => ?_
          change rewritePath ((from_, to_) :: movePairs ys) path = rewritePath [(from_, to_)] path
          by_cases hfrom : from_ <+: path
          · obtain ⟨u, rfl⟩ := hfrom
            rw [rewritePath_of_below, rewritePath_of_below]
          · rw [rewritePath_of_not_below hfrom, rewritePath_of_not_below hfrom, rewritePath_nil]
            apply hrest
            rw [follow, rewrittenPaths_rewriteAtomPaths]
            exact List.mem_map.mpr ⟨path, hpath, rewritePath_of_not_below hfrom⟩
      | _ => simp [isMove] at hy

theorem PassesAll.mul_prod {x : Atom} {ys : List Atom} (h : PassesAll ys x) :
    x.documentedEffect store * (ys.map (documentedEffect store)).prod
      = (ys.map (documentedEffect store)).prod * x.documentedEffect store := by
  induction ys with
  | nil => simp
  | cons y ys ih =>
      obtain ⟨⟨hpass, hsame⟩, hrest⟩ := List.forall_mem_cons.mp h
      have hswap := hpass.mul_follow store
      rw [hsame] at hswap
      rw [List.map_cons, List.prod_cons, ← mul_assoc, hswap, mul_assoc, ih hrest, mul_assoc]

/-- **Passing a list.** The atom arrives with its paths rewritten through the moves of the
list. -/
theorem PassesThrough.mul_prod {x : Atom} {ys : List Atom} (h : PassesThrough ys x) :
    x.documentedEffect store * (ys.map (documentedEffect store)).prod
      = (ys.map (documentedEffect store)).prod
        * (rewriteAtomPaths (movePairs ys) x).documentedEffect store := by
  induction ys with
  | nil =>
      have hsame : rewriteAtomPaths (movePairs []) x = x :=
        rewriteAtomPaths_of_forall fun _ _ => rfl
      simp [hsame]
  | cons y ys ih =>
      obtain ⟨hpass, hrest⟩ := h
      have hswap := hpass.mul_follow store
      rw [List.map_cons, List.prod_cons, ← mul_assoc, hswap, mul_assoc]
      cases hcovers : y.covers x with
      | true =>
          rw [if_pos hcovers] at hrest
          rw [hrest.mul_prod, rewriteAtomPaths_of_passesAll fun z hz => (hrest z hz).2, mul_assoc]
      | false =>
          rw [if_neg (by simp [hcovers])] at hrest
          rw [follow_of_covers_eq_false hcovers, ih hrest,
            rewriteAtomPaths_of_covers_eq_false ys hcovers, mul_assoc]

end Atom

/-! ## Pairs of changes -/

/-- Every atom of `a` passes those of `b`, and no move of `a` renames a path of `b`. -/
structure MovesApart (a b : List Atom) : Prop where
  passes : ∀ x ∈ a, x.PassesThrough b
  kept : ∀ m ∈ movePairs a, ∀ y ∈ b, ∀ path ∈ y.rewrittenPaths, m.1 = m.2 ∨ ¬ m.1 <+: path

theorem MovesApart.rewrite_eq {a b : List Atom} (h : MovesApart a b) :
    rewritePathsThroughMoves b a = b := by
  rw [rewritePathsThroughMoves_eq]
  refine (List.map_congr_left fun y hy => ?_).trans (List.map_id b)
  refine Atom.rewriteAtomPaths_of_forall fun path hpath => ?_
  have hkept : ∀ m ∈ movePairs a, m.1 = m.2 ∨ ¬ m.1 <+: path := fun m hm =>
    h.kept m hm y hy path hpath
  generalize movePairs a = moves at hkept
  induction moves with
  | nil => rfl
  | cons m moves ih =>
      obtain ⟨hm, hmoves⟩ := List.forall_mem_cons.mp hkept
      obtain ⟨from_, to_⟩ := m
      by_cases hbelow : from_ <+: path
      · obtain rfl : from_ = to_ := hm.resolve_right fun hnot => hnot hbelow
        obtain ⟨u, rfl⟩ := hbelow
        exact Atom.rewritePath_of_below moves
      · exact (Atom.rewritePath_of_not_below hbelow).trans (ih hmoves)

/-- **All swaps.** The atoms of `a` pass those of `b` with their paths rewritten. -/
theorem prod_mul_prod_of_passes {store : BlobStore} {a b : List Atom}
    (h : ∀ x ∈ a, x.PassesThrough b) :
    (a.map (Atom.documentedEffect store)).prod * (b.map (Atom.documentedEffect store)).prod
      = (b.map (Atom.documentedEffect store)).prod
        * ((rewritePathsThroughMoves a b).map (Atom.documentedEffect store)).prod := by
  rw [rewritePathsThroughMoves_eq]
  induction a with
  | nil => simp
  | cons x a ih =>
      obtain ⟨hx, ha⟩ := List.forall_mem_cons.mp h
      simp only [List.map_cons, List.prod_cons]
      rw [mul_assoc, ih ha, ← mul_assoc, hx.mul_prod, mul_assoc]

def Atom.alwaysFails (store : BlobStore) : Atom → Bool
  | .semanticsPreserving .. => true
  | .insert _ contentHash => (store contentHash).toOption.isNone
  | _ => false

theorem Atom.documentedEffect_of_alwaysFails {store : BlobStore} {x : Atom}
    (h : x.alwaysFails store = true) : x.documentedEffect store = 0 := by
  cases x with
  | semanticsPreserving at_ description => rfl
  | insert at_ contentHash =>
      have hnone : (store contentHash).toOption = none := Option.isNone_iff_eq_none.mp h
      simp [documentedEffect, keyedOp, hnone]
  | _ => simp [alwaysFails] at h

theorem Atom.alwaysFails_rewriteAtomPaths (store : BlobStore)
    (moves : List (NodePath × NodePath)) (x : Atom) :
    (rewriteAtomPaths moves x).alwaysFails store = x.alwaysFails store := by
  cases x <;> rfl

theorem Change.documentedEffect_of_alwaysFails {env : ApplyEnv} {c : Change}
    (h : ∃ x ∈ c.atoms, x.alwaysFails env.store = true) : c.documentedEffect env = 0 := by
  obtain ⟨x, hx, hfails⟩ := h
  rw [Change.documentedEffect]
  split_ifs
  · rfl
  · apply PartialAction.prod_eq_zero_of_mem
    exact List.mem_map.mpr ⟨x, hx, Atom.documentedEffect_of_alwaysFails hfails⟩

theorem Change.documentedEffect_mul (env : ApplyEnv) (c d : Change) :
    c.documentedEffect env * d.documentedEffect env
      = if (c.violates env || d.violates env) = true then 0
        else (c.atoms.map (Atom.documentedEffect env.store)).prod
          * (d.atoms.map (Atom.documentedEffect env.store)).prod := by
  unfold Change.documentedEffect
  cases c.violates env <;> cases d.violates env <;> simp

theorem documentedReplay_pair (env : ApplyEnv) (c d : Change) (s : MaterializedState) :
    documentedReplay env [c, d] s = (c.documentedEffect env * d.documentedEffect env).run s := by
  simp [documentedReplay]

section Pair

variable [Crypto] {env : ApplyEnv} {a b : Change} {signer : Author × SigningKey}

/-- `.agentignore` stops the pair of the signer iff it stops the given one. -/
def SameVerdict (env : ApplyEnv) (a b : Change) (signer : Author × SigningKey) : Prop :=
  (a.violates env || b.violates env) = (signer.1.isAi && (b.isRestricted env
    || (rewritePathsThroughMoves a.atoms b.atoms).any (Atom.isRestricted env.agentIgnore)))

/-- Both orders of a commuting pair have the same outcome on every state. -/
def PreservesMeaning (env : ApplyEnv) (a b : Change) (signer : Author × SigningKey) : Prop :=
  ∀ b' a', commutePair a b signer = some (b', a') →
    ∀ s, documentedReplay env [a, b] s = documentedReplay env [b', a'] s

theorem violates_commuted (env : ApplyEnv) (a b : Change) (signer : Author × SigningKey) :
    (commuted a b signer).violates env = (signer.1.isAi
      && (rewritePathsThroughMoves a.atoms b.atoms).any (Atom.isRestricted env.agentIgnore)) := by
  simp [Change.violates, Change.isRestricted, commuted]

theorem commuted_alwaysFails {store : BlobStore}
    (h : ∃ x ∈ a.atoms, x.alwaysFails store = true) :
    ∃ x ∈ (commuted a b signer).atoms, x.alwaysFails store = true := by
  obtain ⟨x, hx, hfails⟩ := h
  refine ⟨rewriteAtomPaths (movePairs b.atoms) x, ?_, ?_⟩
  · rw [commuted, Change.new_atoms, rewritePathsThroughMoves_eq]
    exact List.mem_map_of_mem hx
  · rw [Atom.alwaysFails_rewriteAtomPaths]
    exact hfails

/-- **Commuting a pair past moves.** The pair keeps its meaning when an atom of it always fails,
or when its moves stay apart and the verdict of `.agentignore` stays. -/
theorem preservesMeaning_of_movesApart
    (h : (∃ x ∈ a.atoms ++ b.atoms, x.alwaysFails env.store = true)
      ∨ MovesApart a.atoms b.atoms ∧ SameVerdict env a b signer) :
    PreservesMeaning env a b signer := by
  intro b' a' hpair s
  obtain ⟨-, hpair⟩ := commutePair_eq_some_iff.mp hpair
  obtain ⟨rfl, rfl⟩ := Prod.mk.inj hpair
  rw [documentedReplay_pair, documentedReplay_pair]
  refine congrArg (fun f => PartialAction.run f s) ?_
  rcases h with ⟨x, hx, hfails⟩ | ⟨hmoves, hverdict⟩
  · rcases List.mem_append.mp hx with hx | hx
    · rw [Change.documentedEffect_of_alwaysFails ⟨x, hx, hfails⟩, zero_mul,
        Change.documentedEffect_of_alwaysFails (commuted_alwaysFails ⟨x, hx, hfails⟩), mul_zero]
    · rw [Change.documentedEffect_of_alwaysFails ⟨x, hx, hfails⟩, mul_zero,
        Change.documentedEffect_of_alwaysFails (commuted_alwaysFails ⟨x, hx, hfails⟩), zero_mul]
  · have hverdict' : ((commuted b a signer).violates env || (commuted a b signer).violates env)
        = (a.violates env || b.violates env) := by
      rw [violates_commuted, violates_commuted, hmoves.rewrite_eq, hverdict, Change.isRestricted,
        Bool.and_or_distrib_left]
    rw [Change.documentedEffect_mul, Change.documentedEffect_mul, hverdict']
    congr 1
    rw [prod_mul_prod_of_passes hmoves.passes]
    simp only [commuted, Change.new_atoms, hmoves.rewrite_eq]

omit [Crypto] in
theorem documentedReplay_singletons {c d : Change} {x y : Atom} (hc : c.atoms = [x])
    (hd : d.atoms = [y]) (hcAuthor : c.author.isAi = false) (hdAuthor : d.author.isAi = false)
    (s : MaterializedState) :
    documentedReplay env [c, d] s
      = (x.documentedEffect env.store * y.documentedEffect env.store).run s := by
  rw [documentedReplay_pair, Change.documentedEffect_mul, hc, hd]
  simp [Change.violates, hcAuthor, hdAuthor]

/-- **A move before an insertion.** The pair keeps its meaning exactly when the insertion is clear
of the move. -/
theorem preservesMeaning_move_insert_iff {p q k : NodePath} {hash : Blake3Hash} {bytes : Bytes}
    (ha : a.atoms = [.move p q]) (hb : b.atoms = [.insert k hash])
    (hindependent : a.id ∉ b.deps ∧ b.id ∉ a.deps)
    (hauthors : a.author.isAi = false ∧ b.author.isAi = false ∧ signer.1.isAi = false)
    (hbytes : env.store hash = .ok bytes) :
    PreservesMeaning env a b signer ↔ (Atom.insert k hash).ClearOf p q := by
  obtain ⟨haAuthor, hbAuthor, hsigner⟩ := hauthors
  have hcommutes : commutes a b = true := by
    simp [commutes, hindependent, ha, hb, atomsDisjoint, atomPairDisjoint, Atom.isMove]
  have hb' : (commuted b a signer).atoms = [.insert (rewritePath [(p, q)] k) hash] := by
    rw [commuted, Change.new_atoms, ha, hb]
    rfl
  have ha' : (commuted a b signer).atoms = [.move p q] := by
    rw [commuted, Change.new_atoms, ha, hb]
    rfl
  have hpair : PreservesMeaning env a b signer ↔ ∀ s,
      (Atom.documentedEffect env.store (.move p q)
          * Atom.documentedEffect env.store (.insert k hash)).run s
        = (Atom.documentedEffect env.store (.insert (rewritePath [(p, q)] k) hash)
          * Atom.documentedEffect env.store (.move p q)).run s := by
    unfold PreservesMeaning
    simp only [commutePair_eq_some_iff, hcommutes, true_and, Prod.mk.injEq, and_imp,
      forall_eq_apply_imp_iff, forall_eq]
    refine forall_congr' fun s => ?_
    rw [documentedReplay_singletons ha hb haAuthor hbAuthor,
      documentedReplay_singletons hb' ha' hsigner hsigner]
  have hinsert : ∀ j, Atom.documentedEffect env.store (.insert j hash)
      = KeyedOp.act ⟨j, fun _ => some (some bytes)⟩ := by
    intro j
    simp [Atom.documentedEffect, Atom.keyedOp, hbytes, Except.toOption]
  rw [hpair, hinsert, hinsert]
  constructor
  · intro h
    by_contra hclear
    have hne : p ≠ q := fun hpq => hclear (.inl hpq)
    have hmaps : ∀ s : MaterializedState, (s.renameSubtree p q).insert k bytes
        = FMap.renameSubtree (s.insert (rewritePath [(p, q)] k) bytes) p q := fun s =>
      Option.some_inj.mp (h s)
    by_cases hp : p <+: k
    · obtain ⟨u, rfl⟩ := hp
      -- on an empty state the insertion ends below the target
      have hempty : some bytes
          = (FMap.renameSubtree ((∅ : MaterializedState).insert (q ++ u) bytes) p q).lookup
              (p ++ u) := by
        have hlookup := congrArg (fun s => s.lookup (p ++ u)) (hmaps ∅)
        rw [Atom.rewritePath_of_below] at hlookup
        rw [← hlookup, Finmap.lookup_insert]
      have hnone : (FMap.renameSubtree ((∅ : MaterializedState).insert (q ++ u) bytes) p q).lookup
          (p ++ u) = none := by
        by_cases hq : q <+: p ++ u
        · obtain ⟨w, hw⟩ := hq
          have hw' : p ++ w ≠ q ++ u := by
            intro hw'
            have hlen := congrArg List.length hw
            have hlen' := congrArg List.length hw'
            simp only [List.length_append] at hlen hlen'
            exact hne (List.append_inj_left hw' (by omega))
          rw [← hw, FMap.lookup_renameSubtree_append, hw,
            FMap.outside_of_below (List.prefix_append p u), FMap.lookup_insert_eq, if_neg hw']
          rfl
        · rw [FMap.lookup_renameSubtree_of_not_below hq,
            FMap.outside_of_below (List.prefix_append p u)]
      exact Option.some_ne_none bytes (hempty.trans hnone)
    · have hq : q <+: k := by
        by_contra hq
        refine hclear (.inr fun key hkey => ?_)
        obtain rfl : k = key := Option.some_inj.mp hkey
        exact ⟨hp, .inr hq⟩
      obtain ⟨u, rfl⟩ := hq
      -- on a state with an entry that the move puts there, the insertion is overwritten
      have hfull := congrArg (fun s => s.lookup (q ++ u))
        (hmaps (Finmap.singleton (p ++ u) (0 :: bytes)))
      have hpu : p ++ u ≠ q ++ u := fun h => hp (h ▸ List.prefix_append p u)
      rw [Atom.rewritePath_of_not_below hp, rewritePath_nil, Finmap.lookup_insert,
        FMap.lookup_renameSubtree_append, FMap.lookup_insert_eq, if_neg hpu,
        Finmap.lookup_singleton_eq, Option.some_or, Option.some_inj] at hfull
      exact List.cons_ne_self 0 bytes hfull.symm
  · intro hclear
    have hsame : rewritePath [(p, q)] k = k :=
      Atom.rewritePath_of_rewriteAtomPaths_eq (Atom.follow_of_clearOf rfl hclear)
        (List.mem_singleton_self k)
    intro s
    rw [hsame, ← hinsert]
    exact congrArg (fun f => PartialAction.run f s)
      (Atom.documentedEffect_mul_moveSubtree rfl hclear).symm

end Pair

/-- An insertion below the source of the other change's move. -/
theorem preservesMeaning_insert_before_move :
    let env : ApplyEnv := ⟨fun _ => .ok [1], fun _ _ => false, none⟩
    let a := Change.bare 1 ∅ [.insert ["file", "p", "x"] 7]
    let b := Change.bare 2 ∅ [.move ["file", "p"] ["file", "q"]]
    @PreservesMeaning Crypto.sample env a b (.human "" "" 0, 0) := by
  intro env a b
  let _ : Crypto := Crypto.sample
  apply preservesMeaning_of_movesApart
  refine .inr ⟨⟨?_, ?_⟩, rfl⟩
  · intro x hx
    obtain rfl := List.mem_singleton.mp hx
    refine ⟨.inr (by decide), ?_⟩
    rw [if_pos (by decide)]
    simp [Atom.PassesAll]
  · intro m hm
    exact absurd hm List.not_mem_nil

theorem preservesMeaning_move_before_insert :
    let env : ApplyEnv := ⟨fun _ => .ok [1], fun _ _ => false, none⟩
    let a := Change.bare 1 ∅ [.move ["file", "p"] ["file", "q"]]
    let b := Change.bare 2 ∅ [.insert ["file", "r"] 7]
    @PreservesMeaning Crypto.sample env a b (.human "" "" 0, 0) := by
  intro env a b
  let _ : Crypto := Crypto.sample
  have hclear : (Atom.insert ["file", "r"] 7).ClearOf ["file", "p"] ["file", "q"] := by
    refine .inr fun key hkey => ?_
    obtain rfl : ["file", "r"] = key := Option.some_inj.mp hkey
    decide
  apply (preservesMeaning_move_insert_iff rfl rfl ?_ ⟨rfl, rfl, rfl⟩ rfl).mpr hclear
  decide

/-- A move of `p` and an insertion at `p/x`: the insertion is rewritten to `q/x`, where the move
would put what was at `p/x` before. -/
theorem commutePair_moves_insertion :
    ¬ ∀ env a b signer, @PreservesMeaning Crypto.sample env a b signer := by
  intro h
  let _ : Crypto := Crypto.sample
  let env : ApplyEnv := ⟨fun _ => .ok [1], fun _ _ => false, none⟩
  let a := Change.bare 1 ∅ [.move ["file", "p"] ["file", "q"]]
  let b := Change.bare 2 ∅ [.insert ["file", "p", "x"] 7]
  have hsame := h env a b (.human "" "" 0, 0) _ _ rfl ∅
  have hdiffer : (documentedReplay env [a, b] ∅).map (fun s => s.lookup ["file", "p", "x"])
      ≠ (documentedReplay env [commuted b a (.human "" "" 0, 0),
        commuted a b (.human "" "" 0, 0)] ∅).map (fun s => s.lookup ["file", "p", "x"]) := by
    decide
  exact hdiffer (congrArg (Option.map fun s => s.lookup ["file", "p", "x"]) hsame)

end ArcVcs
