import ArcVcs.Graph
import ArcVcs.Hex
import ArcVcs.Lib.Iterators
import ArcVcs.Lib.Program

/-!
# Revsets

The revset engine of `arc-revset`: an expression compiles to a lazy iterator over change ids,
with resolvers for symbols and references that may keep a state.
-/

namespace ArcVcs

inductive RevsetExpression where
  | symbol (name : String)
  | stringLiteral (value : String)
  | function (name : String) (args : List RevsetExpression)
  | intersection (left right : RevsetExpression)
  | union (left right : RevsetExpression)

namespace Revset

/-! ## Iterators -/

/-- The boxed iterators that compilation produces. -/
inductive RevsetIterator where
  /-- `once` and the iterators of sorted sets. -/
  | items (rest : List Blake3Hash)
  | union (left right : RevsetIterator) (seen : Finset Blake3Hash) (onLeft : Bool)
  | filter (inner : RevsetIterator) (keep : Finset Blake3Hash)
  | ancestors (queue : List Blake3Hash) (seen : Finset Blake3Hash)
deriving DecidableEq

/-- The dependencies of a change, none without a node. -/
def nodeDeps (g : ChangeGraph) (id : Blake3Hash) : Finset Blake3Hash :=
  match g.get id with
  | some change => change.deps
  | none => ∅

open Iterators (Step)

namespace RevsetIterator

/-- One pass of the loop of `next`. -/
def step (g : ChangeGraph) : RevsetIterator → Step RevsetIterator Blake3Hash
  | items [] => .done
  | items (id :: rest) => .yield id (items rest)
  | union left right seen true =>
      match left.step g with
      | .done => .skip (union left right seen false)
      | .skip left' => .skip (union left' right seen true)
      | .yield hash left' =>
          if hash ∈ seen then .skip (union left' right seen true)
          else .yield hash (union left' right (insert hash seen) true)
  | union left right seen false =>
      match right.step g with
      | .done => .done
      | .skip right' => .skip (union left right' seen false)
      | .yield hash right' =>
          if hash ∈ seen then .skip (union left right' seen false)
          else .yield hash (union left right' (insert hash seen) false)
  | filter inner keep =>
      match inner.step g with
      | .done => .done
      | .skip inner' => .skip (filter inner' keep)
      | .yield hash inner' =>
          if hash ∈ keep then .yield hash (filter inner' keep) else .skip (filter inner' keep)
  | ancestors [] _ => .done
  | ancestors (current :: queue) seen =>
      if current ∈ seen then .skip (ancestors queue seen)
      else
        let fresh := (nodeDeps g current).filter fun dep => dep ∉ insert current seen
        .yield current (ancestors (queue ++ fresh.sorted) (insert current seen))

/-- A bound on the steps that are left. -/
def measure (g : ChangeGraph) : RevsetIterator → ℕ
  | items rest => rest.length
  | union left right _ onLeft => left.measure g + right.measure g + if onLeft then 1 else 0
  | filter inner _ => inner.measure g
  | ancestors queue seen => Worklist.potential (nodeDeps g) g.nodes.keys queue seen

def toList (g : ChangeGraph) (iter : RevsetIterator) : List Blake3Hash :=
  Iterators.collect (step g) (iter.measure g + 1) iter

end RevsetIterator

/-! ## Symbols -/

/-- `ChangeId::from_hex`. -/
def fromHex (input : String) : Option Blake3Hash :=
  if (utf8 input).length ≠ 64 then none
  else
    (hexBytes (fun hi lo => do
      let hi ← nybble hi
      let lo ← nybble lo
      some (16 * hi + lo)) (utf8 input)).map Blake3Hash.ofBytes

def parseHexHash (input : String) : Option Blake3Hash :=
  if (utf8 input).length ≠ 64 then none
  else
    (hexBytes fromStrRadix (utf8 input)).map Blake3Hash.ofBytes

/-- The two resolvers, which may fail and change their state. -/
structure Resolvers (σ : Type*) where
  resolveSymbol : String → Program σ String (Option Blake3Hash)
  resolveReferenceHeads : String → Program σ String (Finset Blake3Hash)

variable {σ : Type*} (g : ChangeGraph) (resolvers : Resolvers σ)

def unknownSymbol {α : Type} (name : String) : Program σ String α :=
  .throw ("unknown revset symbol '" ++ name ++ "'")

def compileSymbol (name : String) : Program σ String Blake3Hash :=
  match fromHex name with
  | some id => if (g.get id).isNone then unknownSymbol name else pure id
  | none =>
      match parseHexHash name with
      | some hash => if (g.get hash).isNone then unknownSymbol name else pure hash
      | none => do
          match ← resolvers.resolveSymbol name with
          | some id => pure id
          | none => unknownSymbol name

/-! ## Compilation -/

def changeTouchesRepoPath (change : Change) (path : String) : Bool :=
  change.atoms.any fun
    | .blob blobPath _ _ => blobPath = path
    | atom => atom.paths.any fun nodePath =>
        if nodePath.head? = some "file" then nodePath[1]? = some path
        else nodePath.head? = some path

def touched (path : String) : Finset Blake3Hash :=
  g.nodes.keys.biUnion fun id =>
    (((g.get id).filter fun change => changeTouchesRepoPath change path).map Change.id).toFinset

def expects (name count : String) : String := name ++ "() expects " ++ count

def compile : RevsetExpression → Program σ String RevsetIterator
  | .symbol name => do
      let id ← compileSymbol g resolvers name
      pure (.items [id])
  | .stringLiteral _ => .throw "string literals are only valid as function arguments"
  | .union left right => do
      let leftIter ← compile left
      let rightIter ← compile right
      pure (.union leftIter rightIter ∅ true)
  | .intersection left right => do
      let leftIter ← compile left
      let rightIter ← compile right
      pure (.filter leftIter (rightIter.toList g).toFinset)
  | .function name args =>
      if name = "ancestors" then
        match args with
        | [arg] => do
            let starts ← compile arg
            pure (.ancestors (starts.toList g) ∅)
        | _ => .throw (expects name "exactly one argument")
      else if name = "tags" ∨ name = "remote_branches" ∨ name = "bookmarks" then
        match args with
        | [] => do
            let heads ← resolvers.resolveReferenceHeads name
            pure (.items heads.sorted)
        | _ => .throw (expects name "no arguments")
      else if name = "touched" then
        match args with
        | [.stringLiteral path] => pure (.items (touched g path).sorted)
        | [_] => .throw (expects name "a string path argument")
        | _ => .throw (expects name "exactly one argument")
      else if name = "range" then
        match args with
        | [fromArg, toArg] => do
            let fromIter ← compile fromArg
            let toIter ← compile toArg
            let fromAncestors := g.ancestors (fromIter.toList g).toFinset
            let toAncestors := g.ancestors (toIter.toList g).toFinset
            pure (.items (toAncestors \ fromAncestors).sorted)
        | _ => .throw (expects name "exactly two arguments")
      else if name = "symmetric" then
        match args with
        | [leftArg, rightArg] => do
            let leftIter ← compile leftArg
            let rightIter ← compile rightArg
            let leftAncestors := g.ancestors (leftIter.toList g).toFinset
            let rightAncestors := g.ancestors (rightIter.toList g).toFinset
            pure (.items (symmDiff leftAncestors rightAncestors).sorted)
        | _ => .throw (expects name "exactly two arguments")
      else if name = "merge_base" then
        match args with
        | [leftArg, rightArg] => do
            let leftIter ← compile leftArg
            let rightIter ← compile rightArg
            pure (.items (g.mergeBaseDeterministic (leftIter.toList g).toFinset
              (rightIter.toList g).toFinset).toList)
        | _ => .throw (expects name "exactly two arguments")
      else .throw ("unsupported revset function '" ++ name ++ "'")

/-! ## What an iterator yields -/

namespace RevsetIterator

open Iterators (Yields)

theorem measure_ancestors_lt (g : ChangeGraph) {current : Blake3Hash} {queue : List Blake3Hash}
    {seen : Finset Blake3Hash} (h : current ∉ seen) :
    (ancestors (queue ++ ((nodeDeps g current).filter fun dep => dep ∉ insert current seen).sorted)
      (insert current seen)).measure g < (ancestors (current :: queue) seen).measure g := by
  refine Worklist.potential_visit queue (fun id hid => ?_) h
  have hnone : g.get id = none := FMap.notMem_keys_iff.mp hid
  rw [nodeDeps, hnone]

theorem decreasing (g : ChangeGraph) : Iterators.Decreasing (step g) (measure g) := by
  have hboth : ∀ iter : RevsetIterator,
      (∀ next, iter.step g = .skip next → next.measure g < iter.measure g)
        ∧ ∀ id next, iter.step g = .yield id next → next.measure g < iter.measure g := by
    intro iter
    induction iter with
    | items rest => cases rest <;> simp [step, measure]
    | union left right seen onLeft ihl ihr =>
        cases onLeft with
        | true =>
            cases hleft : left.step g with
            | done => simp [step, hleft, measure]
            | skip left' =>
                have hlt := ihl.1 left' hleft
                simp [step, hleft, measure, hlt]
            | yield hash left' =>
                have hlt := ihl.2 hash left' hleft
                by_cases hseen : hash ∈ seen <;> simp [step, hleft, hseen, measure, hlt]
        | false =>
            cases hright : right.step g with
            | done => simp [step, hright]
            | skip right' =>
                have hlt := ihr.1 right' hright
                simp [step, hright, measure, hlt]
            | yield hash right' =>
                have hlt := ihr.2 hash right' hright
                by_cases hseen : hash ∈ seen <;> simp [step, hright, hseen, measure, hlt]
    | filter inner keep ih =>
        cases hinner : inner.step g with
        | done => simp [step, hinner]
        | skip inner' => simp [step, hinner, measure, ih.1 inner' hinner]
        | yield hash inner' =>
            have hlt := ih.2 hash inner' hinner
            by_cases hkeep : hash ∈ keep <;> simp [step, hinner, hkeep, measure, hlt]
    | ancestors queue seen =>
        cases queue with
        | nil => simp [step]
        | cons current queue =>
            by_cases hseen : current ∈ seen
            · simp [step, hseen, measure, Worklist.potential]
            · simp only [step, hseen, if_false, reduceCtorEq, false_imp_iff, implies_true,
                Step.yield.injEq, true_and]
              rintro id next ⟨-, rfl⟩
              exact measure_ancestors_lt g hseen
  exact ⟨fun h => (hboth _).1 _ h, fun h => (hboth _).2 _ _ h⟩

variable {g}

theorem yields_toList (iter : RevsetIterator) : Yields (step g) iter (iter.toList g) :=
  Iterators.yields_collect (decreasing g) (Nat.lt_succ_self _)

theorem toList_eq {iter : RevsetIterator} {out : List Blake3Hash} (h : Yields (step g) iter out) :
    iter.toList g = out :=
  (yields_toList iter).unique h

@[simp] theorem toList_items (rest : List Blake3Hash) : (items rest).toList g = rest := by
  refine toList_eq ?_
  induction rest with
  | nil => exact .done rfl
  | cons id rest ih => exact .yield rfl ih

theorem yields_union_right {left right : RevsetIterator} {seen : Finset Blake3Hash}
    {rs : List Blake3Hash} (h : Yields (step g) right rs) :
    Yields (step g) (union left right seen false) (Iterators.fresh seen rs) := by
  induction h generalizing seen with
  | done hstep => exact .done (by simp [step, hstep])
  | skip hstep _ ih => exact .skip (by simp [step, hstep]) ih
  | @yield right right' id rs hstep _ ih =>
      rw [Iterators.fresh]
      split_ifs with hseen
      · exact .skip (by simp [step, hstep, hseen]) ih
      · exact .yield (by simp [step, hstep, hseen]) ih

theorem yields_union {left right : RevsetIterator} {seen : Finset Blake3Hash}
    {ls rs : List Blake3Hash} (hl : Yields (step g) left ls) (hr : Yields (step g) right rs) :
    Yields (step g) (union left right seen true) (Iterators.fresh seen (ls ++ rs)) := by
  induction hl generalizing seen with
  | @done left hstep =>
      have hswitch : (union left right seen true).step g = .skip (union left right seen false) := by
        simp [step, hstep]
      exact .skip hswitch (yields_union_right hr)
  | skip hstep _ ih => exact .skip (by simp [step, hstep]) ih
  | @yield left left' id ls hstep _ ih =>
      rw [List.cons_append, Iterators.fresh]
      split_ifs with hseen
      · exact .skip (by simp [step, hstep, hseen]) ih
      · exact .yield (by simp [step, hstep, hseen]) ih

theorem toList_union (left right : RevsetIterator) : (union left right ∅ true).toList g
    = Iterators.fresh ∅ (left.toList g ++ right.toList g) :=
  toList_eq (yields_union (yields_toList left) (yields_toList right))

theorem toList_filter (inner : RevsetIterator) (keep : Finset Blake3Hash) :
    (filter inner keep).toList g = (inner.toList g).filter (· ∈ keep) := by
  refine toList_eq ?_
  have h := yields_toList (g := g) inner
  generalize inner.toList g = out at h
  induction h with
  | done hstep => exact .done (by simp [step, hstep])
  | skip hstep _ ih => exact .skip (by simp [step, hstep]) ih
  | @yield inner inner' id out hstep _ ih =>
      by_cases hkeep : id ∈ keep
      · rw [List.filter_cons_of_pos (by simpa using hkeep)]
        exact .yield (by simp [step, hstep, hkeep]) ih
      · rw [List.filter_cons_of_neg (by simpa using hkeep)]
        exact .skip (by simp [step, hstep, hkeep]) ih

theorem closure_of_yields {iter : RevsetIterator} {out : List Blake3Hash}
    (h : Yields (step g) iter out) {queue : List Blake3Hash} {seen : Finset Blake3Hash}
    (hiter : iter = ancestors queue seen) :
    ∃ fuel visited, Worklist.closure (nodeDeps g) fuel queue seen = some visited
      ∧ out.Nodup ∧ ∀ id, id ∈ out ↔ id ∈ visited ∧ id ∉ seen := by
  induction h generalizing queue seen with
  | done hstep =>
      subst hiter
      cases queue with
      | nil => exact ⟨1, seen, rfl, List.nodup_nil, by simp⟩
      | cons current queue => by_cases hseen : current ∈ seen <;> simp [step, hseen] at hstep
  | skip hstep _ ih =>
      subst hiter
      cases queue with
      | nil => simp [step] at hstep
      | cons current queue =>
          by_cases hseen : current ∈ seen
          · simp only [step, hseen, if_true, Step.skip.injEq] at hstep
            obtain ⟨fuel, visited, hrun, hout⟩ := ih hstep.symm
            exact ⟨fuel + 1, visited, by rw [Worklist.closure, if_pos hseen, hrun], hout⟩
          · simp [step, hseen] at hstep
  | yield hstep _ ih =>
      subst hiter
      cases queue with
      | nil => simp [step] at hstep
      | cons current queue =>
          by_cases hseen : current ∈ seen
          · simp [step, hseen] at hstep
          · simp only [step, hseen, if_false, Step.yield.injEq] at hstep
            obtain ⟨rfl, hnext⟩ := hstep
            obtain ⟨fuel, visited, hrun, hnodup, hmem⟩ := ih hnext.symm
            have hcurrent := Worklist.visited_subset hrun (Finset.mem_insert_self current seen)
            refine ⟨fuel + 1, visited, by rw [Worklist.closure, if_neg hseen, hrun], ?_, ?_⟩
            · refine List.nodup_cons.mpr ⟨fun h => ?_, hnodup⟩
              exact ((hmem current).mp h).2 (Finset.mem_insert_self current seen)
            · intro id
              rw [List.mem_cons, hmem, Finset.mem_insert]
              by_cases hid : id = current
              · simp [hid, hcurrent, hseen]
              · simp [hid]

/-- **The lazy ancestor iterator** yields, once each, what the starts reach. -/
theorem toList_ancestors (hg : g.Indexed) (starts : List Blake3Hash) :
    ((ancestors starts ∅).toList g).Nodup
      ∧ ∀ id, id ∈ (ancestors starts ∅).toList g ↔ ∃ start ∈ starts, g.Reaches start id := by
  obtain ⟨fuel, visited, hrun, hnodup, hmem⟩ := closure_of_yields (yields_toList _) rfl
  refine ⟨hnodup, fun id => ?_⟩
  have hdeps : nodeDeps g = g.deps := by
    funext x
    cases hx : g.get x with
    | none => rw [nodeDeps, hx, hg.deps_ghost hx]
    | some change => rw [nodeDeps, hx, hg.deps_eq hx]
  rw [hdeps] at hrun
  rw [hmem, Worklist.mem_closure_iff_of_list hrun]
  simp only [Finset.notMem_empty, not_false_eq_true, and_true]
  rfl

end RevsetIterator

end Revset

end ArcVcs
