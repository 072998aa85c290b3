import ArcVcs.Atom
import ArcVcs.Lib.KeySort

/-!
# Sets of heads in a sync

A frontier is a list of heads that its constructors sort, and peers compare the lists. The
operations on frontiers are those on the sets of their heads.
-/

namespace ArcVcs.AlgebraTypes

structure Frontier where
  heads : List Blake3Hash
deriving DecidableEq

namespace Frontier

def empty : Frontier := ⟨[]⟩

def single (hash : Blake3Hash) : Frontier := ⟨[hash]⟩

/-- `Vec::sort` and `Vec::dedup`, which drops an element that equals the one before it. -/
def new (heads : List Blake3Hash) : Frontier := ⟨heads.sortDedup⟩

def fromHashes (iter : List Blake3Hash) : Frontier := new iter

def contains (f : Frontier) (hash : Blake3Hash) : Bool := f.heads.any fun h => decide (h = hash)

def merge (f other : Frontier) : Frontier := new (f.heads ++ other.heads)

def intersection (f other : Frontier) : Frontier :=
  new (f.heads.filter fun h => other.contains h)

def difference (f other : Frontier) : Frontier :=
  new (f.heads.filter fun h => !other.contains h)

/-- What a constructor or an operation on such frontiers returns. -/
inductive Built : Frontier → Prop where
  | empty : Built empty
  | single (hash : Blake3Hash) : Built (single hash)
  | new (heads : List Blake3Hash) : Built (new heads)
  | fromHashes (iter : List Blake3Hash) : Built (fromHashes iter)
  | merge {f g : Frontier} (hf : Built f) (hg : Built g) : Built (f.merge g)
  | intersection {f g : Frontier} (hf : Built f) (hg : Built g) : Built (f.intersection g)
  | difference {f g : Frontier} (hf : Built f) (hg : Built g) : Built (f.difference g)

/-- The set of the heads. -/
def denotes (f : Frontier) : Set Blake3Hash := {h | h ∈ f.heads}

/-- Sorted, and without duplicates. -/
def Canonical (f : Frontier) : Prop := f.heads.Pairwise (· < ·)

variable {f g : Frontier}

@[simp] theorem contains_eq (f : Frontier) (hash : Blake3Hash) :
    f.contains hash = decide (hash ∈ f.heads) := by
  rw [Bool.eq_iff_iff]
  simp [contains]

/-! ## The sorted list -/

theorem canonical_new (heads : List Blake3Hash) : (new heads).Canonical :=
  List.pairwise_sortDedup heads

theorem Built.canonical (hf : Built f) : f.Canonical := by
  cases hf with
  | empty => exact List.Pairwise.nil
  | single hash => exact List.pairwise_singleton _ _
  | new heads => exact canonical_new heads
  | fromHashes iter => exact canonical_new iter
  | merge => exact canonical_new _
  | intersection => exact canonical_new _
  | difference => exact canonical_new _

theorem Canonical.eq_iff (hf : f.Canonical) (hg : g.Canonical) :
    f = g ↔ f.denotes = g.denotes := by
  refine ⟨fun heq => by rw [heq], fun hsame => ?_⟩
  have hheads : f.heads = g.heads :=
    List.Pairwise.eq_of_mem_iff hf hg fun hash => Set.ext_iff.mp hsame hash
  cases f
  cases g
  exact congrArg mk hheads

/-! ## The operations -/

theorem denotes_new (heads : List Blake3Hash) : (new heads).denotes = {h | h ∈ heads} :=
  Set.ext fun _ => List.mem_sortDedup

theorem denotes_merge (f g : Frontier) : (f.merge g).denotes = f.denotes ∪ g.denotes := by
  rw [merge, denotes_new]
  exact Set.ext fun _ => List.mem_append

theorem denotes_intersection (f g : Frontier) :
    (f.intersection g).denotes = f.denotes ∩ g.denotes := by
  rw [intersection, denotes_new]
  exact Set.ext fun hash => by simp [denotes]

theorem denotes_difference (f g : Frontier) :
    (f.difference g).denotes = f.denotes \ g.denotes := by
  rw [difference, denotes_new]
  exact Set.ext fun hash => by simp [denotes]

theorem canonical_merge (f g : Frontier) : (f.merge g).Canonical := canonical_new _

theorem merge_comm (f g : Frontier) : f.merge g = g.merge f := by
  rw [(canonical_merge f g).eq_iff (canonical_merge g f), denotes_merge, denotes_merge,
    Set.union_comm]

theorem merge_assoc (f g h : Frontier) : (f.merge g).merge h = f.merge (g.merge h) := by
  rw [(canonical_merge _ h).eq_iff (canonical_merge f _), denotes_merge, denotes_merge,
    denotes_merge, denotes_merge, Set.union_assoc]

theorem Canonical.merge_self (hf : f.Canonical) : f.merge f = f := by
  rw [(canonical_merge f f).eq_iff hf, denotes_merge, Set.union_self]

/-- **Frontiers are sets of heads.** What is built is sorted without duplicates, equal frontiers are
those with equal sets, and the operations are union, intersection and difference. -/
theorem frontier_algebra :
    (∀ f, Built f → f.Canonical)
      ∧ (∀ f g, Built f → Built g → (f = g ↔ f.denotes = g.denotes))
      ∧ (∀ f g, Built f → Built g → (f.merge g).denotes = f.denotes ∪ g.denotes
        ∧ (f.intersection g).denotes = f.denotes ∩ g.denotes
        ∧ (f.difference g).denotes = f.denotes \ g.denotes)
      ∧ ∀ f g h, Built f → Built g → Built h → f.merge g = g.merge f
        ∧ (f.merge g).merge h = f.merge (g.merge h) ∧ f.merge f = f :=
  ⟨fun _ hf => hf.canonical, fun _ _ hf hg => hf.canonical.eq_iff hg.canonical,
    fun f g _ _ => ⟨denotes_merge f g, denotes_intersection f g, denotes_difference f g⟩,
    fun f g h hf _ _ => ⟨merge_comm f g, merge_assoc f g h, hf.canonical.merge_self⟩⟩

/-- Two heads, one of them known to both peers. -/
theorem frontier_algebra_pair :
    (new [2, 1, 2]).merge (single 1) = (single 1).merge (new [2, 1, 2]) :=
  (frontier_algebra.2.2.2 (new [2, 1, 2]) (single 1) empty (.new _) (.single 1) .empty).1

example : ((new [2, 1, 2]).difference (single 1)).heads = [2] := by decide

end Frontier

end ArcVcs.AlgebraTypes
