import ArcVcs.Squash

/-!
# The two squash implementations

`squash_into` of `spacetime.rs` beside the one of `mutator.rs`. Both cut the topological order
at the target. The older one rejects a member with two children in that spine, and the newer
one also a member that is followed by others and has none, or that the graph does not have.
They agree exactly on the requests where this makes no difference.
-/

namespace ArcVcs

inductive SpacetimeError where
  | nonLinearSpine (id : Blake3Hash)
  | targetNotFound (id : Blake3Hash)
  | targetNotAncestor (id : Blake3Hash)
  /-- The panic of `topological_sort`, which an indexed graph does not reach. -/
  | topologicalSort
deriving DecidableEq

namespace Spacetime

/-- The members after `id` that depend on it. -/
def childrenInSpine (g : ChangeGraph) (later : List Blake3Hash) (id : Blake3Hash) :
    List Blake3Hash :=
  later.filter fun candidate => (g.get candidate).any fun c => id ∈ c.deps

/-- The loop over the spine. Nothing follows the last member, which passes. -/
def checkLinear (g : ChangeGraph) : List Blake3Hash → Except SpacetimeError Unit
  | [] => .ok ()
  | id :: later =>
      if 1 < (childrenInSpine g later id).length then .error (.nonLinearSpine id)
      else checkLinear g later

/-- The atoms of the spine members in order. A member without a node is skipped. -/
def spineAtoms (g : ChangeGraph) (spine : List Blake3Hash) : List Atom :=
  (spine.filterMap g.get).flatMap Change.atoms

def squashInto [Crypto] (g : ChangeGraph) (viewHeads : Finset Blake3Hash)
    (targetId : Blake3Hash) (signer : Author × SigningKey) : Except SpacetimeError Change :=
  match g.get targetId with
  | none => .error (.targetNotFound targetId)
  | some target =>
      if targetId ∉ g.ancestors viewHeads ∧ targetId ∉ viewHeads then
        .error (.targetNotAncestor targetId)
      else
        match g.topologicalSort viewHeads with
        | none => .error .topologicalSort
        | some topo =>
            if targetId ∉ topo then .error (.targetNotFound targetId)
            else
              let spine := Mutator.spineOf topo targetId
              match checkLinear g spine with
              | .error e => .error e
              | .ok () => .ok (Change.new target.deps (spineAtoms g spine)
                  (Mutator.squashIntent spine.length target.intent) signer.1 signer.2)

variable {g : ChangeGraph} {spine : List Blake3Hash}

/-! ## The two spine checks -/

/-- No member depends on itself or on a later one. -/
structure Ordered (g : ChangeGraph) (spine : List Blake3Hash) : Prop where
  nodup : spine.Nodup
  respects : LinearExtension.Respects (fun d x => d ∈ g.deps x) spine
  irrefl : ∀ id ∈ spine, id ∉ g.deps id

theorem Ordered.of_topologicalSort (hg : g.Indexed) {heads : Finset Blake3Hash}
    {topo : List Blake3Hash} (h : g.topologicalSort heads = some topo) (target : Blake3Hash) :
    Ordered g (Mutator.spineOf topo target) := by
  obtain ⟨topo', htopo', hnodup, -, hresp⟩ := hg.exists_topologicalSort heads
  obtain rfl : topo = topo' := Option.some_inj.mp (h.symm.trans htopo')
  have hsub : (Mutator.spineOf topo target).Sublist topo := List.drop_sublist _ _
  exact ⟨hnodup.sublist hsub, hresp.sublist hsub,
    fun id hid => Kahn.sort_notMem_deps (hg.transposed _) h id (hsub.subset hid)⟩

/-- The members that depend on one come after it, so both implementations count the same
children. -/
theorem length_childrenInSpine (hg : g.Indexed) {pre later : List Blake3Hash} {id : Blake3Hash}
    (hs : Ordered g (pre ++ id :: later)) : (childrenInSpine g later id).length
      = (Mutator.childrenInSpine g (pre ++ id :: later) id).length := by
  have hsplit := List.nodup_append.mp hs.nodup
  have hlater : later.Nodup := (List.nodup_cons.mp hsplit.2.1).2
  have hchildren : (g.childIds id).Nodup := Finset.nodup_sorted _
  refine ((List.perm_ext_iff_of_nodup (hlater.filter _) (hchildren.filter _)).mpr ?_).length_eq
  intro c
  have hcand : ((g.get c).any fun c => id ∈ c.deps) = true ↔ id ∈ g.deps c := by
    cases hc : g.get c with
    | none => simp [hg.deps_ghost hc]
    | some change => simp [hg.deps_eq hc]
  change c ∈ childrenInSpine g later id ↔ c ∈ Mutator.childrenInSpine g (pre ++ id :: later) id
  rw [childrenInSpine, List.mem_filter, hcand, Mutator.mem_childrenInSpine hg, and_comm]
  refine and_congr_right fun hid => ⟨fun hc => by simp [hc], fun hc => ?_⟩
  rcases List.mem_append.mp hc with hpre | hc
  · exact absurd hid ((List.pairwise_append.mp hs.respects).2.2 c hpre id List.mem_cons_self)
  · rcases List.mem_cons.mp hc with rfl | hc
    · exact absurd hid (hs.irrefl c (by simp))
    · exact hc

/-- No member has two children in the spine. -/
def ForkFree (g : ChangeGraph) (spine : List Blake3Hash) : Prop :=
  ∀ id ∈ spine, (Mutator.childrenInSpine g spine id).length ≤ 1

/-- Every member but the last has a child in the spine. -/
def Continued (g : ChangeGraph) (spine : List Blake3Hash) : Prop :=
  ∀ id ∈ spine, spine.getLast? ≠ some id → ∃ c ∈ spine, id ∈ g.deps c

instance (g : ChangeGraph) (spine : List Blake3Hash) : Decidable (Continued g spine) :=
  inferInstanceAs (Decidable (∀ id ∈ spine, _ → _))

/-- A fork-free spine that is linked is a chain of changes of the graph. -/
structure Linked (g : ChangeGraph) (spine : List Blake3Hash) : Prop where
  present : ∀ id ∈ spine, (g.get id).isSome
  continued : Continued g spine

theorem checkLinear_eq_ok_iff (hg : g.Indexed) (hs : Ordered g spine) :
    checkLinear g spine = .ok () ↔ ForkFree g spine := by
  have hrec : ∀ pre later, pre ++ later = spine → (checkLinear g later = .ok () ↔
      ∀ id ∈ later, (Mutator.childrenInSpine g spine id).length ≤ 1) := by
    intro pre later
    induction later generalizing pre with
    | nil => simp [checkLinear]
    | cons id later ih =>
        rintro rfl
        have hlen := length_childrenInSpine hg hs
        have htail := ih (pre ++ [id]) (by simp)
        rw [checkLinear, hlen, List.forall_mem_cons, ← htail]
        split_ifs with hfork
        · simp [hfork]
        · simp [Nat.le_of_not_lt hfork]
  exact hrec [] spine rfl

theorem childrenInSpine_getLast (hg : g.Indexed) (hs : Ordered g spine) {last : Blake3Hash}
    (hlast : spine.getLast? = some last) : Mutator.childrenInSpine g spine last = [] := by
  obtain ⟨pre, rfl⟩ : ∃ pre, spine = pre ++ [last] := by
    obtain ⟨hne, rfl⟩ := List.getLast?_eq_some_iff.mp hlast |>.imp fun _ h => h
    exact ⟨_, rfl⟩
  exact List.eq_nil_of_length_eq_zero (length_childrenInSpine hg hs).symm

theorem isLinearSpine_iff (hg : g.Indexed) (hs : Ordered g spine) :
    Mutator.isLinearSpine g spine = true ↔ ForkFree g spine ∧ Continued g spine := by
  have hchild : ∀ id, (∃ c ∈ spine, id ∈ g.deps c) ↔
      0 < (Mutator.childrenInSpine g spine id).length := by
    intro id
    rw [List.length_pos_iff_exists_mem]
    simp only [Mutator.mem_childrenInSpine hg, and_comm]
  rw [Mutator.isLinearSpine, List.all_eq_true, ForkFree, Continued, ← forall₂_and]
  refine forall₂_congr fun id _ => ?_
  rw [decide_eq_true_iff, hchild]
  split_ifs with hlast
  · simp [childrenInSpine_getLast hg hs hlast, hlast]
  · simp only [hlast, ne_eq, not_false_eq_true, forall_const]
    omega

/-! ## When the implementations agree -/

/-- Both reject, or both accept with the same dependencies and the same atoms. -/
def Agree : Except SpacetimeError Change → Except MutatorError SquashOutcome → Prop
  | .error _, .error _ => True
  | .ok change, .ok out =>
      change.deps = out.squashed.deps ∧ change.atoms = out.squashed.atoms
  | _, _ => False

theorem spineAtoms_of_present (h : ∀ id ∈ spine, (g.get id).isSome) :
    Mutator.spineAtoms g spine = .ok (spineAtoms g spine) := by
  induction spine with
  | nil => rfl
  | cons id spine ih =>
      obtain ⟨change, hid⟩ := Option.isSome_iff_exists.mp (h id List.mem_cons_self)
      have hrest := ih fun x hx => h x (.tail _ hx)
      simp only [Mutator.spineAtoms, hid, hrest]
      simp [spineAtoms, hid]

theorem exists_spineAtoms_iff :
    (∃ atoms, Mutator.spineAtoms g spine = .ok atoms) ↔ ∀ id ∈ spine, (g.get id).isSome := by
  constructor
  · rintro ⟨atoms, h⟩ id hid
    obtain ⟨c, hc⟩ := (Mutator.spineAtoms_eq_ok h).1 id hid
    exact hc ▸ rfl
  · exact fun h => ⟨_, spineAtoms_of_present h⟩

variable {heads : Finset Blake3Hash} {targetId : Blake3Hash} {topo : List Blake3Hash}

theorem not_unreached (hg : g.Indexed) (htopo : g.topologicalSort heads = some topo)
    (hmem : targetId ∈ topo) : ¬ (targetId ∉ g.ancestors heads ∧ targetId ∉ heads) := by
  obtain ⟨topo', htopo', -, hsub, -⟩ := hg.exists_topologicalSort heads
  obtain rfl : topo = topo' := Option.some_inj.mp (htopo.symm.trans htopo')
  exact fun h => h.1 (hsub targetId hmem)

theorem squashInto_eq_ok_iff [Crypto] (hg : g.Indexed)
    (htopo : g.topologicalSort heads = some topo) {signer : Author × SigningKey}
    {out : Change} :
    squashInto g heads targetId signer = .ok out ↔ ∃ target, g.get targetId = some target
      ∧ targetId ∈ topo ∧ ForkFree g (Mutator.spineOf topo targetId)
      ∧ out = Change.new target.deps (spineAtoms g (Mutator.spineOf topo targetId))
          (Mutator.squashIntent (Mutator.spineOf topo targetId).length target.intent)
          signer.1 signer.2 := by
  have hfork := checkLinear_eq_ok_iff hg (Ordered.of_topologicalSort hg htopo targetId)
  rw [← hfork, squashInto]
  cases hget : g.get targetId with
  | none => simp
  | some target =>
      by_cases hmem : targetId ∈ topo
      · have hreached := not_unreached hg htopo hmem
        cases hcheck : checkLinear g (Mutator.spineOf topo targetId) with
        | error e => simp [hreached, htopo, hmem, hcheck]
        | ok u => simp [hreached, htopo, hmem, hcheck, eq_comm]
      · simp only [htopo, hmem, not_false_eq_true, if_true, false_and, and_false, exists_false,
          iff_false]
        split_ifs <;> simp

theorem forkFree_and_continued_of_length (hg : g.Indexed) (hs : Ordered g spine)
    (h : spine.length < 2) : ForkFree g spine ∧ Continued g spine := by
  match spine, h with
  | [], _ => simp [ForkFree, Continued]
  | [a], _ =>
      have hlast : Mutator.childrenInSpine g [a] a = [] :=
        childrenInSpine_getLast hg hs rfl
      simp [ForkFree, Continued, hlast]

theorem collectLinearSpine_eq_ok_iff (hg : g.Indexed)
    (htopo : g.topologicalSort heads = some topo) :
    Mutator.collectLinearSpine g heads targetId = .ok spine ↔ targetId ∈ topo
      ∧ (ForkFree g (Mutator.spineOf topo targetId)
        ∧ Continued g (Mutator.spineOf topo targetId))
      ∧ spine = Mutator.spineOf topo targetId := by
  have hs := Ordered.of_topologicalSort hg htopo targetId
  have hlinear := isLinearSpine_iff hg hs
  rw [← hlinear, Mutator.collectLinearSpine]
  by_cases hmem : targetId ∈ topo
  · have hreached := not_unreached hg htopo hmem
    simp only [hreached, htopo, hmem, if_false, not_true_eq_false, true_and]
    split_ifs with hlen hlin
    · have hpass := hlinear.mpr (forkFree_and_continued_of_length hg hs hlen)
      simp [hpass, eq_comm]
    · simp [hlin, eq_comm]
    · simp [hlin]
  · simp only [htopo, hmem, not_false_eq_true, if_true, false_and, iff_false]
    split_ifs <;> simp

/-- `mutator.rs` also asks that the spine is linked. -/
theorem mutator_squashInto_eq_ok_iff [Crypto] (hg : g.Indexed)
    (htopo : g.topologicalSort heads = some topo) {signer : Author × SigningKey} :
    (∃ out, Mutator.squashInto g heads targetId signer = .ok out)
      ↔ (g.get targetId).isSome ∧ targetId ∈ topo ∧ ForkFree g (Mutator.spineOf topo targetId)
        ∧ Linked g (Mutator.spineOf topo targetId) := by
  constructor
  · rintro ⟨out, hok⟩
    obtain ⟨target, spine, atoms, hget, hcollect, hatoms, -⟩ := Mutator.squashInto_eq_ok hok
    obtain ⟨hmem, ⟨hfork, hcont⟩, rfl⟩ := (collectLinearSpine_eq_ok_iff hg htopo).mp hcollect
    exact ⟨hget ▸ rfl, hmem, hfork, exists_spineAtoms_iff.mp ⟨atoms, hatoms⟩, hcont⟩
  · rintro ⟨hsome, hmem, hfork, hpresent, hcont⟩
    obtain ⟨target, hget⟩ := Option.isSome_iff_exists.mp hsome
    have hcollect := (collectLinearSpine_eq_ok_iff hg htopo).mpr ⟨hmem, ⟨hfork, hcont⟩, rfl⟩
    simp only [Mutator.squashInto, hget, hcollect, spineAtoms_of_present hpresent]
    exact ⟨_, rfl⟩

theorem agree_of_ok [Crypto] (hg : g.Indexed) {signer : Author × SigningKey} {change : Change}
    {out : SquashOutcome} (hspacetime : squashInto g heads targetId signer = .ok change)
    (hmutator : Mutator.squashInto g heads targetId signer = .ok out) :
    change.deps = out.squashed.deps ∧ change.atoms = out.squashed.atoms := by
  obtain ⟨topo, htopo, -, -, -⟩ := hg.exists_topologicalSort heads
  obtain ⟨target, hget, -, -, rfl⟩ := (squashInto_eq_ok_iff hg htopo).mp hspacetime
  obtain ⟨target', spine, atoms, hget', hcollect, hatoms, hsquashed⟩ :=
    Mutator.squashInto_eq_ok hmutator
  obtain ⟨-, -, rfl⟩ := (collectLinearSpine_eq_ok_iff hg htopo).mp hcollect
  obtain rfl : target = target' := Option.some_inj.mp (hget.symm.trans hget')
  rw [hsquashed, Change.rewrittenOrResigned_deps, Change.rewrittenOrResigned_atoms, Change.new_deps,
    Change.new_atoms, (Mutator.spineAtoms_eq_ok hatoms).2]
  exact ⟨rfl, rfl⟩

theorem agree_iff_accept [Crypto] (hg : g.Indexed) {signer : Author × SigningKey} :
    Agree (squashInto g heads targetId signer) (Mutator.squashInto g heads targetId signer)
      ↔ ((∃ change, squashInto g heads targetId signer = .ok change)
        ↔ ∃ out, Mutator.squashInto g heads targetId signer = .ok out) := by
  cases hspacetime : squashInto g heads targetId signer with
  | error e => cases Mutator.squashInto g heads targetId signer <;> simp [Agree]
  | ok change =>
      cases hmutator : Mutator.squashInto g heads targetId signer with
      | error e => simp [Agree]
      | ok out => simpa [Agree] using agree_of_ok hg hspacetime hmutator

/-- **The two implementations agree** exactly when every fork-free spine that the target cuts is
linked. -/
theorem squashInto_agree_iff [Crypto] (hg : g.Indexed) (heads : Finset Blake3Hash)
    (targetId : Blake3Hash) (signer : Author × SigningKey) :
    Agree (squashInto g heads targetId signer) (Mutator.squashInto g heads targetId signer)
      ↔ ∀ topo, g.topologicalSort heads = some topo → targetId ∈ topo →
          (g.get targetId).isSome → ForkFree g (Mutator.spineOf topo targetId) →
          Linked g (Mutator.spineOf topo targetId) := by
  obtain ⟨topo, htopo, -, -, -⟩ := hg.exists_topologicalSort heads
  have hspacetime : (∃ change, squashInto g heads targetId signer = .ok change)
      ↔ (g.get targetId).isSome ∧ targetId ∈ topo
        ∧ ForkFree g (Mutator.spineOf topo targetId) := by
    simp only [squashInto_eq_ok_iff hg htopo, Option.isSome_iff_exists]
    constructor
    · rintro ⟨change, target, hget, hmem, hfork, -⟩
      exact ⟨⟨target, hget⟩, hmem, hfork⟩
    · rintro ⟨⟨target, hget⟩, hmem, hfork⟩
      exact ⟨_, target, hget, hmem, hfork, rfl⟩
  rw [agree_iff_accept hg, hspacetime, mutator_squashInto_eq_ok_iff hg htopo]
  simp only [htopo, Option.some_inj, forall_eq']
  tauto

/-- Of two roots the second has no dependency on the first: `spacetime.rs` squashes it into the
first and `mutator.rs` rejects the spine. -/
theorem squash_of_two_roots_disagrees :
    let a := Change.sample ∅ "a.rs" "a"
    let b := Change.sample ∅ "b.rs" "b"
    let g := ChangeGraph.ofChanges [a, b]
    let signer : Author × SigningKey := (.human "" "" 0, 0)
    g.Indexed ∧ (∃ change, @squashInto Crypto.sample g {a.id, b.id} a.id signer = .ok change
        ∧ change.atoms = a.atoms ++ b.atoms)
      ∧ @Mutator.squashInto Crypto.sample g {a.id, b.id} a.id signer = .error .nonLinearChain
      ∧ ¬ Agree (@squashInto Crypto.sample g {a.id, b.id} a.id signer)
        (@Mutator.squashInto Crypto.sample g {a.id, b.id} a.id signer) := by
  intro a b g signer
  have hg : g.Indexed := ChangeGraph.indexed_ofChanges (by decide)
  let squashed := @Change.new Crypto.sample ∅ (a.atoms ++ b.atoms) (Mutator.squashIntent 2 "a")
    signer.1 signer.2
  have hspacetime : @squashInto Crypto.sample g {a.id, b.id} a.id signer = .ok squashed := by
    decide +kernel
  have hmutator : @Mutator.squashInto Crypto.sample g {a.id, b.id} a.id signer
      = .error .nonLinearChain := by
    decide
  refine ⟨hg, ⟨squashed, hspacetime, rfl⟩, hmutator, ?_⟩
  rw [hspacetime, hmutator]
  exact not_false

/-- On a chain of two changes the implementations agree. -/
theorem squashInto_agree_two_changes :
    let a := Change.sample ∅ "a.rs" "b"
    let b := Change.sample {a.id} "b.rs" "c"
    let g := ChangeGraph.ofChanges [a, b]
    let signer : Author × SigningKey := (.human "" "" 0, 0)
    Agree (@squashInto Crypto.sample g {b.id} a.id signer)
      (@Mutator.squashInto Crypto.sample g {b.id} a.id signer) := by
  intro a b g signer
  have hg : g.Indexed := ChangeGraph.indexed_ofChanges (by decide)
  rw [@squashInto_agree_iff g Crypto.sample hg {b.id} a.id signer]
  intro topo htopo _ _ _
  obtain rfl : [a.id, b.id] = topo := by
    have hrun : g.topologicalSort {b.id} = some [a.id, b.id] := by decide
    exact Option.some_inj.mp (hrun.symm.trans htopo)
  have hspine : Mutator.spineOf [a.id, b.id] a.id = [a.id, b.id] := by decide
  have hpresent : ∀ id ∈ [a.id, b.id], (g.get id).isSome := by decide
  have hcontinued : Continued g [a.id, b.id] := by decide
  rw [hspine]
  exact ⟨hpresent, hcontinued⟩

end Spacetime

end ArcVcs
