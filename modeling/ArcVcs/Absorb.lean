import ArcVcs.Hydration
import ArcVcs.Rewrites

/-!
# Absorb

`absorb_ast` takes the deepest change of a linear history that the edit can be moved to past
everything newer, and amends the head if that is the head itself. So an edit is absorbed exactly
when it does not commute with the head, and an edit that does is refused.
-/

namespace ArcVcs

inductive AbsorbError where
  | repo (error : RepoError)
  | mergeChange (id : Blake3Hash)
  | notHead (target head : Blake3Hash)

structure AbsorbAstResult where
  selectedTarget : Blake3Hash
  newHead : Option Blake3Hash
  absorbedAtoms : ℕ

abbrev AbsorbM (α : Type) := Program Repo AbsorbError α

def deepestCommutingIndex (syntheticWorking : Change) (spine : List Change) : ℕ :=
  (List.range spine.length).foldl (fun selected idx =>
    if (spine.take idx).all (commutes syntheticWorking) then idx else selected) 0

namespace Repo

/-- The head and its ancestors, as long as each has one dependency. `none` means that the fuel
ran out. -/
def firstParentSpine (store : FMap Blake3Hash Change) :
    ℕ → Blake3Hash → Option (Except AbsorbError (List Blake3Hash))
  | 0, _ => none
  | fuel + 1, cursor =>
      match readChange store cursor with
      | .error e => some (.error (.repo e))
      | .ok change =>
          match change.deps.sorted with
          | [] => some (.ok [cursor])
          | [dep] => (firstParentSpine store fuel dep).map fun out => out.map (cursor :: ·)
          | _ => some (.error (.mergeChange cursor))

def readSpine (store : FMap Blake3Hash Change) :
    List Blake3Hash → Except AbsorbError (List Change)
  | [] => .ok []
  | id :: ids =>
      match readChange store id with
      | .error e => .error (.repo e)
      | .ok change => (readSpine store ids).map (change :: ·)

/-- What `absorb_ast` calls of the repository. -/
def inAbsorb {α : Type} : RepoM α → AbsorbM α := .focus id (fun s _ => s) .repo

variable [Crypto]

/-- The head of the current view, and the edit since. -/
def absorbDelta (fuel : ℕ) (wd : WorkDir) : RepoM (Blake3Hash × List Atom) := do
  let viewName ← currentViewName
  hydrate fuel viewName
  let heads ← loadView viewName
  let head ← soleHead viewName heads
  let state ← materialize wd viewName
  let workingDelta ← computeWorkingDirectoryDelta wd state
  pure (head, workingDelta)

def syntheticWorking (workingDelta : List Atom) (signer : Author × SigningKey) : Change :=
  Change.new ∅ workingDelta "absorb(ast): working delta" signer.1 signer.2

/-- The target is an element of the spine, which begins with the head. -/
def absorbTarget (fuel : ℕ) (head : Blake3Hash) (working : Change) : AbsorbM Blake3Hash := fun s =>
  (firstParentSpine s.store fuel head).map fun out =>
    (out.bind fun spineIds => (readSpine s.store spineIds).bind fun spineChanges =>
      .ok (spineIds.getD (deepestCommutingIndex working spineChanges) head), s)

def absorbEdit (fuel : ℕ) (wd : WorkDir) (head : Blake3Hash) (workingDelta : List Atom) :
    AbsorbM AbsorbAstResult :=
  if workingDelta = [] then pure ⟨head, none, 0⟩
  else do
    let signer ← inAbsorb signingIdentity
    let selectedTarget ← absorbTarget fuel head (syntheticWorking workingDelta signer)
    if selectedTarget ≠ head then .throw (.notHead selectedTarget head)
    else
      let newHead ← inAbsorb (amend fuel wd none)
      pure ⟨selectedTarget, some newHead, workingDelta.length⟩

def absorbAst (fuel : ℕ) (wd : WorkDir) : AbsorbM AbsorbAstResult := do
  let found ← inAbsorb (absorbDelta fuel wd)
  absorbEdit fuel wd found.1 found.2

end Repo

/-! ## The deepest index -/

section Deepest

variable {working head : Change} {spine : List Change}

theorem foldl_last_le (p : ℕ → Bool) (n : ℕ) :
    (List.range (n + 1)).foldl (fun selected idx => if p idx then idx else selected) 0 ≤ n := by
  induction n with
  | zero => simp
  | succ n ih =>
      rw [List.range_succ, List.foldl_append, List.foldl_cons, List.foldl_nil]
      split_ifs
      · exact le_rfl
      · exact ih.trans n.le_succ

theorem foldl_last_eq_zero_iff (p : ℕ → Bool) (n : ℕ) :
    (List.range n).foldl (fun selected idx => if p idx then idx else selected) 0 = 0
      ↔ ∀ idx < n, idx ≠ 0 → p idx = false := by
  induction n with
  | zero => simp
  | succ n ih =>
      rw [List.range_succ, List.foldl_append, List.foldl_cons, List.foldl_nil]
      simp only [Nat.lt_succ_iff_lt_or_eq, or_imp, forall_and, forall_eq, ← ih]
      rcases Nat.eq_zero_or_pos n with rfl | hn
      · simp
      · cases p n <;> simp [hn.ne']

theorem deepestCommutingIndex_le : deepestCommutingIndex working (head :: spine) ≤ spine.length :=
  foldl_last_le _ _

theorem deepestCommutingIndex_eq_zero_iff :
    deepestCommutingIndex working (head :: spine) = 0
      ↔ spine = [] ∨ commutes working head = false := by
  rw [deepestCommutingIndex, foldl_last_eq_zero_iff]
  constructor
  · intro h
    refine or_iff_not_imp_left.mpr fun hspine => ?_
    simpa using h 1 (by simpa using List.length_pos_iff.mpr hspine) one_ne_zero
  · rintro (rfl | h) idx hlt hidx
    · simp only [List.length_singleton] at hlt
      omega
    · obtain ⟨idx, rfl⟩ := Nat.exists_eq_succ_of_ne_zero hidx
      simp [h]

end Deepest

/-! ## The spine -/

namespace Repo

variable {store : FMap Blake3Hash Change} {id : Blake3Hash} {spine : List Blake3Hash}

/-- A history without forks or merges below a change. -/
inductive LinearSpine (store : FMap Blake3Hash Change) : Blake3Hash → List Blake3Hash → Prop
  | root {id : Blake3Hash} {change : Change} (hread : readChange store id = .ok change)
      (hdeps : change.deps = ∅) : LinearSpine store id [id]
  | next {id dep : Blake3Hash} {change : Change} {spine : List Blake3Hash}
      (hread : readChange store id = .ok change) (hdeps : change.deps = {dep})
      (hrest : LinearSpine store dep spine) : LinearSpine store id (id :: spine)

theorem sorted_eq_singleton_iff {s : Finset Blake3Hash} {a : Blake3Hash} :
    s.sorted = [a] ↔ s = {a} := by
  constructor
  · intro h
    rw [← s.toFinset_sorted, h, List.toFinset_cons, List.toFinset_nil, insert_empty_eq]
  · rintro rfl
    rw [Finset.sorted_eq_sort, Finset.sort_singleton]

theorem firstParentSpine_eq_ok_iff {fuel : ℕ} :
    firstParentSpine store fuel id = some (.ok spine)
      ↔ LinearSpine store id spine ∧ spine.length ≤ fuel := by
  induction fuel generalizing id spine with
  | zero =>
      constructor
      · intro h
        cases h
      · rintro ⟨⟨⟩ | ⟨⟩, hlen⟩ <;> cases hlen
  | succ fuel ih =>
      rw [firstParentSpine]
      constructor
      · intro h
        split at h
        · cases h
        · rename_i change hread
          split at h
          · rename_i hdeps
            cases h
            exact ⟨.root hread (by simpa using congrArg List.toFinset hdeps), by simp⟩
          · rename_i dep hdeps
            obtain ⟨out, hout, hmap⟩ := Option.map_eq_some_iff.mp h
            cases out with
            | error e => cases hmap
            | ok rest =>
                cases hmap
                obtain ⟨hrest, hlen⟩ := ih.mp hout
                exact ⟨.next hread (sorted_eq_singleton_iff.mp hdeps) hrest,
                  Nat.succ_le_succ hlen⟩
          · cases h
      · rintro ⟨hspine, hlen⟩
        cases hspine with
        | root hread hdeps =>
            simp only [hread, hdeps]
            rfl
        | next hread hdeps hrest =>
            have hrec := ih.mpr ⟨hrest, Nat.le_of_succ_le_succ hlen⟩
            simp only [hread, sorted_eq_singleton_iff.mpr hdeps, hrec]
            rfl

theorem LinearSpine.unique {spine' : List Blake3Hash} (h : LinearSpine store id spine)
    (h' : LinearSpine store id spine') : spine = spine' := by
  induction h generalizing spine' with
  | root hread hdeps =>
      cases h' with
      | root => rfl
      | next hread' hdeps' =>
          cases hread.symm.trans hread'
          simp [hdeps] at hdeps'
  | next hread hdeps _ ih =>
      cases h' with
      | root hread' hdeps' =>
          cases hread.symm.trans hread'
          simp [hdeps] at hdeps'
      | next hread' hdeps' hrest' =>
          cases hread.symm.trans hread'
          cases Finset.singleton_injective (hdeps.symm.trans hdeps')
          rw [ih hrest']

theorem LinearSpine.exists_suffix (h : LinearSpine store id spine) {other : Blake3Hash}
    (hother : other ∈ spine) : ∃ rest, LinearSpine store other rest ∧ rest <:+ spine := by
  induction h with
  | root hread hdeps =>
      obtain rfl := List.mem_singleton.mp hother
      exact ⟨_, .root hread hdeps, List.suffix_rfl⟩
  | next hread hdeps hrest ih =>
      rcases List.mem_cons.mp hother with rfl | hother
      · exact ⟨_, .next hread hdeps hrest, List.suffix_rfl⟩
      · obtain ⟨rest, hspine, hsuffix⟩ := ih hother
        exact ⟨rest, hspine, hsuffix.trans (List.suffix_cons _ _)⟩

theorem LinearSpine.notMem_tail (h : LinearSpine store id (id :: spine)) : id ∉ spine := by
  intro hmem
  have hbelow : ∃ rest, LinearSpine store id rest ∧ rest <:+ spine := by
    cases h with
    | root => cases hmem
    | next _ _ hrest => exact hrest.exists_suffix hmem
  obtain ⟨rest, hspine, hsuffix⟩ := hbelow
  have hlen := hsuffix.length_le
  rw [← h.unique hspine, List.length_cons] at hlen
  omega

theorem LinearSpine.read (h : LinearSpine store id spine) :
    ∃ change ids changes, readChange store id = .ok change ∧ spine = id :: ids
      ∧ readSpine store spine = .ok (change :: changes) ∧ changes.length = ids.length
      ∧ (ids = [] ↔ change.deps = ∅) := by
  induction h with
  | root hread hdeps =>
      refine ⟨_, [], [], hread, rfl, ?_, rfl, by simp [hdeps]⟩
      simp only [readSpine, hread]
      rfl
  | next hread hdeps hrest ih =>
      obtain ⟨below, ids, changes, -, rfl, hread', hlen, -⟩ := ih
      refine ⟨_, _, below :: changes, hread, rfl, ?_, congrArg (· + 1) hlen, by simp [hdeps]⟩
      rw [readSpine, hread, hread']
      rfl

theorem absorbTarget_eq_head_iff {fuel : ℕ} {head : Blake3Hash} {working : Change} {s s' : Repo} :
    absorbTarget fuel head working s = some (.ok head, s') ↔ s' = s ∧ ∃ spine change,
      LinearSpine s.store head spine ∧ spine.length ≤ fuel ∧ readChange s.store head = .ok change
        ∧ (change.deps = ∅ ∨ commutes working change = false) := by
  have hchosen {spine : List Blake3Hash} (hspine : LinearSpine s.store head spine) :
      ((readSpine s.store spine).bind fun spineChanges =>
        .ok (spine.getD (deepestCommutingIndex working spineChanges) head)) = .ok head
      ↔ ∃ change, readChange s.store head = .ok change
        ∧ (change.deps = ∅ ∨ commutes working change = false) := by
    obtain ⟨change, ids, changes, hread, rfl, hreads, hlen, hroot⟩ := hspine.read
    have hchanges : changes = [] ↔ change.deps = ∅ := by
      rw [← hroot, ← List.length_eq_zero_iff, hlen, List.length_eq_zero_iff]
    have hle : deepestCommutingIndex working (change :: changes) ≤ ids.length :=
      hlen ▸ deepestCommutingIndex_le
    simp only [hread, hreads, Except.bind, Except.ok.injEq, exists_eq_left', ← hchanges,
      ← deepestCommutingIndex_eq_zero_iff]
    cases hidx : deepestCommutingIndex working (change :: changes) with
    | zero => simp
    | succ idx =>
        have hlt : idx < ids.length := by omega
        have hne : ids[idx] ≠ head := fun h => hspine.notMem_tail (h ▸ List.getElem_mem hlt)
        simp [hlt, hne]
  rw [absorbTarget, Option.map_eq_some_iff]
  constructor
  · rintro ⟨out, hout, hrun⟩
    obtain ⟨hbind, rfl⟩ := Prod.mk.inj hrun
    cases out with
    | error e => cases hbind
    | ok spine =>
        obtain ⟨hspine, hlen⟩ := firstParentSpine_eq_ok_iff.mp hout
        obtain ⟨change, hread, hcond⟩ := (hchosen hspine).mp hbind
        exact ⟨rfl, spine, change, hspine, hlen, hread, hcond⟩
  · rintro ⟨rfl, spine, change, hspine, hlen, hread, hcond⟩
    exact ⟨_, firstParentSpine_eq_ok_iff.mpr ⟨hspine, hlen⟩,
      Prod.ext ((hchosen hspine).mpr ⟨change, hread, hcond⟩) rfl⟩

theorem inAbsorb_eq_ok_iff {α : Type} {p : RepoM α} {s s' : Repo} {a : α} :
    inAbsorb p s = some (.ok a, s') ↔ p s = some (.ok a, s') := by
  rw [inAbsorb, Program.focus_eq_ok_iff]
  simp

variable [Crypto]

theorem absorbEdit_eq_ok_iff {fuel : ℕ} {wd : WorkDir} {head : Blake3Hash}
    {workingDelta : List Atom} {s₁ s' : Repo} {result : AbsorbAstResult} :
    absorbEdit fuel wd head workingDelta s₁ = some (.ok result, s') ↔
      workingDelta = [] ∧ result = ⟨head, none, 0⟩ ∧ s' = s₁
        ∨ workingDelta ≠ [] ∧ ∃ signer spine change newHead, s₁.identity = some signer
          ∧ LinearSpine s₁.store head spine ∧ spine.length ≤ fuel
          ∧ readChange s₁.store head = .ok change
          ∧ (change.deps = ∅ ∨ commutes (syntheticWorking workingDelta signer) change = false)
          ∧ amend fuel wd none s₁ = some (.ok newHead, s')
          ∧ result = ⟨head, some newHead, workingDelta.length⟩ := by
  rw [absorbEdit]
  by_cases hdelta : workingDelta = []
  · rw [if_pos hdelta, Program.pure_run]
    constructor
    · rintro ⟨⟩
      exact .inl ⟨hdelta, rfl, rfl⟩
    · rintro (⟨-, rfl, rfl⟩ | ⟨hne, -⟩)
      · rfl
      · exact absurd hdelta hne
  · rw [if_neg hdelta, Program.bind_eq_ok_iff]
    constructor
    · rintro ⟨signer, s₂, hsigner, hrun⟩
      obtain ⟨hid, rfl⟩ := signingIdentity_eq_ok (inAbsorb_eq_ok_iff.mp hsigner)
      obtain ⟨target, s₂, htarget, hedit⟩ := Program.bind_eq_ok_iff.mp hrun
      by_cases hhead : target ≠ head
      · rw [if_pos hhead] at hedit
        cases hedit
      · rw [if_neg hhead] at hedit
        obtain rfl := not_not.mp hhead
        obtain ⟨rfl, spine, change, hspine, hlen, hread, hcond⟩ :=
          absorbTarget_eq_head_iff.mp htarget
        obtain ⟨newHead, s₃, hamend, hpure⟩ := Program.bind_eq_ok_iff.mp hedit
        cases hpure
        exact .inr ⟨hdelta, signer, spine, change, newHead, hid, hspine, hlen, hread, hcond,
          inAbsorb_eq_ok_iff.mp hamend, rfl⟩
    · rintro (⟨hnil, -⟩ | ⟨-, signer, spine, change, newHead, hid, hspine, hlen, hread, hcond,
        hamend, rfl⟩)
      · exact absurd hnil hdelta
      · have hsigner : signingIdentity s₁ = some (.ok signer, s₁) := by
          simp [signingIdentity, Program.bind_run, Program.get, hid]
        refine ⟨signer, s₁, inAbsorb_eq_ok_iff.mpr hsigner, Program.bind_eq_ok_iff.mpr ⟨head, s₁,
          absorbTarget_eq_head_iff.mpr ⟨rfl, spine, change, hspine, hlen, hread, hcond⟩, ?_⟩⟩
        rw [if_neg (not_not.mpr rfl)]
        exact Program.bind_eq_ok_iff.mpr ⟨newHead, s', inAbsorb_eq_ok_iff.mpr hamend, rfl⟩

/-- **What absorb absorbs.** Nothing to absorb leaves the history alone. Else absorb succeeds
exactly on a linear history whose head is a root or does not commute with the edit, and amends the
head. -/
theorem absorbAst_eq_ok_iff {fuel : ℕ} {wd : WorkDir} {s s' : Repo} {result : AbsorbAstResult} :
    absorbAst fuel wd s = some (.ok result, s') ↔ ∃ found s₁,
      absorbDelta fuel wd s = some (.ok found, s₁)
        ∧ (found.2 = [] ∧ result = ⟨found.1, none, 0⟩ ∧ s' = s₁
          ∨ found.2 ≠ [] ∧ ∃ signer spine change newHead, s₁.identity = some signer
            ∧ LinearSpine s₁.store found.1 spine ∧ spine.length ≤ fuel
            ∧ readChange s₁.store found.1 = .ok change
            ∧ (change.deps = ∅ ∨ commutes (syntheticWorking found.2 signer) change = false)
            ∧ amend fuel wd none s₁ = some (.ok newHead, s')
            ∧ result = ⟨found.1, some newHead, found.2.length⟩) := by
  rw [absorbAst, Program.bind_eq_ok_iff]
  exact exists_congr fun _ => exists_congr fun _ =>
    and_congr inAbsorb_eq_ok_iff absorbEdit_eq_ok_iff

end Repo

end ArcVcs
