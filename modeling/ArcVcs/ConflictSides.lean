import ArcVcs.Hydration
import ArcVcs.Identity
import ArcVcs.Lib.Reader
import ArcVcs.MergeConflicts
import ArcVcs.ReplayWithout
import ArcVcs.Views

/-!
# The sides of a conflict

`resolve_conflict` calls a resolver for every pair of changes that a merge found in conflict. The
content of the two sides goes through the conflict atom of the merge, whose list of sides is sorted,
so it comes back in the order of the hashes.
-/

namespace ArcVcs

/-! ## Reading a conflict token -/

namespace Bincode

def readLe (width : ℕ) : Reader UInt8 ℕ := (Reader.take width).map Nat.ofLittleEndian

def readHash : Reader UInt8 Blake3Hash := (Reader.take 32).map Blake3Hash.ofBytes

/-- A length and as many bytes, which have to be UTF-8. -/
def readStr : Reader UInt8 String :=
  (readLe 8).andThen fun len => (Reader.take len).andThen fun bytes rest =>
    (String.fromUTF8? bytes.toByteArray).map fun s => (s, rest)

def readVec {α : Type*} (reader : Reader UInt8 α) : Reader UInt8 (List α) :=
  (readLe 8).andThen reader.replicate

/-- The fields of a `Conflict` atom behind its variant index. Every other index is refused. -/
def readConflict : Reader UInt8 (List Blake3Hash × List Blake3Hash × NodePath) :=
  (readLe 4).andThen fun variant =>
    if variant = 7 then
      (readVec readHash).andThen fun bases => (readVec readHash).andThen fun sides =>
        (readVec readStr).map fun at_ => (bases, sides, at_)
    else fun _ => none

/-- The lengths in a path fit the length prefixes. -/
structure Fits (path : NodePath) : Prop where
  length : path.length < 256 ^ 8
  segments : ∀ s ∈ path, (utf8 s).length < 256 ^ 8

theorem undoes_readLe (width : ℕ) : (readLe width).Undoes (le width) fun n => n < 256 ^ width := by
  intro n hn rest
  rw [readLe, Reader.map, Reader.take_append (by simp [le])]
  simp only [Option.map_some]
  rw [le, Nat.ofLittleEndian_digits, Nat.mod_eq_of_lt hn]

theorem ofBytes_asBytes (h : Blake3Hash) : Blake3Hash.ofBytes h.asBytes = h := by
  rw [Blake3Hash.ofBytes, Blake3Hash.asBytes]
  have hdigits := Nat.ofBigEndian_digits 32 h.toNat
  rw [show 32 - 1 = 31 from rfl] at hdigits
  rw [hdigits, Nat.mod_eq_of_lt (by exact h.isLt)]
  exact Fin.ofNat_val_eq_self h

theorem undoes_readHash : readHash.Undoes Blake3Hash.asBytes fun _ => True := by
  intro h _ rest
  rw [readHash, Reader.map, Reader.take_append h.length_asBytes]
  simp only [Option.map_some]
  rw [ofBytes_asBytes]

theorem undoes_readStr : readStr.Undoes str fun s => (utf8 s).length < 256 ^ 8 := by
  intro s hs rest
  rw [readStr, str, List.append_assoc, (undoes_readLe 8).andThen hs, Reader.andThen,
    Reader.take_append rfl]
  dsimp only
  rw [fromUtf8_utf8]
  rfl

theorem readVec_vec {α : Type*} {reader : Reader UInt8 α} {enc : α → Bytes} {P : α → Prop}
    (h : reader.Undoes enc P) :
    (readVec reader).Undoes (vec enc) fun l => (∀ a ∈ l, P a) ∧ l.length < 256 ^ 8 :=
  h.prefixed (undoes_readLe 8)

theorem readConflict_conflict {bases sides : List Blake3Hash} {at_ : NodePath}
    (hbases : bases.length < 256 ^ 8) (hsides : sides.length < 256 ^ 8) (hat : Fits at_)
    (rest : Bytes) :
    readConflict (conflict bases sides at_ ++ rest) = some ((bases, sides, at_), rest) := by
  rw [readConflict, conflict, List.append_assoc, List.append_assoc, List.append_assoc,
    (undoes_readLe 4).andThen (by decide : 7 < 256 ^ 4), if_pos rfl,
    (readVec_vec undoes_readHash).andThen ⟨fun _ _ => trivial, hbases⟩,
    (readVec_vec undoes_readHash).andThen ⟨fun _ _ => trivial, hsides⟩, Reader.map,
    readVec_vec undoes_readStr _ ⟨hat.segments, hat.length⟩]
  rfl

end Bincode

/-- The bases and sides in a projected conflict token. -/
def decodeConflictProjection (bytes : Bytes) : Option (List Blake3Hash × List Blake3Hash) :=
  match bytes.dropPrefix? (utf8 "ARC_CONFLICT_REF:") with
  | none => none
  | some payload => (Bincode.readConflict payload).map fun out => (out.1.1, out.1.2.1)

theorem decodeConflictProjection_token {bases sides : List Blake3Hash} {at_ : NodePath}
    (hbases : bases.length < 256 ^ 8) (hsides : sides.length < 256 ^ 8) (hat : Bincode.Fits at_) :
    decodeConflictProjection (conflictToken bases sides at_) = some (bases, sides) := by
  have hread := Bincode.readConflict_conflict hbases hsides hat []
  rw [List.append_nil] at hread
  have hdrop : (conflictToken bases sides at_).dropPrefix? (utf8 "ARC_CONFLICT_REF:")
      = some (Bincode.conflict bases sides at_) := by
    exact List.dropPrefix?_eq_some_iff.mpr ⟨_, rfl, beq_self_eq_true _⟩
  rw [decodeConflictProjection, hdrop]
  simp only [hread]
  rfl

/-! ## The resolution -/

/-- What a conflicting merge writes to `.arc/conflict`. -/
structure PendingConflict where
  currentView : String
  targetHeads : Finset Blake3Hash
  conflictingPairs : List (Blake3Hash × Blake3Hash)
deriving DecidableEq

/-- The arguments of one call of the resolver. -/
@[ext] structure ResolverCall where
  base : Bytes
  ours : Bytes
  theirs : Bytes
  intentOurs : String
  intentTheirs : String
deriving DecidableEq

inductive ResolveError where
  | noConflict
  | aiPending
  | missing (id : Blake3Hash)
  | noOverlappingPath
  | readBlob (hash : Blake3Hash)
  | resolver (text : String)
  | verification (path : NodePath)
deriving DecidableEq

/-- A resolved pair. -/
structure ResolvedPair where
  path : NodePath
  content : Bytes
  intentOurs : String
  intentTheirs : String

/-- What the resolution saves for the approval. -/
structure PendingResolve where
  intent : String
  files : List String
  atoms : List Atom
  deps : Finset Blake3Hash

/-- The record of a merge whose conflicting pairs are known. -/
def ChangeGraph.pendingConflict (g : ChangeGraph) (view : String)
    (current target : Finset Blake3Hash) : Except MergeError (Option PendingConflict) :=
  match g.conflictingPairs (g.delta current target target).sorted
      (g.delta current target current).sorted with
  | .error e => .error e
  | .ok pairs => .ok (if pairs = [] then none else some ⟨view, target, pairs⟩)

/-- `read_blob_bytes`, which does not check the content. -/
def readBlobBytes (blobs : FMap Blake3Hash Bytes) (hash : Blake3Hash) : Except ResolveError Bytes :=
  match blobs.lookup hash with
  | none => .error (.readBlob hash)
  | some bytes => .ok bytes

/-- The content behind the hash at an index, or the content from before where there is none. -/
def readSide (blobs : FMap Blake3Hash Bytes) (hashes : List Blake3Hash) (i : ℕ) (content : Bytes) :
    Except ResolveError Bytes :=
  match hashes[i]? with
  | none => .ok content
  | some hash => readBlobBytes blobs hash

/-- The arguments for one pair, with the path at which its changes overlap. -/
def resolverCall (g : ChangeGraph) (blobs : FMap Blake3Hash Bytes)
    (states : ChangeGraph.ConflictStates) (pair : Blake3Hash × Blake3Hash) :
    Except ResolveError (NodePath × ResolverCall) :=
  match g.get pair.1 with
  | none => .error (.missing pair.1)
  | some changeA =>
  match g.get pair.2 with
  | none => .error (.missing pair.2)
  | some changeB =>
  match findOverlappingPath changeA.atoms changeB.atoms with
  | none => .error .noOverlappingPath
  | some path => do
      let base := ChangeGraph.extractContentAtPath states.base path
      let ours := ChangeGraph.extractContentAtPath states.ours path
      let theirs := ChangeGraph.extractContentAtPath states.theirs path
      match decodeConflictProjection ours with
      | none => .ok (path, ⟨base, ours, theirs, changeA.intent, changeB.intent⟩)
      | some (bases, sides) => do
          let base ← readSide blobs bases 0 base
          let ours ← readSide blobs sides 0 ours
          let theirs ← readSide blobs sides 1 theirs
          .ok (path, ⟨base, ours, theirs, changeA.intent, changeB.intent⟩)

section Resolve

variable [Crypto]

/-- The loop over the pairs: the calls that are made, each with its pair, the blob store after it,
and what was resolved. It stops at the first error. -/
def resolvePairs (g : ChangeGraph) (states : ChangeGraph.ConflictStates)
    (resolver : ResolverCall → Except String Bytes) (verify : NodePath → Bytes → Bool) :
    List (Blake3Hash × Blake3Hash) → FMap Blake3Hash Bytes →
      List ((Blake3Hash × Blake3Hash) × ResolverCall) × FMap Blake3Hash Bytes
        × Except ResolveError (List ResolvedPair)
  | [], blobs => ([], blobs, .ok [])
  | pair :: pairs, blobs =>
      match resolverCall g blobs states pair with
      | .error e => ([], blobs, .error e)
      | .ok (path, call) =>
          match resolver call with
          | .error text => ([(pair, call)], blobs, .error (.resolver text))
          | .ok content =>
              if verify path content then
                let next := resolvePairs g states resolver verify pairs
                  (blobs.putOnce (Crypto.hashBytes content) content)
                ((pair, call) :: next.1, next.2.1, next.2.2.map fun resolved =>
                  ⟨path, content, call.intentOurs, call.intentTheirs⟩ :: resolved)
              else ([(pair, call)], blobs, .error (.verification path))

def ResolvedPair.file? (pair : ResolvedPair) : Option String :=
  match pair.path with
  | kind :: filepath :: _ => if kind = "file" then some filepath else none
  | _ => none

def pendingResolve (heads target : Finset Blake3Hash) (resolved : List ResolvedPair) :
    PendingResolve where
  intent := "AI merge: "
    ++ String.join (resolved.map fun r => r.intentOurs ++ " + " ++ r.intentTheirs ++ "; ")
  files := resolved.filterMap ResolvedPair.file?
  atoms := resolved.map fun r => .insert r.path (Crypto.hashBytes r.content)
  deps := heads ∪ target

namespace Repo

def resolveStates (fuel : ℕ) (wd : WorkDir) (conflict : PendingConflict) :
    RepoM (Finset Blake3Hash × ChangeGraph.ConflictStates) := do
  hydrate fuel conflict.currentView
  hydrateHeads fuel conflict.targetHeads
  let heads ← loadView conflict.currentView
  let s ← .get
  let lcaState ← materializeNonempty wd (s.graph.mergeBasesOrdered heads conflict.targetHeads)
  let currentState ← materializeHeads wd heads
  let targetState ← materializeHeads wd conflict.targetHeads
  pure (heads, ⟨lcaState, currentState, targetState⟩)

/-- `resolve_conflict` with the conflict file and the pending AI change that it finds: the calls of
the resolver and what is saved for the approval. Writes to the working directory are left out. -/
def resolveConflict (fuel : ℕ) (wd : WorkDir) (resolver : ResolverCall → Except String Bytes)
    (verify : NodePath → Bytes → Bool) (conflict : Option PendingConflict) (aiPending : Bool) :
    RepoM (List ((Blake3Hash × Blake3Hash) × ResolverCall) × Except ResolveError PendingResolve) :=
  match conflict with
  | none => pure ([], .error .noConflict)
  | some conflict =>
      if aiPending then pure ([], .error .aiPending)
      else do
        let (heads, states) ← resolveStates fuel wd conflict
        let s ← .get
        let (calls, blobs, resolved) :=
          resolvePairs s.graph states resolver verify conflict.conflictingPairs s.blobs
        .modify fun s => { s with blobs }
        pure (calls, resolved.map (pendingResolve heads conflict.targetHeads))

end Repo

end Resolve

/-! ## The calls -/

section Calls

variable {g : ChangeGraph} {blobs blobs' : FMap Blake3Hash Bytes}
  {states : ChangeGraph.ConflictStates} {pair : Blake3Hash × Blake3Hash} {path : NodePath}
  {call : ResolverCall}

theorem resolverCall_eq_ok (h : resolverCall g blobs states pair = .ok (path, call)) :
    ∃ a b, g.get pair.1 = some a ∧ g.get pair.2 = some b
      ∧ findOverlappingPath a.atoms b.atoms = some path
      ∧ call.intentOurs = a.intent ∧ call.intentTheirs = b.intent := by
  unfold resolverCall at h
  cases ha : g.get pair.1 with
  | none => simp [ha] at h
  | some a =>
      cases hb : g.get pair.2 with
      | none => simp [ha, hb] at h
      | some b =>
          cases hpath : findOverlappingPath a.atoms b.atoms with
          | none => simp [ha, hb, hpath] at h
          | some p =>
              simp only [ha, hb, hpath] at h
              cases hdec : decodeConflictProjection
                  (ChangeGraph.extractContentAtPath states.ours p) with
              | none =>
                  simp only [hdec, Except.ok.injEq, Prod.mk.injEq] at h
                  obtain ⟨rfl, rfl⟩ := h
                  exact ⟨a, b, rfl, rfl, hpath, rfl, rfl⟩
              | some found =>
                  simp only [hdec] at h
                  obtain ⟨base, -, h⟩ := Except.bind_eq_ok_iff.mp h
                  obtain ⟨ours, -, h⟩ := Except.bind_eq_ok_iff.mp h
                  obtain ⟨theirs, -, h⟩ := Except.bind_eq_ok_iff.mp h
                  obtain ⟨rfl, rfl⟩ := Prod.mk.inj (Except.ok.inj h)
                  exact ⟨a, b, rfl, rfl, hpath, rfl, rfl⟩

theorem readBlobBytes_eq_ok_iff {hash : Blake3Hash} {bytes : Bytes} :
    readBlobBytes blobs hash = .ok bytes ↔ blobs.lookup hash = some bytes := by
  unfold readBlobBytes
  cases blobs.lookup hash <;> simp

theorem resolverCall_token {bases sides : List Blake3Hash} {base first second : Blake3Hash}
    {a b : Change} (ha : g.get pair.1 = some a) (hb : g.get pair.2 = some b)
    (hpath : findOverlappingPath a.atoms b.atoms = some path)
    (hour : states.ours.lookup path = some (conflictToken bases sides path))
    (hfits : Bincode.Fits path) (hbases : bases = [base]) (hsides : sides = [first, second]) :
    resolverCall g blobs states pair = (do
      let base ← readBlobBytes blobs base
      let ours ← readBlobBytes blobs first
      let theirs ← readBlobBytes blobs second
      .ok (path, ⟨base, ours, theirs, a.intent, b.intent⟩)) := by
  have hdec : decodeConflictProjection (ChangeGraph.extractContentAtPath states.ours path)
      = some ([base], [first, second]) := by
    rw [ChangeGraph.extractContentAtPath, hour, Option.getD_some, hbases, hsides]
    exact decodeConflictProjection_token (by simp) (by simp) hfits
  unfold resolverCall
  simp only [ha, hb, hpath, hdec]
  rfl

theorem resolverCall_of_token {bases sides : List Blake3Hash} {base first second : Blake3Hash}
    (hour : states.ours.lookup path = some (conflictToken bases sides path))
    (hfits : Bincode.Fits path) (hbases : bases = [base]) (hsides : sides = [first, second])
    (h : resolverCall g blobs states pair = .ok (path, call)) :
    blobs.lookup base = some call.base ∧ blobs.lookup first = some call.ours
      ∧ blobs.lookup second = some call.theirs := by
  obtain ⟨a, b, ha, hb, hpath, -, -⟩ := resolverCall_eq_ok h
  rw [resolverCall_token ha hb hpath hour hfits hbases hsides] at h
  obtain ⟨x, hx, h⟩ := Except.bind_eq_ok_iff.mp h
  obtain ⟨y, hy, h⟩ := Except.bind_eq_ok_iff.mp h
  obtain ⟨z, hz, h⟩ := Except.bind_eq_ok_iff.mp h
  obtain ⟨-, rfl⟩ := Prod.mk.inj (Except.ok.inj h)
  exact ⟨readBlobBytes_eq_ok_iff.mp hx, readBlobBytes_eq_ok_iff.mp hy,
    readBlobBytes_eq_ok_iff.mp hz⟩

theorem lookup_of_resolvePairs [Crypto] {resolver : ResolverCall → Except String Bytes}
    {verify : NodePath → Bytes → Bool} {pairs : List (Blake3Hash × Blake3Hash)}
    {hash : Blake3Hash} {bytes : Bytes} (h : blobs.lookup hash = some bytes) :
    (resolvePairs g states resolver verify pairs blobs).2.1.lookup hash = some bytes := by
  induction pairs generalizing blobs with
  | nil => exact h
  | cons next pairs ih =>
      rw [resolvePairs]
      cases resolverCall g blobs states next with
      | error e => exact h
      | ok out =>
          dsimp only
          cases resolver out.2 with
          | error text => exact h
          | ok content =>
              dsimp only
              split_ifs
              · exact ih (FMap.lookup_putOnce_of_some _ _ _ h)
              · exact h

theorem resolvePairs_singleton [Crypto] (h : resolverCall g blobs states pair = .ok (path, call)) :
    resolvePairs g states (fun _ => .ok []) (fun _ _ => true) [pair] blobs
      = ([(pair, call)], blobs.putOnce (Crypto.hashBytes []) [],
          .ok [⟨path, [], call.intentOurs, call.intentTheirs⟩]) := by
  rw [resolvePairs, h]
  rfl

theorem mem_resolvePairs [Crypto] {resolver : ResolverCall → Except String Bytes}
    {verify : NodePath → Bytes → Bool} {pairs : List (Blake3Hash × Blake3Hash)}
    (h : (pair, call) ∈ (resolvePairs g states resolver verify pairs blobs).1) :
    pair ∈ pairs ∧ ∃ path blobs', resolverCall g blobs' states pair = .ok (path, call)
      ∧ ∀ hash bytes, blobs'.lookup hash = some bytes →
        (resolvePairs g states resolver verify pairs blobs).2.1.lookup hash = some bytes := by
  induction pairs generalizing blobs with
  | nil => simp [resolvePairs] at h
  | cons next pairs ih =>
      have hkept := fun hash bytes => @lookup_of_resolvePairs g blobs states _ resolver verify
        (next :: pairs) hash bytes
      rw [resolvePairs] at h hkept ⊢
      cases hcall : resolverCall g blobs states next with
      | error e => simp [hcall] at h
      | ok out =>
          simp only [hcall] at h hkept ⊢
          cases hres : resolver out.2 with
          | error text =>
              simp only [hres, List.mem_singleton] at h hkept ⊢
              obtain ⟨rfl, rfl⟩ := Prod.mk.inj h
              exact ⟨List.mem_cons_self, out.1, blobs, hcall, hkept⟩
          | ok content =>
              simp only [hres] at h hkept ⊢
              split_ifs at h hkept ⊢ with hver
              · rcases List.mem_cons.mp h with h | h
                · obtain ⟨rfl, rfl⟩ := Prod.mk.inj h
                  exact ⟨List.mem_cons_self, out.1, blobs, hcall, hkept⟩
                · obtain ⟨hmem, path, blobs', hrun, hlater⟩ := ih h
                  exact ⟨.tail _ hmem, path, blobs', hrun, hlater⟩
              · obtain ⟨rfl, rfl⟩ := Prod.mk.inj (List.mem_singleton.mp h)
                exact ⟨List.mem_cons_self, out.1, blobs, hcall, hkept⟩

end Calls

/-! ## From the merge to the resolution -/

open Repo

/-- What a conflicting merge works with and writes down. -/
structure MergeRecord where
  current : Finset Blake3Hash
  pending : PendingConflict
  states : ChangeGraph.ConflictStates
  paths : List NodePath

variable [Crypto] {fuel : ℕ} {wd : WorkDir} {target : Finset Blake3Hash} {s s₁ t : Repo}
  {r : MergeRecord}

namespace MergeRecord

/-- The hashes of our and of their content at a path. -/
def sides (r : MergeRecord) (path : NodePath) : Blake3Hash × Blake3Hash :=
  (Crypto.hashBytes (ChangeGraph.extractContentAtPath r.states.ours path),
    Crypto.hashBytes (ChangeGraph.extractContentAtPath r.states.theirs path))

/-- The token that replay projects for the recorded conflict at a path. -/
def token (r : MergeRecord) (path : NodePath) : Bytes :=
  conflictToken [Crypto.hashBytes (ChangeGraph.extractContentAtPath r.states.base path)]
    ([(r.sides path).1, (r.sides path).2].insertionSort (· ≤ ·)) path

omit [Crypto] in
/-- The call that keeps the orientation: every content from before the merge with the intent of
its own side. -/
def oriented (r : MergeRecord) (a b : Change) (path : NodePath) : ResolverCall :=
  ⟨ChangeGraph.extractContentAtPath r.states.base path,
    ChangeGraph.extractContentAtPath r.states.ours path,
    ChangeGraph.extractContentAtPath r.states.theirs path, a.intent, b.intent⟩

end MergeRecord

/-- The merge of the target into the current view finds conflicts and leaves `s₁` before it moves
the view. -/
structure RecordsConflict (fuel : ℕ) (wd : WorkDir) (target : Finset Blake3Hash) (s s₁ : Repo)
    (r : MergeRecord) : Prop where
  run : ∃ plan, mergePlan fuel wd target s = some (.ok (.conflict plan), s₁)
  view : s.views.lookup s.head = some r.current
  pending : s₁.graph.pendingConflict s.head r.current target = .ok (some r.pending)
  base : s₁.graph.lcaState (s.applyEnv wd.agentIgnore) r.current target = .ok r.states.base
  ours : s₁.graph.materializeHeads (s.applyEnv wd.agentIgnore) r.current = .ok r.states.ours
  theirs : s₁.graph.materializeHeads (s.applyEnv wd.agentIgnore) target = .ok r.states.theirs
  paths : s₁.graph.conflictPaths r.pending.conflictingPairs [] = .ok r.paths
  blobs : s₁.blobs = putContents s.blobs (r.paths.flatMap r.states.blobs)

theorem mergePlan_eq_ok {commit : MergeCommit}
    (h : mergePlan fuel wd target s = some (.ok commit, s₁)) :
    ∃ current currentState g₁ g plan, s.views.lookup s.head = some current
      ∧ hydrateGraph fuel s.store s.epochs s.graph current = some (.ok g₁)
      ∧ hydrateGraph fuel s.store s.epochs g₁ target = some (.ok g)
      ∧ g.materializeHeads (s.applyEnv wd.agentIgnore) current = .ok currentState
      ∧ wd.isClean currentState = true
      ∧ g.mergePlan (s.applyEnv wd.agentIgnore) current target currentState = .ok plan
      ∧ (plan = .union ∧ commit = .union s.head current target ∧ s₁ = { s with graph := g }
        ∨ ∃ pairs states paths advance, plan = .conflict pairs states paths
          ∧ conflictAdvance s.head current target pairs states paths { s with graph := g }
            = some (.ok advance, s₁) ∧ commit = .conflict advance) := by
  obtain ⟨_, _, hname, hrest⟩ := Program.bind_eq_ok_iff.mp h
  cases hname
  obtain ⟨_, s₂, hhydrate, hrest⟩ := Program.bind_eq_ok_iff.mp hrest
  obtain ⟨heads, g₁, hheads, hg₁, rfl⟩ := hydrate_eq_ok hhydrate
  obtain ⟨_, s₃, htarget, hrest⟩ := Program.bind_eq_ok_iff.mp hrest
  obtain ⟨g, hg, rfl⟩ := hydrateHeads_eq_ok_iff.mp htarget
  obtain ⟨current, _, hload, hrest⟩ := Program.bind_eq_ok_iff.mp hrest
  obtain ⟨hview, rfl⟩ := loadView_eq_ok_iff.mp hload
  obtain rfl := Option.some_inj.mp (hheads.symm.trans hview)
  obtain ⟨currentState, _, hcurrent, hrest⟩ := Program.bind_eq_ok_iff.mp hrest
  obtain ⟨hours, rfl⟩ := materializeHeads_eq_ok_iff.mp hcurrent
  obtain ⟨_, s₄, hclean, hrest⟩ := Program.bind_eq_ok_iff.mp hrest
  obtain ⟨hisClean, rfl⟩ := checkWorkingDirClean_eq_ok_iff.mp hclean
  obtain ⟨_, _, hget, hrest⟩ := Program.bind_eq_ok_iff.mp hrest
  cases hget
  cases hplan : g.mergePlan (s.applyEnv wd.agentIgnore) heads target currentState with
  | error e =>
      have hplan' : g.mergePlan ({ s with graph := g }.applyEnv wd.agentIgnore) heads target
          currentState = .error e := hplan
      simp [hplan', Program.throw] at hrest
  | ok plan =>
      have hplan' : g.mergePlan ({ s with graph := g }.applyEnv wd.agentIgnore) heads target
          currentState = .ok plan := hplan
      refine ⟨heads, currentState, g₁, g, plan, hview, hg₁, hg, hours, hisClean, hplan, ?_⟩
      cases plan with
      | union =>
          simp only [hplan'] at hrest
          obtain ⟨hcommit, rfl⟩ := Prod.mk.inj (Option.some_inj.mp hrest)
          exact Or.inl ⟨rfl, (Except.ok.inj hcommit).symm, rfl⟩
      | conflict pairs states paths =>
          simp only [hplan'] at hrest
          obtain ⟨advance, s₅, hadvance, hrest⟩ := Program.bind_eq_ok_iff.mp hrest
          obtain ⟨hcommit, rfl⟩ := Prod.mk.inj (Option.some_inj.mp hrest)
          exact Or.inr ⟨pairs, states, paths, advance, rfl, hadvance, (Except.ok.inj hcommit).symm⟩

/-- From `s` to `t` objects were added or collected, and none was replaced. -/
structure KeptSince (s t : Repo) : Prop where
  changes : ∀ id c c', s.store.lookup id = some c → t.store.lookup id = some c' → c' = c
  blobs : ∀ hash bytes bytes', s.blobs.lookup hash = some bytes →
    t.blobs.lookup hash = some bytes' → bytes' = bytes

omit [Crypto] in
theorem KeptSince.of_putOnce {id : Blake3Hash} {c : Change} {hash : Blake3Hash} {content : Bytes}
    (hstore : t.store = s.store.putOnce id c) (hblobs : t.blobs = s.blobs.putOnce hash content) :
    KeptSince s t where
  changes key c c' h h' := by
    rw [hstore, FMap.lookup_putOnce_of_some _ _ _ h] at h'
    exact Option.some_inj.mp h'.symm
  blobs key bytes bytes' h h' := by
    rw [hblobs, FMap.lookup_putOnce_of_some _ _ _ h] at h'
    exact Option.some_inj.mp h'.symm

/-- The view of the record still holds every conflict as the merge recorded it. -/
def HoldsConflicts (fuel : ℕ) (wd : WorkDir) (r : MergeRecord) (t : Repo) : Prop :=
  ∀ heads states t₁, resolveStates fuel wd r.pending t = some (.ok (heads, states), t₁) →
    ∀ path ∈ r.paths, states.ours.lookup path = some (r.token path)

theorem MergeRecord.token_eq (r : MergeRecord) (path : NodePath) :
    r.token path = conflictToken [Crypto.hashBytes (ChangeGraph.extractContentAtPath r.states.base
      path)] (if (r.sides path).1 ≤ (r.sides path).2 then [(r.sides path).1, (r.sides path).2]
        else [(r.sides path).2, (r.sides path).1]) path := by
  rw [token]
  split_ifs with h <;> simp [h]

theorem resolveStates_eq_ok {conflict : PendingConflict} {heads : Finset Blake3Hash}
    {states : ChangeGraph.ConflictStates} {t₁ : Repo}
    (h : resolveStates fuel wd conflict t = some (.ok (heads, states), t₁)) :
    ∃ g₁ g, hydrateGraph fuel t.store t.epochs t.graph heads = some (.ok g₁)
      ∧ hydrateGraph fuel t.store t.epochs g₁ conflict.targetHeads = some (.ok g)
      ∧ t.views.lookup conflict.currentView = some heads ∧ t₁ = { t with graph := g }
      ∧ g.materializeHeads (t.applyEnv wd.agentIgnore) heads = .ok states.ours := by
  obtain ⟨_, _, hhydrate, hrest⟩ := Program.bind_eq_ok_iff.mp h
  obtain ⟨heads₀, g₁, hview, hg₁, rfl⟩ := hydrate_eq_ok hhydrate
  obtain ⟨_, _, htarget, hrest⟩ := Program.bind_eq_ok_iff.mp hrest
  obtain ⟨g, hg, rfl⟩ := hydrateHeads_eq_ok_iff.mp htarget
  obtain ⟨heads₁, _, hload, hrest⟩ := Program.bind_eq_ok_iff.mp hrest
  obtain ⟨hview₁, rfl⟩ := loadView_eq_ok_iff.mp hload
  obtain rfl := Option.some_inj.mp (hview.symm.trans hview₁)
  obtain ⟨_, _, hget, hrest⟩ := Program.bind_eq_ok_iff.mp hrest
  cases hget
  obtain ⟨base, s₂, hbase, hrest⟩ := Program.bind_eq_ok_iff.mp hrest
  obtain ⟨rfl, -⟩ := materializeNonempty_eq_ok_iff.mp hbase
  obtain ⟨ours, _, hrun, hrest⟩ := Program.bind_eq_ok_iff.mp hrest
  obtain ⟨hours, rfl⟩ := materializeHeads_eq_ok_iff.mp hrun
  obtain ⟨theirs, _, htheirs, hrest⟩ := Program.bind_eq_ok_iff.mp hrest
  obtain ⟨-, rfl⟩ := materializeHeads_eq_ok_iff.mp htheirs
  obtain ⟨hout, rfl⟩ := Prod.mk.inj (Option.some_inj.mp hrest)
  obtain ⟨rfl, rfl⟩ := Prod.mk.inj (Except.ok.inj hout)
  exact ⟨g₁, g, hg₁, hg, hview, rfl, hours⟩

theorem resolveConflict_run {resolver : ResolverCall → Except String Bytes}
    {verify : NodePath → Bytes → Bool} {conflict : PendingConflict} {heads : Finset Blake3Hash}
    {states : ChangeGraph.ConflictStates} {t₁ : Repo}
    (h : resolveStates fuel wd conflict t = some (.ok (heads, states), t₁))
    {calls : List ((Blake3Hash × Blake3Hash) × ResolverCall)} {blobs : FMap Blake3Hash Bytes}
    {resolved : Except ResolveError (List ResolvedPair)}
    (hpairs : resolvePairs t₁.graph states resolver verify conflict.conflictingPairs t₁.blobs
      = (calls, blobs, resolved)) :
    resolveConflict fuel wd resolver verify (some conflict) false t
      = some (.ok (calls, resolved.map (pendingResolve heads conflict.targetHeads)),
          { t₁ with blobs }) := by
  simp only [resolveConflict, Bool.false_eq_true, if_false]
  refine Program.bind_eq_ok_iff.mpr ⟨_, _, h, ?_⟩
  refine Program.bind_eq_ok_iff.mpr ⟨t₁, t₁, rfl, ?_⟩
  simp only [hpairs]
  rfl

theorem resolveConflict_eq_ok {resolver : ResolverCall → Except String Bytes}
    {verify : NodePath → Bytes → Bool} {conflict : PendingConflict}
    {calls : List ((Blake3Hash × Blake3Hash) × ResolverCall)}
    {out : Except ResolveError PendingResolve} {t' : Repo}
    (h : resolveConflict fuel wd resolver verify (some conflict) false t
      = some (.ok (calls, out), t')) :
    ∃ heads states t₁, resolveStates fuel wd conflict t = some (.ok (heads, states), t₁)
      ∧ calls = (resolvePairs t₁.graph states resolver verify conflict.conflictingPairs
        t₁.blobs).1
      ∧ t' = { t₁ with blobs := (resolvePairs t₁.graph states resolver verify
        conflict.conflictingPairs t₁.blobs).2.1 } := by
  simp only [resolveConflict, Bool.false_eq_true, if_false] at h
  obtain ⟨⟨heads, states⟩, t₁, hstates, hrest⟩ := Program.bind_eq_ok_iff.mp h
  obtain ⟨_, _, hget, hrest⟩ := Program.bind_eq_ok_iff.mp hrest
  cases hget
  obtain ⟨_, _, hmodify, hrest⟩ := Program.bind_eq_ok_iff.mp hrest
  obtain ⟨-, rfl⟩ := Prod.mk.inj (Option.some_inj.mp hmodify)
  obtain ⟨hout, rfl⟩ := Prod.mk.inj (Option.some_inj.mp hrest)
  exact ⟨heads, states, t₁, hstates, (Prod.mk.inj (Except.ok.inj hout)).1.symm, rfl⟩

/-! ## The projected tokens -/

theorem conflictAtom_effect {env : ApplyEnv} (hsparse : env.sparse = none) {author : Author}
    {path key : NodePath} {state out : MaterializedState}
    (h : ((r.states.atom path).effect env author).run state = some out) :
    out.lookup key = if key = path then some (r.token path) else state.lookup key := by
  unfold Atom.effect at h
  split_ifs at h
  simp only [Atom.plainEffect, isSkipped, hsparse, Bool.false_eq_true, if_false,
    ChangeGraph.ConflictStates.atom, Atom.keyedOp, KeyedOp.act_run, Option.map_some,
    Option.some.injEq] at h
  rw [← h, FMap.set_some, FMap.lookup_insert_eq]
  rfl

theorem conflictAtoms_run {env : ApplyEnv} (hsparse : env.sparse = none) {author : Author}
    {paths : List NodePath} {state out : MaterializedState}
    (h : ((paths.map r.states.atom).map (Atom.effect env author)).prod.run state = some out)
    (key : NodePath) :
    out.lookup key = if key ∈ paths then some (r.token key) else state.lookup key := by
  induction paths generalizing state with
  | nil =>
      obtain rfl : state = out := by simpa using h
      simp
  | cons path paths ih =>
      rw [List.map_cons, List.map_cons, PartialAction.run_prod_eq_some_cons] at h
      obtain ⟨mid, hfirst, hrest⟩ := h
      rw [ih hrest, conflictAtom_effect hsparse hfirst]
      by_cases hmem : key ∈ paths
      · simp [hmem]
      · by_cases hkey : key = path <;> simp [hmem, hkey]

omit [Crypto] in
theorem ChangeGraph.run_effect_of_materializeHeads {g : ChangeGraph} (hg : g.Indexed)
    (hac : g.Acyclic) {env : ApplyEnv} {c : Change} {out : MaterializedState}
    (hget : g.get c.id = some c) (h : g.materializeHeads env {c.id} = .ok out) :
    ∃ state, (c.effect env).run state = some out := by
  obtain ⟨order, hrun, horder⟩ := hg.topologicalSort_spec hac {c.id}
  rw [materializeHeads_eq_ok_iff hrun] at h
  have hself : c.id ∈ order := (horder.mem_iff c.id).mpr
    (subset_ancestorsInclusive g {c.id} (Finset.mem_singleton_self _))
  obtain ⟨pre, post, rfl⟩ := List.append_of_mem hself
  have hpost : post = [] := by
    refine List.eq_nil_iff_forall_not_mem.mpr fun y hy => ?_
    exact horder.notMem_ancestors_of_after hac hy ((horder.mem_iff y).mp (by simp [hy]))
  subst hpost
  rw [replayAction_append, PartialAction.run_mul, Option.bind_eq_some_iff] at h
  obtain ⟨state, -, hlast⟩ := h
  refine ⟨state, ?_⟩
  rwa [replayAction_singleton, effectAt_of_get hget] at hlast

theorem holdsConflicts_of_view {c : Change} (hatoms : c.atoms = r.states.atoms r.paths)
    (hview : t.views.lookup r.pending.currentView = some {c.id})
    (hstored : readChange t.store c.id = .ok c) (hloaded : Loaded t.store t.graph)
    (hac : ∀ g, Loaded t.store g → g.Acyclic) : HoldsConflicts fuel wd r t := by
  intro heads states t₁ hrun path hpath
  obtain ⟨g₁, g, hg₁, hg, hheads, -, hours⟩ := resolveStates_eq_ok hrun
  obtain rfl := Option.some_inj.mp (hheads.symm.trans hview)
  have hg' : Loaded t.store g := (hloaded.hydrateGraph hg₁).hydrateGraph hg
  obtain ⟨c', hget⟩ := Option.ne_none_iff_exists'.mp
    (ChangeGraph.get_ne_none_of_materializeHeads hg'.indexed hours (Finset.mem_singleton_self c.id))
  obtain rfl := Except.ok.inj ((hg'.stored c.id c' hget).symm.trans hstored)
  obtain ⟨state, heffect⟩ :=
    ChangeGraph.run_effect_of_materializeHeads hg'.indexed (hac g hg') hget hours
  rw [Change.effect, hatoms, ChangeGraph.ConflictStates.atoms] at heffect
  rw [conflictAtoms_run rfl heffect, if_pos (List.mem_insertionSort _ |>.mpr hpath)]

/-- The call that the resolution makes: the contents of the sides are in the order of their
hashes. -/
def MergeRecord.recovered (r : MergeRecord) (a b : Change) (path : NodePath) : ResolverCall :=
  if (r.sides path).1 ≤ (r.sides path).2 then r.oriented a b path
  else
    { r.oriented a b path with
      ours := ChangeGraph.extractContentAtPath r.states.theirs path
      theirs := ChangeGraph.extractContentAtPath r.states.ours path }

theorem MergeRecord.recovered_eq_oriented_iff {a b : Change} {path : NodePath} :
    r.recovered a b path = r.oriented a b path ↔ (r.sides path).1 ≤ (r.sides path).2 := by
  unfold recovered
  split_ifs with h
  · exact iff_of_true rfl h
  · refine iff_of_false (fun heq => h (le_of_eq ?_)) h
    exact congrArg Crypto.hashBytes (congrArg ResolverCall.theirs heq)

theorem MergeRecord.resolverCall_eq_recovered (r : MergeRecord) {g : ChangeGraph}
    {blobs : FMap Blake3Hash Bytes} {states : ChangeGraph.ConflictStates}
    {pair : Blake3Hash × Blake3Hash} {a b : Change} {path : NodePath}
    (ha : g.get pair.1 = some a) (hb : g.get pair.2 = some b)
    (hpath : findOverlappingPath a.atoms b.atoms = some path)
    (htoken : states.ours.lookup path = some (r.token path)) (hfits : Bincode.Fits path)
    (hblobs : ∀ content ∈ r.states.blobs path,
      blobs.lookup (Crypto.hashBytes content) = some content) :
    resolverCall g blobs states pair = .ok (path, r.recovered a b path) := by
  have hread : ∀ content ∈ r.states.blobs path,
      readBlobBytes blobs (Crypto.hashBytes content) = .ok content := fun content hcontent =>
    readBlobBytes_eq_ok_iff.mpr (hblobs content hcontent)
  simp only [ChangeGraph.ConflictStates.blobs, List.forall_mem_cons] at hread
  obtain ⟨hbase, hours, htheirs, -⟩ := hread
  rw [r.token_eq path] at htoken
  unfold MergeRecord.recovered
  split_ifs at htoken ⊢
  · rw [resolverCall_token ha hb hpath htoken hfits rfl rfl, hbase, sides, hours, htheirs]
    rfl
  · rw [resolverCall_token ha hb hpath htoken hfits rfl rfl, hbase, sides, hours, htheirs]
    rfl

theorem RecordsConflict.exists_changes (h : RecordsConflict fuel wd target s s₁ r)
    (hg : s₁.graph.Indexed) {pair : Blake3Hash × Blake3Hash}
    (hpair : pair ∈ r.pending.conflictingPairs) :
    ∃ a b, s₁.graph.get pair.1 = some a ∧ s₁.graph.get pair.2 = some b
      ∧ ∀ path, findOverlappingPath a.atoms b.atoms = some path → path ∈ r.paths := by
  obtain ⟨idA, idB⟩ := pair
  have hpending := h.pending
  unfold ChangeGraph.pendingConflict at hpending
  cases hpairs : s₁.graph.conflictingPairs (s₁.graph.delta r.current target target).sorted
      (s₁.graph.delta r.current target r.current).sorted with
  | error e => simp [hpairs] at hpending
  | ok pairs =>
      simp only [hpairs, Except.ok.injEq] at hpending
      split_ifs at hpending
      rw [← Option.some_inj.mp hpending] at hpair
      obtain ⟨a, b, rfl, rfl, hconf⟩ :=
        (ChangeGraph.conflicting_iff_mem_pairs hg hpairs).2 idA idB hpair
      refine ⟨a, b, hconf.1.left_get, hconf.1.right_get, fun path hpath => ?_⟩
      refine ((ChangeGraph.conflictPaths_eq_ok h.paths).2 path).mpr (.inr ⟨a.id, b.id, ?_, a, b,
        hconf.1.left_get, hconf.1.right_get, hpath⟩)
      rw [← Option.some_inj.mp hpending]
      exact hpair

theorem RecordsConflict.content_eq (h : RecordsConflict fuel wd target s s₁ r)
    (hstorable : Storable s.blobs (r.paths.flatMap r.states.blobs)) {path : NodePath}
    (hpath : path ∈ r.paths) {content bytes : Bytes} (hcontent : content ∈ r.states.blobs path)
    {t : Repo} (hkept : KeptSince s₁ t)
    (hlook : t.blobs.lookup (Crypto.hashBytes content) = some bytes) : bytes = content := by
  have hmem : content ∈ r.paths.flatMap r.states.blobs :=
    List.mem_flatMap.mpr ⟨path, hpath, hcontent⟩
  have hwritten := (readBlob_eq_ok_iff.mp (hstorable.readBlob hmem)).1
  rw [← h.blobs] at hwritten
  exact hkept.blobs _ _ _ hwritten hlook

theorem RecordsConflict.call_eq (h : RecordsConflict fuel wd target s s₁ r)
    (hstorable : Storable s.blobs (r.paths.flatMap r.states.blobs))
    (hfits : ∀ path ∈ r.paths, Bincode.Fits path) (hloaded : Loaded s₁.store s₁.graph)
    (hloaded' : Loaded t.store t.graph) {fuel' : ℕ} {wd' : WorkDir}
    (hholds : HoldsConflicts fuel' wd' r t) {resolver : ResolverCall → Except String Bytes}
    {verify : NodePath → Bytes → Bool} {calls : List ((Blake3Hash × Blake3Hash) × ResolverCall)}
    {out : Except ResolveError PendingResolve} {t' : Repo}
    (hrun : resolveConflict fuel' wd' resolver verify (some r.pending) false t
      = some (.ok (calls, out), t'))
    (hkept : KeptSince s₁ t') {pair : Blake3Hash × Blake3Hash} {call : ResolverCall}
    (hcall : (pair, call) ∈ calls) :
    ∃ a b path, s₁.graph.get pair.1 = some a ∧ s₁.graph.get pair.2 = some b
      ∧ findOverlappingPath a.atoms b.atoms = some path ∧ path ∈ r.paths
      ∧ call = r.recovered a b path := by
  obtain ⟨heads, states, t₁, hstates, rfl, ht'⟩ := resolveConflict_eq_ok hrun
  obtain ⟨hpair, path, blobs', hresolver, hlater⟩ := mem_resolvePairs hcall
  obtain ⟨a', b', ha', hb', hpath, hintentA, hintentB⟩ := resolverCall_eq_ok hresolver
  obtain ⟨a, b, ha, hb, hrecorded⟩ := h.exists_changes hloaded.indexed hpair
  obtain ⟨g₁, g, hg₁, hg, -, ht₁, -⟩ := resolveStates_eq_ok hstates
  have hsame : ∀ id c c', s₁.graph.get id = some c → t₁.graph.get id = some c' → c' = c := by
    intro id c c' hc hc'
    have hstored : readChange t.store id = .ok c' := by
      rw [ht₁] at hc'
      exact ((hloaded'.hydrateGraph hg₁).hydrateGraph hg).stored id c' hc'
    refine hkept.changes id c c' (readChange_eq_ok_iff.mp (hloaded.stored id c hc)).1 ?_
    rw [ht', ht₁]
    exact (readChange_eq_ok_iff.mp hstored).1
  obtain rfl := hsame _ _ _ ha ha'
  obtain rfl := hsame _ _ _ hb hb'
  have hin := hrecorded path hpath
  refine ⟨a', b', path, ha, hb, hpath, hin, ?_⟩
  have htoken := hholds heads states t₁ hstates path hin
  rw [r.token_eq path] at htoken
  have hread : ∀ content ∈ r.states.blobs path, ∀ bytes,
      blobs'.lookup (Crypto.hashBytes content) = some bytes → bytes = content := by
    intro content hcontent bytes hlook
    refine h.content_eq hstorable hin hcontent hkept ?_
    rw [ht']
    exact hlater _ _ hlook
  have hbase : ChangeGraph.extractContentAtPath r.states.base path ∈ r.states.blobs path := by
    simp [ChangeGraph.ConflictStates.blobs]
  have hours : ChangeGraph.extractContentAtPath r.states.ours path ∈ r.states.blobs path := by
    simp [ChangeGraph.ConflictStates.blobs]
  have htheirs : ChangeGraph.extractContentAtPath r.states.theirs path ∈ r.states.blobs path := by
    simp [ChangeGraph.ConflictStates.blobs]
  unfold MergeRecord.recovered
  split_ifs at htoken ⊢ with hle
  · obtain ⟨h₁, h₂, h₃⟩ := resolverCall_of_token htoken (hfits path hin) rfl rfl hresolver
    exact ResolverCall.ext (hread _ hbase _ h₁) (hread _ hours _ h₂) (hread _ htheirs _ h₃)
      hintentA hintentB
  · obtain ⟨h₁, h₂, h₃⟩ := resolverCall_of_token htoken (hfits path hin) rfl rfl hresolver
    exact ResolverCall.ext (hread _ hbase _ h₁) (hread _ htheirs _ h₂) (hread _ hours _ h₃)
      hintentA hintentB

/-- **A conflict keeps its orientation** exactly when the hash of our content is not above that of
their content: only then the resolver gets the merge base, our and their content from before the
merge, each side with the intent of its own change. -/
theorem resolver_call_oriented_iff (h : RecordsConflict fuel wd target s s₁ r)
    (hstorable : Storable s.blobs (r.paths.flatMap r.states.blobs))
    (hfits : ∀ path ∈ r.paths, Bincode.Fits path) (hloaded : Loaded s₁.store s₁.graph)
    (hloaded' : Loaded t.store t.graph) {fuel' : ℕ} {wd' : WorkDir}
    (hholds : HoldsConflicts fuel' wd' r t) {resolver : ResolverCall → Except String Bytes}
    {verify : NodePath → Bytes → Bool} {calls : List ((Blake3Hash × Blake3Hash) × ResolverCall)}
    {out : Except ResolveError PendingResolve} {t' : Repo}
    (hrun : resolveConflict fuel' wd' resolver verify (some r.pending) false t
      = some (.ok (calls, out), t'))
    (hkept : KeptSince s₁ t') {pair : Blake3Hash × Blake3Hash} {call : ResolverCall}
    (hcall : (pair, call) ∈ calls) :
    ∃ a b path, s₁.graph.get pair.1 = some a ∧ s₁.graph.get pair.2 = some b
      ∧ findOverlappingPath a.atoms b.atoms = some path ∧ path ∈ r.paths
      ∧ (call = r.oriented a b path ↔ (r.sides path).1 ≤ (r.sides path).2) := by
  obtain ⟨a, b, path, ha, hb, hpath, hin, rfl⟩ :=
    h.call_eq hstorable hfits hloaded hloaded' hholds hrun hkept hcall
  exact ⟨a, b, path, ha, hb, hpath, hin, r.recovered_eq_oriented_iff⟩

/-! ## Two edits of one file -/

section Clash

/-- A change that writes a file, as `Crypto.sample` identifies it. -/
def noteEdit (intent : String) (content : Bytes) : Change :=
  @Change.new Crypto.sample ∅
    [.insert ["file", "notes"] (@Crypto.hashBytes Crypto.sample content)] intent
    (.human "" "" 0) 0

variable (ours theirs : Bytes)

def clashingEdits : Repo :=
  Repo.ofHistory [noteEdit "ours" ours, noteEdit "theirs" theirs] {(noteEdit "ours" ours).id}
    [ours, theirs]

def clashRecord : MergeRecord where
  current := {(noteEdit "ours" ours).id}
  pending := ⟨"main", {(noteEdit "theirs" theirs).id},
    [((noteEdit "ours" ours).id, (noteEdit "theirs" theirs).id)]⟩
  states := ⟨∅, Finmap.singleton ["file", "notes"] ours, Finmap.singleton ["file", "notes"] theirs⟩
  paths := [["file", "notes"]]

def clashFound : Repo :=
  { clashingEdits ours theirs with
    blobs := @putContents Crypto.sample (clashingEdits ours theirs).blobs [[], ours, theirs] }

def clashChange : Change :=
  @Change.new Crypto.sample {(noteEdit "ours" ours).id, (noteEdit "theirs" theirs).id}
    (@ChangeGraph.ConflictStates.atoms Crypto.sample (clashRecord ours theirs).states
      (clashRecord ours theirs).paths) (ChangeGraph.mergeIntent 1) (.human "" "" 0) 0

/-- The repository after the merge. -/
def clashMerged : Repo :=
  { clashFound ours theirs with
    store := (clashFound ours theirs).store.putOnce (clashChange ours theirs).id
      (clashChange ours theirs)
    graph := (clashFound ours theirs).graph.addChange (clashChange ours theirs)
    views := (clashFound ours theirs).views.insert "main" {(clashChange ours theirs).id} }

/-- The repository after a resolver has answered with an empty file. -/
def clashResolved : Repo :=
  { clashMerged ours theirs with
    blobs := (clashMerged ours theirs).blobs.putOnce (@Crypto.hashBytes Crypto.sample []) [] }

variable {ours theirs}

omit [Crypto] in
theorem fits_notes : Bincode.Fits ["file", "notes"] := by
  have hlength (s : String) : (utf8 s).length = s.utf8ByteSize := by
    rw [utf8_eq]
    rfl
  refine ⟨by decide, fun s hs => ?_⟩
  rw [hlength]
  revert s
  decide

omit [Crypto] in
theorem exists_clash_call {heads : Finset Blake3Hash} {states : ChangeGraph.ConflictStates}
    (hstates : @resolveStates Crypto.sample 3 anyWorkDir (clashRecord ours theirs).pending
      (clashMerged ours theirs) = some (.ok (heads, states), clashMerged ours theirs))
    (htoken : states.ours.lookup ["file", "notes"]
      = some (@MergeRecord.token Crypto.sample (clashRecord ours theirs) ["file", "notes"]))
    (hfirst : (clashMerged ours theirs).graph.get (noteEdit "ours" ours).id
      = some (noteEdit "ours" ours))
    (hsecond : (clashMerged ours theirs).graph.get (noteEdit "theirs" theirs).id
      = some (noteEdit "theirs" theirs))
    (hblobs : ∀ content ∈ [[], ours, theirs], (clashMerged ours theirs).blobs.lookup
      (@Crypto.hashBytes Crypto.sample content) = some content) :
    ∃ out, @resolveConflict Crypto.sample 3 anyWorkDir (fun _ => .ok []) (fun _ _ => true)
      (some (clashRecord ours theirs).pending) false (clashMerged ours theirs)
        = some (.ok ([(((noteEdit "ours" ours).id, (noteEdit "theirs" theirs).id),
          @MergeRecord.recovered Crypto.sample (clashRecord ours theirs) (noteEdit "ours" ours)
            (noteEdit "theirs" theirs) ["file", "notes"])], out), clashResolved ours theirs) := by
  have hpath : findOverlappingPath (noteEdit "ours" ours).atoms (noteEdit "theirs" theirs).atoms
      = some ["file", "notes"] := rfl
  have hcall := @MergeRecord.resolverCall_eq_recovered Crypto.sample (clashRecord ours theirs)
    (clashMerged ours theirs).graph (clashMerged ours theirs).blobs states
    ((noteEdit "ours" ours).id, (noteEdit "theirs" theirs).id) _ _ _ hfirst hsecond hpath htoken
    fits_notes hblobs
  let := Crypto.sample
  exact ⟨_, resolveConflict_run hstates (resolvePairs_singleton hcall)⟩

omit [Crypto] in
theorem clash_keeps : KeptSince (clashFound ours theirs) (clashResolved ours theirs) := by
  have hstore : (clashResolved ours theirs).store = (clashFound ours theirs).store.putOnce
      (clashChange ours theirs).id (clashChange ours theirs) := by
    simp only [clashResolved, clashMerged]
  have hblobs : (clashResolved ours theirs).blobs = (clashFound ours theirs).blobs.putOnce
      (@Crypto.hashBytes Crypto.sample []) [] := by
    simp only [clashResolved, clashMerged]
  exact .of_putOnce hstore hblobs

variable (ours theirs) in
/-- What a resolution right after the merge of the two edits relies on. -/
structure Clashes : Prop where
  record : @RecordsConflict Crypto.sample 3 anyWorkDir {(noteEdit "theirs" theirs).id}
    (clashingEdits ours theirs) (clashFound ours theirs) (clashRecord ours theirs)
  storable : @Storable Crypto.sample (clashingEdits ours theirs).blobs
    ((clashRecord ours theirs).paths.flatMap (clashRecord ours theirs).states.blobs)
  loaded : Loaded (clashFound ours theirs).store (clashFound ours theirs).graph
  stored : readChange (clashMerged ours theirs).store (clashChange ours theirs).id
    = .ok (clashChange ours theirs)
  first : (clashMerged ours theirs).graph.get (noteEdit "ours" ours).id
    = some (noteEdit "ours" ours)
  second : (clashMerged ours theirs).graph.get (noteEdit "theirs" theirs).id
    = some (noteEdit "theirs" theirs)
  states : ∃ states, @resolveStates Crypto.sample 3 anyWorkDir (clashRecord ours theirs).pending
      (clashMerged ours theirs)
      = some (.ok ({(clashChange ours theirs).id}, states), clashMerged ours theirs)
    ∧ states.ours.lookup ["file", "notes"]
      = some (@MergeRecord.token Crypto.sample (clashRecord ours theirs) ["file", "notes"])

omit [Crypto] in
set_option maxRecDepth 4000 in
theorem clashes_descending : Clashes [5] [3] where
  record := @RecordsConflict.mk Crypto.sample _ _ _ _ _ _ ⟨_, rfl⟩ rfl (by decide) rfl rfl rfl rfl
    rfl
  storable := @Storable.of_all Crypto.sample _ _ (by decide) (by decide)
  loaded := Loaded.ofChanges (by decide)
  stored := readChange_eq_ok_iff.mpr ⟨rfl, rfl⟩
  first := rfl
  second := rfl
  states := ⟨_, rfl, rfl⟩

omit [Crypto] in
set_option maxRecDepth 4000 in
theorem clashes_ascending : Clashes [3] [5] where
  record := @RecordsConflict.mk Crypto.sample _ _ _ _ _ _ ⟨_, rfl⟩ rfl (by decide) rfl rfl rfl rfl
    rfl
  storable := @Storable.of_all Crypto.sample _ _ (by decide) (by decide)
  loaded := Loaded.ofChanges (by decide)
  stored := readChange_eq_ok_iff.mpr ⟨rfl, rfl⟩
  first := rfl
  second := rfl
  states := ⟨_, rfl, rfl⟩

omit [Crypto] in
theorem Clashes.holds (h : Clashes ours theirs) : @HoldsConflicts Crypto.sample 3 anyWorkDir
    (clashRecord ours theirs) (clashMerged ours theirs) := by
  intro heads states t₁ hrun path hpath
  obtain ⟨states', hstates, htoken⟩ := h.states
  obtain ⟨hout, -⟩ := Prod.mk.inj (Option.some_inj.mp (hstates.symm.trans hrun))
  obtain ⟨-, rfl⟩ := Prod.mk.inj (Except.ok.inj hout)
  obtain rfl := List.mem_singleton.mp hpath
  exact htoken

omit [Crypto] in
theorem Clashes.fits (_ : Clashes ours theirs) :
    ∀ path ∈ (clashRecord ours theirs).paths, Bincode.Fits path :=
  fun _ hpath => List.mem_singleton.mp hpath ▸ fits_notes

omit [Crypto] in
theorem Clashes.loaded_merged (h : Clashes ours theirs) :
    Loaded (clashMerged ours theirs).store (clashMerged ours theirs).graph := by
  have hstore : (clashMerged ours theirs).store = (clashFound ours theirs).store.putOnce
      (clashChange ours theirs).id (clashChange ours theirs) := by
    simp only [clashMerged]
  have hgraph : (clashMerged ours theirs).graph
      = (clashFound ours theirs).graph.addChange (clashChange ours theirs) := by
    simp only [clashMerged]
  have hmono : Loaded (clashMerged ours theirs).store (clashFound ours theirs).graph := by
    rw [hstore]
    exact h.loaded.putOnce _ _
  rw [hgraph]
  exact hmono.addChange h.stored

omit [Crypto] in
theorem Clashes.exists_call (h : Clashes ours theirs) :
    ∃ out, @resolveConflict Crypto.sample 3 anyWorkDir (fun _ => .ok []) (fun _ _ => true)
      (some (clashRecord ours theirs).pending) false (clashMerged ours theirs)
        = some (.ok ([(((noteEdit "ours" ours).id, (noteEdit "theirs" theirs).id),
          @MergeRecord.recovered Crypto.sample (clashRecord ours theirs) (noteEdit "ours" ours)
            (noteEdit "theirs" theirs) ["file", "notes"])], out), clashResolved ours theirs) := by
  obtain ⟨states, hstates, htoken⟩ := h.states
  refine exists_clash_call hstates htoken h.first h.second fun content hcontent => ?_
  have hblobs : (clashMerged ours theirs).blobs
      = @putContents Crypto.sample (clashingEdits ours theirs).blobs [[], ours, theirs] := by
    simp only [clashMerged, clashFound]
  have hread := @Storable.readBlob Crypto.sample _ _ h.storable content hcontent
  rw [hblobs]
  exact (@readBlob_eq_ok_iff Crypto.sample _ _ _ |>.mp hread).1

omit [Crypto] in
/-- The edit whose content has the greater hash is handed to the resolver as theirs. -/
theorem resolver_gets_swapped_sides : ¬ ∀ (_ : Crypto) (fuel : ℕ) (wd : WorkDir)
    (target : Finset Blake3Hash) (s s₁ t t' : Repo) (r : MergeRecord)
    (resolver : ResolverCall → Except String Bytes) (verify : NodePath → Bytes → Bool)
    (calls : List ((Blake3Hash × Blake3Hash) × ResolverCall))
    (out : Except ResolveError PendingResolve) (pair : Blake3Hash × Blake3Hash)
    (call : ResolverCall), RecordsConflict fuel wd target s s₁ r →
      Storable s.blobs (r.paths.flatMap r.states.blobs) → (∀ path ∈ r.paths, Bincode.Fits path) →
      Loaded s₁.store s₁.graph → Loaded t.store t.graph → HoldsConflicts fuel wd r t →
      resolveConflict fuel wd resolver verify (some r.pending) false t
        = some (.ok (calls, out), t') →
      KeptSince s₁ t' → (pair, call) ∈ calls →
      ∃ a b path, s₁.graph.get pair.1 = some a ∧ s₁.graph.get pair.2 = some b
        ∧ findOverlappingPath a.atoms b.atoms = some path ∧ path ∈ r.paths
        ∧ call = r.oriented a b path := by
  intro h
  obtain ⟨out, hrun⟩ := clashes_descending.exists_call
  obtain ⟨a, b, path, ha, hb, -, hpath, hcall⟩ := h Crypto.sample _ _ _ _ _ _ _ _ _ _ _ _ _ _
    clashes_descending.record clashes_descending.storable clashes_descending.fits
    clashes_descending.loaded clashes_descending.loaded_merged clashes_descending.holds hrun
    clash_keeps List.mem_cons_self
  obtain rfl := List.mem_singleton.mp hpath
  have hours : ([3] : Bytes) = [5] := congrArg ResolverCall.ours hcall
  exact absurd hours (by decide)

omit [Crypto] in
/-- In the order of their hashes the edits keep their sides. -/
theorem resolver_gets_ascending_sides : let := Crypto.sample
    ∃ call out, resolveConflict 3 anyWorkDir (fun _ => .ok []) (fun _ _ => true)
        (some (clashRecord [3] [5]).pending) false (clashMerged [3] [5])
          = some (.ok ([(((noteEdit "ours" [3]).id, (noteEdit "theirs" [5]).id), call)], out),
            clashResolved [3] [5])
      ∧ ∃ a b path, (clashFound [3] [5]).graph.get (noteEdit "ours" [3]).id = some a
        ∧ (clashFound [3] [5]).graph.get (noteEdit "theirs" [5]).id = some b
        ∧ findOverlappingPath a.atoms b.atoms = some path
        ∧ path ∈ (clashRecord [3] [5]).paths
        ∧ (call = (clashRecord [3] [5]).oriented a b path
          ↔ ((clashRecord [3] [5]).sides path).1 ≤ ((clashRecord [3] [5]).sides path).2) := by
  obtain ⟨out, hrun⟩ := clashes_ascending.exists_call
  have hcall := List.mem_cons_self (a := (((noteEdit "ours" [3]).id, (noteEdit "theirs" [5]).id),
    @MergeRecord.recovered Crypto.sample (clashRecord [3] [5]) (noteEdit "ours" [3])
      (noteEdit "theirs" [5]) ["file", "notes"])) (l := [])
  have hiff := @resolver_call_oriented_iff Crypto.sample 3 anyWorkDir
    {(noteEdit "theirs" [5]).id} (clashingEdits [3] [5]) (clashFound [3] [5]) (clashMerged [3] [5])
    (clashRecord [3] [5]) clashes_ascending.record clashes_ascending.storable
    clashes_ascending.fits clashes_ascending.loaded clashes_ascending.loaded_merged 3 anyWorkDir
    clashes_ascending.holds _ _ _ _ (clashResolved [3] [5]) hrun clash_keeps _ _ hcall
  exact ⟨_, out, hrun, hiff⟩

end Clash

end ArcVcs
