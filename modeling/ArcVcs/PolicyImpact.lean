import ArcVcs.Change
import ArcVcs.GitText
import ArcVcs.Lib.Collections
import Mathlib.Data.String.Basic

/-!
# The impact of incoming functions

`evaluate_delta_impact` watches the incoming functions whose signatures are not the expected ones,
and reports those that local code calls. A function with a return type matches the query with it
and without it. A match without it that comes first is not taken back.
-/

namespace ArcVcs.PolicyGate

structure Ast where
  localRustSources : List String
  expectedApiSignatures : FMap String String
  foreignRustSources : List String

structure ArcPolicy where
  requireGhostNodeSponsor : Bool
  blockUnresolvedSemBreaks : Bool

inductive PolicyError where
  | signatureMismatch (brokenFunctions : List String) (oldSignature newSignature : String)
  | missingDependency (dependency : String)
deriving DecidableEq

/-- The captures of a match of the boundary query, where they are text. -/
structure BoundaryMatch where
  name : Option String
  params : Option String
  ret : Option String
deriving DecidableEq

/-- The parser and its queries. A source may give no tree. -/
class TreeSitter where
  /-- Loading the language and compiling both queries. -/
  setup : Except String Unit
  boundaryMatches : String → Option (List BoundaryMatch)
  callNames : String → Option (List (Option String))

/-- What the loop over the matches collects. -/
structure WatchState where
  watchList : Finset String
  oldSignatures : FMap String String
  newSignatures : FMap String String
  preferredSignatureHasReturn : FMap String Bool

/-- `str::trim`. -/
def trimmed (s : String) : String := String.ofList (Git.trim s.toList)

def signature (params : String) (ret : Option String) : String :=
  trimmed params ++ " -> " ++ trimmed (ret.getD "()")

def expectedSignature (ast : Ast) (name : String) : String :=
  (ast.expectedApiSignatures.lookup name).getD ""

/-- The description has a function in it. -/
def mentionsFn (description : String) : Bool := decide ("fn ".toList <:+: description.toList)

def extractForeignSources (ast : Ast) (incomingAtoms : List Atom) : List String :=
  ast.foreignRustSources ++ incomingAtoms.filterMap fun atom => match atom with
    | .semanticsPreserving _ description =>
        if mentionsFn description then some description else none
    | _ => none

def WatchState.init : WatchState := ⟨∅, ∅, ∅, ∅⟩

section Evaluation

variable [Crypto]

/-- One match of the boundary query. The texts of two hashes are equal when the hashes are. -/
def watchMatch (ast : Ast) (st : WatchState) (m : BoundaryMatch) : WatchState :=
  match m.name, m.params with
  | some name, some params =>
      let hasReturn := m.ret.isSome
      if st.preferredSignatureHasReturn.lookup name = some true ∧ hasReturn = false then st
      else
        let newSig := signature params m.ret
        let oldSig := expectedSignature ast name
        let preferred := st.preferredSignatureHasReturn.insert name hasReturn
        if Crypto.hashBytes (utf8 newSig) ≠ Crypto.hashBytes (utf8 oldSig) then
          ⟨insert name st.watchList, st.oldSignatures.insert name oldSig,
            st.newSignatures.insert name newSig, preferred⟩
        else { st with preferredSignatureHasReturn := preferred }
  | _, _ => st

variable [TreeSitter]

/-- The loop over the incoming sources. -/
def watchSources (ast : Ast) (sources : List String) : WatchState :=
  sources.foldl (fun st source =>
    match TreeSitter.boundaryMatches source with
    | none => st
    | some matches_ => matches_.foldl (watchMatch ast) st) .init

omit [Crypto] in
/-- The loop over the local sources. -/
def localCalls (sources : List String) : Finset String :=
  sources.foldl (fun calls source =>
    match TreeSitter.callNames source with
    | none => calls
    | some names => names.foldl (fun calls name => name.elim calls (insert · calls)) calls) ∅

def formatSignatures (signatures : FMap String String) (names : List String) : String :=
  String.intercalate "; " (names.map fun name =>
    name ++ ":" ++ (signatures.lookup name).getD "<missing>")

def evaluateDeltaImpact (policy : ArcPolicy) (ast : Ast) (incomingAtoms : List Atom) :
    Except PolicyError Unit :=
  if policy.requireGhostNodeSponsor && incomingAtoms.any fun atom => atom matches .mount .. then
    .error (.signatureMismatch ["<ghost-node-sponsor>"] "required=true" "required=false")
  else if policy.blockUnresolvedSemBreaks = false then .ok ()
  else
    match TreeSitter.setup with
    | .error dependency => .error (.missingDependency dependency)
    | .ok () =>
        let st := watchSources ast (extractForeignSources ast incomingAtoms)
        if st.watchList = ∅ then .ok ()
        else
          let deltaImpact := st.watchList ∩ localCalls ast.localRustSources
          if deltaImpact = ∅ then .ok ()
          else
            let broken := deltaImpact.sorted
            .error (.signatureMismatch broken (formatSignatures st.oldSignatures broken)
              (formatSignatures st.newSignatures broken))

end Evaluation

/-! ## What the check is about -/

/-- A function of an incoming source. -/
structure ApiFunction where
  name : String
  params : String
  ret : Option String
deriving DecidableEq

namespace ApiFunction

/-- The match without the return type. -/
def fallback (f : ApiFunction) : BoundaryMatch := ⟨some f.name, some f.params, none⟩

/-- The match with the return type. -/
def full (f : ApiFunction) : BoundaryMatch := ⟨some f.name, some f.params, f.ret⟩

/-- The query matches a function with a return type twice. -/
def boundaryMatches (f : ApiFunction) : List BoundaryMatch :=
  if f.ret = none then [f.fallback] else [f.full, f.fallback]

/-- With the declared return type, or with `()`. -/
def canonical (f : ApiFunction) : String := signature f.params f.ret

/-- As if there was no return type. -/
def withoutReturn (f : ApiFunction) : String := signature f.params none

end ApiFunction

section Impact

variable [TreeSitter]

/-- The matches in the order in which they are visited. -/
def visited (ast : Ast) (incomingAtoms : List Atom) : List BoundaryMatch :=
  (extractForeignSources ast incomingAtoms).flatMap fun source =>
    (TreeSitter.boundaryMatches source).getD []

/-- The incoming functions, with distinct names, are matched in some order. -/
structure Visits (ast : Ast) (incomingAtoms : List Atom) (functions : List ApiFunction) : Prop where
  distinct : (functions.map ApiFunction.name).Nodup
  perm : (visited ast incomingAtoms).Perm (functions.flatMap ApiFunction.boundaryMatches)

/-- The functions that local code calls and that are not as expected. -/
def brokenNames (ast : Ast) (functions : List ApiFunction) : Finset String :=
  ((functions.filter fun f => f.name ∈ localCalls ast.localRustSources
    ∧ f.canonical ≠ expectedSignature ast f.name).map ApiFunction.name).toFinset

/-- A mismatch is reported when there are names, and it lists them in order. -/
def Reports (result : Except PolicyError Unit) (names : Finset String) : Prop :=
  if names = ∅ then result = .ok ()
  else ∃ old new, result = .error (.signatureMismatch names.sorted old new)

/-- The first match of the function has no return type, though the function has one, and it is only
the return type that makes the function the expected one. -/
structure Misjudged (ast : Ast) (incomingAtoms : List Atom) (f : ApiFunction) : Prop where
  called : f.name ∈ localCalls ast.localRustSources
  expected : f.canonical = expectedSignature ast f.name
  differs : f.withoutReturn ≠ expectedSignature ast f.name
  first : ∃ before after, visited ast incomingAtoms = before ++ f.fallback :: after
    ∧ f.full ∉ before

variable [Crypto]

omit [TreeSitter] in
/-- The hash tells the signatures of the functions from the expected ones. -/
def NoCollision (ast : Ast) (functions : List ApiFunction) : Prop :=
  ∀ f ∈ functions, ∀ sig ∈ [f.canonical, f.withoutReturn],
    Crypto.hashBytes (utf8 sig) = Crypto.hashBytes (utf8 (expectedSignature ast f.name)) →
      sig = expectedSignature ast f.name

end Impact

/-! ## The loop over the matches -/

variable {ast : Ast} {incomingAtoms : List Atom} {functions : List ApiFunction} {name : String}
  {m : BoundaryMatch} {f : ApiFunction}

section Loop

variable [Crypto]

def SeenFull (matches_ : List BoundaryMatch) (name : String) : Prop :=
  ∃ params ret, ⟨some name, some params, some ret⟩ ∈ matches_

/-- The match is not the one that the function has besides a match with its return type, and its
signature is not the expected one. -/
def Differs (ast : Ast) (before : List BoundaryMatch) (name : String) (m : BoundaryMatch) : Prop :=
  ∃ params, m.name = some name ∧ m.params = some params ∧ (m.ret = none → ¬ SeenFull before name)
    ∧ Crypto.hashBytes (utf8 (signature params m.ret))
      ≠ Crypto.hashBytes (utf8 (expectedSignature ast name))

theorem preferred_watchMatch (ast : Ast) (st : WatchState) (m : BoundaryMatch) (name : String) :
    (watchMatch ast st m).preferredSignatureHasReturn.lookup name = some true
      ↔ st.preferredSignatureHasReturn.lookup name = some true
        ∨ ∃ params ret, m = ⟨some name, some params, some ret⟩ := by
  obtain ⟨_ | n, _ | params, ret⟩ := m
  · simp [watchMatch]
  · simp [watchMatch]
  · simp [watchMatch]
  rw [watchMatch]
  dsimp only
  split_ifs with hskip hdiffer
  · refine (or_iff_left ?_).symm
    rintro ⟨_, _, heq⟩
    cases heq
    cases hskip.2
  all_goals
    dsimp only
    rw [FMap.lookup_insert_eq]
    split_ifs with hname
    · subst hname
      cases ret with
      | none => simpa using hskip
      | some ret => simp
    · simp [Ne.symm hname]

theorem mem_watchMatch (ast : Ast) (st : WatchState) (m : BoundaryMatch) (name : String) :
    name ∈ (watchMatch ast st m).watchList ↔ name ∈ st.watchList
      ∨ ∃ params, m.name = some name ∧ m.params = some params
        ∧ ¬ (st.preferredSignatureHasReturn.lookup name = some true ∧ m.ret = none)
        ∧ Crypto.hashBytes (utf8 (signature params m.ret))
          ≠ Crypto.hashBytes (utf8 (expectedSignature ast name)) := by
  obtain ⟨_ | n, _ | params, ret⟩ := m
  · simp [watchMatch]
  · simp [watchMatch]
  · simp [watchMatch]
  rw [watchMatch]
  dsimp only
  split_ifs with hskip hdiffer
  · refine (or_iff_left ?_).symm
    rintro ⟨_, heq, -, hnot, -⟩
    obtain rfl := Option.some_inj.mp heq
    exact hnot ⟨hskip.1, by simpa using hskip.2⟩
  · rw [Finset.mem_insert, or_comm]
    refine or_congr_right ⟨?_, ?_⟩
    · rintro rfl
      exact ⟨params, rfl, rfl, by simpa using hskip, hdiffer⟩
    · rintro ⟨_, heq, -⟩
      exact (Option.some_inj.mp heq).symm
  · refine (or_iff_left ?_).symm
    rintro ⟨_, heq, heq', -, hdiffer'⟩
    obtain rfl := Option.some_inj.mp heq
    obtain rfl := Option.some_inj.mp heq'
    exact hdiffer hdiffer'

theorem preferred_foldl (ast : Ast) (matches_ : List BoundaryMatch) (name : String) :
    (matches_.foldl (watchMatch ast) .init).preferredSignatureHasReturn.lookup name = some true
      ↔ SeenFull matches_ name := by
  induction matches_ using List.reverseRecOn with
  | nil => simp [WatchState.init, SeenFull]
  | append_singleton matches_ m ih =>
      rw [List.foldl_concat, preferred_watchMatch, ih]
      simp only [SeenFull, List.mem_append, List.mem_singleton, exists_or, eq_comm]

/-- What is watched, by induction on the matches from the last one on. -/
theorem mem_foldl_watchMatch (ast : Ast) (matches_ : List BoundaryMatch) (name : String) :
    name ∈ (matches_.foldl (watchMatch ast) .init).watchList
      ↔ ∃ before m after, matches_ = before ++ m :: after ∧ Differs ast before name m := by
  induction matches_ using List.reverseRecOn with
  | nil => simp [WatchState.init]
  | append_singleton matches_ last ih =>
      rw [List.foldl_concat, mem_watchMatch, ih, preferred_foldl]
      constructor
      · rintro (⟨before, m, after, rfl, hm⟩ | ⟨params, hname, hparams, hseen, hhash⟩)
        · exact ⟨before, m, after ++ [last], by simp, hm⟩
        · exact ⟨matches_, last, [], rfl, params, hname, hparams,
            fun hret hfull => hseen ⟨hfull, hret⟩, hhash⟩
      · rintro ⟨before, m, after, heq, hm⟩
        rcases List.eq_nil_or_concat after with rfl | ⟨after, x, rfl⟩
        · obtain ⟨rfl, hlast⟩ := List.append_inj' heq rfl
          obtain rfl := List.singleton_inj.mp hlast
          obtain ⟨params, hname, hparams, hseen, hhash⟩ := hm
          exact .inr ⟨params, hname, hparams, fun h => hseen h.2 h.1, hhash⟩
        · rw [List.concat_eq_append, ← List.cons_append, ← List.append_assoc] at heq
          obtain ⟨rfl, -⟩ := List.append_inj' heq rfl
          exact .inl ⟨before, m, after, rfl, hm⟩

end Loop

/-! ## The report -/

section Report

variable [TreeSitter]

theorem Visits.mem_iff (h : Visits ast incomingAtoms functions) :
    m ∈ visited ast incomingAtoms ↔ ∃ f ∈ functions, m ∈ f.boundaryMatches := by
  rw [h.perm.mem_iff, List.mem_flatMap]

omit [TreeSitter] in
theorem ApiFunction.mem_boundaryMatches :
    m ∈ f.boundaryMatches ↔ m = f.full ∨ m = f.fallback := by
  unfold boundaryMatches
  split_ifs with hret
  · have hfull : f.full = f.fallback := by rw [full, fallback, hret]
    rw [hfull, or_self, List.mem_singleton]
  · exact List.mem_pair

theorem Visits.seenFull_iff (h : Visits ast incomingAtoms functions) (hf : f ∈ functions)
    {before after : List BoundaryMatch} (hsplit : visited ast incomingAtoms = before ++ after) :
    SeenFull before f.name ↔ f.ret ≠ none ∧ f.full ∈ before := by
  constructor
  · rintro ⟨params, ret, hmem⟩
    have hvisited : (⟨some f.name, some params, some ret⟩ : BoundaryMatch)
        ∈ visited ast incomingAtoms := hsplit ▸ List.mem_append_left after hmem
    obtain ⟨f', hf', hm⟩ := h.mem_iff.mp hvisited
    rcases ApiFunction.mem_boundaryMatches.mp hm with hm | hm
    · have hname : f'.name = f.name := Option.some_inj.mp (congrArg BoundaryMatch.name hm).symm
      obtain rfl := List.inj_on_of_nodup_map h.distinct hf' hf hname
      refine ⟨fun hret => ?_, hm ▸ hmem⟩
      rw [ApiFunction.full, hret] at hm
      exact absurd (congrArg BoundaryMatch.ret hm) (Option.some_ne_none ret)
    · exact absurd (congrArg BoundaryMatch.ret hm) (Option.some_ne_none ret)
  · rintro ⟨hret, hmem⟩
    obtain ⟨ret, hret⟩ := Option.ne_none_iff_exists'.mp hret
    rw [ApiFunction.full, hret] at hmem
    exact ⟨f.params, ret, hmem⟩

variable [Crypto]

theorem watchSources_eq (ast : Ast) (sources : List String) :
    watchSources ast sources = (sources.flatMap fun source =>
      (TreeSitter.boundaryMatches source).getD []).foldl (watchMatch ast) .init := by
  rw [watchSources, List.foldl_flatMap]
  congr
  funext st source
  cases TreeSitter.boundaryMatches source
  · rfl
  · rfl

theorem Visits.mem_watchList_iff (h : Visits ast incomingAtoms functions)
    (hhash : NoCollision ast functions)
    (hcalled : name ∈ localCalls ast.localRustSources) :
    name ∈ (watchSources ast (extractForeignSources ast incomingAtoms)).watchList
      ↔ ∃ f ∈ functions, f.name = name
        ∧ (f.canonical ≠ expectedSignature ast name ∨ Misjudged ast incomingAtoms f) := by
  have hvisited : watchSources ast (extractForeignSources ast incomingAtoms)
      = (visited ast incomingAtoms).foldl (watchMatch ast) .init := watchSources_eq ast _
  rw [hvisited, mem_foldl_watchMatch]
  constructor
  · rintro ⟨before, m, after, hsplit, params, hname, hparams, hseen, hdiffers⟩
    have hmem : m ∈ visited ast incomingAtoms := by
      rw [hsplit]
      exact List.mem_append_right before List.mem_cons_self
    obtain ⟨f, hf, hm⟩ := h.mem_iff.mp hmem
    rcases ApiFunction.mem_boundaryMatches.mp hm with rfl | rfl
    · obtain rfl := Option.some_inj.mp hname
      obtain rfl := Option.some_inj.mp hparams
      exact ⟨f, hf, rfl, .inl fun heq => hdiffers (congrArg (Crypto.hashBytes ∘ utf8) heq)⟩
    · obtain rfl := Option.some_inj.mp hname
      obtain rfl := Option.some_inj.mp hparams
      refine ⟨f, hf, rfl, or_iff_not_imp_left.mpr fun hcanonical => ?_⟩
      have heq := not_not.mp hcanonical
      have hwithout : f.withoutReturn ≠ expectedSignature ast f.name := fun heq =>
        hdiffers (congrArg (Crypto.hashBytes ∘ utf8) heq)
      refine ⟨hcalled, heq, hwithout, before, after, hsplit, fun hfull => hseen rfl ?_⟩
      refine (h.seenFull_iff hf hsplit).mpr ⟨fun hret => hwithout ?_, hfull⟩
      rwa [ApiFunction.canonical, hret] at heq
  · rintro ⟨f, hf, rfl, hbroken | ⟨-, -, hdiffers, before, after, hsplit, hfirst⟩⟩
    · have hmem := h.mem_iff.mpr ⟨f, hf, ApiFunction.mem_boundaryMatches.mpr (.inl rfl)⟩
      obtain ⟨before, after, hsplit⟩ := List.append_of_mem hmem
      refine ⟨before, f.full, after, hsplit, f.params, rfl, rfl, fun hret hseen => ?_,
        fun heq => hbroken (hhash f hf _ List.mem_cons_self heq)⟩
      exact ((h.seenFull_iff hf hsplit).mp hseen).1 hret
    · refine ⟨before, f.fallback, after, hsplit, f.params, rfl, rfl, fun _ hseen => ?_,
        fun heq => hdiffers (hhash f hf _ (by simp) heq)⟩
      exact hfirst ((h.seenFull_iff hf hsplit).mp hseen).2

omit [Crypto] in
theorem mem_brokenNames : name ∈ brokenNames ast functions
    ↔ name ∈ localCalls ast.localRustSources
      ∧ ∃ f ∈ functions, f.name = name ∧ f.canonical ≠ expectedSignature ast name := by
  simp only [brokenNames, List.mem_toFinset, List.mem_map, List.mem_filter, decide_eq_true_eq]
  constructor
  · rintro ⟨f, ⟨hf, hcalled, hne⟩, rfl⟩
    exact ⟨hcalled, f, hf, rfl, hne⟩
  · rintro ⟨hcalled, f, hf, rfl, hne⟩
    exact ⟨f, ⟨hf, hcalled, hne⟩, rfl⟩

/-- The names that are both watched and called are the broken ones when no function is
misjudged. -/
theorem Visits.inter_eq_iff (h : Visits ast incomingAtoms functions)
    (hhash : NoCollision ast functions) :
    (watchSources ast (extractForeignSources ast incomingAtoms)).watchList
        ∩ localCalls ast.localRustSources = brokenNames ast functions
      ↔ ∀ f ∈ functions, ¬ Misjudged ast incomingAtoms f := by
  rw [Finset.ext_iff]
  constructor
  · intro hsame f hf hmis
    have hmem := (hsame f.name).mp (Finset.mem_inter.mpr ⟨(h.mem_watchList_iff hhash
      hmis.called).mpr ⟨f, hf, rfl, .inr hmis⟩, hmis.called⟩)
    obtain ⟨-, f', hf', hname, hne⟩ := mem_brokenNames.mp hmem
    obtain rfl := List.inj_on_of_nodup_map h.distinct hf' hf hname
    exact hne hmis.expected
  · intro hnone name
    rw [Finset.mem_inter, mem_brokenNames, and_comm]
    refine and_congr_right fun hcalled => (h.mem_watchList_iff hhash hcalled).trans ?_
    refine exists_congr fun f => and_congr_right fun hf => and_congr_right fun hname => ?_
    exact or_iff_left (hnone f hf)

/-! ### The gates -/

omit [TreeSitter] [Crypto] in
theorem Reports.error_iff {broken : List String} {old new : String} {names : Finset String} :
    Reports (.error (.signatureMismatch broken old new)) names
      ↔ names ≠ ∅ ∧ broken = names.sorted := by
  unfold Reports
  split_ifs with hempty
  · simp [hempty]
  · simp [hempty]

omit [TreeSitter] [Crypto] in
theorem Reports.ok_iff {names : Finset String} : Reports (.ok ()) names ↔ names = ∅ := by
  unfold Reports
  split_ifs with hempty
  · simp [hempty]
  · simp [hempty]

omit [TreeSitter] [Crypto] in
theorem sorted_inj {a b : Finset String} : a.sorted = b.sorted ↔ a = b := by
  refine ⟨fun h => ?_, fun h => by rw [h]⟩
  rw [← a.toFinset_sorted, h, b.toFinset_sorted]

def ArcPolicy.asksSponsor (policy : ArcPolicy) (incomingAtoms : List Atom) : Bool :=
  policy.requireGhostNodeSponsor && incomingAtoms.any fun atom => atom matches .mount ..

/-- When the report is the right one: where the policy has the signatures checked, no function is
misjudged. -/
def ImpactExact (policy : ArcPolicy) (ast : Ast) (incomingAtoms : List Atom)
    (functions : List ApiFunction) : Prop :=
  if policy.asksSponsor incomingAtoms then brokenNames ast functions = {"<ghost-node-sponsor>"}
  else if policy.blockUnresolvedSemBreaks = false then brokenNames ast functions = ∅
  else ∀ f ∈ functions, ¬ Misjudged ast incomingAtoms f

theorem Visits.reports_iff {policy : ArcPolicy}
    (hsponsor : policy.asksSponsor incomingAtoms = false)
    (hblock : policy.blockUnresolvedSemBreaks = true) (hsetup : TreeSitter.setup = .ok ())
    (h : Visits ast incomingAtoms functions) (hhash : NoCollision ast functions) :
    Reports (evaluateDeltaImpact policy ast incomingAtoms) (brokenNames ast functions)
      ↔ ∀ f ∈ functions, ¬ Misjudged ast incomingAtoms f := by
  rw [ArcPolicy.asksSponsor] at hsponsor
  rw [evaluateDeltaImpact, if_neg (by simp [hsponsor]), if_neg (by simp [hblock]), hsetup,
    ← h.inter_eq_iff hhash]
  dsimp only
  split_ifs with hwatch hempty
  · rw [Reports.ok_iff, hwatch, Finset.empty_inter, eq_comm]
  · rw [Reports.ok_iff, hempty, eq_comm]
  · rw [Reports.error_iff, sorted_inj]
    exact and_iff_right_of_imp fun heq => heq ▸ hempty

/-- **The impact is exact** when no match without the return type, for a function that has the
expected one, comes before the match with it. -/
theorem impact_exact_iff (policy : ArcPolicy) (hsetup : TreeSitter.setup = .ok ())
    (h : Visits ast incomingAtoms functions) (hhash : NoCollision ast functions) :
    Reports (evaluateDeltaImpact policy ast incomingAtoms) (brokenNames ast functions)
      ↔ ImpactExact policy ast incomingAtoms functions := by
  unfold ImpactExact
  split_ifs with hsponsor hblock
  · have hsingle : ["<ghost-node-sponsor>"]
        = (({"<ghost-node-sponsor>"} : Finset String)).sorted := by decide
    rw [evaluateDeltaImpact, ← ArcPolicy.asksSponsor, if_pos hsponsor, Reports.error_iff, hsingle,
      sorted_inj, eq_comm]
    refine and_iff_right_of_imp fun heq => ?_
    rw [heq]
    exact Finset.singleton_ne_empty _
  · rw [evaluateDeltaImpact, ← ArcPolicy.asksSponsor, if_neg hsponsor, if_pos hblock]
    exact Reports.ok_iff
  · exact h.reports_iff (by simpa using hsponsor) (by simpa using hblock) hsetup hhash

end Report

/-! ## A function with a return type -/

def foo : ApiFunction := ⟨"foo", "(x: i32)", some "i32"⟩

/-- A parser that finds `foo`, with its matches in some order, and a call of it. -/
@[reducible] def fooSitter (order : List BoundaryMatch) : TreeSitter where
  setup := .ok ()
  boundaryMatches source := if source = "fn foo(x: i32) -> i32 { x }" then some order else some []
  callNames source := if source = "fn main() { foo(1); }" then some [some "foo"] else some []

def fooAst : Ast where
  localRustSources := ["fn main() { foo(1); }"]
  expectedApiSignatures := Finmap.singleton "foo" "(x: i32) -> i32"
  foreignRustSources := ["fn foo(x: i32) -> i32 { x }"]

theorem visited_fooAst (order : List BoundaryMatch) :
    @visited (fooSitter order) fooAst [] = order := List.append_nil order

theorem fooAst_visits {order : List BoundaryMatch} (h : order.Perm [foo.full, foo.fallback]) :
    @Visits (fooSitter order) fooAst [] [foo] := by
  refine @Visits.mk (fooSitter order) fooAst [] [foo] (by decide) ?_
  rw [visited_fooAst]
  exact h

theorem fooAst_noCollision : @NoCollision Crypto.sample fooAst [foo] := by
  unfold NoCollision
  simp only [utf8_eq]
  decide

/-- With the return type first, nothing is reported. -/
theorem impact_exact_foo :
    @Reports (@evaluateDeltaImpact Crypto.sample (fooSitter [foo.full, foo.fallback])
      ⟨false, true⟩ fooAst [])
      (@brokenNames (fooSitter [foo.full, foo.fallback]) fooAst [foo]) := by
  refine (@impact_exact_iff fooAst [] [foo] (fooSitter [foo.full, foo.fallback]) Crypto.sample
    ⟨false, true⟩ rfl (fooAst_visits (.refl _)) fooAst_noCollision).mpr fun f hf hmis => ?_
  obtain rfl := List.mem_singleton.mp hf
  obtain ⟨-, -, -, before, after, hsplit, hfirst⟩ := hmis
  rw [visited_fooAst] at hsplit
  cases before with
  | nil => exact absurd (List.cons.inj hsplit).1 (by decide)
  | cons b before => exact hfirst ((List.cons.inj hsplit).1 ▸ List.mem_cons_self)

/-- With the fallback first, `foo` is reported though it is the expected function. -/
theorem not_reports_foo : @Visits (fooSitter [foo.fallback, foo.full]) fooAst [] [foo]
    ∧ ¬ @Reports (@evaluateDeltaImpact Crypto.sample (fooSitter [foo.fallback, foo.full])
      ⟨false, true⟩ fooAst [])
      (@brokenNames (fooSitter [foo.fallback, foo.full]) fooAst [foo]) := by
  have hvisits : @Visits (fooSitter [foo.fallback, foo.full]) fooAst [] [foo] :=
    fooAst_visits (.swap _ _ _)
  refine ⟨hvisits, fun h => ?_⟩
  have hnone := (@Visits.reports_iff fooAst [] [foo] (fooSitter [foo.fallback, foo.full])
    Crypto.sample ⟨false, true⟩ rfl rfl rfl hvisits fooAst_noCollision).mp h
  exact hnone foo (List.mem_singleton_self _) (@Misjudged.mk (fooSitter [foo.fallback, foo.full])
    fooAst [] foo (by decide) (by decide) (by decide) ⟨[], [foo.full], rfl, by simp⟩)

end ArcVcs.PolicyGate
