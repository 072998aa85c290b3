import ArcVcs.Lib.SortedMap
import Mathlib.Data.String.Basic

/-!
# Conflicts between mappings

`validate_mappings_with` drops the records with an invalid destination and groups the others by
destination and source. A destination with two sources is an issue.
-/

namespace ArcVcs

structure MappingRecord where
  source : String
  destination : Option String
  ruleIndex : ℕ
deriving DecidableEq

/-- `ValidationIssue::Conflict`: the sources and a rule index for each. -/
structure ValidationIssue where
  destination : String
  sources : List String
  ruleIndexes : List ℕ
deriving DecidableEq

/-- `ValidationFix::InvalidDestinationDropped`. -/
structure ValidationFix where
  destination : String
  ruleIndex : ℕ
deriving DecidableEq

structure ValidatedMappings where
  accepted : List MappingRecord
  fixes : List ValidationFix
deriving DecidableEq

/-- The rule indexes of one source, of which there is one at least. -/
structure RuleSet where
  rules : Finset ℕ
  nonempty : rules.Nonempty

namespace RuleSet

def insert (index : ℕ) (rules : Option RuleSet) : RuleSet :=
  ⟨Insert.insert index (rules.elim ∅ RuleSet.rules), Finset.insert_nonempty _ _⟩

def first (rules : RuleSet) : ℕ := rules.rules.min' rules.nonempty

end RuleSet

/-- The record is kept by the filter. A record without a destination always is. -/
def MappingRecord.IsAccepted (record : MappingRecord) (isValidDestination : String → Bool) : Bool :=
  record.destination.all isValidDestination

/-- The first loop, over the records. -/
def splitRecords (isValidDestination : String → Bool) :
    List MappingRecord → ValidatedMappings
  | [] => ⟨[], []⟩
  | record :: records =>
      let rest := splitRecords isValidDestination records
      match record.destination with
      | none => { rest with accepted := record :: rest.accepted }
      | some destination =>
          if isValidDestination destination then { rest with accepted := record :: rest.accepted }
          else { rest with fixes := ⟨destination, record.ruleIndex⟩ :: rest.fixes }

/-- The sources of one destination. -/
abbrev Contributors := FMap String RuleSet

def addContributor (record : MappingRecord) (contributors : Option Contributors) : Contributors :=
  (contributors.getD ∅).entry record.source (RuleSet.insert record.ruleIndex)

/-- The second loop, over the accepted records. -/
def byDestination (accepted : List MappingRecord) : FMap String Contributors :=
  accepted.foldl (fun m record =>
    match record.destination with
    | none => m
    | some destination => m.entry destination (addContributor record)) ∅

/-- The issue of one destination, if it has two sources. -/
def issueAt (destination : String) (contributors : Contributors) : Option ValidationIssue :=
  if 1 < contributors.keys.card then
    some {
      destination
      sources := contributors.keys.sorted
      ruleIndexes := contributors.keys.sorted.filterMap fun source =>
        (contributors.lookup source).map RuleSet.first }
  else none

/-- The third loop, over the destinations. -/
def issuesOf (accepted : List MappingRecord) : List ValidationIssue :=
  (byDestination accepted).keys.sorted.filterMap fun destination =>
    ((byDestination accepted).lookup destination).bind (issueAt destination)

def validateMappingsWith (records : List MappingRecord) (isValidDestination : String → Bool) :
    Except (List ValidationIssue) ValidatedMappings :=
  let mappings := splitRecords isValidDestination records
  let issues := issuesOf mappings.accepted
  if issues = [] then .ok mappings else .error issues

section Grouped

variable {records accepted : List MappingRecord} {isValidDestination : String → Bool}
  {destination source : String}

theorem splitRecords_accepted (records : List MappingRecord) (isValidDestination : String → Bool) :
    (splitRecords isValidDestination records).accepted
      = records.filter (·.IsAccepted isValidDestination) := by
  induction records with
  | nil => rfl
  | cons record records ih =>
      obtain ⟨source, destination, ruleIndex⟩ := record
      cases destination with
      | none =>
          rw [List.filter_cons_of_pos rfl, ← ih]
          rfl
      | some destination =>
          cases h : isValidDestination destination <;>
            simp [splitRecords, MappingRecord.IsAccepted, h, ih]

def recordsTo (accepted : List MappingRecord) (destination : String) : List MappingRecord :=
  accepted.filter fun record => decide (record.destination = some destination)

/-- The rule indexes of the records from the source to the destination. -/
def rulesOf (accepted : List MappingRecord) (destination source : String) : Finset ℕ :=
  (((recordsTo accepted destination).filter fun record => decide (record.source = source)).map
    MappingRecord.ruleIndex).toFinset

def sourcesOf (accepted : List MappingRecord) (destination : String) : Finset String :=
  ((recordsTo accepted destination).map MappingRecord.source).toFinset

theorem mem_rulesOf {index : ℕ} :
    index ∈ rulesOf accepted destination source ↔ ∃ record ∈ accepted,
      record.destination = some destination ∧ record.source = source
        ∧ record.ruleIndex = index := by
  simp only [rulesOf, recordsTo, List.mem_toFinset, List.mem_map, List.mem_filter,
    decide_eq_true_eq, and_assoc]

theorem mem_sourcesOf :
    source ∈ sourcesOf accepted destination ↔ ∃ record ∈ accepted,
      record.destination = some destination ∧ record.source = source := by
  simp only [sourcesOf, recordsTo, List.mem_toFinset, List.mem_map, List.mem_filter,
    decide_eq_true_eq, and_assoc]

theorem byDestination_eq (accepted : List MappingRecord) :
    byDestination accepted = FMap.group MappingRecord.destination addContributor accepted := by
  rw [byDestination, FMap.group]
  congr 1
  funext m record
  cases record.destination <;> rfl

/-- The sources with their rules, from the records with one destination. -/
def contributorsOf (records : List MappingRecord) : Contributors :=
  FMap.group (fun record => some record.source) (fun record => RuleSet.insert record.ruleIndex)
    records

theorem lookup_byDestination (accepted : List MappingRecord) (destination : String) :
    (byDestination accepted).lookup destination
      = if recordsTo accepted destination = [] then none
        else some (contributorsOf (recordsTo accepted destination)) := by
  rw [byDestination_eq, FMap.lookup_group]
  exact FMap.foldl_some_getD (fun (m : Contributors) (record : MappingRecord) =>
    m.entry record.source (RuleSet.insert record.ruleIndex)) ∅ _

theorem keys_contributorsOf (accepted : List MappingRecord) (destination : String) :
    (contributorsOf (recordsTo accepted destination)).keys = sourcesOf accepted destination := by
  ext source
  rw [contributorsOf, FMap.mem_keys_group_iff]
  simp [sourcesOf]

theorem rules_foldl_insert (l : List MappingRecord) (rules : Option RuleSet) :
    (l.foldl (fun o record => some (RuleSet.insert record.ruleIndex o)) rules).elim ∅ RuleSet.rules
      = rules.elim ∅ RuleSet.rules ∪ (l.map MappingRecord.ruleIndex).toFinset := by
  induction l generalizing rules with
  | nil => simp
  | cons record l ih =>
      rw [List.foldl_cons, ih, Option.elim_some, RuleSet.insert, List.map_cons,
        List.toFinset_cons, Finset.union_insert, Finset.insert_union]

theorem rules_of_lookup_contributorsOf {rules : RuleSet}
    (h : (contributorsOf (recordsTo accepted destination)).lookup source = some rules) :
    rules.rules = rulesOf accepted destination source := by
  have hrules := rules_foldl_insert ((recordsTo accepted destination).filter fun record =>
    decide (record.source = source)) none
  rw [contributorsOf, FMap.lookup_group] at h
  simp only [Option.some.injEq] at h
  rw [h, Option.elim_some, Option.elim_none, Finset.empty_union] at hrules
  exact hrules

theorem map_first_lookup_contributorsOf :
    ((contributorsOf (recordsTo accepted destination)).lookup source).map RuleSet.first
      = (rulesOf accepted destination source).sorted.head? := by
  cases hlook : (contributorsOf (recordsTo accepted destination)).lookup source with
  | none =>
      have hempty : rulesOf accepted destination source = ∅ := by
        rw [← FMap.notMem_keys_iff, keys_contributorsOf, mem_sourcesOf] at hlook
        refine Finset.eq_empty_of_forall_notMem fun index hindex => hlook ?_
        obtain ⟨record, hmem, hdest, hsource, -⟩ := mem_rulesOf.mp hindex
        exact ⟨record, hmem, hdest, hsource⟩
      rw [hempty]
      rfl
  | some rules =>
      rw [← rules_of_lookup_contributorsOf hlook, Option.map_some, eq_comm,
        Finset.head?_sorted_eq_some_iff]
      exact rules.rules.isLeast_min' rules.nonempty

def issueOf (accepted : List MappingRecord) (destination : String) : ValidationIssue where
  destination := destination
  sources := (sourcesOf accepted destination).sorted
  ruleIndexes := (sourcesOf accepted destination).sorted.filterMap fun source =>
    (rulesOf accepted destination source).sorted.head?

/-- The destinations with two sources. -/
def contested (accepted : List MappingRecord) : Finset String :=
  (accepted.filterMap MappingRecord.destination).toFinset.filter fun destination =>
    1 < (sourcesOf accepted destination).card

theorem issuesOf_eq (accepted : List MappingRecord) :
    issuesOf accepted = (contested accepted).sorted.map (issueOf accepted) := by
  have hkeys : (byDestination accepted).keys
      = (accepted.filterMap MappingRecord.destination).toFinset := by
    ext destination
    rw [byDestination_eq, FMap.mem_keys_group_iff]
    simp
  rw [issuesOf, hkeys, contested, ← Finset.filter_sorted, ← List.filterMap_eq_map,
    List.filterMap_filter]
  refine List.filterMap_congr fun destination hdest => ?_
  have hmem : recordsTo accepted destination ≠ [] := by
    simp only [Finset.mem_sorted, List.mem_toFinset, List.mem_filterMap] at hdest
    obtain ⟨record, hrecord, hdest⟩ := hdest
    exact List.ne_nil_of_mem (List.mem_filter.mpr ⟨hrecord, decide_eq_true hdest⟩)
  rw [lookup_byDestination, if_neg hmem, Option.bind_some, issueAt, keys_contributorsOf]
  simp only [map_first_lookup_contributorsOf, decide_eq_true_eq]
  rfl

theorem mem_contested_iff :
    destination ∈ contested accepted ↔ 1 < (sourcesOf accepted destination).card := by
  rw [contested, Finset.mem_filter, and_iff_right_iff_imp]
  intro hcard
  obtain ⟨source, hsource⟩ := Finset.card_pos.mp (zero_lt_one.trans hcard)
  obtain ⟨record, hmem, hdest, -⟩ := mem_sourcesOf.mp hsource
  exact List.mem_toFinset.mpr (List.mem_filterMap.mpr ⟨record, hmem, hdest⟩)

theorem validateMappingsWith_eq_error_iff {issues : List ValidationIssue} :
    validateMappingsWith records isValidDestination = .error issues
      ↔ issues ≠ [] ∧ issuesOf (records.filter (·.IsAccepted isValidDestination)) = issues := by
  rw [validateMappingsWith, splitRecords_accepted]
  split_ifs with h
  · simp only [false_iff, not_and, h]
    exact fun hne heq => hne heq.symm
  · rw [Except.error.injEq]
    exact ⟨fun heq => ⟨heq ▸ h, heq⟩, And.right⟩

end Grouped

section Conflicts

variable (records : List MappingRecord) (isValidDestination : String → Bool)

/-- An accepted record maps the source to the destination, with the rule index. -/
def Maps (destination source : String) (index : ℕ) : Prop :=
  ∃ record ∈ records, record.IsAccepted isValidDestination = true
    ∧ record.destination = some destination ∧ record.source = source ∧ record.ruleIndex = index

/-- The issue lists the sources of its destination in order, each with its smallest rule index. -/
structure IsIssue (issue : ValidationIssue) : Prop where
  sorted : issue.sources.Pairwise (· < ·)
  mem_sources : ∀ source, source ∈ issue.sources
    ↔ ∃ index, Maps records isValidDestination issue.destination source index
  ruleIndexes : List.Forall₂ (fun source index =>
    IsLeast {index | Maps records isValidDestination issue.destination source index} index)
      issue.sources issue.ruleIndexes

variable {records isValidDestination} {destination source : String}

theorem coe_rulesOf_accepted (destination source : String) :
    (rulesOf (records.filter (·.IsAccepted isValidDestination)) destination source : Set ℕ)
      = {index | Maps records isValidDestination destination source index} := by
  ext index
  simp only [Finset.mem_coe, mem_rulesOf, Set.mem_ofPred_eq, Maps, List.mem_filter, and_assoc]

theorem mem_sourcesOf_accepted :
    source ∈ sourcesOf (records.filter (·.IsAccepted isValidDestination)) destination
      ↔ ∃ index, Maps records isValidDestination destination source index := by
  simp only [mem_sourcesOf, Maps, List.mem_filter, and_assoc]
  constructor
  · rintro ⟨record, hmem, hacc, hdest, hsource⟩
    exact ⟨_, record, hmem, hacc, hdest, hsource, rfl⟩
  · rintro ⟨-, record, hmem, hacc, hdest, hsource, -⟩
    exact ⟨record, hmem, hacc, hdest, hsource⟩

theorem isIssue_issueOf (destination : String) :
    IsIssue records isValidDestination
      (issueOf (records.filter (·.IsAccepted isValidDestination)) destination) where
  sorted := by
    rw [issueOf]
    exact (sourcesOf _ destination).pairwise_lt_sorted
  mem_sources source := by rw [issueOf, Finset.mem_sorted, mem_sourcesOf_accepted]
  ruleIndexes := by
    refine List.forall₂_filterMap fun source hsource => ?_
    rw [issueOf, Finset.mem_sorted, mem_sourcesOf_accepted] at hsource
    obtain ⟨index, hindex⟩ := hsource
    have hne : (rulesOf (records.filter (·.IsAccepted isValidDestination)) destination
        source).Nonempty := by
      rw [← Finset.coe_nonempty, coe_rulesOf_accepted]
      exact ⟨index, hindex⟩
    have hleast := Finset.isLeast_min' _ hne
    refine ⟨_, Finset.head?_sorted_eq_some_iff.mpr hleast, ?_⟩
    rwa [coe_rulesOf_accepted] at hleast

theorem mem_contested_accepted_iff :
    destination ∈ contested (records.filter (·.IsAccepted isValidDestination))
      ↔ ∃ source source' index index', source ≠ source'
        ∧ Maps records isValidDestination destination source index
        ∧ Maps records isValidDestination destination source' index' := by
  rw [mem_contested_iff, Finset.one_lt_card]
  simp only [mem_sourcesOf_accepted]
  constructor
  · rintro ⟨source, ⟨index, hmaps⟩, source', ⟨index', hmaps'⟩, hne⟩
    exact ⟨source, source', index, index', hne, hmaps, hmaps'⟩
  · rintro ⟨source, source', index, index', hne, hmaps, hmaps'⟩
    exact ⟨source, ⟨index, hmaps⟩, source', ⟨index', hmaps'⟩, hne⟩

def MappingRecord.arrow (record : MappingRecord) : Option String × String :=
  (record.destination, record.source)

theorem sourcesOf_congr {records' : List MappingRecord}
    (hperm : (records.map MappingRecord.arrow).Perm (records'.map MappingRecord.arrow)) :
    sourcesOf (records.filter (·.IsAccepted isValidDestination))
      = sourcesOf (records'.filter (·.IsAccepted isValidDestination)) := by
  have harrow : ∀ (records : List MappingRecord) (destination source : String),
      source ∈ sourcesOf (records.filter (·.IsAccepted isValidDestination)) destination
        ↔ isValidDestination destination = true
          ∧ (some destination, source) ∈ records.map MappingRecord.arrow := by
    intro records destination source
    simp only [mem_sourcesOf, List.mem_filter, List.mem_map, MappingRecord.arrow, Prod.mk.injEq]
    constructor
    · rintro ⟨record, ⟨hmem, hacc⟩, hdest, hsource⟩
      rw [MappingRecord.IsAccepted, hdest] at hacc
      exact ⟨hacc, record, hmem, hdest, hsource⟩
    · rintro ⟨hvalid, record, hmem, hdest, hsource⟩
      refine ⟨record, ⟨hmem, ?_⟩, hdest, hsource⟩
      rwa [MappingRecord.IsAccepted, hdest]
  ext destination source
  rw [harrow, harrow, hperm.mem_iff]

theorem contested_congr {accepted accepted' : List MappingRecord}
    (h : sourcesOf accepted = sourcesOf accepted') : contested accepted = contested accepted' := by
  ext destination
  rw [mem_contested_iff, mem_contested_iff, h]

theorem issuesOf_congr {accepted accepted' : List MappingRecord} (hperm : accepted.Perm accepted') :
    issuesOf accepted = issuesOf accepted' := by
  have hsources : sourcesOf accepted = sourcesOf accepted' := by
    ext destination source
    simp only [mem_sourcesOf, hperm.mem_iff]
  have hrules : rulesOf accepted = rulesOf accepted' := by
    ext destination source index
    simp only [mem_rulesOf, hperm.mem_iff]
  rw [issuesOf_eq, issuesOf_eq, contested_congr hsources]
  refine List.map_congr_left fun destination _ => ?_
  rw [issueOf, issueOf, hsources, hrules]

def ValidationIssue.arrows (issue : ValidationIssue) : String × List String :=
  (issue.destination, issue.sources)

/-- The validation fails if and only if two accepted records have one destination and different
sources. There is one issue for each such destination, in order. The issues of a permutation of the
records are the same, up to the rule indexes when these are assigned anew. -/
theorem mapping_conflicts (records : List MappingRecord) (isValidDestination : String → Bool) :
    ((∃ issues, validateMappingsWith records isValidDestination = .error issues)
      ↔ ∃ record ∈ records, ∃ record' ∈ records,
        record.IsAccepted isValidDestination = true ∧ record'.IsAccepted isValidDestination = true
          ∧ record.destination.isSome = true ∧ record.destination = record'.destination
          ∧ record.source ≠ record'.source)
      ∧ ∀ issues, validateMappingsWith records isValidDestination = .error issues →
        (issues.map ValidationIssue.destination).Pairwise (· < ·)
          ∧ (∀ destination, destination ∈ issues.map ValidationIssue.destination
            ↔ ∃ source source' index index', source ≠ source'
              ∧ Maps records isValidDestination destination source index
              ∧ Maps records isValidDestination destination source' index')
          ∧ (∀ issue ∈ issues, IsIssue records isValidDestination issue)
          ∧ (∀ records', records.Perm records' →
            validateMappingsWith records' isValidDestination = .error issues)
          ∧ ∀ records' : List MappingRecord,
            (records.map MappingRecord.arrow).Perm (records'.map MappingRecord.arrow) →
              ∃ issues', validateMappingsWith records' isValidDestination = .error issues'
                ∧ issues'.map ValidationIssue.arrows = issues.map ValidationIssue.arrows := by
  set accepted := records.filter (·.IsAccepted isValidDestination) with haccepted
  have hdests : (issuesOf accepted).map ValidationIssue.destination
      = (contested accepted).sorted := by
    rw [issuesOf_eq, List.map_map]
    exact List.map_id _
  refine ⟨?_, fun issues hvalidate => ?_⟩
  · have hfails : (∃ issues, validateMappingsWith records isValidDestination = .error issues)
        ↔ ∃ destination, destination ∈ contested accepted := by
      simp only [validateMappingsWith_eq_error_iff, ← haccepted]
      rw [exists_eq_right', ← Finset.Nonempty, ← Finset.sorted_ne_nil_iff, ← hdests, Ne, Ne,
        List.map_eq_nil_iff]
    rw [hfails]
    simp only [haccepted, mem_contested_accepted_iff]
    constructor
    · rintro ⟨destination, -, -, -, -, hne, ⟨record, hmem, hacc, hdest, rfl, -⟩, record', hmem',
        hacc', hdest', rfl, -⟩
      exact ⟨record, hmem, record', hmem', hacc, hacc', by simp [hdest], hdest.trans hdest'.symm,
        hne⟩
    · rintro ⟨record, hmem, record', hmem', hacc, hacc', hsome, heq, hne⟩
      obtain ⟨destination, hdest⟩ := Option.isSome_iff_exists.mp hsome
      exact ⟨destination, _, _, _, _, hne, ⟨record, hmem, hacc, hdest, rfl, rfl⟩, record', hmem',
        hacc', heq.symm.trans hdest, rfl, rfl⟩
  · obtain ⟨hne, rfl⟩ := validateMappingsWith_eq_error_iff.mp hvalidate
    rw [← haccepted] at hne hvalidate ⊢
    refine ⟨hdests ▸ Finset.pairwise_lt_sorted _, fun destination => ?_, fun issue hissue => ?_,
      fun records' hperm => ?_, fun records' hperm => ?_⟩
    · rw [hdests, Finset.mem_sorted, haccepted, mem_contested_accepted_iff]
    · rw [issuesOf_eq] at hissue
      obtain ⟨destination, -, rfl⟩ := List.mem_map.mp hissue
      exact isIssue_issueOf destination
    · refine validateMappingsWith_eq_error_iff.mpr ⟨hne, ?_⟩
      exact issuesOf_congr (hperm.symm.filter _)
    · have hsources := @sourcesOf_congr records isValidDestination records' hperm
      have harrows : (issuesOf (records'.filter (·.IsAccepted isValidDestination))).map
          ValidationIssue.arrows = (issuesOf accepted).map ValidationIssue.arrows := by
        rw [issuesOf_eq, issuesOf_eq, contested_congr hsources, List.map_map, List.map_map]
        refine List.map_congr_left fun destination _ => ?_
        simp only [Function.comp_apply, ValidationIssue.arrows, issueOf, haccepted, hsources]
      refine ⟨_, validateMappingsWith_eq_error_iff.mpr ⟨fun hnil => hne ?_, rfl⟩, harrows⟩
      rw [hnil, List.map_nil, eq_comm, List.map_eq_nil_iff] at harrows
      exact harrows

theorem mapping_conflicts_alpha :
    ∃ issues, validateMappingsWith
      [⟨"source-b", some "alpha", 2⟩, ⟨"source-a", some "alpha", 1⟩] (· ≠ "") = .error issues := by
  refine (mapping_conflicts _ _).1.mpr ⟨_, List.mem_cons_self, _,
    List.mem_cons_of_mem _ List.mem_cons_self, ?_, ?_, rfl, rfl, ?_⟩ <;> decide

example : validateMappingsWith
    [⟨"source-b", some "alpha", 2⟩, ⟨"source-a", some "alpha", 1⟩] (· ≠ "")
      = .error [⟨"alpha", ["source-a", "source-b"], [1, 2]⟩] := by
  rfl

end Conflicts

end ArcVcs
