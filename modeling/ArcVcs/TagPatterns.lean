import ArcVcs.Atom
import ArcVcs.Lib.Collections
import ArcVcs.Lib.KeySort
import Mathlib.Computability.Language
import Mathlib.Data.String.Basic

/-!
# Tags and their patterns

`simple_pattern_match` fills a table row by row, one row for each beginning of the pattern. The
tags whose names match are deleted, each with the file that its name leads to.
-/

namespace ArcVcs

/-! ## Patterns -/

/-- A cell of the table from the cells above it, on its left and above on the left. -/
def patternCell (c t : Char) (up left diag : Bool) : Bool :=
  match c with
  | '*' => up || left
  | '?' => diag
  | c => diag && c == t

def patternCells (c : Char) : (left diag : Bool) → List Char → List Bool → List Bool
  | left, diag, t :: text, up :: above =>
      let cell := patternCell c t up left diag
      cell :: patternCells c cell up text above
  | _, _, _, _ => []

/-- The row of a beginning of the pattern, from the row above. -/
def patternRow (text : List Char) (above : List Bool) (c : Char) : List Bool :=
  let first := c == '*' && above.headD false
  first :: patternCells c first (above.headD false) text above.tail

def simplePatternMatch (pattern text : String) : Bool :=
  if pattern = "*" then true
  else
    let firstRow := true :: List.replicate text.toList.length false
    (pattern.toList.foldl (patternRow text.toList) firstRow).getLastD false

/-! ## Tags -/

structure Tag where
  name : String
  target : Blake3Hash
deriving DecidableEq

/-- The files of `.arc/tags` by their names. A file may hold no tag. -/
abbrev TagDir := FMap String (Option Tag)

/-- `name.replace('/', "-")`. -/
def safeName (name : String) : String :=
  String.ofList (name.toList.map fun c => if c = '/' then '-' else c)

def tagFile (name : String) : String := safeName name ++ ".json"

/-- `Path::extension` of a file name. A name with its only dot in front has none. -/
def extension (fileName : String) : Option String :=
  let after := fileName.toList.reverse.takeWhile (· ≠ '.')
  let before := (fileName.toList.reverse.dropWhile (· ≠ '.')).tail
  if before = [] then none else some (String.ofList after.reverse)

inductive TagError where
  | exists_ (name : String)
  | corrupt (file : String)
deriving DecidableEq

def createTag (tag : Tag) (dir : TagDir) : Except TagError TagDir :=
  if tagFile tag.name ∈ dir.keys then .error (.exists_ tag.name)
  else .ok (dir.insert (tagFile tag.name) (some tag))

def setTag (tag : Tag) (allowMove : Bool) (dir : TagDir) : Except TagError TagDir :=
  if tagFile tag.name ∈ dir.keys ∧ allowMove = false then .error (.exists_ tag.name)
  else .ok (dir.insert (tagFile tag.name) (some tag))

/-- The loop over the files. -/
def readTags (dir : TagDir) : List String → Except TagError (List Tag)
  | [] => .ok []
  | file :: files =>
      if extension file = some "json" then
        match dir.lookup file with
        | some (some tag) => (readTags dir files).map (tag :: ·)
        | _ => .error (.corrupt file)
      else readTags dir files

def listTags (dir : TagDir) : Except TagError (List Tag) :=
  (readTags dir dir.keys.sorted).map fun tags => tags.insertionSort fun a b => a.name ≤ b.name

/-- One round of the loop over the tags. -/
def deleteTag (patterns : List String) (st : TagDir × List String) (tag : Tag) :
    TagDir × List String :=
  if (patterns.any fun p => simplePatternMatch p tag.name) && tagFile tag.name ∈ st.1.keys then
    (st.1.erase (tagFile tag.name), st.2 ++ [tag.name])
  else st

/-- The names of the deleted tags, sorted and without duplicates, and the directory. -/
def deleteTagsMatching (patterns : List String) (dir : TagDir) :
    Except TagError (List String × TagDir) := do
  let tags ← listTags dir
  let (dir, deleted) := tags.foldl (deleteTag patterns) (dir, [])
  .ok (deleted.sortDedup, dir)

/-- What the commands on tags leave of an empty directory. -/
inductive TagDir.Reachable : TagDir → Prop where
  | init : Reachable ∅
  | create {dir dir' : TagDir} (tag : Tag) (h : Reachable dir)
      (hrun : createTag tag dir = .ok dir') : Reachable dir'
  | set {dir dir' : TagDir} (tag : Tag) (allowMove : Bool) (h : Reachable dir)
      (hrun : setTag tag allowMove dir = .ok dir') : Reachable dir'
  | delete {dir dir' : TagDir} (patterns deleted : List String) (h : Reachable dir)
      (hrun : deleteTagsMatching patterns dir = .ok (deleted, dir')) : Reachable dir'

/-! ## What a pattern stands for -/

/-- The texts that one character of a pattern stands for. -/
def itemLanguage (c : Char) : Language Char :=
  {text | if c = '*' then True else if c = '?' then text.length = 1 else text = [c]}

def patternLanguage (pattern : List Char) : Language Char := (pattern.map itemLanguage).prod

/-- The cells say which beginnings of a text are in a language, from `front` on. -/
inductive RowOf (L : Language Char) : List Char → List Char → List Bool → Prop where
  | nil {front : List Char} {b : Bool} (hb : b = true ↔ front ∈ L) : RowOf L front [] [b]
  | cons {front text : List Char} {t : Char} {b : Bool} {row : List Bool}
      (hb : b = true ↔ front ∈ L) (hrow : RowOf L (front ++ [t]) text row) :
      RowOf L front (t :: text) (b :: row)

variable {L : Language Char} {front text : List Char} {row : List Bool} {c : Char}

theorem mem_mul_star_concat {t : Char} :
    front ++ [t] ∈ L * itemLanguage '*' ↔ front ++ [t] ∈ L ∨ front ∈ L * itemLanguage '*' := by
  simp only [Language.mem_mul]
  constructor
  · rintro ⟨a, ha, b, -, hab⟩
    rcases List.eq_nil_or_concat b with rfl | ⟨b, x, rfl⟩
    · rw [List.append_nil] at hab
      exact .inl (hab ▸ ha)
    · rw [List.concat_eq_append, ← List.append_assoc] at hab
      exact .inr ⟨a, ha, b, trivial, (List.append_inj' hab rfl).1⟩
  · rintro (hmem | ⟨a, ha, b, -, rfl⟩)
    · exact ⟨_, hmem, [], trivial, List.append_nil _⟩
    · exact ⟨a, ha, b ++ [t], trivial, (List.append_assoc _ _ _).symm⟩

theorem length_of_mem_itemLanguage (hc : c ≠ '*') (h : text ∈ itemLanguage c) :
    text.length = 1 := by
  change if c = '*' then True else if c = '?' then text.length = 1 else text = [c] at h
  rw [if_neg hc] at h
  split_ifs at h
  · exact h
  · rw [h]
    rfl

/-- Every character but `*` stands for one character. -/
theorem mem_mul_concat {t : Char} (hc : c ≠ '*') :
    front ++ [t] ∈ L * itemLanguage c ↔ front ∈ L ∧ [t] ∈ itemLanguage c := by
  rw [Language.mem_mul]
  constructor
  · rintro ⟨a, ha, b, hb, hab⟩
    obtain ⟨x, rfl⟩ := List.length_eq_one_iff.mp (length_of_mem_itemLanguage hc hb)
    obtain ⟨rfl, hx⟩ := List.append_inj' hab rfl
    exact ⟨ha, hx ▸ hb⟩
  · rintro ⟨ha, hb⟩
    exact ⟨front, ha, [t], hb, rfl⟩

theorem patternCell_iff {up left diag : Bool} {t : Char} (hup : up = true ↔ front ++ [t] ∈ L)
    (hleft : left = true ↔ front ∈ L * itemLanguage c) (hdiag : diag = true ↔ front ∈ L) :
    patternCell c t up left diag = true ↔ front ++ [t] ∈ L * itemLanguage c := by
  by_cases hstar : c = '*'
  · subst hstar
    rw [mem_mul_star_concat, ← hup, ← hleft]
    exact iff_of_eq (Bool.or_eq_true _ _)
  rw [mem_mul_concat hstar, ← hdiag]
  by_cases hone : c = '?'
  · subst hone
    exact (and_iff_left rfl).symm
  · have hcell : patternCell c t up left diag = (diag && c == t) := by
      unfold patternCell
      split
      · exact absurd rfl hstar
      · exact absurd rfl hone
      · rfl
    have hitem : [t] ∈ itemLanguage c ↔ c = t := by
      change (if c = '*' then True else if c = '?' then [t].length = 1 else [t] = [c]) ↔ c = t
      rw [if_neg hstar, if_neg hone, List.singleton_inj, eq_comm]
    rw [hcell, hitem, Bool.and_eq_true, beq_iff_eq]

theorem RowOf.cells {left diag : Bool} (hleft : left = true ↔ front ∈ L * itemLanguage c)
    (hrow : RowOf L front text (diag :: row)) :
    RowOf (L * itemLanguage c) front text (left :: patternCells c left diag text row) := by
  induction text generalizing front left diag row with
  | nil => exact .nil hleft
  | cons t text ih =>
      cases hrow with
      | cons hdiag habove =>
          cases habove with
          | nil hup => exact .cons hleft (ih (patternCell_iff hup hleft hdiag) (.nil hup))
          | cons hup hrest =>
              exact .cons hleft (ih (patternCell_iff hup hleft hdiag) (.cons hup hrest))

theorem RowOf.patternRow (hrow : RowOf L [] text row) :
    RowOf (L * itemLanguage c) [] text (patternRow text row c) := by
  have hnil : [] ∈ L * itemLanguage c ↔ [] ∈ L ∧ c = '*' := by
    rw [Language.mem_mul]
    constructor
    · rintro ⟨a, ha, b, hb, hab⟩
      obtain ⟨rfl, rfl⟩ := List.append_eq_nil_iff.mp hab
      refine ⟨ha, by_contra fun hc => ?_⟩
      exact absurd (length_of_mem_itemLanguage hc hb) Nat.zero_ne_one
    · rintro ⟨ha, rfl⟩
      exact ⟨[], ha, [], trivial, rfl⟩
  cases hrow with
  | nil hb => exact .nil (by simp [hnil, hb, and_comm])
  | cons hb hrest =>
      refine RowOf.cells ?_ (.cons hb hrest)
      simp [hnil, hb, and_comm]

theorem RowOf.foldl (pattern : List Char) (hrow : RowOf L [] text row) :
    RowOf (L * patternLanguage pattern) [] text (pattern.foldl (ArcVcs.patternRow text) row) := by
  induction pattern generalizing L row with
  | nil => simpa [patternLanguage] using hrow
  | cons c pattern ih =>
      rw [List.foldl_cons, patternLanguage, List.map_cons, List.prod_cons, ← mul_assoc]
      exact ih hrow.patternRow

theorem RowOf.getLastD (hrow : RowOf L front text row) :
    row.getLastD false = true ↔ front ++ text ∈ L := by
  induction hrow with
  | nil hb => simpa using hb
  | @cons front text t b row hb hrow ih =>
      have hne : row ≠ [] := by
        cases hrow
        · exact List.cons_ne_nil _ _
        · exact List.cons_ne_nil _ _
      rw [List.append_assoc, List.singleton_append] at ih
      rw [← ih]
      cases row with
      | nil => exact absurd rfl hne
      | cons b' row => rfl

theorem rowOf_one (text : List Char) :
    RowOf 1 [] text (true :: List.replicate text.length false) := by
  have hfalse : ∀ {text front : List Char}, front ≠ [] →
      RowOf 1 front text (List.replicate (text.length + 1) false) := by
    intro text
    induction text with
    | nil => exact fun hne => .nil (by simp [Language.mem_one, hne])
    | cons t text ih =>
        exact fun hne => .cons (by simp [Language.mem_one, hne]) (ih (by simp))
  have htrue : (true = true) ↔ [] ∈ (1 : Language Char) := by simp [Language.mem_one]
  cases text with
  | nil => exact .nil htrue
  | cons t text => exact .cons htrue (hfalse (by simp))

/-- **A text matches when it is in the language of the pattern.** -/
theorem simplePatternMatch_iff (pattern text : String) :
    simplePatternMatch pattern text = true ↔ text.toList ∈ patternLanguage pattern.toList := by
  rw [simplePatternMatch]
  split_ifs with hstar
  · have hall : patternLanguage pattern.toList = ⊤ := by
      rw [hstar]
      exact mul_one _
    rw [hall]
    exact iff_of_true rfl trivial
  · have hrow := (rowOf_one text.toList).foldl pattern.toList
    rw [one_mul] at hrow
    exact hrow.getLastD

/-! ## Deleting tags -/

def Tag.Matches (tag : Tag) (patterns : List String) : Prop :=
  ∃ p ∈ patterns, tag.name.toList ∈ patternLanguage p.toList

def TagDir.Holds (dir : TagDir) (tag : Tag) : Prop := ∃ file, dir.lookup file = some (some tag)

/-- The tags that match are deleted, and no other one. The result lists their names in order. -/
def DeletesExactly (patterns : List String) (dir : TagDir) : Prop :=
  ∃ deleted dir', deleteTagsMatching patterns dir = .ok (deleted, dir')
    ∧ (∀ tag, dir'.Holds tag ↔ dir.Holds tag ∧ ¬ tag.Matches patterns)
    ∧ deleted.Pairwise (· < ·)
    ∧ ∀ name, name ∈ deleted ↔ ∃ tag, dir.Holds tag ∧ tag.Matches patterns ∧ tag.name = name

/-- Every file holds the tag that its name belongs to. -/
def TagDir.Keyed (dir : TagDir) : Prop :=
  ∀ file content, dir.lookup file = some content → ∃ tag, content = some tag
    ∧ tagFile tag.name = file

variable {dir dir' : TagDir} {tag : Tag} {patterns : List String} {tags : List Tag}

theorem matches_iff : (patterns.any fun p => simplePatternMatch p tag.name) = true
    ↔ tag.Matches patterns := by
  simp only [List.any_eq_true, simplePatternMatch_iff, Tag.Matches]

theorem extension_tagFile (name : String) :
    extension (tagFile name) = if name = "" then none else some "json" := by
  have hlist : (tagFile name).toList.reverse
      = 'n' :: 'o' :: 's' :: 'j' :: '.' :: (safeName name).toList.reverse := by
    rw [tagFile, String.toList_append, List.reverse_append]
    rfl
  have hempty : (safeName name).toList.reverse = [] ↔ name = "" := by
    rw [List.reverse_eq_nil_iff, safeName, String.toList_ofList, List.map_eq_nil_iff,
      String.toList_eq_nil_iff]
  have hbefore : (('n' :: 'o' :: 's' :: 'j' :: '.' :: (safeName name).toList.reverse).dropWhile
      (· ≠ '.')).tail = (safeName name).toList.reverse := rfl
  rw [extension, hlist, hbefore]
  simp only [hempty]
  rfl

/-! ### The files of the directory -/

theorem TagDir.Keyed.insert (h : dir.Keyed) (tag : Tag) :
    TagDir.Keyed (dir.insert (tagFile tag.name) (some tag)) := by
  intro file content hlook
  rw [FMap.lookup_insert_eq] at hlook
  split_ifs at hlook with hfile
  · exact ⟨tag, (Option.some_inj.mp hlook).symm, hfile.symm⟩
  · exact h file content hlook

theorem TagDir.Keyed.holds_iff (h : dir.Keyed) :
    dir.Holds tag ↔ dir.lookup (tagFile tag.name) = some (some tag) := by
  constructor
  · rintro ⟨file, hlook⟩
    obtain ⟨tag', heq, hfile⟩ := h file _ hlook
    obtain rfl := Option.some_inj.mp heq
    rw [hfile]
    exact hlook
  · exact fun hlook => ⟨_, hlook⟩

theorem readTags_spec (h : dir.Keyed) (files : List String) (hfiles : ∀ f ∈ files, f ∈ dir.keys) :
    ∃ tags, readTags dir files = .ok tags ∧ ∀ tag, tag ∈ tags
      ↔ tagFile tag.name ∈ files ∧ dir.Holds tag ∧ tag.name ≠ "" := by
  induction files with
  | nil => exact ⟨[], rfl, by simp⟩
  | cons file files ih =>
      obtain ⟨tags, hrun, htags⟩ := ih fun f hf => hfiles f (.tail _ hf)
      obtain ⟨content, hlook⟩ := FMap.mem_keys_iff.mp (hfiles file List.mem_cons_self)
      obtain ⟨tag, rfl, hfile⟩ := h file content hlook
      rw [readTags, ← hfile, extension_tagFile]
      by_cases hname : tag.name = ""
      · rw [if_pos hname, if_neg (by simp), hrun]
        refine ⟨tags, rfl, fun tag' => ?_⟩
        rw [htags, List.mem_cons]
        refine and_congr_left fun ⟨hholds, hname'⟩ => (or_iff_right fun heq => ?_).symm
        have hlook' := h.holds_iff.mp hholds
        rw [heq, hfile, hlook, Option.some_inj, Option.some_inj] at hlook'
        exact hname' (hlook' ▸ hname)
      · rw [if_neg hname, if_pos rfl, hfile, hlook]
        refine ⟨tag :: tags, by rw [hrun]; rfl, fun tag' => ?_⟩
        rw [List.mem_cons, htags, List.mem_cons]
        constructor
        · rintro (rfl | ⟨hmem, hrest⟩)
          · exact ⟨.inl hfile, ⟨file, hlook⟩, hname⟩
          · exact ⟨.inr hmem, hrest⟩
        · rintro ⟨heq | hmem, hrest⟩
          · have hlook' := h.holds_iff.mp hrest.1
            rw [heq, hlook, Option.some_inj, Option.some_inj] at hlook'
            exact .inl hlook'.symm
          · exact .inr ⟨hmem, hrest⟩

theorem listTags_spec (h : dir.Keyed) :
    ∃ tags, listTags dir = .ok tags ∧ ∀ tag, tag ∈ tags ↔ dir.Holds tag ∧ tag.name ≠ "" := by
  obtain ⟨tags, hrun, htags⟩ := readTags_spec h dir.keys.sorted fun _ => Finset.mem_sorted.mp
  refine ⟨tags.insertionSort fun a b => a.name ≤ b.name, by rw [listTags, hrun]; rfl,
    fun tag => ?_⟩
  rw [List.mem_insertionSort, htags, Finset.mem_sorted]
  exact and_iff_right_of_imp fun hrest => FMap.mem_keys_of_lookup (h.holds_iff.mp hrest.1)

theorem deleteTag_lookup (st : TagDir × List String) (tag : Tag) (file : String)
    (content : Option Tag) : (deleteTag patterns st tag).1.lookup file = some content
      ↔ st.1.lookup file = some content ∧ (tag.Matches patterns → tagFile tag.name ≠ file) := by
  unfold deleteTag
  by_cases hmatch : tag.Matches patterns
  · rw [matches_iff.mpr hmatch, Bool.true_and]
    by_cases hkey : tagFile tag.name ∈ st.1.keys
    · rw [if_pos (decide_eq_true hkey), FMap.lookup_erase_eq]
      split_ifs with hfile
      · simp [hfile, hmatch]
      · simp [Ne.symm hfile]
    · rw [if_neg (by simpa using hkey)]
      refine (and_iff_left_of_imp fun hlook _ hfile => hkey ?_).symm
      rw [hfile]
      exact FMap.mem_keys_of_lookup hlook
  · have hnot := mt matches_iff.mp hmatch
    rw [if_neg fun h => hnot (Bool.and_eq_true_iff.mp h).1]
    simp [hmatch]

theorem mem_deleteTag {st : TagDir × List String} {tag : Tag}
    (hstored : tagFile tag.name ∈ st.1.keys ∨ tag.name ∈ st.2) (name : String) :
    name ∈ (deleteTag patterns st tag).2
      ↔ name ∈ st.2 ∨ tag.Matches patterns ∧ tag.name = name := by
  unfold deleteTag
  by_cases hmatch : tag.Matches patterns
  · rw [matches_iff.mpr hmatch, Bool.true_and]
    by_cases hkey : tagFile tag.name ∈ st.1.keys
    · rw [if_pos (decide_eq_true hkey), List.mem_append, List.mem_singleton, eq_comm]
      simp [hmatch]
    · rw [if_neg (by simpa using hkey)]
      refine (or_iff_left_of_imp fun h => ?_).symm
      exact h.2 ▸ hstored.resolve_left hkey
  · have hnot := mt matches_iff.mp hmatch
    rw [if_neg fun h => hnot (Bool.and_eq_true_iff.mp h).1]
    simp [hmatch]

/-- The loop erases the files of the matching tags and notes their names. By induction on the tags:
the file of a later tag is still there, or its name is noted. -/
theorem foldl_deleteTag (patterns : List String) {st : TagDir × List String}
    (htags : ∀ a ∈ tags, ∀ b ∈ tags, tagFile a.name = tagFile b.name → a.name = b.name)
    (hstored : ∀ a ∈ tags, tagFile a.name ∈ st.1.keys ∨ a.name ∈ st.2) :
    (∀ file content, (tags.foldl (deleteTag patterns) st).1.lookup file = some content
        ↔ st.1.lookup file = some content
          ∧ ∀ a ∈ tags, a.Matches patterns → tagFile a.name ≠ file)
      ∧ ∀ name, name ∈ (tags.foldl (deleteTag patterns) st).2
        ↔ name ∈ st.2 ∨ ∃ a ∈ tags, a.Matches patterns ∧ a.name = name := by
  induction tags generalizing st with
  | nil => simp
  | cons tag tags ih =>
      have hhead := hstored tag List.mem_cons_self
      obtain ⟨hlook, hnames⟩ := @ih (deleteTag patterns st tag)
        (fun a ha b hb => htags a (.tail _ ha) b (.tail _ hb)) fun a ha => by
          rw [mem_deleteTag hhead]
          rcases hstored a (.tail _ ha) with hkey | hname
          · by_cases hgone : tag.Matches patterns ∧ tagFile tag.name = tagFile a.name
            · exact .inr (.inr ⟨hgone.1, htags tag List.mem_cons_self a (.tail _ ha) hgone.2⟩)
            · obtain ⟨content, hcontent⟩ := FMap.mem_keys_iff.mp hkey
              refine .inl (FMap.mem_keys_iff.mpr ⟨content, ?_⟩)
              exact (deleteTag_lookup ..).mpr ⟨hcontent, fun hm hf => hgone ⟨hm, hf⟩⟩
          · exact .inr (.inl hname)
      refine ⟨fun file content => ?_, fun name => ?_⟩
      · rw [List.foldl_cons, hlook, deleteTag_lookup, List.forall_mem_cons, and_assoc]
      · rw [List.foldl_cons, hnames, mem_deleteTag hhead, or_assoc, List.exists_mem_cons_iff]

theorem deleteTagsMatching_spec (h : dir.Keyed) (patterns : List String) :
    ∃ deleted dir', deleteTagsMatching patterns dir = .ok (deleted, dir') ∧ dir'.Keyed
      ∧ (∀ tag, dir'.Holds tag ↔ dir.Holds tag ∧ ¬ (tag.Matches patterns ∧ tag.name ≠ ""))
      ∧ deleted.Pairwise (· < ·)
      ∧ ∀ name, name ∈ deleted ↔ ∃ tag, dir.Holds tag ∧ tag.name ≠ "" ∧ tag.Matches patterns
        ∧ tag.name = name := by
  obtain ⟨tags, hrun, htags⟩ := listTags_spec h
  have hlookup {tag : Tag} (htag : tag ∈ tags) :
      dir.lookup (tagFile tag.name) = some (some tag) :=
    h.holds_iff.mp ((htags tag).mp htag).1
  obtain ⟨hlook, hnames⟩ := @foldl_deleteTag tags patterns (dir, [])
    (fun a ha b hb hfile => by
      have hsame := (hlookup ha).symm.trans (hfile ▸ hlookup hb)
      rw [Option.some_inj.mp (Option.some_inj.mp hsame)])
    fun a ha => .inl (FMap.mem_keys_of_lookup (hlookup ha))
  refine ⟨_, _, by rw [deleteTagsMatching, hrun]; rfl, ?_, fun tag => ?_, ?_, fun name => ?_⟩
  · exact fun file content hcontent => h file content ((hlook file content).mp hcontent).1
  · constructor
    · rintro ⟨file, hfile⟩
      obtain ⟨hold, hkept⟩ := (hlook file _).mp hfile
      obtain ⟨tag', heq, hname⟩ := h file _ hold
      obtain rfl := Option.some_inj.mp heq
      refine ⟨⟨file, hold⟩, fun ⟨hmatch, hne⟩ => ?_⟩
      exact hkept tag ((htags tag).mpr ⟨⟨file, hold⟩, hne⟩) hmatch hname
    · rintro ⟨hholds, hnot⟩
      refine ⟨tagFile tag.name, (hlook _ _).mpr ⟨h.holds_iff.mp hholds,
        fun a ha hmatch hfile => ?_⟩⟩
      have hsame := (hfile ▸ hlookup ha).symm.trans (h.holds_iff.mp hholds)
      obtain rfl := Option.some_inj.mp (Option.some_inj.mp hsame)
      exact hnot ⟨hmatch, ((htags a).mp ha).2⟩
  · exact List.pairwise_sortDedup _
  · rw [List.mem_sortDedup, hnames]
    simp only [List.not_mem_nil, false_or]
    exact exists_congr fun tag => by rw [htags, and_assoc]

theorem TagDir.Reachable.keyed (h : dir.Reachable) : dir.Keyed := by
  induction h with
  | init => exact fun file content hlook => by simp at hlook
  | create tag _ hrun ih =>
      unfold createTag at hrun
      split_ifs at hrun
      cases hrun
      exact ih.insert tag
  | set tag allowMove _ hrun ih =>
      unfold setTag at hrun
      split_ifs at hrun
      cases hrun
      exact ih.insert tag
  | delete patterns deleted _ hrun ih =>
      obtain ⟨deleted', dir', hrun', hkeyed, -⟩ := deleteTagsMatching_spec ih patterns
      rw [hrun] at hrun'
      cases hrun'
      exact hkeyed

/-- **The matching tags are deleted** unless one of them has no name: its file is not listed. -/
theorem deletesExactly_iff (h : dir.Reachable) (patterns : List String) :
    DeletesExactly patterns dir
      ↔ ¬ ∃ tag, dir.Holds tag ∧ tag.name = "" ∧ tag.Matches patterns := by
  obtain ⟨deleted, dir', hrun, -, hholds, hsorted, hnames⟩ :=
    deleteTagsMatching_spec h.keyed patterns
  constructor
  · rintro ⟨deleted₁, dir₁, hrun₁, hholds₁, -, -⟩ ⟨tag, htag, hname, hmatch⟩
    rw [hrun] at hrun₁
    cases hrun₁
    exact ((hholds₁ tag).mp ((hholds tag).mpr ⟨htag, fun h => h.2 hname⟩)).2 hmatch
  · intro hnone
    refine ⟨deleted, dir', hrun, fun tag => ?_, hsorted, fun name => ?_⟩
    · rw [hholds]
      refine and_congr_right fun htag => not_congr (and_iff_left_of_imp fun hmatch hname => ?_)
      exact hnone ⟨tag, htag, hname, hmatch⟩
    · rw [hnames]
      refine exists_congr fun tag => and_congr_right fun htag => ?_
      exact and_iff_right_of_imp fun hrest hname => hnone ⟨tag, htag, hname, hrest.1⟩

/-- **Patterns and the deletion of tags.** The table computes the language of the pattern, and after
every run the matching tags are deleted exactly unless one of them has no name. -/
theorem globs_delete_iff (h : dir.Reachable) (patterns : List String) :
    (∀ pattern text, simplePatternMatch pattern text = true
        ↔ text.toList ∈ patternLanguage pattern.toList)
      ∧ (DeletesExactly patterns dir
        ↔ ¬ ∃ tag, dir.Holds tag ∧ tag.name = "" ∧ tag.Matches patterns) :=
  ⟨simplePatternMatch_iff, deletesExactly_iff h patterns⟩

def releaseDir : TagDir := Finmap.singleton "release-1.json" (some ⟨"release-1", 1⟩)

/-- A release is deleted. -/
theorem globs_delete_release : DeletesExactly ["release-*"] releaseDir := by
  have hreach : releaseDir.Reachable := .create ⟨"release-1", 1⟩ .init (by decide)
  refine (globs_delete_iff hreach _).2.mpr ?_
  rintro ⟨tag, ⟨file, hfile⟩, hname, -⟩
  rw [releaseDir, FMap.lookup_singleton] at hfile
  split_ifs at hfile
  cases hfile
  exact absurd hname (by decide)

def namelessDir : TagDir := Finmap.singleton ".json" (some ⟨"", 1⟩)

/-- A tag without a name stays. -/
theorem not_deletesExactly_nameless :
    ∃ dir : TagDir, dir.Reachable ∧ ¬ DeletesExactly ["*"] dir := by
  have hreach : namelessDir.Reachable := .set ⟨"", 1⟩ false .init (by decide)
  refine ⟨namelessDir, hreach, fun h => (deletesExactly_iff hreach _).mp h ?_⟩
  exact ⟨⟨"", 1⟩, ⟨".json", by decide⟩, rfl, "*", List.mem_singleton_self _,
    [], trivial, [], rfl, rfl⟩

end ArcVcs
