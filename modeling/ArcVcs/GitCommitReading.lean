import ArcVcs.GitCommitGrammar
import ArcVcs.GitCommitText
import ArcVcs.Lib.Segments

/-!
# Reading what was written as a commit

`parse_commit` on the payload of `synthesize_commit`. The time zones are copied as they are, so a
line feed in one of them adds lines to the header. Line feeds at the start of the message are lost,
and some lines make the reader panic.
-/

namespace ArcVcs.GitIngress

open Git
open GitImport (CommitData)
open SparsePattern (isWhiteSpace)

/-! ## The lines of the header -/

/-- What a line says. -/
inductive HeaderField where
  | tree (id : GitOid)
  | parent (id : GitOid)
  | author (name email : String) (timestamp : Int64)
  | committer (name email : String)
  | ignored
deriving DecidableEq

def HeaderField.set (commit : CommitData) : HeaderField → CommitData
  | tree id => { commit with tree := id }
  | parent id => { commit with parents := commit.parents ++ [id] }
  | author name email timestamp =>
      { commit with authorName := name, authorEmail := email, authorTimestamp := timestamp }
  | committer name email => { commit with committerName := name, committerEmail := email }
  | ignored => commit

def headerField (line : List Char) : Except GitFault HeaderField :=
  if line.head? = some ' ' then .ok .ignored
  else
    match stripPrefix "tree ".toList line with
    | some h => (hexOid h).map .tree
    | none =>
        match stripPrefix "parent ".toList line with
        | some h => (hexOid h).map .parent
        | none =>
            match stripPrefix "author ".toList line with
            | some rest => (parseIdent rest).map fun (name, email, ts) => .author name email ts
            | none =>
                match stripPrefix "committer ".toList line with
                | some rest => (parseIdent rest).map fun (name, email, _) => .committer name email
                | none => .ok .ignored

theorem parseCommitLines_cons {line : List Char} (hne : line ≠ []) (lines : List (List Char))
    (commit : CommitData) : parseCommitLines (line :: lines) commit
      = (headerField line).bind fun field => parseCommitLines lines (field.set commit) := by
  rw [parseCommitLines, if_neg hne, headerField]
  split_ifs
  · rfl
  · cases stripPrefix "tree ".toList line with
    | some h =>
        dsimp only [bind]
        cases hexOid h <;> rfl
    | none =>
        cases stripPrefix "parent ".toList line with
        | some h =>
            dsimp only [bind]
            cases hexOid h <;> rfl
        | none =>
            cases stripPrefix "author ".toList line with
            | some rest =>
                dsimp only [bind]
                cases parseIdent rest <;> rfl
            | none =>
                cases stripPrefix "committer ".toList line with
                | some rest =>
                    dsimp only [bind]
                    cases parseIdent rest <;> rfl
                | none => rfl

/-- All lines, up to the first fault. -/
def headerFields : List (List Char) → Except GitFault (List HeaderField)
  | [] => .ok []
  | line :: lines =>
      (headerField line).bind fun field => (headerFields lines).map fun fields => field :: fields

/-- The lines before the first empty one. -/
def headOf (lines : List (List Char)) : List (List Char) := lines.takeWhile fun line => line ≠ []

/-- The lines behind the first empty one. -/
def bodyOf (lines : List (List Char)) : List (List Char) :=
  (lines.dropWhile fun line => line ≠ []).tail

@[simp] theorem HeaderField.message_set (commit : CommitData) (field : HeaderField) :
    (field.set commit).message = commit.message := by
  cases field <;> rfl

/-- **A commit is read from the fields of its header and from the lines behind it.** By induction on
the lines. -/
theorem parseCommitLines_eq {lines : List (List Char)} {commit : CommitData}
    (h : commit.message = "") : parseCommitLines lines commit
      = (headerFields (headOf lines)).map fun fields =>
        { fields.foldl HeaderField.set commit with
          message := String.ofList (trimEnd (commitMessage (bodyOf lines))) } := by
  induction lines generalizing commit with
  | nil =>
      cases commit
      subst h
      rfl
  | cons line lines ih =>
      by_cases hline : line = []
      · subst hline
        rfl
      · rw [parseCommitLines_cons hline, headOf, List.takeWhile_cons, if_pos (by simpa using hline),
          bodyOf, List.dropWhile_cons, if_pos (by simpa using hline), headerFields]
        cases hfield : headerField line with
        | error e => rfl
        | ok field =>
            change parseCommitLines lines (field.set commit) = _
            rw [ih (by rw [HeaderField.message_set, h]), ← headOf, ← bodyOf]
            cases hfields : headerFields (headOf lines) <;> rfl

theorem headerFields_append (lines lines' : List (List Char)) :
    headerFields (lines ++ lines') = (headerFields lines).bind fun fields =>
      (headerFields lines').map fun fields' => fields ++ fields' := by
  induction lines with
  | nil => cases h : headerFields lines' <;> simp [headerFields, Except.bind, Except.map, h]
  | cons line lines ih =>
      rw [List.cons_append, headerFields, headerFields, ih]
      cases headerField line with
      | error e => rfl
      | ok field =>
          cases headerFields lines with
          | error e => rfl
          | ok fields => cases headerFields lines' <;> rfl

/-! ## The message -/

/-- A text of white space only. -/
def Blank (s : List Char) : Prop := ∀ c ∈ s, isWhiteSpace c = true

theorem foldl_message {msg : List Char} (h : msg ≠ []) (lines : List (List Char)) :
    lines.foldl (fun msg line => (if msg = [] then msg else msg ++ ['\n']) ++ line) msg
      = msg ++ lines.flatMap fun line => '\n' :: line := by
  induction lines generalizing msg with
  | nil => rw [List.foldl_nil, List.flatMap_nil, List.append_nil]
  | cons line lines ih =>
      rw [List.foldl_cons, if_neg h, ih (by simp), List.flatMap_cons]
      simp

theorem intercalate_cons (line : List Char) (lines : List (List Char)) :
    ['\n'].intercalate (line :: lines) = line ++ lines.flatMap fun line => '\n' :: line := by
  induction lines generalizing line with
  | nil => simp
  | cons next lines ih =>
      rw [List.intercalate_cons_cons, ih, List.flatMap_cons]
      simp

theorem trimEnd_trimEnd (s : List Char) : trimEnd (trimEnd s) = trimEnd s :=
  List.rdropWhile_idempotent isWhiteSpace s

theorem commitMessage_eq {lines : List (List Char)} (h : ∀ line ∈ lines, '\n' ∉ line) :
    commitMessage lines = (['\n'].intercalate lines).dropWhile fun c => c = '\n' := by
  induction lines with
  | nil => rfl
  | cons line lines ih =>
      obtain ⟨hline, hlines⟩ := List.forall_mem_cons.mp h
      rw [commitMessage, List.foldl_cons, if_pos rfl, List.nil_append, intercalate_cons]
      by_cases hnil : line = []
      · subst hnil
        rw [← commitMessage, ih hlines, List.nil_append]
        cases lines with
        | nil => rfl
        | cons next lines =>
            rw [List.flatMap_cons, List.cons_append, List.dropWhile_cons, if_pos (by simp),
              intercalate_cons]
      · obtain ⟨c, line, rfl⟩ := List.exists_cons_of_ne_nil hnil
        rw [foldl_message hnil, List.cons_append, List.dropWhile_cons, if_neg]
        simpa using (List.ne_of_not_mem_cons hline).symm

theorem intercalate_append_splitOn (lines : List (List Char)) (message : List Char) :
    ['\n'].intercalate (lines ++ message.splitOn '\n')
      = lines.flatMap (fun line => line ++ ['\n']) ++ message := by
  induction lines with
  | nil => rw [List.nil_append, List.intercalate_splitOn, List.flatMap_nil, List.nil_append]
  | cons line lines ih =>
      rw [List.cons_append, List.intercalate_cons_of_ne_nil
        (by simp [List.splitOn_ne_nil]), ih, List.flatMap_cons]
      simp

/-- **When a message is read back**, with some lines put in front of it. -/
theorem trimEnd_commitMessage_iff {lines : List (List Char)} (h : ∀ line ∈ lines, '\n' ∉ line)
    (message : List Char) :
    trimEnd (commitMessage (lines ++ message.splitOn '\n')) = trimEnd message
      ↔ (Blank message ∧ ∀ line ∈ lines, Blank line)
        ∨ (message.head? ≠ some '\n' ∧ ∀ line ∈ lines, line = []) := by
  have hlines : ∀ line ∈ lines ++ message.splitOn '\n', '\n' ∉ line :=
    List.forall_mem_append.mpr ⟨h, fun line => Segments.notMem_of_mem_splitOn⟩
  have hblank : (∀ c ∈ lines.flatMap (fun line => line ++ ['\n']) ++ message, isWhiteSpace c = true)
      ↔ Blank message ∧ ∀ line ∈ lines, Blank line := by
    have hnewline : isWhiteSpace '\n' = true := by decide
    simp only [List.forall_mem_append, List.forall_mem_flatMap, Blank, and_comm,
      List.forall_mem_singleton, hnewline, true_and]
  have hempty : (∀ c ∈ lines.flatMap fun line => line ++ ['\n'], c = '\n')
      ↔ ∀ line ∈ lines, line = [] := by
    simp only [List.forall_mem_flatMap, List.forall_mem_append, List.forall_mem_singleton, and_true]
    refine forall₂_congr fun line hline => ⟨fun hall => ?_, fun hnil => by simp [hnil]⟩
    refine List.eq_nil_iff_forall_not_mem.mpr fun c hc => h line hline ?_
    exact hall c hc ▸ hc
  rw [commitMessage_eq hlines, intercalate_append_splitOn, ← hblank, ← hempty, and_comm]
  exact Segments.rdropWhile_dropWhile_append_iff (by decide)

/-! ## The identities -/

/-- Names and addresses that need no escape. -/
structure Plain (sig : GitSignature) : Prop where
  name : ∀ c ∈ sig.name.toList, c ≠ '<' ∧ c ≠ '>' ∧ c ≠ '\n'
  email : ∀ c ∈ sig.email.toList, c ≠ '<' ∧ c ≠ '>' ∧ c ≠ '\n'
  trim_name : trim sig.name.toList = sig.name.toList
  trim_email : trim sig.email.toList = sig.email.toList

theorem findIdx?_of_notMem {a : Char} {s : List Char} (h : a ∉ s) : s.findIdx? (· = a) = none := by
  rw [List.findIdx?_eq_none_iff]
  intro c hc
  simpa using fun heq : c = a => h (heq ▸ hc)

theorem findIdx?_append_cons {a : Char} {s : List Char} (h : a ∉ s) (rest : List Char) :
    (s ++ a :: rest).findIdx? (· = a) = some s.length := by
  rw [List.findIdx?_append, findIdx?_of_notMem h, List.findIdx?_cons]
  simp

theorem trim_append_space (s : List Char) : trim (s ++ [' ']) = trim s := by
  have hspace : isWhiteSpace ' ' = true := by decide
  change ((s ++ [' ']).dropWhile isWhiteSpace).rdropWhile isWhiteSpace
    = (s.dropWhile isWhiteSpace).rdropWhile isWhiteSpace
  rw [List.dropWhile_append]
  split_ifs with hnil
  · rw [List.isEmpty_iff.mp hnil, List.dropWhile_cons, if_pos hspace]
    rfl
  · exact List.rdropWhile_concat_pos _ _ _ hspace

theorem firstWord_space {word : List Char} (hne : word ≠ [])
    (h : ∀ c ∈ word, isWhiteSpace c = false) (rest : List Char) :
    firstWord (' ' :: (word ++ ' ' :: rest)) = some word := by
  obtain ⟨c, word, rfl⟩ := List.exists_cons_of_ne_nil hne
  have hspace : isWhiteSpace ' ' = true := by decide
  rw [firstWord, List.dropWhile_cons, if_pos hspace, List.cons_append, List.dropWhile_cons,
    if_neg (by rw [h c List.mem_cons_self]; exact Bool.false_ne_true)]
  dsimp only
  rw [← List.cons_append, List.takeWhile_append_of_pos fun d hd => by rw [h d hd]; rfl,
    List.takeWhile_cons, if_neg (by rw [hspace]; exact Bool.false_ne_true), List.append_nil]

theorem isWhiteSpace_of_mem_toString {n : ℤ} {c : Char} (hc : c ∈ (toString n).toList) :
    isWhiteSpace c = false := by
  by_contra hspace
  have hspace : isWhiteSpace c = true := by simpa using hspace
  have hdigit : c.isDigit = false := by
    by_contra hdigit
    rw [Bool.not_eq_false, Char.isDigit, Bool.and_eq_true, decide_eq_true_iff,
      decide_eq_true_iff] at hdigit
    have hlow : 48 ≤ c.toNat := UInt32.le_iff_toNat_le.mp hdigit.1
    have hhigh : c.toNat ≤ 57 := UInt32.le_iff_toNat_le.mp hdigit.2
    simp [isWhiteSpace] at hspace
    omega
  refine notMem_toString hdigit ?_ n hc
  rintro rfl
  exact absurd hspace (by decide)

/-- **An identity is read as it is written**, whatever the zone is. -/
theorem parseIdent_signatureText {sig : GitSignature} (h : Plain sig) :
    parseIdent (signatureText sig) = .ok (sig.name, sig.email, sig.timestamp) := by
  set time := (toString sig.timestamp.toInt).toList
  have htext : signatureText sig
      = (sig.name.toList ++ [' ']) ++ '<' :: (sig.email.toList ++ '>' :: ' ' ::
        (time ++ ' ' :: sig.tzOffset.toList)) := by
    simp [signatureText, time]
  have htext' : signatureText sig = (sig.name.toList ++ [' '] ++ '<' :: sig.email.toList)
      ++ '>' :: ' ' :: (time ++ ' ' :: sig.tzOffset.toList) := by
    simp [signatureText, time]
  have hlt : '<' ∉ sig.name.toList ++ [' '] := by
    rw [List.mem_append, List.mem_singleton]
    exact fun hmem => hmem.elim (fun hmem => (h.name _ hmem).1 rfl) (by decide)
  have hgt : '>' ∉ sig.name.toList ++ [' '] ++ '<' :: sig.email.toList := by
    rw [List.mem_append, List.mem_append, List.mem_singleton, List.mem_cons]
    rintro ((hmem | hmem) | (hmem | hmem))
    · exact (h.name _ hmem).2.1 rfl
    · exact absurd hmem (by decide)
    · exact absurd hmem (by decide)
    · exact (h.email _ hmem).2.1 rfl
  have hparse : parseI64 time = some sig.timestamp :=
    (Option.filter_eq_some_iff.mp (readTime_toString sig.timestamp)).1
  have hne : time ≠ [] := by
    intro hnil
    rw [hnil] at hparse
    cases hparse
  have hfind : (signatureText sig).findIdx? (· = '<') = some (sig.name.toList ++ [' ']).length := by
    rw [htext, findIdx?_append_cons hlt]
  have hfind' : (signatureText sig).findIdx? (· = '>')
      = some (sig.name.toList ++ [' '] ++ '<' :: sig.email.toList).length := by
    rw [htext', findIdx?_append_cons hgt]
  have hname : (signatureText sig).take (sig.name.toList ++ [' ']).length
      = sig.name.toList ++ [' '] := by rw [htext, List.take_left']; rfl
  have hrest : (signatureText sig).drop
      ((sig.name.toList ++ [' '] ++ '<' :: sig.email.toList).length + 1)
      = ' ' :: (time ++ ' ' :: sig.tzOffset.toList) := by
    rw [htext', List.drop_length_add_append]
    rfl
  have hemail : ((signatureText sig).drop ((sig.name.toList ++ [' ']).length + 1)).take
      ((sig.name.toList ++ [' '] ++ '<' :: sig.email.toList).length
        - ((sig.name.toList ++ [' ']).length + 1)) = sig.email.toList := by
    rw [htext, List.drop_length_add_append, List.drop_one, List.tail_cons, List.take_left']
    simp
    omega
  have horder : ¬ (sig.name.toList ++ [' '] ++ '<' :: sig.email.toList).length
      < (sig.name.toList ++ [' ']).length + 1 := by
    rw [List.length_append, List.length_cons]
    omega
  rw [parseIdent, hfind, hfind']
  dsimp only
  rw [if_neg horder, hname, hemail, hrest, trim_append_space, h.trim_name,
    firstWord_space hne fun c => isWhiteSpace_of_mem_toString, Option.getD_some, hparse]
  simp

/-! ## What the header says -/

namespace HeaderField

def tree? : HeaderField → Option GitOid
  | tree id => some id
  | _ => none

def parent? : HeaderField → Option GitOid
  | parent id => some id
  | _ => none

def author? : HeaderField → Option (String × String × Int64)
  | author name email timestamp => some (name, email, timestamp)
  | _ => none

def committer? : HeaderField → Option (String × String)
  | committer name email => some (name, email)
  | _ => none

end HeaderField

def lastSet {α : Type} (value : HeaderField → Option α) (fields : List HeaderField) : Option α :=
  (fields.filterMap value).getLast?

theorem lastSet_append {α : Type} (value : HeaderField → Option α)
    (fields fields' : List HeaderField) :
    lastSet value (fields ++ fields') = (lastSet value fields').or (lastSet value fields) := by
  rw [lastSet, List.filterMap_append, List.getLast?_append, lastSet, lastSet]

theorem lastSet_cons {α : Type} (value : HeaderField → Option α) (field : HeaderField)
    (fields : List HeaderField) :
    lastSet value (field :: fields) = (lastSet value fields).or (value field) := by
  rw [← List.singleton_append, lastSet_append]
  congr 1
  cases h : value field <;> simp [lastSet, h]

theorem foldl_set (fields : List HeaderField) (commit : CommitData) :
    let data := fields.foldl HeaderField.set commit
    data.tree = (lastSet HeaderField.tree? fields).getD commit.tree
      ∧ data.parents = commit.parents ++ fields.filterMap HeaderField.parent?
      ∧ (data.authorName, data.authorEmail, data.authorTimestamp)
        = (lastSet HeaderField.author? fields).getD
          (commit.authorName, commit.authorEmail, commit.authorTimestamp)
      ∧ (data.committerName, data.committerEmail)
        = (lastSet HeaderField.committer? fields).getD
          (commit.committerName, commit.committerEmail) := by
  induction fields using List.reverseRecOn with
  | nil => simp [lastSet]
  | append_singleton fields field ih =>
      obtain ⟨htree, hparents, hauthor, hcommitter⟩ := ih
      rw [List.foldl_append]
      simp only [lastSet_append, List.filterMap_append]
      cases field with
      | tree id => exact ⟨rfl, hparents.trans (by simp [HeaderField.parent?]), hauthor, hcommitter⟩
      | parent id =>
          exact ⟨htree, by simp [HeaderField.set, hparents, HeaderField.parent?], hauthor,
            hcommitter⟩
      | author name email timestamp =>
          exact ⟨htree, hparents.trans (by simp [HeaderField.parent?]), rfl, hcommitter⟩
      | committer name email =>
          exact ⟨htree, hparents.trans (by simp [HeaderField.parent?]), hauthor, rfl⟩
      | ignored =>
          exact ⟨htree, hparents.trans (by simp [HeaderField.parent?]), hauthor, hcommitter⟩

/-! ## The round trip -/

/-- What follows the first line feed of a time zone, line by line. -/
def zoneLines (sig : GitSignature) : List (List Char) := (sig.tzOffset.toList.splitOn '\n').tail

/-- What is read says what was written. The message is compared without the white space at its
end. -/
def Says (data : CommitData) (commit : Git.GitCommit) : Prop :=
  data.tree = commit.tree ∧ data.parents = commit.parents
    ∧ (data.authorName, data.authorEmail, data.authorTimestamp)
      = (commit.author.name, commit.author.email, commit.author.timestamp)
    ∧ (data.committerName, data.committerEmail) = (commit.committer.name, commit.committer.email)
    ∧ trimEnd data.message.toList = trimEnd commit.message.toList

/-- The lines that the time zones add to the header are read, name no parent, and set what is set
without them. -/
def ZonesKeepFields (commit : Git.GitCommit) : Prop :=
  [] ∉ zoneLines commit.author ∧ ∃ fields fields',
    headerFields (zoneLines commit.author) = .ok fields
      ∧ headerFields (headOf (zoneLines commit.committer)) = .ok fields'
      ∧ (fields ++ fields').filterMap HeaderField.parent? = []
      ∧ (∀ id ∈ lastSet HeaderField.tree? (fields ++ fields'), id = commit.tree)
      ∧ (∀ author ∈ lastSet HeaderField.author? (fields ++ fields'),
        author = (commit.author.name, commit.author.email, commit.author.timestamp))
      ∧ ∀ committer ∈ lastSet HeaderField.committer? fields',
        committer = (commit.committer.name, commit.committer.email)

/-- Nothing but white space is written in place of a blank message, and nothing but line feeds in
front of one that begins with no line feed. -/
def KeepsMessage (commit : Git.GitCommit) : Prop :=
  (Blank commit.message.toList ∧ ∀ line ∈ bodyOf (zoneLines commit.committer), Blank line)
    ∨ (commit.message.toList.head? ≠ some '\n'
      ∧ ∀ line ∈ bodyOf (zoneLines commit.committer), line = [])

def firstLine (sig : GitSignature) : GitSignature :=
  { sig with tzOffset := String.ofList ((sig.tzOffset.toList.splitOn '\n').headD []) }

theorem Plain.firstLine {sig : GitSignature} (h : Plain sig) : Plain (firstLine sig) :=
  ⟨h.name, h.email, h.trim_name, h.trim_email⟩

theorem splitOn_identity {label : List Char} (hlabel : '\n' ∉ label) {sig : GitSignature}
    (h : Plain sig) : (label ++ signatureText sig).splitOn '\n'
      = (label ++ signatureText (firstLine sig)) :: zoneLines sig := by
  have hsplit : label ++ signatureText sig
      = (label ++ (sig.name.toList ++ ' ' :: '<' :: (sig.email.toList ++ '>' :: ' ' ::
        ((toString sig.timestamp.toInt).toList ++ [' '])))) ++ sig.tzOffset.toList := by
    simp [signatureText]
  have hclean : '\n' ∉ label ++ (sig.name.toList ++ ' ' :: '<' :: (sig.email.toList ++ '>' :: ' ' ::
      ((toString sig.timestamp.toInt).toList ++ [' ']))) := by
    have hname : '\n' ∉ sig.name.toList := fun hmem => (h.name _ hmem).2.2 rfl
    have hemail : '\n' ∉ sig.email.toList := fun hmem => (h.email _ hmem).2.2 rfl
    have htime : '\n' ∉ (toString sig.timestamp.toInt).toList :=
      notMem_toString (by decide) (by decide) _
    simp only [List.mem_append, List.mem_cons, not_or]
    exact ⟨hlabel, hname, by decide, by decide, hemail, by decide, by decide, htime, by decide,
      List.not_mem_nil⟩
  obtain ⟨seg, segs, hzone⟩ := List.exists_cons_of_ne_nil
    (List.splitOn_ne_nil '\n' sig.tzOffset.toList)
  rw [hsplit, Segments.splitOn_append_of_notMem hclean, zoneLines, signatureText, firstLine, hzone]
  simp

theorem splitOn_commitText {commit : Git.GitCommit} (hauthor : Plain commit.author)
    (hcommitter : Plain commit.committer) : (commitText commit).splitOn '\n'
      = (("tree ".toList ++ commit.tree.display.toList) :: commit.parents.map parentLine
        ++ ["author ".toList ++ signatureText (firstLine commit.author)])
        ++ (zoneLines commit.author
          ++ ("committer ".toList ++ signatureText (firstLine commit.committer))
            :: (zoneLines commit.committer ++ [] :: commit.message.toList.splitOn '\n')) := by
  have hflat (lines : List (List Char)) (rest : List Char) :
      (lines.flatMap (fun line => line ++ ['\n']) ++ rest).splitOn '\n'
        = lines.flatMap (List.splitOn '\n') ++ rest.splitOn '\n' := by
    induction lines with
    | nil => rfl
    | cons line lines ih =>
        rw [List.flatMap_cons, List.append_assoc, List.append_assoc, List.singleton_append,
          List.splitOn_append_cons_self, ih, List.flatMap_cons, List.append_assoc]
  have hparents : (commit.parents.map parentLine).flatMap (List.splitOn '\n')
      = commit.parents.map parentLine := by
    rw [List.flatMap_map, ← List.flatMap_pure_eq_map]
    exact List.flatMap_congr fun parent _ =>
      List.splitOn_eq_singleton (newline_notMem_parentLine parent)
  have htree : '\n' ∉ "tree ".toList ++ commit.tree.display.toList := by
    rw [List.mem_append, not_or]
    exact ⟨by decide, newline_notMem_display _⟩
  have hlines : headerLines commit = ("tree ".toList ++ commit.tree.display.toList)
      :: (commit.parents.map parentLine ++ ["author ".toList ++ signatureText commit.author,
        "committer ".toList ++ signatureText commit.committer]) := rfl
  rw [commitText, hflat, hlines, List.flatMap_cons, List.flatMap_append, hparents,
    List.splitOn_eq_singleton htree, List.flatMap_cons, List.flatMap_singleton,
    splitOn_identity (by decide) hauthor, splitOn_identity (by decide) hcommitter,
    Segments.splitOn_cons_sep]
  simp

def writtenFields (commit : Git.GitCommit) : List HeaderField :=
  .tree commit.tree :: commit.parents.map .parent
    ++ [.author commit.author.name commit.author.email commit.author.timestamp]

def committerField (commit : Git.GitCommit) : HeaderField :=
  .committer commit.committer.name commit.committer.email

theorem headerField_tree (id : GitOid) :
    headerField ("tree ".toList ++ id.display.toList) = .ok (.tree id) := by
  rw [headerField, if_neg (by simp), stripPrefix_append]
  dsimp only
  rw [hexOid_display]
  rfl

theorem headerField_parent (id : GitOid) : headerField (parentLine id) = .ok (.parent id) := by
  have hline : parentLine id = 'p' :: ("arent ".toList ++ id.display.toList) := rfl
  have htree : stripPrefix "tree ".toList (parentLine id) = none := rfl
  have hparent : stripPrefix "parent ".toList (parentLine id) = some id.display.toList := rfl
  rw [headerField, if_neg (by rw [hline]; simp), htree, hparent]
  dsimp only
  rw [hexOid_display]
  rfl

theorem headerField_author {sig : GitSignature} (h : Plain sig) :
    headerField ("author ".toList ++ signatureText sig)
      = .ok (.author sig.name sig.email sig.timestamp) := by
  have htree : stripPrefix "tree ".toList ("author ".toList ++ signatureText sig) = none := rfl
  have hparent : stripPrefix "parent ".toList ("author ".toList ++ signatureText sig) = none := rfl
  rw [headerField, if_neg (by simp), htree, hparent, stripPrefix_append]
  dsimp only
  rw [parseIdent_signatureText h]
  rfl

theorem headerField_committer {sig : GitSignature} (h : Plain sig) :
    headerField ("committer ".toList ++ signatureText sig)
      = .ok (.committer sig.name sig.email) := by
  have htree : stripPrefix "tree ".toList ("committer ".toList ++ signatureText sig) = none := rfl
  have hparent : stripPrefix "parent ".toList ("committer ".toList ++ signatureText sig) = none :=
    rfl
  have hauthor : stripPrefix "author ".toList ("committer ".toList ++ signatureText sig) = none :=
    rfl
  rw [headerField, if_neg (by simp), htree, hparent, hauthor, stripPrefix_append]
  dsimp only
  rw [parseIdent_signatureText h]
  rfl

/-- The lines before those that the time zones add. -/
def writtenLines (commit : Git.GitCommit) : List (List Char) :=
  ("tree ".toList ++ commit.tree.display.toList) :: commit.parents.map parentLine
    ++ ["author ".toList ++ signatureText (firstLine commit.author)]

theorem headerFields_writtenLines {commit : Git.GitCommit} (h : Plain commit.author) :
    headerFields (writtenLines commit) = .ok (writtenFields commit) := by
  have hparents : headerFields (commit.parents.map parentLine)
      = .ok (commit.parents.map .parent) := by
    induction commit.parents with
    | nil => rfl
    | cons parent parents ih =>
        rw [List.map_cons, headerFields, headerField_parent, ih]
        rfl
  rw [writtenLines, headerFields_append, headerFields, headerField_tree, hparents, headerFields,
    headerField_author h.firstLine]
  rfl

theorem nil_notMem_writtenLines (commit : Git.GitCommit) : [] ∉ writtenLines commit := by
  have hne (label s : List Char) (h : label ≠ []) : [] ≠ label ++ s := fun heq =>
    h (List.append_eq_nil_iff.mp heq.symm).1
  rw [writtenLines, List.mem_append, List.mem_cons, List.mem_map, List.mem_singleton]
  rintro ((htree | ⟨parent, -, hparent⟩) | hauthor)
  · exact hne _ _ (by decide) htree
  · exact hne _ _ (by decide) hparent.symm
  · exact hne _ _ (by decide) hauthor

theorem headOf_append {lines : List (List Char)} (h : [] ∉ lines) (rest : List (List Char)) :
    headOf (lines ++ rest) = lines ++ headOf rest ∧ bodyOf (lines ++ rest) = bodyOf rest := by
  have hne : ∀ line ∈ lines, decide (line ≠ []) = true := fun line hline => by
    simpa using fun hnil : line = [] => h (hnil ▸ hline)
  exact ⟨List.takeWhile_append_of_pos hne, by rw [bodyOf, List.dropWhile_append_of_pos hne, bodyOf]⟩

theorem bodyOf_append_of_mem {lines : List (List Char)} (h : [] ∈ lines)
    (rest : List (List Char)) : bodyOf (lines ++ rest) = bodyOf lines ++ rest := by
  have hne : lines.dropWhile (fun line => line ≠ []) ≠ [] := by
    rw [Ne, List.dropWhile_eq_nil_iff]
    exact fun hall => absurd (hall [] h) (by simp)
  rw [bodyOf, List.dropWhile_append, if_neg (by simpa using hne), List.tail_append_of_ne_nil hne,
    bodyOf]

theorem getD_or_some_iff {α : Type} {set : Option α} {value default : α} :
    (set.or (some value)).getD default = value ↔ ∀ x ∈ set, x = value := by
  cases set <;> simp

theorem says_iff {commit : Git.GitCommit} {fields fields' : List HeaderField}
    {message : List Char} :
    Says { (writtenFields commit ++ (fields ++ committerField commit :: fields')).foldl
        HeaderField.set emptyCommit with message := String.ofList (trimEnd message) } commit
      ↔ (fields ++ fields').filterMap HeaderField.parent? = []
        ∧ (∀ id ∈ lastSet HeaderField.tree? (fields ++ fields'), id = commit.tree)
        ∧ (∀ author ∈ lastSet HeaderField.author? (fields ++ fields'),
          author = (commit.author.name, commit.author.email, commit.author.timestamp))
        ∧ (∀ committer ∈ lastSet HeaderField.committer? fields',
          committer = (commit.committer.name, commit.committer.email))
        ∧ trimEnd message = trimEnd commit.message.toList := by
  obtain ⟨htree, hparents, hauthor, hcommitter⟩ := foldl_set
    (writtenFields commit ++ (fields ++ committerField commit :: fields')) emptyCommit
  have hlastTree : lastSet HeaderField.tree?
      (writtenFields commit ++ (fields ++ committerField commit :: fields'))
      = (lastSet HeaderField.tree? (fields ++ fields')).or (some commit.tree) := by
    have hnone : lastSet HeaderField.tree? (commit.parents.map .parent) = none := by
      simp [lastSet, HeaderField.tree?]
    have hwritten : lastSet HeaderField.tree? (writtenFields commit) = some commit.tree := by
      rw [writtenFields, lastSet_append, lastSet_cons _ (.tree commit.tree), hnone]
      rfl
    have hskip : HeaderField.tree? (committerField commit) = none := rfl
    rw [lastSet_append, hwritten, lastSet_append, lastSet_cons, lastSet_append, hskip,
      Option.or_none]
  have hlastAuthor : lastSet HeaderField.author?
      (writtenFields commit ++ (fields ++ committerField commit :: fields'))
      = (lastSet HeaderField.author? (fields ++ fields')).or
        (some (commit.author.name, commit.author.email, commit.author.timestamp)) := by
    have hwritten : lastSet HeaderField.author? (writtenFields commit)
        = some (commit.author.name, commit.author.email, commit.author.timestamp) := by
      rw [writtenFields, lastSet_append]
      rfl
    have hskip : HeaderField.author? (committerField commit) = none := rfl
    rw [lastSet_append, hwritten, lastSet_append, lastSet_cons, lastSet_append, hskip,
      Option.or_none]
  have hlastCommitter : lastSet HeaderField.committer?
      (writtenFields commit ++ (fields ++ committerField commit :: fields'))
      = (lastSet HeaderField.committer? fields').or
        (some (commit.committer.name, commit.committer.email)) := by
    rw [lastSet_append, lastSet_append, lastSet_cons, Option.or_assoc, Option.or_assoc]
    rfl
  have hfilter : (writtenFields commit
      ++ (fields ++ committerField commit :: fields')).filterMap HeaderField.parent?
      = commit.parents ++ (fields ++ fields').filterMap HeaderField.parent? := by
    have hparents : (commit.parents.map HeaderField.parent).filterMap HeaderField.parent?
        = commit.parents := by
      rw [List.filterMap_map]
      exact List.filterMap_some
    have hwritten : (writtenFields commit).filterMap HeaderField.parent? = commit.parents := by
      rw [writtenFields, List.filterMap_append, List.filterMap_cons_none rfl, hparents,
        List.filterMap_cons_none rfl, List.filterMap_nil, List.append_nil]
    rw [List.filterMap_append, List.filterMap_append, List.filterMap_cons_none rfl, hwritten,
      List.filterMap_append]
  rw [hlastTree] at htree
  rw [hlastAuthor] at hauthor
  rw [hlastCommitter] at hcommitter
  rw [hfilter] at hparents
  rw [Says]
  dsimp only
  rw [htree, hparents, hauthor, hcommitter, getD_or_some_iff, getD_or_some_iff, getD_or_some_iff,
    String.toList_ofList, trimEnd_trimEnd]
  have hnil : emptyCommit.parents ++ (commit.parents
      ++ (fields ++ fields').filterMap HeaderField.parent?) = commit.parents
      ↔ (fields ++ fields').filterMap HeaderField.parent? = [] := by
    rw [show emptyCommit.parents = [] from rfl, List.nil_append]
    exact List.append_right_eq_self
  rw [hnil]
  tauto

def ReadsBack [Sha1] (oid : GitOid) (commit : Git.GitCommit) : Prop :=
  ∃ data, parseCommit oid (synthesizeCommit commit).1 = .ok ⟨data, oid⟩ ∧ Says data commit

theorem parseCommit_synthesizeCommit [Sha1] (oid : GitOid) (commit : Git.GitCommit) :
    parseCommit oid (synthesizeCommit commit).1
      = (headerFields (headOf ((commitText commit).splitOn '\n'))).map fun fields =>
        ⟨{ fields.foldl HeaderField.set emptyCommit with
          message := String.ofList (trimEnd (commitMessage
            (bodyOf ((commitText commit).splitOn '\n')))) }, oid⟩ := by
  rw [synthesizeCommit_fst, parseCommit_utf8, String.toList_ofList, parseCommitLines_eq rfl]
  cases headerFields (headOf ((commitText commit).splitOn '\n')) <;> rfl

/-- What is in front of the message when a time zone has an empty line. -/
def inserted (commit : Git.GitCommit) : List (List Char) :=
  if [] ∈ zoneLines commit.committer then bodyOf (zoneLines commit.committer) ++ [[]] else []

theorem bodyOf_eq_nil {lines : List (List Char)} (h : [] ∉ lines) : bodyOf lines = [] := by
  have hbody := (headOf_append h []).2
  rwa [List.append_nil] at hbody

theorem bodyOf_subset (lines : List (List Char)) : bodyOf lines ⊆ lines :=
  List.Subset.trans (List.tail_subset _) (List.dropWhile_sublist _).subset

theorem keepsMessage_iff (commit : Git.GitCommit) : KeepsMessage commit
      ↔ (Blank commit.message.toList ∧ ∀ line ∈ inserted commit, Blank line)
        ∨ (commit.message.toList.head? ≠ some '\n' ∧ ∀ line ∈ inserted commit, line = []) := by
  rw [KeepsMessage, inserted]
  split_ifs with h
  · have hnil : Blank [] := by simp [Blank]
    simp only [List.forall_mem_append, List.forall_mem_singleton, hnil, and_true]
  · rw [bodyOf_eq_nil h]

theorem bodyOf_zoneLines (commit : Git.GitCommit) (rest : List (List Char)) :
    bodyOf (zoneLines commit.committer ++ [] :: rest) = inserted commit ++ rest := by
  rw [inserted]
  split_ifs with h
  · rw [bodyOf_append_of_mem h, List.append_assoc]
    rfl
  · rw [(headOf_append h _).2]
    rfl

theorem headOf_append_nil (lines rest : List (List Char)) :
    headOf (lines ++ [] :: rest) = headOf lines := by
  induction lines with
  | nil => rfl
  | cons line lines ih =>
      rw [headOf, headOf] at ih
      rw [headOf, headOf, List.cons_append, List.takeWhile_cons, List.takeWhile_cons, ih]

theorem newline_notMem_zoneLines (sig : GitSignature) : ∀ line ∈ zoneLines sig, '\n' ∉ line :=
  fun _ hline => Segments.notMem_of_mem_splitOn (List.tail_subset _ hline)

theorem readsBack_of_nil_mem [Sha1] (oid : GitOid) {commit : Git.GitCommit}
    (hauthor : Plain commit.author) (hcommitter : Plain commit.committer)
    (h : [] ∈ zoneLines commit.author) : ¬ ReadsBack oid commit := by
  set committerLine := "committer ".toList ++ signatureText (firstLine commit.committer) with hdef
  have hfirst : 'c' ∈ committerLine := List.mem_append_left _ (by decide)
  have hnewline : '\n' ∉ committerLine := by
    have hmem : committerLine ∈ ("committer ".toList ++ signatureText commit.committer).splitOn
        '\n' := by
      rw [splitOn_identity (by decide) hcommitter]
      exact List.mem_cons_self
    exact Segments.notMem_of_mem_splitOn hmem
  rintro ⟨data, hdata, -, -, -, -, hmessage⟩
  rw [parseCommit_synthesizeCommit, splitOn_commitText hauthor hcommitter, ← writtenLines,
    (headOf_append (nil_notMem_writtenLines commit) _).2, bodyOf_append_of_mem h] at hdata
  cases hfields : headerFields (headOf (writtenLines commit ++ (zoneLines commit.author
      ++ committerLine :: (zoneLines commit.committer
        ++ [] :: commit.message.toList.splitOn '\n')))) with
  | error e =>
      rw [hfields] at hdata
      cases hdata
  | ok fields =>
      rw [hfields] at hdata
      obtain ⟨rfl⟩ := hdata
      dsimp only at hmessage
      have hassoc : bodyOf (zoneLines commit.author)
          ++ committerLine :: (zoneLines commit.committer
            ++ [] :: commit.message.toList.splitOn '\n')
          = (bodyOf (zoneLines commit.author)
            ++ committerLine :: (zoneLines commit.committer ++ [[]]))
            ++ commit.message.toList.splitOn '\n' := by simp
      have hlines : ∀ line ∈ bodyOf (zoneLines commit.author)
          ++ committerLine :: (zoneLines commit.committer ++ [[]]), '\n' ∉ line := by
        rw [List.forall_mem_append, List.forall_mem_cons, List.forall_mem_append,
          List.forall_mem_singleton]
        exact ⟨fun line hline => newline_notMem_zoneLines _ line (bodyOf_subset _ hline), hnewline,
          newline_notMem_zoneLines _, List.not_mem_nil⟩
      rw [String.toList_ofList, hassoc, trimEnd_trimEnd, trimEnd_commitMessage_iff hlines]
        at hmessage
      have hmem : committerLine ∈ bodyOf (zoneLines commit.author)
          ++ committerLine :: (zoneLines commit.committer ++ [[]]) :=
        List.mem_append_right _ List.mem_cons_self
      rcases hmessage with ⟨-, hblank⟩ | ⟨-, hempty⟩
      · exact absurd (hblank _ hmem _ hfirst) (by decide)
      · rw [hempty _ hmem] at hfirst
        cases hfirst

/-- **When a commit is read back.** -/
theorem readsBack_iff [Sha1] (oid : GitOid) {commit : Git.GitCommit}
    (hauthor : Plain commit.author) (hcommitter : Plain commit.committer) :
    ReadsBack oid commit ↔ ZonesKeepFields commit ∧ KeepsMessage commit := by
  by_cases hnil : [] ∈ zoneLines commit.author
  · exact iff_of_false (readsBack_of_nil_mem oid hauthor hcommitter hnil) fun h => h.1.1 hnil
  have hline : [] ∉ ["committer ".toList ++ signatureText (firstLine commit.committer)] := by simp
  have hsplit := splitOn_commitText hauthor hcommitter
  rw [← writtenLines, ← List.singleton_append] at hsplit
  have hmessage : ∀ line ∈ inserted commit, '\n' ∉ line := by
    intro line hline
    rw [inserted] at hline
    split_ifs at hline
    · rcases List.mem_append.mp hline with hline | hline
      · exact newline_notMem_zoneLines _ _ (bodyOf_subset _ hline)
      · rw [List.mem_singleton.mp hline]
        exact List.not_mem_nil
    · cases hline
  rw [ReadsBack, parseCommit_synthesizeCommit, hsplit,
    (headOf_append (nil_notMem_writtenLines commit) _).1,
    (headOf_append (nil_notMem_writtenLines commit) _).2, (headOf_append hnil _).1,
    (headOf_append hnil _).2, (headOf_append hline _).1, (headOf_append hline _).2,
    headOf_append_nil, bodyOf_zoneLines, headerFields_append, headerFields_writtenLines hauthor,
    headerFields_append, List.singleton_append, headerFields,
    headerField_committer hcommitter.firstLine, ZonesKeepFields, keepsMessage_iff,
    and_iff_right hnil, ← trimEnd_commitMessage_iff hmessage]
  cases headerFields (zoneLines commit.author) with
  | error e =>
      refine iff_of_false ?_ ?_
      · rintro ⟨data, hdata, -⟩
        cases hdata
      · rintro ⟨⟨fields, fields', hfields, -⟩, -⟩
        cases hfields
  | ok fields =>
      cases headerFields (headOf (zoneLines commit.committer)) with
      | error e =>
          refine iff_of_false ?_ ?_
          · rintro ⟨data, hdata, -⟩
            cases hdata
          · rintro ⟨⟨fields, fields', -, hfields', -⟩, -⟩
            cases hfields'
      | ok fields' =>
          constructor
          · rintro ⟨data, hdata, hsays⟩
            cases hdata
            obtain ⟨hparents, htree, hauthor, hcommitter, hmessage⟩ := says_iff.mp hsays
            exact ⟨⟨fields, fields', rfl, rfl, hparents, htree, hauthor, hcommitter⟩, hmessage⟩
          · rintro ⟨⟨fields₁, fields₂, hfields, hfields', hparents, htree, hauthor, hcommitter⟩,
              hmessage⟩
            cases hfields
            cases hfields'
            exact ⟨_, rfl, says_iff.mpr ⟨hparents, htree, hauthor, hcommitter, hmessage⟩⟩

theorem zoneLines_eq_nil {sig : GitSignature} (h : '\n' ∉ sig.tzOffset.toList) :
    zoneLines sig = [] := by
  rw [zoneLines, List.splitOn_eq_singleton h, List.tail_cons]

theorem zonesKeepFields_of_notMem {commit : Git.GitCommit}
    (hauthor : '\n' ∉ commit.author.tzOffset.toList)
    (hcommitter : '\n' ∉ commit.committer.tzOffset.toList) : ZonesKeepFields commit := by
  rw [ZonesKeepFields, zoneLines_eq_nil hauthor, zoneLines_eq_nil hcommitter]
  exact ⟨List.not_mem_nil, [], [], rfl, rfl, rfl, by rintro _ ⟨⟩, by rintro _ ⟨⟩,
    by rintro _ ⟨⟩⟩

/-- **With time zones of one line, only line feeds in front of the message are lost.** -/
theorem readsBack_iff_of_notMem [Sha1] (oid : GitOid) {commit : Git.GitCommit}
    (hauthor : Plain commit.author) (hcommitter : Plain commit.committer)
    (hzone : '\n' ∉ commit.author.tzOffset.toList)
    (hzone' : '\n' ∉ commit.committer.tzOffset.toList) :
    ReadsBack oid commit
      ↔ Blank commit.message.toList ∨ commit.message.toList.head? ≠ some '\n' := by
  rw [readsBack_iff oid hauthor hcommitter, and_iff_right (zonesKeepFields_of_notMem hzone hzone'),
    KeepsMessage, zoneLines_eq_nil hzone']
  simp [bodyOf]

/-! ## Panics -/

/-- A `>` stands before the first `<`. -/
def Crossed (s : List Char) : Prop :=
  ∃ before after, s = before ++ '>' :: after ∧ '<' ∉ before ∧ '<' ∈ after

/-- A line whose id is cut inside a character, or whose angle brackets are crossed. -/
def Panics (line : List Char) : Prop :=
  (∃ hex, (line = "tree ".toList ++ hex ∨ line = "parent ".toList ++ hex)
      ∧ (utf8 (String.ofList (trim hex))).length = 40 ∧ PartsChar (trim hex))
    ∨ ∃ rest, (line = "author ".toList ++ rest ∨ line = "committer ".toList ++ rest)
      ∧ Crossed rest

/-- A line that is an error. -/
def Rejected (line : List Char) : Prop := ∃ text, headerField line = .error (.error text)

theorem hexOid_eq_panic_iff (hex : List Char) : hexOid hex = .error .panic
    ↔ (utf8 (String.ofList (trim hex))).length = 40 ∧ PartsChar (trim hex) := by
  have hpanic : hexOid hex = .error .panic ↔ parseHexOid (trim hex) = none := by
    rw [hexOid]
    rcases parseHexOid (trim hex) with _ | _ | id <;> simp
  rw [hpanic, parseHexOid]
  by_cases hlength : (utf8 (String.ofList (trim hex))).length = 40
  · rw [if_neg (not_not.mpr hlength), Option.map_eq_none_iff, and_iff_right hlength]
    rw [utf8_ofList] at hlength ⊢
    exact @sliceHex_eq_none_iff _ 20 hlength
  · rw [if_pos hlength]
    exact iff_of_false (by simp) fun h => hlength h.1

theorem parseIdent_eq_panic_iff (s : List Char) : parseIdent s = .error .panic ↔ Crossed s := by
  by_cases hlt : '<' ∈ s
  · by_cases hgt : '>' ∈ s
    · obtain ⟨before, after, hs, hbefore⟩ := List.eq_append_cons_of_mem hlt
      obtain ⟨before', after', hs', hbefore'⟩ := List.eq_append_cons_of_mem hgt
      have hparse : parseIdent s = .error .panic ↔ before'.length < before.length + 1 := by
        have hfind : s.findIdx? (· = '<') = some before.length := by
          rw [hs, findIdx?_append_cons hbefore]
        have hfind' : s.findIdx? (· = '>') = some before'.length := by
          rw [hs', findIdx?_append_cons hbefore']
        rw [parseIdent, hfind, hfind']
        dsimp only
        split_ifs with hlength <;> simp [hlength]
      rw [hparse]
      rcases List.append_eq_append_iff.mp (hs.symm.trans hs') with
        ⟨between, rfl, hbetween⟩ | ⟨between, rfl, hbetween⟩
      · obtain ⟨c, between, rfl⟩ := List.exists_cons_of_ne_nil (l := between) (by
          rintro rfl
          simp at hbetween)
        obtain ⟨rfl, -⟩ := List.cons_eq_cons.mp hbetween
        refine iff_of_false (by simp) ?_
        rintro ⟨first, rest, hfirst, hnotMem, -⟩
        rcases List.append_eq_append_iff.mp (hs'.symm.trans hfirst) with
          ⟨more, rfl, -⟩ | ⟨more, hmore, hcons⟩
        · exact hnotMem (by simp)
        · cases more with
          | nil =>
              rw [List.append_nil] at hmore
              exact hnotMem (hmore ▸ by simp)
          | cons d more =>
              rw [← (List.cons_eq_cons.mp hcons).1] at hmore
              exact hbefore' (hmore ▸ by simp)
      · have hlength : before'.length < (before' ++ between).length + 1 := by
          rw [List.length_append]
          omega
        refine iff_of_true hlength ⟨before', after', hs', ?_, ?_⟩
        · exact fun hmem => hbefore (List.mem_append_left _ hmem)
        · have hmem : '<' ∈ '>' :: after' := hbetween ▸ by simp
          simpa using hmem
    · refine iff_of_false ?_ fun ⟨_, _, hs, _⟩ => hgt (hs ▸ by simp)
      have hnone := findIdx?_of_notMem hgt
      rw [parseIdent, hnone]
      cases s.findIdx? (· = '<') <;> simp
  · refine iff_of_false ?_ fun ⟨_, _, hs, _, hafter⟩ => hlt (hs ▸ by simp [hafter])
    have hnone := findIdx?_of_notMem hlt
    rw [parseIdent, hnone]
    simp

theorem stripPrefix_eq_some_iff {p s rest : List Char} :
    stripPrefix p s = some rest ↔ s = p ++ rest :=
  ⟨eq_append_of_stripPrefix, fun h => h ▸ stripPrefix_append p rest⟩

theorem headerField_eq_panic_iff (line : List Char) :
    headerField line = .error .panic ↔ Panics line := by
  have hmap {α : Type} (value : Except GitFault α) (field : α → HeaderField) :
      value.map field = .error .panic ↔ value = .error .panic := by
    cases value <;> simp [Except.map]
  simp only [Panics, ← stripPrefix_eq_some_iff, ← hexOid_eq_panic_iff, ← parseIdent_eq_panic_iff]
  rw [headerField]
  split_ifs with hspace
  · obtain ⟨rest, rfl⟩ : ∃ rest, line = ' ' :: rest := by
      cases line with
      | nil => cases hspace
      | cons c rest => exact ⟨rest, by rw [Option.some_inj.mp hspace]⟩
    have hlabels : stripPrefix "tree ".toList (' ' :: rest) = none
        ∧ stripPrefix "parent ".toList (' ' :: rest) = none
        ∧ stripPrefix "author ".toList (' ' :: rest) = none
        ∧ stripPrefix "committer ".toList (' ' :: rest) = none := ⟨rfl, rfl, rfl, rfl⟩
    simp only [hlabels]
    simp
  · cases htree : stripPrefix "tree ".toList line with
    | some hex =>
        obtain rfl := eq_append_of_stripPrefix htree
        have hlabels : stripPrefix "parent ".toList ("tree ".toList ++ hex) = none
            ∧ stripPrefix "author ".toList ("tree ".toList ++ hex) = none
            ∧ stripPrefix "committer ".toList ("tree ".toList ++ hex) = none := ⟨rfl, rfl, rfl⟩
        simp only [hmap, hlabels]
        simp
    | none =>
        cases hparent : stripPrefix "parent ".toList line with
        | some hex =>
            obtain rfl := eq_append_of_stripPrefix hparent
            have hlabels : stripPrefix "author ".toList ("parent ".toList ++ hex) = none
                ∧ stripPrefix "committer ".toList ("parent ".toList ++ hex) = none := ⟨rfl, rfl⟩
            simp only [hmap, hlabels]
            simp
        | none =>
            cases hauthor : stripPrefix "author ".toList line with
            | some rest =>
                obtain rfl := eq_append_of_stripPrefix hauthor
                have hcommitter : stripPrefix "committer ".toList ("author ".toList ++ rest)
                    = none := rfl
                simp only [hmap, hcommitter]
                simp
            | none => cases stripPrefix "committer ".toList line <;> simp [hmap]

theorem headerFields_ne_panic_iff (lines : List (List Char)) :
    headerFields lines ≠ .error .panic ↔ ∀ before line after, lines = before ++ line :: after →
      Panics line → ∃ line' ∈ before, Rejected line' := by
  induction lines with
  | nil => simp [headerFields]
  | cons first lines ih =>
      rw [headerFields]
      cases hfirst : headerField first with
      | ok field =>
          have hpanic : ¬ Panics first := by
            rw [← headerField_eq_panic_iff, hfirst]
            simp
          have htail : ((headerFields lines).map fun fields => field :: fields) ≠ .error .panic
              ↔ headerFields lines ≠ .error .panic := by
            cases headerFields lines <;> simp [Except.map]
          change ((headerFields lines).map fun fields => field :: fields) ≠ .error .panic ↔ _
          rw [htail, ih]
          constructor
          · intro h before line after heq hline
            cases before with
            | nil => exact absurd ((List.cons_eq_cons.mp heq).1 ▸ hline) hpanic
            | cons _ before =>
                obtain ⟨line', hmem, hrejected⟩ :=
                  h before line after (List.cons_eq_cons.mp heq).2 hline
                exact ⟨line', List.mem_cons_of_mem _ hmem, hrejected⟩
          · rintro h before line after rfl hline
            obtain ⟨line', hmem, hrejected⟩ := h (first :: before) line after rfl hline
            rcases List.mem_cons.mp hmem with rfl | hmem
            · obtain ⟨text, htext⟩ := hrejected
              rw [hfirst] at htext
              cases htext
            · exact ⟨line', hmem, hrejected⟩
      | error fault =>
          cases fault with
          | panic =>
              refine iff_of_false (fun h => h rfl) fun h => ?_
              obtain ⟨line, hmem, -⟩ :=
                h [] first lines rfl ((headerField_eq_panic_iff first).mp hfirst)
              cases hmem
          | error text =>
              refine iff_of_true (by rintro ⟨⟩) fun before line after heq hline => ?_
              cases before with
              | nil =>
                  rw [← (List.cons_eq_cons.mp heq).1, ← headerField_eq_panic_iff, hfirst] at hline
                  cases hline
              | cons _ before =>
                  refine ⟨first, ?_, text, hfirst⟩
                  rw [(List.cons_eq_cons.mp heq).1]
                  exact List.mem_cons_self

def PanicsBehindError (text : String) : Prop :=
  ∀ before line after, headOf (text.toList.splitOn '\n') = before ++ line :: after →
    Panics line → ∃ line' ∈ before, Rejected line'

theorem parseCommit_ne_panic_iff (oid : GitOid) (text : String) :
    parseCommit oid (utf8 text) ≠ .error .panic ↔ PanicsBehindError text := by
  rw [parseCommit_utf8, parseCommitLines_eq rfl, PanicsBehindError, ← headerFields_ne_panic_iff]
  cases headerFields (headOf (text.toList.splitOn '\n')) <;> simp [Except.map]

/-! ## Both directions -/

/-- **When reading undoes writing, and when it panics.** -/
theorem commitReading_iff [Sha1] :
    (∀ (oid : GitOid) (commit : Git.GitCommit), Plain commit.author → Plain commit.committer →
      (ReadsBack oid commit ↔ ZonesKeepFields commit ∧ KeepsMessage commit))
    ∧ ∀ (oid : GitOid) (text : String),
      parseCommit oid (utf8 text) ≠ .error .panic ↔ PanicsBehindError text :=
  ⟨fun oid _ hauthor hcommitter => readsBack_iff oid hauthor hcommitter, parseCommit_ne_panic_iff⟩

def sampleSignature : GitSignature := ⟨"Ann", "ann@example.com", 0, "+0000"⟩

def sampleCommit (message : String) : Git.GitCommit :=
  ⟨sampleOid, [sampleOid], sampleSignature, sampleSignature, message⟩

theorem plain_sampleSignature : Plain sampleSignature :=
  ⟨by simp [sampleSignature], by simp [sampleSignature], by decide, by decide⟩

/-- A message with a line that looks like one of the header. -/
theorem commitReading_iff_author_line :
    let _ := Sha1.sample
    ReadsBack sampleOid (sampleCommit "Subject\n\nauthor nobody\n") := by
  intro sha1
  have hkeeps : KeepsMessage (sampleCommit "Subject\n\nauthor nobody\n") :=
    .inr ⟨by decide, by decide⟩
  exact (commitReading_iff.1 sampleOid _ plain_sampleSignature plain_sampleSignature).mpr
    ⟨zonesKeepFields_of_notMem (by decide) (by decide), hkeeps⟩

/-- A message that begins with an empty line, and an author with crossed brackets. -/
theorem not_commitReading :
    let _ := Sha1.sample
    (¬ ∀ (oid : GitOid) (commit : Git.GitCommit), Plain commit.author → Plain commit.committer →
      ReadsBack oid commit)
    ∧ ¬ ∀ (oid : GitOid) (text : String), parseCommit oid (utf8 text) ≠ .error .panic := by
  intro sha1
  constructor
  · intro hall
    have hread := hall sampleOid (sampleCommit "\nSubject") plain_sampleSignature
      plain_sampleSignature
    rw [readsBack_iff_of_notMem sampleOid plain_sampleSignature plain_sampleSignature (by decide)
      (by decide)] at hread
    rcases hread with hblank | hhead
    · exact absurd (hblank 'S' (by decide)) (by decide)
    · exact hhead (by decide)
  · intro hall
    refine hall sampleOid "author >< 0 +0000" ?_
    rw [parseCommit_utf8]
    decide

end ArcVcs.GitIngress
