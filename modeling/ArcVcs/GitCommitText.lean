import ArcVcs.GitImport
import ArcVcs.GitText

/-!
# The text of a commit

`parse_commit` goes through the lines of a commit object. Its slices can panic, which is kept apart
from the errors that it returns.
-/

namespace ArcVcs.GitIngress

open Git (GitObjectKind GitOid parseHexOid stripPrefix trim)
open GitImport (CommitData GitCommit)
open SparsePattern (isWhiteSpace)

/-- Why a function gives no value. -/
inductive GitFault where
  | error (text : String)
  | panic
deriving DecidableEq

def hexOid (hex : List Char) : Except GitFault GitOid :=
  match parseHexOid (trim hex) with
  | none => .error .panic
  | some none => .error (.error "invalid OID")
  | some (some oid) => .ok oid

/-- The number that decimal digits spell, the first one most significant. -/
def decimal : ℕ → List Char → Option ℕ
  | n, [] => some n
  | n, c :: s => if '0' ≤ c ∧ c ≤ '9' then decimal (10 * n + (c.toNat - 48)) s else none

/-- `str::parse::<i64>`. -/
def parseI64 (s : List Char) : Option Int64 :=
  let inRange (n : ℤ) : Option Int64 :=
    if -2 ^ 63 ≤ n ∧ n < 2 ^ 63 then some (Int64.ofInt n) else none
  match s with
  | [] => none
  | '-' :: s => if s = [] then none else (decimal 0 s).bind fun n => inRange (-n)
  | '+' :: s => if s = [] then none else (decimal 0 s).bind fun n => inRange n
  | s => (decimal 0 s).bind fun n => inRange n

/-- `split_whitespace().next()`. -/
def firstWord (s : List Char) : Option (List Char) :=
  match s.dropWhile isWhiteSpace with
  | [] => none
  | c :: s => some ((c :: s).takeWhile fun c => !isWhiteSpace c)

/-- A `>` that comes before the `<` makes the slice of the address panic. -/
def parseIdent (s : List Char) : Except GitFault (String × String × Int64) :=
  match s.findIdx? (· = '<'), s.findIdx? (· = '>') with
  | none, _ => .error (.error "ident: missing '<'")
  | some _, none => .error (.error "ident: missing '>'")
  | some lt, some gt =>
      if gt < lt + 1 then .error .panic
      else
        let name := trim (s.take lt)
        let email := (s.drop (lt + 1)).take (gt - (lt + 1))
        let ts := (parseI64 ((firstWord (s.drop (gt + 1))).getD ['0'])).getD 0
        .ok (String.ofList name, String.ofList email, ts)

/-- The lines of the body, where empty ones before the first text are left out. -/
def commitMessage (lines : List (List Char)) : List Char :=
  lines.foldl (fun msg line => (if msg = [] then msg else msg ++ ['\n']) ++ line) []

/-- `str::trim_end`. -/
def trimEnd (s : List Char) : List Char := (s.reverse.dropWhile isWhiteSpace).reverse

/-- The lines of the header, up to the empty one. -/
def parseCommitLines : List (List Char) → CommitData → Except GitFault CommitData
  | [], commit => .ok commit
  | line :: lines, commit =>
      if line = [] then
        .ok { commit with message := String.ofList (trimEnd (commitMessage lines)) }
      else if line.head? = some ' ' then parseCommitLines lines commit
      else
        match stripPrefix "tree ".toList line with
        | some h => do
            let tree ← hexOid h
            parseCommitLines lines { commit with tree }
        | none =>
            match stripPrefix "parent ".toList line with
            | some h => do
                let parent ← hexOid h
                parseCommitLines lines { commit with parents := commit.parents ++ [parent] }
            | none =>
                match stripPrefix "author ".toList line with
                | some rest => do
                    let (name, email, ts) ← parseIdent rest
                    parseCommitLines lines
                      { commit with
                        authorName := name
                        authorEmail := email
                        authorTimestamp := ts }
                | none =>
                    match stripPrefix "committer ".toList line with
                    | some rest => do
                        let (name, email, _) ← parseIdent rest
                        parseCommitLines lines
                          { commit with committerName := name, committerEmail := email }
                    | none => parseCommitLines lines commit

/-- What the lines are read into. -/
def emptyCommit : CommitData := ⟨⟨List.replicate 20 0, rfl⟩, [], "", "", 0, "", "", ""⟩

def parseCommit (oid : GitOid) (data : Bytes) : Except GitFault GitCommit :=
  match String.fromUTF8? data.toByteArray with
  | none => .error (.error "commit body is not UTF-8")
  | some text => do
      let commit ← parseCommitLines (text.toList.splitOn '\n') emptyCommit
      .ok ⟨commit, oid⟩

/-- An object as it is stored. -/
structure RawObj where
  kind : GitObjectKind
  data : Bytes
deriving DecidableEq

/-! ## The parents -/

theorem parseCommit_utf8 (oid : GitOid) (text : String) :
    parseCommit oid (utf8 text)
      = (parseCommitLines (text.toList.splitOn '\n') emptyCommit).map fun commit =>
        ⟨commit, oid⟩ := by
  rw [parseCommit, fromUtf8_utf8]
  dsimp only
  cases parseCommitLines (text.toList.splitOn '\n') emptyCommit
  · rfl
  · rfl

def parentLine (parent : GitOid) : List Char := "parent ".toList ++ parent.display.toList

theorem hexOid_display (oid : GitOid) : hexOid oid.display.toList = .ok oid := by
  rw [hexOid, Git.trim_display, Git.parseHexOid_display]

theorem parseCommitLines_parents (parents : List GitOid) (lines : List (List Char))
    (commit : CommitData) :
    parseCommitLines (parents.map parentLine ++ lines) commit
      = parseCommitLines lines { commit with parents := commit.parents ++ parents } := by
  induction parents generalizing commit with
  | nil => simp
  | cons parent parents ih =>
      have hline : parentLine parent = 'p' :: ("arent ".toList ++ parent.display.toList) := rfl
      have htree : stripPrefix "tree ".toList (parentLine parent) = none := rfl
      have hparent : stripPrefix "parent ".toList (parentLine parent)
          = some parent.display.toList := rfl
      rw [List.map_cons, List.cons_append, parseCommitLines, if_neg (by rw [hline]; simp),
        if_neg (by rw [hline]; simp), htree, hparent]
      dsimp only [bind, Except.bind]
      rw [hexOid_display]
      dsimp only
      rw [ih, List.append_assoc, List.singleton_append]

theorem newline_notMem_parentLine (parent : GitOid) : '\n' ∉ parentLine parent := by
  intro h
  rcases List.mem_append.mp h with h | h
  · exact absurd h (by decide)
  · exact absurd (Git.isWhiteSpace_of_mem_display h) (by decide)

def parentsText (parents : List GitOid) : String :=
  String.ofList (parents.flatMap fun parent => parentLine parent ++ ['\n'])

/-- **The parents are read as they are written**, in their order. -/
theorem parseCommit_parentsText (oid : GitOid) (parents : List GitOid) :
    parseCommit oid (utf8 (parentsText parents)) = .ok ⟨{ emptyCommit with parents }, oid⟩ := by
  have hsplit : (parents.flatMap fun parent => parentLine parent ++ ['\n']).splitOn '\n'
      = parents.map parentLine ++ [[]] := by
    induction parents with
    | nil => rfl
    | cons parent parents ih =>
        rw [List.flatMap_cons, List.append_assoc, List.singleton_append,
          List.splitOn_append_cons_self_of_not_mem (newline_notMem_parentLine parent), ih]
        rfl
  rw [parseCommit_utf8, parentsText, String.toList_ofList, hsplit, parseCommitLines_parents]
  rfl

end ArcVcs.GitIngress
