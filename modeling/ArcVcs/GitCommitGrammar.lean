import ArcVcs.HexIds
import ArcVcs.Lib.Delimited

/-!
# The grammar of a commit

A commit is a block of header lines, an empty line and the message. The header names the tree, the
parents, the author and the committer. An identity is a name, an address in angle brackets, a time
and a zone, and the name and the address have neither an angle bracket nor a line feed.
-/

namespace ArcVcs.Git

open GitIngress (decimal parseI64)

/-! ## The reader of the grammar -/

def readOid (hex : List Char) : Option GitOid := (GitOid.fromHex (String.ofList hex)).toOption

/-- A decimal number as it is printed. -/
def readTime (s : List Char) : Option Int64 :=
  (parseI64 s).filter fun time => (toString time.toInt).toList = s

def readSignature (s : List Char) : Option GitSignature := do
  let (name, s) ← Reader.upTo '<' s
  let (email, s) ← Reader.upTo '>' s
  let s ← stripPrefix [' '] s
  let (time, zone) ← Reader.upTo ' ' s
  let timestamp ← readTime time
  if name.getLast? = some ' ' ∧ '>' ∉ name ∧ '<' ∉ email then
    some ⟨String.ofList name.dropLast, String.ofList email, timestamp, String.ofList zone⟩
  else none

/-- The parents, and the lines behind them. -/
def readParents : List (List Char) → Option (List GitOid × List (List Char))
  | [] => some ([], [])
  | line :: lines =>
      match stripPrefix "parent ".toList line with
      | none => some ([], line :: lines)
      | some hex => do
          let parent ← readOid hex
          let (parents, rest) ← readParents lines
          some (parent :: parents, rest)

def readHeader (lines : List (List Char)) (message : String) : Option GitCommit :=
  match lines with
  | [] => none
  | treeLine :: lines => do
      let tree ← (stripPrefix "tree ".toList treeLine).bind readOid
      let (parents, lines) ← readParents lines
      match lines with
      | [authorLine, committerLine] => do
          let author ← (stripPrefix "author ".toList authorLine).bind readSignature
          let committer ← (stripPrefix "committer ".toList committerLine).bind readSignature
          some ⟨tree, parents, author, committer, message⟩
      | _ => none

def readCommit (payload : Bytes) : Option GitCommit := do
  let text ← String.fromUTF8? payload.toByteArray
  let (lines, message) ← Reader.block '\n' text.toList
  readHeader lines (String.ofList message)

/-- The texts of an identity are in the alphabet of the grammar. -/
structure GitSignature.Clean (sig : GitSignature) : Prop where
  name : ∀ c ∈ sig.name.toList, c ≠ '<' ∧ c ≠ '>' ∧ c ≠ '\n'
  email : ∀ c ∈ sig.email.toList, c ≠ '<' ∧ c ≠ '>' ∧ c ≠ '\n'
  zone : '\n' ∉ sig.tzOffset.toList

/-! ## Times -/

theorem decimal_toDigits (n : ℕ) : decimal 0 (Nat.toDigits 10 n) = some n := by
  rw [decimal_eq fun c hc => Nat.isDigit_of_mem_toDigits (by decide) (by decide) hc,
    Nat.ofDigitChars_ten_toDigits]

theorem parseI64_toDigits {n : ℕ} (h : n < 2 ^ 63) :
    parseI64 (Nat.toDigits 10 n) = some (Int64.ofInt n) := by
  have hdigits : ∀ c ∈ Nat.toDigits 10 n, c.isDigit :=
    fun c hc => Nat.isDigit_of_mem_toDigits (by decide) (by decide) hc
  have hdecimal := decimal_toDigits n
  unfold parseI64
  dsimp only
  split
  · rename_i hnil
    exact absurd hnil Nat.toDigits_ne_nil
  · rename_i s hminus
    exact absurd (hdigits '-' (hminus ▸ List.mem_cons_self)) (by decide)
  · rename_i s hplus
    exact absurd (hdigits '+' (hplus ▸ List.mem_cons_self)) (by decide)
  · rw [hdecimal, Option.bind_some, if_pos (by omega)]

theorem parseI64_neg_toDigits {n : ℕ} (h : n ≤ 2 ^ 63) :
    parseI64 ('-' :: Nat.toDigits 10 n) = some (Int64.ofInt (-n)) := by
  rw [parseI64]
  dsimp only
  rw [if_neg Nat.toDigits_ne_nil, decimal_toDigits, Option.bind_some, if_pos (by omega)]

theorem toList_toString_negSucc (n : ℕ) :
    (toString (Int.negSucc n)).toList = '-' :: Nat.toDigits 10 (n + 1) := by
  change ("-" ++ (n + 1).repr).toList = '-' :: Nat.toDigits 10 (n + 1)
  rw [String.toList_append, Nat.toList_repr]
  rfl

theorem readTime_toString (time : Int64) :
    readTime (toString time.toInt).toList = some time := by
  have hlow := time.le_toInt
  have hhigh := time.toInt_lt
  have hparse : parseI64 (toString time.toInt).toList = some time := by
    have hvalue := Int64.ofInt_toInt time
    cases hn : time.toInt with
    | ofNat n =>
        rw [hn] at hvalue hhigh
        rw [Int.toString_eq_repr, Int.repr, Nat.toList_repr,
          parseI64_toDigits (Int.ofNat_lt.mp hhigh)]
        exact congrArg some hvalue
    | negSucc n =>
        rw [hn] at hvalue hlow
        rw [toList_toString_negSucc, parseI64_neg_toDigits (by omega)]
        exact congrArg some hvalue
  rw [readTime, hparse, Option.filter_some, if_pos (by simp)]

/-! ## Identities -/

/-- An identity as it is printed. -/
def signatureText (sig : GitSignature) : List Char :=
  sig.name.toList ++ ' ' :: '<' :: (sig.email.toList ++ '>' :: ' ' ::
    ((toString sig.timestamp.toInt).toList ++ ' ' :: sig.tzOffset.toList))

theorem notMem_toString {c : Char} (hdigit : c.isDigit = false) (hminus : c ≠ '-') (n : ℤ) :
    c ∉ (toString n).toList := by
  have hdigits (n : ℕ) : c ∉ Nat.toDigits 10 n := fun hmem => by
    rw [Nat.isDigit_of_mem_toDigits (by decide) (by decide) hmem] at hdigit
    cases hdigit
  cases n with
  | ofNat n =>
      rw [Int.toString_eq_repr, Int.repr, Nat.toList_repr]
      exact hdigits n
  | negSucc n =>
      rw [toList_toString_negSucc]
      exact List.not_mem_cons_of_ne_of_not_mem hminus (hdigits _)

theorem readSignature_signatureText {sig : GitSignature} (h : sig.Clean) :
    readSignature (signatureText sig) = some sig := by
  have hname : '<' ∉ sig.name.toList ++ [' '] := by
    rw [List.mem_append, List.mem_singleton]
    exact fun hmem => hmem.elim (fun hmem => (h.name _ hmem).1 rfl) (by decide)
  have hname' : '>' ∉ sig.name.toList ++ [' '] := by
    rw [List.mem_append, List.mem_singleton]
    exact fun hmem => hmem.elim (fun hmem => (h.name _ hmem).2.1 rfl) (by decide)
  have htext : signatureText sig = (sig.name.toList ++ [' ']) ++ '<' :: (sig.email.toList ++ '>' ::
      ([' '] ++ ((toString sig.timestamp.toInt).toList ++ ' ' :: sig.tzOffset.toList))) := by
    simp [signatureText]
  rw [readSignature, htext, Reader.upTo_append_cons hname]
  dsimp only [bind, Option.bind]
  rw [Reader.upTo_append_cons fun hmem => (h.email _ hmem).2.1 rfl]
  dsimp only
  rw [stripPrefix_append]
  dsimp only
  rw [Reader.upTo_append_cons (notMem_toString (by decide) (by decide) _)]
  dsimp only
  rw [readTime_toString]
  dsimp only
  rw [if_pos ⟨List.getLast?_concat, hname', fun hmem => (h.email _ hmem).1 rfl⟩,
    List.dropLast_concat, String.ofList_toList, String.ofList_toList, String.ofList_toList]

theorem clean_of_readSignature {s : List Char} {sig : GitSignature} (hs : '\n' ∉ s)
    (h : readSignature s = some sig) : sig.Clean := by
  rw [readSignature] at h
  obtain ⟨⟨name, s₁⟩, hname, h₁⟩ := Option.bind_eq_some_iff.mp h
  obtain ⟨⟨email, s₂⟩, hemail, h₂⟩ := Option.bind_eq_some_iff.mp h₁
  obtain ⟨s₃, hspace, h₃⟩ := Option.bind_eq_some_iff.mp h₂
  obtain ⟨⟨time, zone⟩, htime, h₄⟩ := Option.bind_eq_some_iff.mp h₃
  obtain ⟨timestamp, -, hsig⟩ := Option.bind_eq_some_iff.mp h₄
  clear h h₁ h₂ h₃ h₄
  obtain ⟨hlt, rfl⟩ := Reader.upTo_eq_some_iff.mp hname
  obtain ⟨hgt, rfl⟩ := Reader.upTo_eq_some_iff.mp hemail
  obtain rfl := eq_append_of_stripPrefix hspace
  obtain ⟨-, rfl⟩ := Reader.upTo_eq_some_iff.mp htime
  split_ifs at hsig with hguard
  obtain rfl := Option.some_inj.mp hsig
  simp only [List.mem_append, List.mem_cons, not_or] at hs
  constructor
  · intro c hc
    rw [String.toList_ofList] at hc
    have hmem := List.mem_of_mem_dropLast hc
    exact ⟨fun heq => hlt (heq ▸ hmem), fun heq => hguard.2.1 (heq ▸ hmem),
      fun heq => hs.1 (heq ▸ hmem)⟩
  · intro c hc
    rw [String.toList_ofList] at hc
    exact ⟨fun heq => hguard.2.2 (heq ▸ hc), fun heq => hgt (heq ▸ hc),
      fun heq => hs.2.2.1 (heq ▸ hc)⟩
  · rw [String.toList_ofList]
    exact hs.2.2.2.2.2.2.2

/-! ## The payload -/

def headerLines (commit : GitCommit) : List (List Char) :=
  ("tree ".toList ++ commit.tree.display.toList)
    :: (commit.parents.map (fun parent => "parent ".toList ++ parent.display.toList)
      ++ ["author ".toList ++ signatureText commit.author,
        "committer ".toList ++ signatureText commit.committer])

def commitText (commit : GitCommit) : List Char :=
  (headerLines commit).flatMap (fun line => line ++ ['\n']) ++ '\n' :: commit.message.toList

theorem synthesizeCommit_fst [Sha1] (commit : GitCommit) :
    (synthesizeCommit commit).1 = utf8 (String.ofList (commitText commit)) := by
  rw [← Prod.snd_swap, ← hashCommit_eq, hashCommit]
  refine congrArg utf8 ?_
  rw [← String.toList_inj, String.toList_ofList]
  simp only [String.toList_append, toHex_eq_display, identityText, GitSignature.toIdentity,
    String.toList_join, List.flatMap_map, commitText, headerLines, signatureText,
    List.flatMap_cons, List.flatMap_append, List.flatMap_nil]
  simp

theorem readCommit_utf8 (text : List Char) : readCommit (utf8 (String.ofList text))
    = (Reader.block '\n' text).bind fun out => readHeader out.1 (String.ofList out.2) := by
  rw [readCommit, fromUtf8_utf8]
  dsimp only [bind, Option.bind]
  rw [String.toList_ofList]

theorem readOid_display (oid : GitOid) : readOid oid.display.toList = some oid := by
  rw [readOid, String.ofList_toList, fromHex_display]
  rfl

theorem readParents_append (parents : List GitOid) {line : List Char} (lines : List (List Char))
    (h : stripPrefix "parent ".toList line = none) :
    readParents (parents.map (fun parent => "parent ".toList ++ parent.display.toList)
      ++ line :: lines) = some (parents, line :: lines) := by
  induction parents with
  | nil => rw [List.map_nil, List.nil_append, readParents, h]
  | cons parent parents ih =>
      rw [List.map_cons, List.cons_append, readParents, stripPrefix_append]
      dsimp only [bind, Option.bind]
      rw [readOid_display]
      dsimp only
      rw [ih]

theorem readParents_subset {lines rest : List (List Char)} {parents : List GitOid}
    (h : readParents lines = some (parents, rest)) : rest ⊆ lines := by
  induction lines generalizing parents with
  | nil =>
      obtain ⟨-, rfl⟩ := Prod.mk.inj (Option.some_inj.mp h)
      exact List.Subset.refl _
  | cons line lines ih =>
      rw [readParents] at h
      split at h
      · obtain ⟨-, rfl⟩ := Prod.mk.inj (Option.some_inj.mp h)
        exact List.Subset.refl _
      · obtain ⟨parent, -, htail⟩ := Option.bind_eq_some_iff.mp h
        obtain ⟨⟨parents', rest'⟩, hparents, heq⟩ := Option.bind_eq_some_iff.mp htail
        obtain ⟨-, rfl⟩ := Prod.mk.inj (Option.some_inj.mp heq)
        exact List.subset_cons_of_subset line (ih hparents)

theorem readHeader_headerLines {commit : GitCommit} (hauthor : commit.author.Clean)
    (hcommitter : commit.committer.Clean) :
    readHeader (headerLines commit) commit.message = some commit := by
  rw [headerLines, readHeader, stripPrefix_append, Option.bind_some, readOid_display]
  dsimp only [bind, Option.bind]
  rw [readParents_append _ _ (by rfl)]
  dsimp only
  rw [stripPrefix_append, stripPrefix_append]
  dsimp only
  rw [readSignature_signatureText hauthor, readSignature_signatureText hcommitter]

theorem newline_notMem_display (oid : GitOid) : '\n' ∉ oid.display.toList := fun hmem =>
  absurd (isWhiteSpace_of_mem_display hmem) (by decide)

theorem newline_notMem_signatureText {sig : GitSignature} (h : sig.Clean) :
    '\n' ∉ signatureText sig := by
  have hname : '\n' ∉ sig.name.toList := fun hmem => (h.name _ hmem).2.2 rfl
  have hemail : '\n' ∉ sig.email.toList := fun hmem => (h.email _ hmem).2.2 rfl
  have htime : '\n' ∉ (toString sig.timestamp.toInt).toList :=
    notMem_toString (by decide) (by decide) _
  simp only [signatureText, List.mem_append, List.mem_cons, not_or]
  exact ⟨hname, by decide, by decide, hemail, by decide, by decide, htime, by decide, h.zone⟩

theorem headerLines_spec {commit : GitCommit} (hauthor : commit.author.Clean)
    (hcommitter : commit.committer.Clean) :
    ∀ line ∈ headerLines commit, line ≠ [] ∧ '\n' ∉ line := by
  have hline {key value : List Char} (hkey : key ≠ []) (hkey' : '\n' ∉ key)
      (hvalue : '\n' ∉ value) : key ++ value ≠ [] ∧ '\n' ∉ key ++ value := by
    rw [List.mem_append, not_or]
    exact ⟨by simp [hkey], hkey', hvalue⟩
  rw [headerLines, List.forall_mem_cons, List.forall_mem_append, List.forall_mem_map,
    List.forall_mem_cons, List.forall_mem_singleton]
  refine ⟨hline (by decide) (by decide) (newline_notMem_display _), fun parent _ =>
    hline (by decide) (by decide) (newline_notMem_display parent), ?_, ?_⟩
  · exact hline (by decide) (by decide) (newline_notMem_signatureText hauthor)
  · exact hline (by decide) (by decide) (newline_notMem_signatureText hcommitter)

/-- **What is read off a payload is in the alphabet of the grammar.** -/
theorem clean_of_readCommit {payload : Bytes} {commit : GitCommit}
    (h : readCommit payload = some commit) : commit.author.Clean ∧ commit.committer.Clean := by
  have hclean {key line : List Char} {sig : GitSignature} (hline : '\n' ∉ line)
      (hsig : (stripPrefix key line).bind readSignature = some sig) : sig.Clean := by
    obtain ⟨s, hs, hread⟩ := Option.bind_eq_some_iff.mp hsig
    rw [eq_append_of_stripPrefix hs, List.mem_append, not_or] at hline
    exact clean_of_readSignature hline.2 hread
  obtain ⟨text, -, htext⟩ := Option.bind_eq_some_iff.mp h
  obtain ⟨⟨lines, message⟩, hblock, hheader⟩ := Option.bind_eq_some_iff.mp htext
  have hlines := Reader.stop_notMem_of_block hblock
  dsimp only at hheader
  unfold readHeader at hheader
  split at hheader
  · cases hheader
  rename_i treeLine lines
  obtain ⟨tree, -, htree⟩ := Option.bind_eq_some_iff.mp hheader
  obtain ⟨⟨parents, rest⟩, hparents, hrest⟩ := Option.bind_eq_some_iff.mp htree
  have hsub := readParents_subset hparents
  dsimp only at hrest
  split at hrest
  · rename_i authorLine committerLine
    obtain ⟨author, hauthor, hcommit⟩ := Option.bind_eq_some_iff.mp hrest
    obtain ⟨committer, hcommitter, hfields⟩ := Option.bind_eq_some_iff.mp hcommit
    obtain rfl := Option.some_inj.mp hfields
    rw [List.forall_mem_cons] at hlines
    exact ⟨hclean (hlines.2 _ (hsub List.mem_cons_self)) hauthor,
      hclean (hlines.2 _ (hsub (List.mem_cons_of_mem _ List.mem_cons_self))) hcommitter⟩
  · cases hrest

/-- **A commit parses back exactly when its identities are in the alphabet of the grammar.** Both
encoders copy the texts of an identity as they are. -/
theorem commit_parsesBack_iff [Sha1] (commit : GitCommit) :
    (readCommit (synthesizeCommit commit).1 = some commit
      ∧ readCommit (hashCommit commit.tree commit.parents commit.author.toIdentity
        commit.committer.toIdentity commit.message).2 = some commit)
      ↔ commit.author.Clean ∧ commit.committer.Clean := by
  have hsame : (hashCommit commit.tree commit.parents commit.author.toIdentity
      commit.committer.toIdentity commit.message).2 = (synthesizeCommit commit).1 := by
    rw [hashCommit_eq, Prod.snd_swap]
  rw [hsame, and_self]
  refine ⟨clean_of_readCommit, fun ⟨hauthor, hcommitter⟩ => ?_⟩
  rw [synthesizeCommit_fst, readCommit_utf8, commitText,
    Reader.block_flatMap (headerLines_spec hauthor hcommitter), Option.bind_some,
    String.ofList_toList, readHeader_headerLines hauthor hcommitter]

/-- A line feed in a name ends the line of the author. -/
theorem newline_in_name_ends_line :
    readCommit (@synthesizeCommit ⟨fun _ => ⟨List.replicate 20 0, rfl⟩⟩
      ⟨⟨List.replicate 20 0, rfl⟩, [], ⟨"Ann\nBob", "ann@example.com", 0, "+0000"⟩,
        ⟨"Ann", "ann@example.com", 0, "+0000"⟩, "Initial commit"⟩).1 = none := by
  rw [@synthesizeCommit_fst, readCommit_utf8]
  decide +kernel

end ArcVcs.Git
