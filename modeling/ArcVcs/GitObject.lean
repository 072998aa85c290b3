import ArcVcs.Atom
import ArcVcs.Lib.KeySort
import ArcVcs.Lib.SelfDelimiting

/-!
# Git objects

The trees and commits that `arc-git-native` and `arc-git-bridge` write, each with its own code. A
tree lists its entries in the order of their names, where the name of a directory ends in a slash.
-/

namespace ArcVcs.Git

/-- The 20 bytes of a SHA-1 digest. -/
structure GitOid where
  bytes : Bytes
  length_bytes : bytes.length = 20
deriving DecidableEq

/-- `Sha1::digest`. -/
class Sha1 where
  digest : Bytes → GitOid

/-- `{:o}`. -/
def octal (n : ℕ) : Bytes := (Nat.toDigits 8 n).map fun c => c.toNat.toUInt8

def dirMode : UInt32 := 0o040000

def slash : UInt8 := 47

/-! ## `arc-git-native` -/

inductive GitObjectKind where
  | blob
  | tree
  | commit
  | tag
deriving DecidableEq

def GitObjectKind.asBytes : GitObjectKind → Bytes
  | blob => utf8 "blob"
  | tree => utf8 "tree"
  | commit => utf8 "commit"
  | tag => utf8 "tag"

def gitHash [Sha1] (kind : GitObjectKind) (content : Bytes) : GitOid :=
  Sha1.digest (kind.asBytes ++ utf8 " " ++ utf8 (toString content.length) ++ [0] ++ content)

structure GitTreeEntry where
  mode : UInt32
  name : String
  oid : GitOid
deriving DecidableEq

def GitTreeEntry.isDir (e : GitTreeEntry) : Bool := e.mode = dirMode

def sortKeyByte (name : Bytes) (idx : ℕ) (isDir : Bool) : Option UInt8 :=
  match name[idx]? with
  | some b => some b
  | none => if idx = name.length ∧ isDir then some slash else none

/-- The loop from an index on. -/
def cmpSortKeyFrom (a : Bytes) (aIsDir : Bool) (b : Bytes) (bIsDir : Bool) : ℕ → ℕ → Ordering
  | 0, _ => .eq
  | fuel + 1, i =>
      match sortKeyByte a i aIsDir, sortKeyByte b i bIsDir with
      | some x, some y =>
          if x = y then cmpSortKeyFrom a aIsDir b bIsDir fuel (i + 1) else compare x y
      | none, none => .eq
      | none, some _ => .lt
      | some _, none => .gt

def cmpGitTreeSortKey (aName : String) (aIsDir : Bool) (bName : String) (bIsDir : Bool) :
    Ordering :=
  cmpSortKeyFrom (utf8 aName) aIsDir (utf8 bName) bIsDir ((utf8 aName).length + 2) 0

/-- `Ord` of the entries. -/
def GitTreeEntry.cmp (a b : GitTreeEntry) : Ordering :=
  (cmpGitTreeSortKey a.name a.isDir b.name b.isDir).then
    ((compare a.mode b.mode).then (compare a.oid.bytes b.oid.bytes))

def entryBytes (e : GitTreeEntry) : Bytes :=
  octal e.mode.toNat ++ utf8 " " ++ utf8 e.name ++ [0] ++ e.oid.bytes

def synthesizeTree [Sha1] (entries : List GitTreeEntry) : Bytes × GitOid :=
  let payload := (entries.sortWith GitTreeEntry.cmp).flatMap entryBytes
  (payload, gitHash .tree payload)

/-- The hexadecimal digits of a byte. -/
def hexPair (b : UInt8) : List Char :=
  [Blake3Hash.hexDigit (b.toNat / 16), Blake3Hash.hexDigit (b.toNat % 16)]

def GitOid.display (oid : GitOid) : String := String.ofList (oid.bytes.flatMap hexPair)

structure GitSignature where
  name : String
  email : String
  timestamp : Int64
  tzOffset : String
deriving DecidableEq

structure GitCommit where
  tree : GitOid
  parents : List GitOid
  author : GitSignature
  committer : GitSignature
  message : String
deriving DecidableEq

def pushSignatureLine (label : String) (sig : GitSignature) : Bytes :=
  utf8 label ++ utf8 " " ++ utf8 sig.name ++ utf8 " <" ++ utf8 sig.email ++ utf8 "> "
    ++ utf8 (toString sig.timestamp.toInt) ++ utf8 " " ++ utf8 sig.tzOffset ++ utf8 "\n"

def synthesizeCommit [Sha1] (commit : GitCommit) : Bytes × GitOid :=
  let payload := utf8 "tree " ++ utf8 commit.tree.display ++ utf8 "\n"
    ++ commit.parents.flatMap (fun parent =>
      utf8 "parent " ++ utf8 parent.display ++ utf8 "\n")
    ++ pushSignatureLine "author" commit.author
    ++ pushSignatureLine "committer" commit.committer ++ utf8 "\n" ++ utf8 commit.message
  (payload, gitHash .commit payload)

/-! ## `arc-git-bridge` -/

/-- The object ids of the bridge are the same 20 bytes. -/
abbrev GitSha1 := GitOid

def hashObject [Sha1] (kind : String) (body : Bytes) : GitSha1 :=
  Sha1.digest (utf8 (kind ++ " " ++ toString body.length) ++ [0] ++ body)

def hashBlob [Sha1] (content : Bytes) : GitSha1 × Bytes := (hashObject "blob" content, content)

def treeCompareKey (name : String) (mode : UInt32) : Bytes :=
  if mode = dirMode then utf8 name ++ [slash] else utf8 name

def hashTree [Sha1] (entries : List (String × GitSha1 × UInt32)) : GitSha1 × Bytes :=
  let sorted := entries.sortWith fun a b =>
    compare (treeCompareKey a.1 a.2.2) (treeCompareKey b.1 b.2.2)
  let body := sorted.flatMap fun (name, id, mode) =>
    octal mode.toNat ++ utf8 " " ++ utf8 name ++ [0] ++ id.bytes
  (hashObject "tree" body, body)

/-- `{:02x}`. -/
def hex02 (b : UInt8) : List Char :=
  let digits := Nat.toDigits 16 b.toNat
  List.replicate (2 - digits.length) '0' ++ digits

def GitSha1.toHex (id : GitSha1) : String := String.ofList (id.bytes.flatMap hex02)

structure GitIdentity where
  name : String
  email : String
  timestamp : Int64
  timezone : String
deriving DecidableEq

/-- An author or a committer in the text of a commit. -/
def identityText (identity : GitIdentity) : String :=
  identity.name ++ " <" ++ identity.email ++ "> " ++ toString identity.timestamp.toInt ++ " "
    ++ identity.timezone

def hashCommit [Sha1] (tree : GitSha1) (parents : List GitSha1) (author committer : GitIdentity)
    (message : String) : GitSha1 × Bytes :=
  let body := "tree " ++ tree.toHex ++ "\n"
    ++ String.join (parents.map fun parent => "parent " ++ parent.toHex ++ "\n")
    ++ "author " ++ identityText author ++ "\ncommitter " ++ identityText committer
    ++ "\n\n" ++ message
  let payload := utf8 body
  (hashObject "commit" payload, payload)

/-! ## The order of the entries -/

/-- The name of an entry, with a slash behind that of a directory. -/
def sortKey (name : Bytes) (isDir : Bool) : Bytes := if isDir then name ++ [slash] else name

def GitTreeEntry.key (e : GitTreeEntry) : Bytes := sortKey (utf8 e.name) e.isDir

theorem sortKeyByte_eq (name : Bytes) (idx : ℕ) (isDir : Bool) :
    sortKeyByte name idx isDir = (sortKey name isDir)[idx]? := by
  rw [sortKeyByte, sortKey]
  cases isDir with
  | false => cases hget : name[idx]? <;> simp [hget]
  | true =>
      rcases lt_trichotomy idx name.length with hlt | rfl | hgt
      · simp [hlt, List.getElem?_append_left hlt]
      · simp
      · have hnone : (name ++ [slash])[idx]? = none := by
          rw [List.getElem?_eq_none_iff, List.length_append]
          exact hgt
        simp [hgt.le, hgt.ne', hnone]

/-- By induction on the fuel, which lasts to the end of the first key. -/
theorem cmpSortKeyFrom_eq {a b : Bytes} {aIsDir bIsDir : Bool} {fuel i : ℕ}
    (hi : i ≤ (sortKey a aIsDir).length) (hfuel : (sortKey a aIsDir).length < fuel + i) :
    cmpSortKeyFrom a aIsDir b bIsDir fuel i
      = compare ((sortKey a aIsDir).drop i) ((sortKey b bIsDir).drop i) := by
  induction fuel generalizing i with
  | zero => omega
  | succ fuel ih =>
      rw [cmpSortKeyFrom, sortKeyByte_eq, sortKeyByte_eq, List.compare_eq_compareLex]
      cases hx : (sortKey a aIsDir)[i]? with
      | none =>
          rw [List.drop_eq_nil_of_le (List.getElem?_eq_none_iff.mp hx)]
          cases hy : (sortKey b bIsDir)[i]? with
          | none => rw [List.drop_eq_nil_of_le (List.getElem?_eq_none_iff.mp hy)]; rfl
          | some y =>
              obtain ⟨hlt, rfl⟩ := List.getElem?_eq_some_iff.mp hy
              rw [List.drop_eq_getElem_cons hlt]
              rfl
      | some x =>
          obtain ⟨hlt, rfl⟩ := List.getElem?_eq_some_iff.mp hx
          rw [List.drop_eq_getElem_cons hlt]
          cases hy : (sortKey b bIsDir)[i]? with
          | none => rw [List.drop_eq_nil_of_le (List.getElem?_eq_none_iff.mp hy)]; rfl
          | some y =>
              obtain ⟨hlt', rfl⟩ := List.getElem?_eq_some_iff.mp hy
              rw [List.drop_eq_getElem_cons hlt', List.compareLex_cons_cons]
              dsimp only
              split_ifs with hxy
              · rw [ih hlt (by omega), hxy, Std.ReflOrd.compare_self]
                rfl
              · have hne := mt (Std.LawfulEqOrd.eq_of_compare (α := UInt8)) hxy
                cases hcmp : compare (sortKey a aIsDir)[i] (sortKey b bIsDir)[i] with
                | eq => exact absurd hcmp hne
                | _ => rfl

theorem cmpGitTreeSortKey_eq (a b : GitTreeEntry) :
    cmpGitTreeSortKey a.name a.isDir b.name b.isDir = compare a.key b.key := by
  have hlen : (sortKey (utf8 a.name) a.isDir).length ≤ (utf8 a.name).length + 1 := by
    rw [sortKey]
    split_ifs <;> simp
  rw [cmpGitTreeSortKey, cmpSortKeyFrom_eq (Nat.zero_le _) (by omega)]
  rfl

/-- The order of the bridge. -/
def cmpKey (a b : GitTreeEntry) : Ordering := compare a.key b.key

instance : Std.TransCmp cmpKey := inferInstanceAs (Std.TransCmp (compareOn GitTreeEntry.key))

def DistinctKeys (entries : List GitTreeEntry) : Prop :=
  ∀ a ∈ entries, ∀ b ∈ entries, a.key = b.key → a = b

theorem DistinctKeys.eq_of_cmpKey {entries : List GitTreeEntry} (h : DistinctKeys entries) :
    ∀ a ∈ entries, ∀ b ∈ entries, cmpKey a b = .eq → a = b :=
  fun a ha b hb hcmp => h a ha b hb (Std.LawfulEqOrd.eq_of_compare hcmp)

theorem sortWith_cmp {entries : List GitTreeEntry} (h : DistinctKeys entries) :
    entries.sortWith GitTreeEntry.cmp = entries.sortWith cmpKey := by
  refine List.sortWith_congr fun a ha b hb => ?_
  rw [GitTreeEntry.cmp, cmpGitTreeSortKey_eq, ← cmpKey]
  cases hcmp : cmpKey a b with
  | eq =>
      obtain rfl := h.eq_of_cmpKey a ha b hb hcmp
      simp [Std.ReflOrd.compare_self]
  | lt | gt => rfl

theorem pairwise_key {entries : List GitTreeEntry} :
    (entries.sortWith cmpKey).Pairwise fun a b => (compare a.key b.key).isLE = true :=
  @List.pairwise_sortWith _ cmpKey _ entries

/-! ## The bytes of a tree -/

theorem toNat_of_mem_toDigits {n : ℕ} {c : Char} (h : c ∈ Nat.toDigits 8 n) :
    48 ≤ c.toNat ∧ c.toNat ≤ 57 := by
  have hdigit := Nat.isDigit_of_mem_toDigits (by decide) (by decide) h
  rw [Char.isDigit, Bool.and_eq_true, decide_eq_true_iff, decide_eq_true_iff] at hdigit
  exact ⟨UInt32.le_iff_toNat_le.mp hdigit.1, UInt32.le_iff_toNat_le.mp hdigit.2⟩

theorem toNat_octalDigit {n : ℕ} {c : Char} (h : c ∈ Nat.toDigits 8 n) :
    c.toNat.toUInt8.toNat = c.toNat :=
  Nat.mod_eq_of_lt ((toNat_of_mem_toDigits h).2.trans_lt (by decide))

theorem octal_injective : Function.Injective octal := by
  have hback (n : ℕ) : (octal n).map (fun b => Char.ofNat b.toNat) = Nat.toDigits 8 n := by
    rw [octal, List.map_map]
    refine (List.map_congr_left fun c hc => ?_).trans (List.map_id _)
    rw [Function.comp_apply, toNat_octalDigit hc, Char.ofNat_toNat, id]
  intro n m h
  have hdigits : Nat.toDigits 8 n = Nat.toDigits 8 m := by rw [← hback, ← hback, h]
  have hof := congrArg (Nat.ofDigitChars 8 · 0) hdigits
  simpa [Nat.ofDigitChars_toDigits] using hof

theorem notMem_octal (n : ℕ) : (32 : UInt8) ∉ octal n := by
  intro h
  obtain ⟨c, hc, hbyte⟩ := List.mem_map.mp h
  have hnat : c.toNat = 32 := (toNat_octalDigit hc).symm.trans (congrArg UInt8.toNat hbyte)
  have hlow := (toNat_of_mem_toDigits hc).1
  omega

def GitTreeEntry.NoNul (e : GitTreeEntry) : Prop := (0 : UInt8) ∉ utf8 e.name

theorem selfDelimiting_entryBytes : SelfDelimiting entryBytes GitTreeEntry.NoNul := by
  have hmode : SelfDelimiting (fun mode : UInt32 => octal mode.toNat ++ [32]) fun _ => True :=
    .terminated (fun m _ m' _ h => UInt32.toNat_inj.mp (octal_injective h))
      fun m _ => notMem_octal _
  have hname : SelfDelimiting (fun name : String => utf8 name ++ [0]) fun name => 0 ∉ utf8 name :=
    .terminated utf8_injective.injOn fun _ h => h
  have hoid : SelfDelimiting GitOid.bytes fun _ => True :=
    .of_length (fun a _ b _ h => by cases a; cases b; cases h; rfl) fun oid _ => oid.length_bytes
  refine (hmode.append (hname.append hoid)).image (fun p => ⟨p.1, p.2.1, p.2.2⟩) (fun p => ?_)
    fun e he => ⟨(e.mode, e.name, e.oid), ⟨trivial, he, trivial⟩, rfl⟩
  have hspace : utf8 " " = [32] := by
    rw [utf8_eq]
    rfl
  simp [entryBytes, hspace]

theorem perm_of_flatMap_entryBytes {cmp cmp' : GitTreeEntry → GitTreeEntry → Ordering}
    {entries entries' : List GitTreeEntry} (h : ∀ e ∈ entries, e.NoNul)
    (h' : ∀ e ∈ entries', e.NoNul)
    (heq : (entries.sortWith cmp).flatMap entryBytes
      = (entries'.sortWith cmp').flatMap entryBytes) : entries.Perm entries' := by
  have hne (e : GitTreeEntry) : entryBytes e ≠ [] := by simp [entryBytes]
  have hsorted := selfDelimiting_entryBytes.injOn_flatMap (fun e _ => hne e)
    (fun e he => h e ((List.sortWith_perm _ _).mem_iff.mp he))
    (fun e he => h' e ((List.sortWith_perm _ _).mem_iff.mp he)) heq
  have hperm := (List.sortWith_perm cmp entries).symm
  rw [hsorted] at hperm
  exact hperm.trans (List.sortWith_perm _ _)

/-! ## The two encoders -/

theorem utf8_append (s t : String) : utf8 (s ++ t) = utf8 s ++ utf8 t := by
  rw [utf8_eq, utf8_eq, utf8_eq, String.toByteArray_append, ByteArray.data_append,
    Array.toList_append]

theorem utf8_join (texts : List String) : utf8 (String.join texts) = texts.flatMap utf8 := by
  induction texts with
  | nil =>
      rw [utf8_eq]
      rfl
  | cons s texts ih => rw [String.join_cons, utf8_append, ih, List.flatMap_cons]

theorem hashObject_eq [Sha1] (kind : GitObjectKind) (name : String)
    (hkind : kind.asBytes = utf8 name) (body : Bytes) :
    hashObject name body = gitHash kind body := by
  rw [hashObject, gitHash, hkind, utf8_append, utf8_append]

def GitTreeEntry.toTuple (e : GitTreeEntry) : String × GitSha1 × UInt32 := (e.name, e.oid, e.mode)

theorem treeCompareKey_toTuple (e : GitTreeEntry) :
    treeCompareKey e.toTuple.1 e.toTuple.2.2 = e.key := by
  by_cases hdir : e.mode = dirMode <;>
    simp [treeCompareKey, GitTreeEntry.toTuple, GitTreeEntry.key, GitTreeEntry.isDir, sortKey, hdir]

theorem hashTree_eq [Sha1] (entries : List GitTreeEntry) :
    hashTree (entries.map GitTreeEntry.toTuple)
      = (gitHash .tree ((entries.sortWith cmpKey).flatMap entryBytes),
        (entries.sortWith cmpKey).flatMap entryBytes) := by
  have hsort : (entries.map GitTreeEntry.toTuple).sortWith (fun a b =>
      compare (treeCompareKey a.1 a.2.2) (treeCompareKey b.1 b.2.2))
      = (entries.sortWith cmpKey).map GitTreeEntry.toTuple := by
    rw [List.map_sortWith]
    simp only [treeCompareKey_toTuple]
    rfl
  rw [hashTree]
  dsimp only
  rw [hsort, List.flatMap_map, hashObject_eq .tree "tree" rfl]
  rfl

theorem digitChar_eq_hexDigit {n : ℕ} (h : n < 16) : n.digitChar = Blake3Hash.hexDigit n := by
  have hall : ∀ n < 16, n.digitChar = Blake3Hash.hexDigit n := by decide
  exact hall n h

theorem hex02_eq (b : UInt8) : hex02 b = hexPair b := by
  have hlt := b.toNat_lt
  rw [hex02, hexPair]
  rcases Nat.lt_or_ge b.toNat 16 with h | h
  · rw [Nat.toDigits_of_lt_base h, Nat.div_eq_of_lt h, Nat.mod_eq_of_lt h, digitChar_eq_hexDigit h]
    rfl
  · rw [Nat.toDigits_of_base_le (by decide) h, Nat.toDigits_of_lt_base (by omega),
      digitChar_eq_hexDigit (by omega), digitChar_eq_hexDigit (by omega)]
    rfl

theorem toHex_eq_display (oid : GitOid) : GitSha1.toHex oid = oid.display := by
  rw [GitSha1.toHex, GitOid.display, show hex02 = hexPair from funext hex02_eq]

def GitSignature.toIdentity (sig : GitSignature) : GitIdentity :=
  ⟨sig.name, sig.email, sig.timestamp, sig.tzOffset⟩

theorem pushSignatureLine_eq (label : String) (sig : GitSignature) :
    pushSignatureLine label sig
      = utf8 (label ++ " " ++ identityText sig.toIdentity ++ "\n") := by
  simp only [pushSignatureLine, identityText, GitSignature.toIdentity, utf8_append,
    List.append_assoc]

theorem hashCommit_eq [Sha1] (commit : GitCommit) :
    hashCommit commit.tree commit.parents commit.author.toIdentity commit.committer.toIdentity
      commit.message = (synthesizeCommit commit).swap := by
  have hpayload : utf8 ("tree " ++ GitSha1.toHex commit.tree ++ "\n"
      ++ String.join (commit.parents.map fun parent => "parent " ++ GitSha1.toHex parent ++ "\n")
      ++ "author " ++ identityText commit.author.toIdentity ++ "\ncommitter "
      ++ identityText commit.committer.toIdentity ++ "\n\n" ++ commit.message)
      = (synthesizeCommit commit).1 := by
    have hauthor : utf8 "author " = utf8 "author" ++ utf8 " " := by rw [← utf8_append]; rfl
    have hcommitter : utf8 "\ncommitter " = utf8 "\n" ++ (utf8 "committer" ++ utf8 " ") := by
      rw [← utf8_append, ← utf8_append]; rfl
    have hblank : utf8 "\n\n" = utf8 "\n" ++ utf8 "\n" := by rw [← utf8_append]; rfl
    simp only [synthesizeCommit, pushSignatureLine_eq, utf8_append, utf8_join, List.flatMap_map,
      toHex_eq_display, hauthor, hcommitter, hblank, List.append_assoc]
  rw [hashCommit, hpayload, hashObject_eq .commit "commit" rfl]
  rfl

/-- No file is named like a directory with a slash behind its name. -/
def NoSlashClash (entries : List GitTreeEntry) : Prop :=
  ∀ d ∈ entries, d.isDir = true → ∀ e ∈ entries, e.isDir = false → e.name ≠ d.name ++ "/"

theorem distinctKeys {entries : List GitTreeEntry}
    (hnames : (entries.map GitTreeEntry.name).Nodup) (hclash : NoSlashClash entries) :
    DistinctKeys entries := by
  have hslash (name : String) : utf8 (name ++ "/") = utf8 name ++ [slash] := by
    have hchar : utf8 "/" = [slash] := by
      rw [utf8_eq]
      rfl
    rw [utf8_append, hchar]
  have hname {a b : GitTreeEntry} (ha : a ∈ entries) (hb : b ∈ entries)
      (h : utf8 a.name = utf8 b.name) : a = b :=
    List.inj_on_of_nodup_map hnames ha hb (utf8_injective h)
  intro a ha b hb hkey
  rw [GitTreeEntry.key, GitTreeEntry.key, sortKey, sortKey] at hkey
  cases hda : a.isDir with
  | true =>
      cases hdb : b.isDir with
      | true => exact hname ha hb (by simpa [hda, hdb] using hkey)
      | false =>
          refine absurd (utf8_injective ?_) (hclash a ha hda b hb hdb)
          simpa [hda, hdb, hslash] using hkey.symm
  | false =>
      cases hdb : b.isDir with
      | true =>
          refine absurd (utf8_injective ?_) (hclash b hb hdb a ha hda)
          simpa [hda, hdb, hslash] using hkey
      | false => exact hname ha hb (by simpa [hda, hdb] using hkey)

/-- **The two encoders agree.** Trees are written in the order of the keys, whatever the order of
the entries, and from the bytes of a tree its entries are known. -/
theorem gitEncoders_agree [Sha1] :
    (∀ entries entries' : List GitTreeEntry, (entries.map GitTreeEntry.name).Nodup →
      NoSlashClash entries → entries.Perm entries' →
      hashTree (entries'.map GitTreeEntry.toTuple) = (synthesizeTree entries).swap
      ∧ synthesizeTree entries' = synthesizeTree entries
      ∧ ∃ sorted : List GitTreeEntry, sorted.Perm entries
        ∧ sorted.Pairwise (fun a b => compare a.key b.key = .lt)
        ∧ (synthesizeTree entries).1 = sorted.flatMap entryBytes)
    ∧ (∀ commit : GitCommit,
      hashCommit commit.tree commit.parents commit.author.toIdentity commit.committer.toIdentity
        commit.message = (synthesizeCommit commit).swap)
    ∧ ∀ entries entries' : List GitTreeEntry, (∀ e ∈ entries, e.NoNul) →
      (∀ e ∈ entries', e.NoNul) →
      (synthesizeTree entries).1 = (synthesizeTree entries').1
        ∨ (hashTree (entries.map GitTreeEntry.toTuple)).2
          = (hashTree (entries'.map GitTreeEntry.toTuple)).2 →
      entries.Perm entries' := by
  refine ⟨fun entries entries' hnames hclash hperm => ?_, hashCommit_eq,
    fun entries entries' h h' heq => ?_⟩
  · have hkeys := distinctKeys hnames hclash
    have hkeys' : DistinctKeys entries' := fun a ha b hb =>
      hkeys a (hperm.mem_iff.mpr ha) b (hperm.mem_iff.mpr hb)
    have hsort := List.sortWith_eq_of_perm hkeys.eq_of_cmpKey hperm
    have hbytes := sortWith_cmp hkeys
    have hbytes' := sortWith_cmp hkeys'
    refine ⟨?_, ?_, entries.sortWith cmpKey, List.sortWith_perm _ _, ?_, ?_⟩
    · rw [hashTree_eq, ← hsort, synthesizeTree, hbytes]
      rfl
    · rw [synthesizeTree, synthesizeTree, hbytes, hbytes', hsort]
    · have hnodup : (entries.sortWith cmpKey).Nodup :=
        (List.sortWith_perm _ _).nodup_iff.mpr hnames.of_map
      refine (pairwise_key.and hnodup).imp_of_mem fun {a b} ha hb hab => ?_
      have hne : compare a.key b.key ≠ .eq := fun hcmp => hab.2
        (hkeys.eq_of_cmpKey a ((List.sortWith_perm _ _).mem_iff.mp ha) b
          ((List.sortWith_perm _ _).mem_iff.mp hb) hcmp)
      cases hcmp : compare a.key b.key <;> simp_all
    · rw [synthesizeTree, hbytes]
  · rw [hashTree_eq, hashTree_eq] at heq
    rcases heq with heq | heq
    · exact perm_of_flatMap_entryBytes h h' heq
    · exact perm_of_flatMap_entryBytes h h' heq

/-! ## Names with a slash -/

/-- A digest that is easy to evaluate. -/
@[reducible] def Sha1.sample : Sha1 where
  digest bytes := ⟨List.replicate 19 0 ++ [bytes.foldl (· + ·) 0], rfl⟩

def sampleOid : GitOid := ⟨List.replicate 20 1, rfl⟩

/-- A directory, and a file whose name sorts between its name and its key. -/
theorem gitEncoders_agree_directory :
    let _ := Sha1.sample
    let entries : List GitTreeEntry := [⟨dirMode, "foo", sampleOid⟩, ⟨0o100644, "foo.c", sampleOid⟩]
    hashTree (entries.reverse.map GitTreeEntry.toTuple) = (synthesizeTree entries).swap := by
  intro sha1 entries
  have hclash : NoSlashClash entries := by
    rw [NoSlashClash]
    decide
  exact (gitEncoders_agree.1 entries entries.reverse (by decide) hclash
    entries.reverse_perm.symm).1

/-- A directory, and a file with its name and a slash. -/
theorem slash_name_breaks_agreement :
    let _ := Sha1.sample
    ¬ ∀ entries entries' : List GitTreeEntry, (entries.map GitTreeEntry.name).Nodup →
      entries.Perm entries' →
      hashTree (entries'.map GitTreeEntry.toTuple) = (synthesizeTree entries).swap := by
  intro sha1 hall
  let entries : List GitTreeEntry := [⟨dirMode, "a", sampleOid⟩, ⟨0o100644, "a/", sampleOid⟩]
  have heq := hall entries entries.reverse (by decide) entries.reverse_perm.symm
  exact absurd (congrArg Prod.snd heq) (by decide +kernel)

end ArcVcs.Git
