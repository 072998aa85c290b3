import ArcVcs.GitImport
import ArcVcs.GitText
import ArcVcs.Lib.Delimited
import ArcVcs.Lib.Encoding

/-!
# The entries of a tree object

`parse_tree` goes through the bytes of a tree: a mode up to the first space, a name up to the first
zero byte, and the twenty bytes of an id, which may hold spaces and zero bytes themselves. It is run
here on the trees of both encoders.
-/

namespace ArcVcs.GitIngress

open Git

/-- An entry with the mode and the id as texts. -/
structure TreeEntry where
  mode : String
  name : String
  oid : String
deriving DecidableEq

structure GitTree where
  entries : List TreeEntry
deriving DecidableEq

/-- The two hexadecimal digits of every byte. -/
def oidText (oid : Bytes) : String := String.ofList (oid.flatMap hex02)

/-- One turn of the loop, which ends it where a part is missing. -/
def treeEntry : Reader UInt8 TreeEntry :=
  (Reader.upTo 32).andThen fun mode => (Reader.upTo 0).andThen fun name =>
    (Reader.take 20).map fun oid => ⟨fromUtf8Lossy mode, fromUtf8Lossy name, oidText oid⟩

def parseTree (rawData : Bytes) : GitTree := ⟨treeEntry.all rawData.length rawData⟩

/-! ## One entry -/

def octalText (n : ℕ) : String := String.ofList (Nat.toDigits 8 n)

theorem utf8_octalText (n : ℕ) : utf8 (octalText n) = octal n := by
  rw [octalText, utf8_ofList, octal, ← List.flatMap_pure_eq_map]
  refine List.flatMap_congr fun c hc => ?_
  have hascii : c.toNat < 128 := (toNat_of_mem_toDigits hc).2.trans_lt (by decide)
  exact Utf8.encode_ascii hascii

def readEntry (e : GitTreeEntry) : TreeEntry := ⟨octalText e.mode.toNat, e.name, e.oid.display⟩

theorem treeEntry_append {e : GitTreeEntry} (h : e.NoNul) (rest : Bytes) :
    treeEntry (entryBytes e ++ rest) = some (readEntry e, rest) := by
  have hspace : utf8 " " = [32] := by
    rw [utf8_eq]
    rfl
  have hbytes : entryBytes e ++ rest
      = octal e.mode.toNat ++ 32 :: (utf8 e.name ++ 0 :: (e.oid.bytes ++ rest)) := by
    simp [entryBytes, hspace]
  have hmode : fromUtf8Lossy (octal e.mode.toNat) = octalText e.mode.toNat := by
    rw [← utf8_octalText, fromUtf8Lossy_utf8]
  have hoid : oidText e.oid.bytes = e.oid.display := toHex_eq_display e.oid
  rw [hbytes, treeEntry, Reader.andThen, Reader.upTo_append_cons (notMem_octal _)]
  dsimp only
  rw [Reader.andThen, Reader.upTo_append_cons h]
  dsimp only
  rw [Reader.map, Reader.take_append e.oid.length_bytes, Option.map_some, hmode,
    fromUtf8Lossy_utf8, hoid]
  rfl

/-- **Entries are read one by one**, and a last one that is cut off is skipped. -/
theorem parseTree_append {entries : List GitTreeEntry} (h : ∀ e ∈ entries, e.NoNul) {tail : Bytes}
    (htail : treeEntry tail = none) :
    parseTree (entries.flatMap entryBytes ++ tail) = ⟨entries.map readEntry⟩ := by
  have hall := Reader.all_flatMap (fun e he => treeEntry_append (h e he))
    (fun e _ => by simp [entryBytes]) htail le_rfl
  rw [parseTree, hall]

/-- A cut-off entry is skipped. -/
example : treeEntry [49, 32, 97, 0, 1, 2, 3] = none := by decide

/-! ## Whole trees -/

/-- The order of git: by the names, where that of a directory ends in a slash. -/
def InGitOrder (entries sorted : List GitTreeEntry) : Prop :=
  sorted.Perm entries ∧ sorted.Pairwise fun a b => (compare a.key b.key).isLE = true

theorem cmp_eq_compareLex : GitTreeEntry.cmp = compareLex (compareOn GitTreeEntry.key)
    (compareLex (compareOn GitTreeEntry.mode) (compareOn fun e => e.oid.bytes)) := by
  funext a b
  rw [GitTreeEntry.cmp, cmpGitTreeSortKey_eq]
  rfl

theorem inGitOrder_cmp (entries : List GitTreeEntry) :
    InGitOrder entries (entries.sortWith GitTreeEntry.cmp) := by
  refine ⟨List.sortWith_perm _ _, ?_⟩
  have htrans : Std.TransCmp GitTreeEntry.cmp := by
    rw [cmp_eq_compareLex]
    infer_instance
  refine (@List.pairwise_sortWith _ _ htrans entries).imp fun {a b} hab => ?_
  rw [GitTreeEntry.cmp, cmpGitTreeSortKey_eq] at hab
  exact (Ordering.isLE_then_iff_and.mp hab).1

theorem inGitOrder_cmpKey (entries : List GitTreeEntry) :
    InGitOrder entries (entries.sortWith cmpKey) :=
  ⟨List.sortWith_perm _ _, pairwise_key⟩

/-- The bytes are read as the entries in the order of git, each one once. -/
def ReadsAs (rawData : Bytes) (entries : List GitTreeEntry) : Prop :=
  ∃ sorted, InGitOrder entries sorted ∧ parseTree rawData = ⟨sorted.map readEntry⟩

theorem InGitOrder.readsAs {entries sorted : List GitTreeEntry} (h : InGitOrder entries sorted)
    (hnul : ∀ e ∈ entries, e.NoNul) : ReadsAs (sorted.flatMap entryBytes) entries := by
  refine ⟨sorted, h, ?_⟩
  have hread := @parseTree_append sorted (fun e he => hnul e (h.1.mem_iff.mp he)) [] rfl
  rwa [List.append_nil] at hread

/-- **What both encoders write is read back.** -/
theorem parseTree_undoes [Sha1] (entries : List GitTreeEntry) (h : ∀ e ∈ entries, e.NoNul) :
    ReadsAs (synthesizeTree entries).1 entries
      ∧ ReadsAs (hashTree (entries.map GitTreeEntry.toTuple)).2 entries := by
  refine ⟨(inGitOrder_cmp entries).readsAs h, ?_⟩
  rw [hashTree_eq]
  exact (inGitOrder_cmpKey entries).readsAs h

/-- A name with a space, and ids that are all spaces and all zero bytes. -/
theorem parseTree_undoes_spaces :
    let _ := Sha1.sample
    let entries : List GitTreeEntry :=
      [⟨0o100644, "a b", ⟨List.replicate 20 32, rfl⟩⟩, ⟨dirMode, "a", ⟨List.replicate 20 0, rfl⟩⟩]
    ReadsAs (synthesizeTree entries).1 entries
      ∧ ReadsAs (hashTree (entries.map GitTreeEntry.toTuple)).2 entries := by
  intro sha1 entries
  refine parseTree_undoes entries ?_
  simp only [entries, GitTreeEntry.NoNul, utf8_eq]
  decide

end ArcVcs.GitIngress
