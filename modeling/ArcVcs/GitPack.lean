import ArcVcs.CommitGraphWalk
import ArcVcs.Lib.Reader
import ArcVcs.Lib.Varint

/-!
# Packs

`arc-git-bridge` writes packs of whole objects, and `arc-git` reads single entries of any pack, also
those that are deltas on another object. The two agree on the size header and on the data behind it.
-/

namespace ArcVcs

open Git (GitObjectKind GitOid Sha1)
open GitIngress (GitFault ObjectDir RawObj)

/-- The compression library. -/
class Zlib where
  compress : Bytes → Bytes
  decompress : Bytes → Except GitFault Bytes

/-- A slice of bytes. Its length is a `usize`. -/
structure Slice where
  bytes : Bytes
  length_lt : bytes.length < 2 ^ 64

/-! ## The writer -/

namespace GitPack

def gitObjectCommit : UInt8 := 1

def gitObjectTree : UInt8 := 2

def gitObjectBlob : UInt8 := 3

/-- The loop of `write_object_header`. -/
def headerGroups (remaining : ℕ) : Bytes :=
  if remaining = 0 then []
  else
    let next := UInt8.ofNat (remaining &&& 0x7F)
    (if remaining >>> 7 > 0 then next ||| 0x80 else next) :: headerGroups (remaining >>> 7)
termination_by remaining
decreasing_by
  rw [Nat.shiftRight_eq_div_pow]
  omega

def objectHeader (objType : UInt8) (size : ℕ) : Bytes :=
  let remaining := size >>> 4
  let first := ((objType &&& 0x07) <<< 4) ||| UInt8.ofNat (size &&& 0x0F)
  (if remaining > 0 then first ||| 0x80 else first) :: headerGroups remaining

def packHeader (count : ℕ) : Bytes :=
  utf8 "PACK" ++ Nat.toBigEndian 4 2 ++ Nat.toBigEndian 4 count

variable [Zlib]

/-- One round of the loop over the objects. -/
def writeEntry (out : Bytes) (object : UInt8 × Slice) : Bytes :=
  out ++ objectHeader object.1 object.2.bytes.length ++ Zlib.compress object.2.bytes

/-- What is written before the checksum. -/
def packBody (objects : List (UInt8 × Slice)) : Bytes :=
  objects.foldl writeEntry (packHeader objects.length)

def encodePackfile [Sha1] (objects : List (UInt8 × Slice)) : Bytes :=
  packBody objects ++ (Sha1.digest (packBody objects)).bytes

/-- The length of the output when the loop comes to an object. -/
def entryOffset (objects : List (UInt8 × Slice)) (k : ℕ) : ℕ :=
  ((objects.take k).foldl writeEntry (packHeader objects.length)).length

end GitPack

/-! ## The reader -/

namespace GitIngress

def typeToKind (t : UInt8) : Except GitFault GitObjectKind :=
  if t = 1 then .ok .commit
  else if t = 2 then .ok .tree
  else if t = 3 then .ok .blob
  else if t = 4 then .ok .tag
  else .error (.error ("invalid pack type " ++ toString t.toNat))

/-- The type, the size and the position of the data. -/
def parsePackHeader (pack : Bytes) (pos : ℕ) : Except GitFault (UInt8 × ℕ × ℕ) :=
  match pack.drop pos with
  | [] => .error (.error "truncated pack header")
  | b :: rest =>
      let objType := (b >>> 4) &&& 0x07
      let size := (b &&& 0x0F).toNat
      if b &&& 0x80 = 0 then .ok (objType, size, pos + 1)
      else do
        let (size, pos) ← Varint.decodeFrom 64 (.error "truncated pack header") .panic (pos + 1)
          size 4 rest
        .ok (objType, size, pos)

/-- The loop of `parse_ofs_delta_header`. The increment can overflow. -/
def ofsDeltaGroups : (off pos : ℕ) → Bytes → Except GitFault (ℕ × ℕ)
  | _, _, [] => .error (.error "truncated OFS_DELTA offset")
  | off, pos, c :: rest =>
      if off + 1 = 2 ^ 64 then .error .panic
      else
        let off := ((off + 1) <<< 7) % 2 ^ 64 ||| (c &&& 0x7F).toNat
        if c &&& 0x80 = 0 then .ok (off, pos + 1) else ofsDeltaGroups off (pos + 1) rest

def parseOfsDeltaHeader (pack : Bytes) (pos : ℕ) : Except GitFault (ℕ × ℕ) :=
  match pack.drop pos with
  | [] => .error (.error "truncated OFS_DELTA offset")
  | b :: rest =>
      let off := (b &&& 0x7F).toNat
      if b &&& 0x80 = 0 then .ok (off, pos + 1) else ofsDeltaGroups off (pos + 1) rest

/-- The bytes of a field of a copy instruction, of which only those with their bit set are there. -/
def copyField (cmd : UInt8) (bit : ℕ) : List ℕ → ℕ → Bytes → Except GitFault (ℕ × Bytes)
  | [], val, delta => .ok (val, delta)
  | i :: is, val, delta =>
      if cmd &&& UInt8.ofNat (1 <<< (bit + i)) = 0 then copyField cmd bit is val delta
      else
        match delta with
        | [] => .error .panic
        | b :: delta => copyField cmd bit is (val ||| b.toNat <<< (8 * i)) delta

/-- The loop over the instructions. Each takes a byte at least. -/
def applyInstructions (base : Bytes) : ℕ → Bytes → Bytes → Except GitFault Bytes
  | _, [], out => .ok out
  | 0, _ :: _, out => .ok out
  | fuel + 1, cmd :: delta, out =>
      if cmd &&& 0x80 ≠ 0 then do
        let (cpOff, delta) ← copyField cmd 0 [0, 1, 2, 3] 0 delta
        let (cpLen, delta) ← copyField cmd 4 [0, 1, 2] 0 delta
        let cpLen := if cpLen = 0 then 0x10000 else cpLen
        if cpOff + cpLen ≤ base.length then
          applyInstructions base fuel delta (out ++ (base.drop cpOff).take cpLen)
        else .error (.error "delta copy out of bounds")
      else if cmd ≠ 0 then
        if cmd.toNat ≤ delta.length then
          applyInstructions base fuel (delta.drop cmd.toNat) (out ++ delta.take cmd.toNat)
        else .error (.error "delta insert out of bounds")
      else .error (.error "reserved zero delta opcode")

def readVarintLe (buf : Bytes) (pos : ℕ) : Except GitFault (ℕ × ℕ) :=
  Varint.decodeFrom 64 (.error "truncated varint") .panic pos 0 0 (buf.drop pos)

/-- No vector of bytes has a capacity of `2 ^ 63` or more. -/
def applyDelta (base delta : Bytes) : Except GitFault Bytes := do
  let (srcLen, pos) ← readVarintLe delta 0
  let (tgtLen, pos) ← readVarintLe delta pos
  if srcLen ≠ base.length then
    .error (.error ("delta source size mismatch: header says " ++ toString srcLen ++ ", base is "
      ++ toString base.length))
  else if 2 ^ 63 ≤ tgtLen then .error .panic
  else do
    let out ← applyInstructions base delta.length (delta.drop pos) []
    if out.length ≠ tgtLen then
      .error (.error ("delta target size mismatch: expected " ++ toString tgtLen ++ ", got "
        ++ toString out.length))
    else .ok out

variable [Zlib]

/-- An entry that is not a delta. -/
def readWhole (objType : UInt8) (stream : Bytes) : Except GitFault RawObj := do
  let data ← Zlib.decompress stream
  let kind ← typeToKind objType
  .ok ⟨kind, data⟩

/-- A delta, when its base has been read. -/
def resolveDelta (stream : Bytes) (base : RawObj) : Except GitFault RawObj := do
  let delta ← Zlib.decompress stream
  let data ← applyDelta base.data delta
  .ok ⟨base.kind, data⟩

/-- `read_pack_entry`. An entry that is its own base is read without end, until the stack is
full. -/
def readPackEntry (dir : ObjectDir) (pack : Bytes) (offset : ℕ) : Except GitFault RawObj :=
  match parsePackHeader pack offset with
  | .error fault => .error fault
  | .ok (objType, _, dataPos) =>
      if 1 ≤ objType ∧ objType ≤ 4 then readWhole objType (pack.drop dataPos)
      else if objType = 6 then
        match parseOfsDeltaHeader pack dataPos with
        | .error fault => .error fault
        | .ok (negOff, deltaPos) =>
            if offset < negOff then .error (.error "OFS_DELTA: base offset underflow")
            else if negOff = 0 then .error .panic
            else (readPackEntry dir pack (offset - negOff)).bind (resolveDelta (pack.drop deltaPos))
      else if objType = 7 then
        match GitOid.ofBytes? ((pack.drop dataPos).take 20) with
        | none => .error (.error "REF_DELTA: truncated base OID")
        | some baseOid =>
            (dir.readObject baseOid).bind (resolveDelta (pack.drop (dataPos + 20)))
      else .error (.error ("unknown pack object type " ++ toString objType.toNat))
termination_by offset

end GitIngress

namespace GitPack

open GitIngress (parsePackHeader readPackEntry readWhole typeToKind)

/-! ## The size header -/

theorem headerGroups_eq (remaining : ℕ) :
    headerGroups remaining = if remaining = 0 then [] else Varint.encode remaining := by
  induction remaining using Nat.strongRecOn with
  | ind remaining ih =>
      have hmask : remaining &&& 0x7F = remaining % 128 :=
        Nat.and_two_pow_sub_one_eq_mod remaining 7
      have hshift : remaining >>> 7 = remaining / 128 := Nat.shiftRight_eq_div_pow remaining 7
      by_cases hzero : remaining = 0
      · rw [headerGroups, if_pos hzero, if_pos hzero]
      have hencode : Varint.encode remaining = if remaining < 128 then [UInt8.ofNat remaining]
          else (UInt8.ofNat (remaining % 128) ||| 0x80) :: Varint.encode (remaining / 128) := by
        rw [Varint.encode]
      rw [headerGroups, if_neg hzero, if_neg hzero, hmask, hshift, ih (remaining / 128) (by omega),
        hencode]
      dsimp only
      by_cases hsmall : remaining < 128
      · have hlast : remaining / 128 = 0 := Nat.div_eq_of_lt hsmall
        rw [if_pos hsmall, if_pos hlast, if_neg (by omega), Nat.mod_eq_of_lt hsmall]
      · have hmore : 0 < remaining / 128 := by omega
        rw [if_neg hsmall, if_neg hmore.ne', if_pos hmore]

theorem first_spec : ∀ t < 8, ∀ x < 16,
    let b := ((UInt8.ofNat t &&& 0x07) <<< 4) ||| UInt8.ofNat x
    ((b >>> 4) &&& 0x07 = UInt8.ofNat t ∧ (b &&& 0x0F).toNat = x ∧ b &&& 0x80 = 0)
      ∧ ((b ||| 0x80) >>> 4) &&& 0x07 = UInt8.ofNat t ∧ ((b ||| 0x80) &&& 0x0F).toNat = x
      ∧ (b ||| 0x80) &&& 0x80 ≠ 0 := by
  decide +kernel

/-- **The header is read as it was written**, for every size that fits. -/
theorem parsePackHeader_append {objType : UInt8} (htype : objType < 8) {size : ℕ}
    (hsize : size < 2 ^ 64) (out rest : Bytes) :
    parsePackHeader (out ++ (objectHeader objType size ++ rest)) out.length
      = .ok (objType, size, out.length + (objectHeader objType size).length) := by
  have hmask : size &&& 0x0F = size % 16 := Nat.and_two_pow_sub_one_eq_mod size 4
  have hshift : size >>> 4 = size / 16 := Nat.shiftRight_eq_div_pow size 4
  have hspec := first_spec objType.toNat htype (size % 16) (by omega)
  rw [UInt8.ofNat_toNat] at hspec
  obtain ⟨⟨htop, hlow, hbit⟩, htop', hlow', hbit'⟩ := hspec
  rw [parsePackHeader, List.drop_left, objectHeader, hmask, hshift, headerGroups_eq]
  dsimp only
  by_cases hsmall : size / 16 = 0
  · rw [if_neg (by omega), if_pos hsmall, List.cons_append]
    dsimp only
    rw [if_pos hbit, htop, hlow, Nat.mod_eq_of_lt (by omega)]
    rfl
  · rw [if_pos (by omega), if_neg hsmall, List.cons_append]
    dsimp only
    rw [if_neg hbit', htop', hlow', Varint.decodeFrom_encode (by omega) (by decide) (by omega)]
    dsimp only [bind, Except.bind]
    rw [List.length_cons]
    congr 3
    · omega
    · omega

/-! ## The entries -/

theorem typeToKind_spec {objType : UInt8}
    (h : objType ∈ [gitObjectCommit, gitObjectTree, gitObjectBlob]) :
    objType < 8 ∧ (1 ≤ objType ∧ objType ≤ 4) ∧ ∃ kind, typeToKind objType = .ok kind := by
  simp only [List.mem_cons, List.not_mem_nil, or_false] at h
  rcases h with rfl | rfl | rfl
  · exact ⟨by decide, by decide, _, rfl⟩
  · exact ⟨by decide, by decide, _, rfl⟩
  · exact ⟨by decide, by decide, _, rfl⟩

section Entries

variable [Zlib]

def entryBytes (object : UInt8 × Slice) : Bytes :=
  objectHeader object.1 object.2.bytes.length ++ Zlib.compress object.2.bytes

theorem foldl_writeEntry (out : Bytes) (objects : List (UInt8 × Slice)) :
    objects.foldl writeEntry out = out ++ objects.flatMap entryBytes := by
  induction objects generalizing out with
  | nil => rw [List.foldl_nil, List.flatMap_nil, List.append_nil]
  | cons object objects ih =>
      rw [List.foldl_cons, ih, List.flatMap_cons, writeEntry, entryBytes, List.append_assoc,
        List.append_assoc, List.append_assoc]

theorem encodePackfile_eq [Sha1] {objects : List (UInt8 × Slice)} {k : ℕ}
    {object : UInt8 × Slice} (hk : objects[k]? = some object) :
    ∃ out rest, out.length = entryOffset objects k ∧ encodePackfile objects
      = out ++ (objectHeader object.1 object.2.bytes.length
        ++ (Zlib.compress object.2.bytes ++ rest)) := by
  obtain ⟨hlt, rfl⟩ := List.getElem?_eq_some_iff.mp hk
  refine ⟨_, (objects.drop (k + 1)).flatMap entryBytes
    ++ (Sha1.digest (packBody objects)).bytes, rfl, ?_⟩
  have hsplit : objects = objects.take k ++ objects[k] :: objects.drop (k + 1) := by
    rw [← List.drop_eq_getElem_cons hlt, List.take_append_drop]
  have hbody : packBody objects = (objects.take k).foldl writeEntry (packHeader objects.length)
      ++ (entryBytes objects[k] ++ (objects.drop (k + 1)).flatMap entryBytes) := by
    rw [packBody, foldl_writeEntry, foldl_writeEntry, List.append_assoc, ← List.flatMap_cons,
      ← List.flatMap_append, ← hsplit]
  have hchecksum (checksum : Bytes) : packBody objects ++ checksum
      = (objects.take k).foldl writeEntry (packHeader objects.length)
        ++ (objectHeader objects[k].1 objects[k].2.bytes.length
          ++ (Zlib.compress objects[k].2.bytes
            ++ ((objects.drop (k + 1)).flatMap entryBytes ++ checksum))) := by
    rw [hbody, entryBytes]
    simp only [List.append_assoc]
  exact hchecksum _

/-- **Packs read back.** The count is that of the objects, and at the offset where an object was
written its kind and its data are read. The decompressor stops where the compressed data ends. -/
theorem encodePackfile_readsBack [Sha1]
    (hzlib : ∀ data rest : Bytes, Zlib.decompress (Zlib.compress data ++ rest) = .ok data)
    (dir : ObjectDir) (objects : List (UInt8 × Slice)) (hcount : objects.length < 2 ^ 32)
    (htypes : ∀ object ∈ objects,
      object.1 ∈ [gitObjectCommit, gitObjectTree, gitObjectBlob]) :
    Nat.ofBigEndian (((encodePackfile objects).drop 8).take 4) = objects.length
      ∧ ∀ k object, objects[k]? = some object → ∃ kind, typeToKind object.1 = .ok kind
        ∧ readPackEntry dir (encodePackfile objects) (entryOffset objects k)
          = .ok ⟨kind, object.2.bytes⟩ := by
  refine ⟨?_, fun k object hk => ?_⟩
  · have hmagic : (utf8 "PACK" ++ Nat.toBigEndian 4 2).length = 8 := by
      rw [utf8_eq]
      rfl
    rw [encodePackfile, packBody, foldl_writeEntry, packHeader, List.append_assoc,
      List.append_assoc, List.drop_left' hmagic, List.take_left' (Nat.length_toBigEndian 4 _),
      Nat.ofBigEndian_toBigEndian]
    exact Nat.mod_eq_of_lt hcount
  · obtain ⟨htype, hwhole, kind, hkind⟩ :=
      typeToKind_spec (htypes object (List.mem_of_getElem? hk))
    obtain ⟨out, rest, hout, hpack⟩ := encodePackfile_eq hk
    refine ⟨kind, hkind, ?_⟩
    rw [← hout, hpack, readPackEntry, parsePackHeader_append htype object.2.length_lt]
    dsimp only
    rw [if_pos hwhole, ← List.append_assoc, List.drop_left' List.length_append, readWhole, hzlib,
      hkind]
    rfl

end Entries

/-! ## A compressor -/

def hello : Bytes := [104, 101, 108, 108, 111]

def helloStream : Bytes := [120, 156, 203, 72, 205, 201, 201, 7, 0, 6, 44, 2, 21]

def readMarked : Bytes → Option Bytes
  | 0 :: _ => some []
  | 1 :: b :: rest => (readMarked rest).map (b :: ·)
  | _ => none

/-- The stream of the library for `hello`, and marked bytes for all other data. -/
@[reducible] def helloZlib : Zlib where
  compress data := if data = hello then helloStream else data.flatMap (fun b => [1, b]) ++ [0]
  decompress stream :=
    if helloStream <+: stream then .ok hello
    else
      match readMarked stream with
      | some data => .ok data
      | none => .error (.error "corrupt deflate stream")

theorem readMarked_append (data rest : Bytes) :
    readMarked (data.flatMap (fun b => [1, b]) ++ [0] ++ rest) = some data := by
  induction data with
  | nil => rfl
  | cons b data ih =>
      rw [List.flatMap_cons, List.append_assoc, List.append_assoc, List.cons_append,
        List.singleton_append, readMarked, ← List.append_assoc, ih]
      rfl

theorem helloZlib_decompress (data rest : Bytes) :
    helloZlib.decompress (helloZlib.compress data ++ rest) = .ok data := by
  by_cases hdata : data = hello
  · have hcompress : helloZlib.compress data = helloStream := if_pos hdata
    rw [hcompress, hdata]
    exact if_pos (List.prefix_append _ _)
  · have hcompress : helloZlib.compress data = data.flatMap (fun b => [1, b]) ++ [0] := if_neg hdata
    have hstream : ¬ helloStream <+: data.flatMap (fun b => [1, b]) ++ [0] ++ rest := by
      cases data with
      | nil => exact fun h => absurd (List.cons_prefix_cons.mp h).1 (by decide)
      | cons b data => exact fun h => absurd (List.cons_prefix_cons.mp h).1 (by decide)
    rw [hcompress]
    refine (if_neg hstream).trans ?_
    rw [readMarked_append]

def helloObjects : List (UInt8 × Slice) := [(gitObjectBlob, ⟨hello, by decide⟩)]

/-- A pack of one blob. -/
theorem encodePackfile_readsBack_hello :
    @readPackEntry helloZlib GitIngress.octopusDir
      (@encodePackfile helloZlib ⟨fun _ => ⟨List.replicate 20 0, rfl⟩⟩ helloObjects)
      (@entryOffset helloZlib helloObjects 0) = .ok ⟨.blob, hello⟩ := by
  have htypes : ∀ object ∈ helloObjects,
      object.1 ∈ [gitObjectCommit, gitObjectTree, gitObjectBlob] := by decide
  obtain ⟨-, hentries⟩ := @encodePackfile_readsBack helloZlib
    ⟨fun _ => ⟨List.replicate 20 0, rfl⟩⟩ helloZlib_decompress GitIngress.octopusDir helloObjects
    (by decide) htypes
  obtain ⟨kind, hkind, hread⟩ := hentries 0 _ rfl
  cases hkind
  exact hread

end GitPack

end ArcVcs
