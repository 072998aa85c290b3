import ArcVcs.GitPack

/-!
# The index of a pack

The second version of the index has the sorted ids of the objects with a fanout by their first
bytes, and for each of them the offset in the pack. An offset of more than 31 bits stands in a table
apart. What is found through an index that is in order is what the index records.
-/

namespace ArcVcs.GitIngress

open Git (GitOid)
open CommitGraphIndex (firstByte key search_oids)

/-! ## Reading an index -/

/-- `b"\xfftOc"`. -/
def packIndexMagic : Bytes := [0xff, 0x74, 0x4f, 0x63]

def fanout (idx : Bytes) (i : ℕ) : Except GitFault ℕ :=
  readU32BeAt idx (8 + i * 4) "pack index fanout"

/-- The position of the first id with a first byte. -/
def fanoutBelow (idx : Bytes) (fb : ℕ) : Except GitFault ℕ :=
  if fb = 0 then .ok 0 else fanout idx (fb - 1)

def oidTable : ℕ := 1032

/-- The middle of two positions, where the table has an entry. -/
def entryMiddle (idx : Bytes) (l r : ℕ) : Except GitFault ℕ :=
  let m := l + (r - l) / 2
  let start := oidTable + m * 20
  match slice idx start (start + 20) with
  | none => .error (.error "pack idx oid table entry out of bounds")
  | some _ => .ok m

def compareEntry (idx : Bytes) (oid : GitOid) (m : ℕ) : Option Ordering :=
  let start := oidTable + m * 20
  (slice idx start (start + 20)).map fun entry => cmp (key oid) (entry.map UInt8.toNat)

/-- The search in the table of the ids. -/
def findEntry (idx : Bytes) (oid : GitOid) (lo hi : ℕ) : Except GitFault ℕ := do
  let found ← BinarySearch.search (entryMiddle idx) (compareEntry idx oid) (hi - lo) lo hi
  match found with
  | none => .error (.error "OID not in this pack")
  | some m => .ok m

/-- The offset in the pack. The number of the entries has 32 bits, so nothing overflows. -/
def packOffset (idx : Bytes) (oid : GitOid) : Except GitFault ℕ :=
  if idx.length < 1032 ∨ idx.take 4 ≠ packIndexMagic then
    .error (.error "unsupported pack index format")
  else do
    let ver ← readU32BeAt idx 4 "pack index version"
    if ver ≠ 2 then
      .error (.error ("pack index v" ++ toString ver ++ " not supported (only v2)"))
    else do
      let total ← fanout idx 255
      let fb := firstByte oid
      let lo ← fanoutBelow idx fb
      let hi ← fanout idx fb
      if hi < lo ∨ total < hi then
        .error (.error ("invalid fanout range [" ++ toString lo ++ ", " ++ toString hi
          ++ ") for total " ++ toString total))
      else
        let crcTable := oidTable + total * 20
        let offTable := crcTable + total * 4
        let bigTable := offTable + total * 4
        if idx.length < bigTable then .error (.error "pack idx tables exceed file length")
        else do
          let idxPos ← findEntry idx oid lo hi
          let rawOff ← readU32BeAt idx (offTable + idxPos * 4) "pack idx 32-bit offset"
          if rawOff &&& 0x80000000 ≠ 0 then
            let bigIdx := rawOff &&& 0x7FFFFFFF
            readU64BeAt idx (bigTable + bigIdx * 8) "pack idx 64-bit offset"
          else .ok rawOff

def lookupInPack [Zlib] (dir : ObjectDir) (idx pack : Bytes) (oid : GitOid) :
    Except GitFault RawObj := do
  let offset ← packOffset idx oid
  readPackEntry dir pack offset

/-! ## Indices that are in order -/

/-- The number stands at the offset. -/
def HasUint (width : ℕ) (buf : Bytes) (offset n : ℕ) : Prop :=
  ∃ bytes, slice buf offset (offset + width) = some bytes ∧ fromBeBytes bytes = n

theorem HasUint.read {width offset n : ℕ} {buf : Bytes} (h : HasUint width buf offset n)
    (what : String) : readUintBeAt width buf offset what = .ok n := by
  obtain ⟨bytes, hslice, rfl⟩ := h
  rw [readUintBeAt, hslice]

theorem hasUint_unique {width offset n n' : ℕ} {buf : Bytes} (h : HasUint width buf offset n)
    (h' : HasUint width buf offset n') : n = n' := by
  obtain ⟨bytes, hslice, rfl⟩ := h
  obtain ⟨bytes', hslice', rfl⟩ := h'
  rw [hslice] at hslice'
  rw [Option.some_inj.mp hslice']

theorem hasUint_of_read {width offset n : ℕ} {buf : Bytes} {what : String}
    (h : readUintBeAt width buf offset what = .ok n) : HasUint width buf offset n := by
  unfold readUintBeAt at h
  cases hslice : slice buf offset (offset + width) with
  | none => simp [hslice] at h
  | some bytes =>
      rw [hslice] at h
      exact ⟨bytes, hslice, Except.ok.inj h⟩

theorem HasUint.le_length {width offset n : ℕ} {buf : Bytes} (h : HasUint width buf offset n) :
    offset + width ≤ buf.length := by
  obtain ⟨bytes, hslice, -⟩ := h
  exact (CommitGraphIndex.slice_eq_some hslice).2.1

theorem hasUint_of_le {width offset : ℕ} {buf : Bytes} (h : offset + width ≤ buf.length) :
    ∃ n, HasUint width buf offset n :=
  ⟨_, _, if_pos ⟨Nat.le_add_right _ _, h⟩, rfl⟩

theorem readUintBeAt_ne_panic (width : ℕ) (buf : Bytes) (offset : ℕ) (what : String) :
    readUintBeAt width buf offset what ≠ .error .panic := by
  unfold readUintBeAt
  split <;> simp

/-- The index lists the objects with their offsets. A word with its highest bit set is a position in
the table of long offsets. -/
structure ListsObjects (idx : Bytes) (oids : List GitOid) (offsets : List ℕ) : Prop where
  small : oids.length < 2 ^ 31
  sorted : oids.Pairwise fun oid oid' => key oid < key oid'
  magic : idx.take 4 = packIndexMagic
  version : HasUint 4 idx 4 2
  fan : ∀ byte < 256, HasUint 4 idx (8 + byte * 4) (oids.countP fun oid => firstByte oid ≤ byte)
  table : ∀ i oid, oids[i]? = some oid →
    slice idx (oidTable + i * 20) (oidTable + i * 20 + 20) = some oid.bytes
  length : oidTable + oids.length * 28 ≤ idx.length
  offsets_length : offsets.length = oids.length
  offsets : ∀ i offset, offsets[i]? = some offset →
    (offset < 2 ^ 31 ∧ HasUint 4 idx (oidTable + oids.length * 24 + i * 4) offset)
      ∨ ∃ j < 2 ^ 31, HasUint 4 idx (oidTable + oids.length * 24 + i * 4) (2 ^ 31 + j)
        ∧ HasUint 8 idx (oidTable + oids.length * 28 + j * 8) offset

variable {idx : Bytes} {oids : List GitOid} {offsets : List ℕ} {oid : GitOid}

theorem countP_firstByte_le (oids : List GitOid) :
    oids.countP (fun oid => firstByte oid ≤ 255) = oids.length := by
  rw [List.countP_eq_length]
  intro oid _
  have hlt := CommitGraphIndex.firstByte_lt oid
  simp only [decide_eq_true_eq]
  omega

theorem ListsObjects.search (h : ListsObjects idx oids offsets) (oid : GitOid) :
    let fan byte := oids.countP fun oid => firstByte oid ≤ byte
    let lo := if firstByte oid = 0 then 0 else fan (firstByte oid - 1)
    ∃ found, BinarySearch.search (entryMiddle idx) (compareEntry idx oid)
        (fan (firstByte oid) - lo) lo (fan (firstByte oid)) = .ok found
      ∧ ∀ i, found = some i ↔ oids[i]? = some oid := by
  refine search_oids h.sorted (fun _ _ => rfl) (fun l u hlu hu => ?_) fun mid midOid hget => ?_
  · have hlt : l + (u - l) / 2 < oids.length := by omega
    refine ⟨l + (u - l) / 2, ?_, by omega, by omega⟩
    rw [entryMiddle, h.table _ _ (List.getElem?_eq_getElem hlt)]
  · rw [compareEntry, h.table _ _ hget]
    rfl

theorem ListsObjects.packOffset_eq (h : ListsObjects idx oids offsets) (oid : GitOid) :
    let fan byte := oids.countP fun oid => firstByte oid ≤ byte
    packOffset idx oid = (do
      let idxPos ← findEntry idx oid (if firstByte oid = 0 then 0 else fan (firstByte oid - 1))
        (fan (firstByte oid))
      let rawOff ← readU32BeAt idx (oidTable + oids.length * 24 + idxPos * 4)
        "pack idx 32-bit offset"
      if rawOff &&& 0x80000000 ≠ 0 then
        readU64BeAt idx (oidTable + oids.length * 28 + (rawOff &&& 0x7FFFFFFF) * 8)
          "pack idx 64-bit offset"
      else .ok rawOff) := by
  intro fan
  have hfan {byte : ℕ} (hbyte : byte < 256) : fanout idx byte = .ok (fan byte) :=
    (h.fan byte hbyte).read _
  have hbyte := CommitGraphIndex.firstByte_lt oid
  have hlo : fanoutBelow idx (firstByte oid)
      = .ok (if firstByte oid = 0 then 0 else fan (firstByte oid - 1)) := by
    rw [fanoutBelow]
    split_ifs
    · rfl
    · exact hfan (by omega)
  have htotal : fan 255 = oids.length := countP_firstByte_le oids
  have hmono {byte byte' : ℕ} (hle : byte ≤ byte') : fan byte ≤ fan byte' :=
    List.countP_mono_left fun oid _ hoid => by simp at hoid ⊢; omega
  have hrange : ¬ (fan (firstByte oid) < (if firstByte oid = 0 then 0 else fan (firstByte oid - 1))
      ∨ fan 255 < fan (firstByte oid)) := by
    rw [not_or, not_lt, not_lt]
    refine ⟨?_, hmono (by omega)⟩
    split_ifs
    · exact Nat.zero_le _
    · exact hmono (by omega)
  have hlength := h.length
  have hheader : ¬ (idx.length < 1032 ∨ idx.take 4 ≠ packIndexMagic) := by
    rw [not_or, not_not]
    exact ⟨by rw [oidTable] at hlength; omega, h.magic⟩
  have hversion : readU32BeAt idx 4 "pack index version" = .ok 2 := h.version.read _
  rw [packOffset, if_neg hheader, hversion]
  dsimp only [bind, Except.bind]
  rw [if_neg (not_not.mpr rfl), hfan (by decide)]
  dsimp only
  rw [hlo]
  dsimp only
  rw [hfan hbyte]
  dsimp only
  rw [if_neg hrange, htotal, if_neg (by omega)]
  have hoff : oidTable + oids.length * 20 + oids.length * 4 = oidTable + oids.length * 24 := by
    omega
  have hbig : oidTable + oids.length * 20 + oids.length * 4 + oids.length * 4
      = oidTable + oids.length * 28 := by omega
  rw [hbig, hoff]

theorem ListsObjects.packOffset_of_mem (h : ListsObjects idx oids offsets) {i offset : ℕ}
    (hget : oids[i]? = some oid) (hoffset : offsets[i]? = some offset) :
    packOffset idx oid = .ok offset := by
  obtain ⟨found, hfound, hiff⟩ := h.search oid
  rw [h.packOffset_eq oid, findEntry, hfound, (hiff i).mpr hget]
  dsimp only [bind, Except.bind]
  rcases h.offsets i offset hoffset with ⟨hsmall, hword⟩ | ⟨j, hj, hword, hlong⟩
  · rw [readU32BeAt, hword.read]
    dsimp only
    have hbit : offset &&& 0x80000000 = 0 := by
      rw [show 0x80000000 = 2 ^ 31 from rfl, Nat.and_two_pow, Nat.testBit_lt_two_pow hsmall]
      rfl
    rw [if_neg (not_not.mpr hbit)]
  · rw [readU32BeAt, hword.read]
    dsimp only
    have hbit : (2 ^ 31 + j) &&& 0x80000000 ≠ 0 := by
      rw [show 0x80000000 = 2 ^ 31 from rfl, Nat.and_two_pow, Nat.testBit_two_pow_add_eq,
        Nat.testBit_lt_two_pow hj]
      decide
    have hlow : (2 ^ 31 + j) &&& 0x7FFFFFFF = j := by
      rw [show 0x7FFFFFFF = 2 ^ 31 - 1 from rfl, Nat.and_two_pow_sub_one_eq_mod,
        Nat.add_mod_left, Nat.mod_eq_of_lt hj]
    rw [if_pos hbit, hlow]
    exact hlong.read _

theorem ListsObjects.packOffset_of_notMem (h : ListsObjects idx oids offsets) (hmem : oid ∉ oids) :
    packOffset idx oid = .error (.error "OID not in this pack") := by
  obtain ⟨found, hfound, hiff⟩ := h.search oid
  have hnone : found = none := by
    cases found with
    | none => rfl
    | some i => exact absurd (List.mem_of_getElem? ((hiff i).mp rfl)) hmem
  rw [h.packOffset_eq oid, findEntry, hfound, hnone]
  rfl

/-- **Lookups are exact**, in the index of a pack and in the commit graph. -/
theorem lookups_exact [Zlib] :
    (∀ (dir : ObjectDir) (idx pack : Bytes) (oids : List GitOid) (offsets : List ℕ),
      ListsObjects idx oids offsets →
      (∀ (i : ℕ) (oid : GitOid) (offset : ℕ), oids[i]? = some oid → offsets[i]? = some offset →
        lookupInPack dir idx pack oid = readPackEntry dir pack offset)
      ∧ ∀ oid ∉ oids, lookupInPack dir idx pack oid = .error (.error "OID not in this pack"))
    ∧ ∀ (data : Bytes) (index : CommitGraphIndex) (oids : List GitOid),
      CommitGraphIndex.fromMmap data = .ok index → index.Lists oids →
      (∀ (i : ℕ) (oid : GitOid), oids[i]? = some oid →
        index.lookupPosition oid = .ok (some i))
      ∧ ∀ oid ∉ oids, index.lookupPosition oid = .ok none := by
  refine ⟨fun dir idx pack oids offsets h => ⟨fun i oid offset hget hoffset => ?_,
    fun oid hmem => ?_⟩, fun data index oids hopen h => ⟨fun i oid hget => ?_, fun oid hmem => ?_⟩⟩
  · rw [lookupInPack, h.packOffset_of_mem hget hoffset]
    rfl
  · rw [lookupInPack, h.packOffset_of_notMem hmem]
    rfl
  · exact h.lookupPosition_of_mem (CommitGraphIndex.checked_fromMmap hopen) hget
  · exact h.lookupPosition_of_notMem (CommitGraphIndex.checked_fromMmap hopen) hmem

/-! ## Two objects -/

theorem hasUint_of_readFan {data : Bytes} {n offset : ℕ} {words : List ℕ}
    (h : CommitGraphIndex.readFan data n offset = .ok words) {i word : ℕ}
    (hget : words[i]? = some word) : HasUint 4 data (offset + i * 4) word := by
  induction n generalizing offset words i with
  | zero =>
      obtain rfl := Except.ok.inj h
      cases hget
  | succ n ih =>
      obtain ⟨slot, hslot, hrun⟩ := Except.bind_eq_ok_iff.mp h
      obtain ⟨rest, hrest, hrun⟩ := Except.bind_eq_ok_iff.mp hrun
      obtain rfl := Except.ok.inj hrun
      cases i with
      | zero =>
          obtain rfl : slot = word := Option.some_inj.mp hget
          obtain ⟨hlength, hvalue⟩ := CommitGraphIndex.readUintBeAt_eq_ok hslot
          refine ⟨(data.drop offset).take 4, ?_, hvalue.symm⟩
          rw [Nat.zero_mul, Nat.add_zero, slice, if_pos ⟨Nat.le_add_right _ _, hlength⟩,
            Nat.add_sub_cancel_left]
      | succ i =>
          have hword := ih hrest hget
          rwa [show offset + (i + 1) * 4 = offset + 4 + i * 4 by omega]

def twoOids : List GitOid := [oidWith 0, ⟨255 :: List.replicate 19 0, rfl⟩]

def twoWords : List ℕ := List.replicate 255 1 ++ [2]

/-- What is behind the fanout. The second offset has more than 31 bits. -/
def twoTables : Bytes :=
  twoOids.flatMap GitOid.bytes ++ List.replicate 8 0
    ++ [0, 0, 0, 12, 128, 0, 0, 0] ++ [0, 0, 0, 1, 0, 0, 0, 0] ++ List.replicate 40 0

def twoObjects : Bytes :=
  (packIndexMagic ++ [0, 0, 0, 2]) ++ twoWords.flatMap (fun n => [0, 0, 0, UInt8.ofNat n])
    ++ twoTables

theorem slice_twoTables {start stop : ℕ} {bytes : Bytes}
    (h : slice twoTables start stop = some bytes) :
    slice twoObjects (oidTable + start) (oidTable + stop) = some bytes := by
  have hfront : ((packIndexMagic ++ [0, 0, 0, 2])
      ++ twoWords.flatMap fun n => [0, 0, 0, UInt8.ofNat n]).length = oidTable := by
    rw [List.length_append, List.length_flatMap, twoWords, List.map_append, List.map_replicate,
      List.sum_append, List.sum_replicate]
    rfl
  rw [twoObjects, ← hfront, slice_append_right]
  exact h

theorem listsObjects_twoObjects : ListsObjects twoObjects twoOids [12, 2 ^ 32] where
  small := by decide
  sorted := by decide
  magic := by
    rw [twoObjects, List.append_assoc, List.append_assoc]
    rfl
  version := by
    refine ⟨[0, 0, 0, 2], ?_, rfl⟩
    rw [twoObjects, List.append_assoc, slice_append_left (by decide)]
    rfl
  fan byte hbyte := by
    have henc : ∀ n ∈ twoWords, [0, 0, 0, UInt8.ofNat n].length = 4
        ∧ fromBeBytes [0, 0, 0, UInt8.ofNat n] = n := by
      intro n hn
      rcases List.mem_append.mp hn with hn | hn
      · rw [List.eq_of_mem_replicate hn]
        decide
      · rw [List.mem_singleton.mp hn]
        decide
    have hfan := @CommitGraphIndex.readFan_append (packIndexMagic ++ [0, 0, 0, 2]) twoTables
      twoWords (fun n => [0, 0, 0, UInt8.ofNat n]) henc
    have hget : twoWords[byte]? = some (twoOids.countP fun oid => firstByte oid ≤ byte) := by
      have hfirst : twoOids.countP (fun oid => firstByte oid ≤ byte)
          = (if 255 ≤ byte then 1 else 0) + 1 := by
        simp only [twoOids, List.countP_cons, List.countP_nil, decide_eq_true_eq, Nat.zero_add]
        rfl
      rw [hfirst, twoWords, List.getElem?_append, List.getElem?_replicate, List.length_replicate]
      split_ifs
      · omega
      · rfl
      · rw [show byte = 255 by omega]
        rfl
      · omega
    exact hasUint_of_readFan hfan hget
  table i oid hget := by
    rcases i with _ | _ | i
    · obtain rfl := Option.some_inj.mp hget
      exact @slice_twoTables 0 20 _ rfl
    · obtain rfl := Option.some_inj.mp hget
      exact @slice_twoTables 20 40 _ rfl
    · cases hget
  length := by
    rw [twoObjects, List.length_append, List.length_append, List.length_flatMap, twoWords,
      List.map_append, List.map_replicate, List.sum_append, List.sum_replicate]
    decide
  offsets_length := rfl
  offsets i offset hget := by
    rcases i with _ | _ | i
    · obtain rfl := Option.some_inj.mp hget
      exact .inl ⟨by decide, _, @slice_twoTables 48 52 _ rfl, rfl⟩
    · obtain rfl := Option.some_inj.mp hget
      exact .inr ⟨0, by decide, ⟨_, @slice_twoTables 52 56 _ rfl, rfl⟩,
        ⟨_, @slice_twoTables 56 64 _ rfl, rfl⟩⟩
    · cases hget

/-- The second object is read at its long offset, and the last commit of a graph is found. -/
theorem lookups_exact_two :
    let _ := GitPack.helloZlib
    lookupInPack octopusDir twoObjects [] ⟨255 :: List.replicate 19 0, rfl⟩
        = readPackEntry octopusDir [] (2 ^ 32)
      ∧ octopusIndex.lookupPosition (oidWith 4) = .ok (some 3) := by
  intro zlib
  exact ⟨(lookups_exact.1 octopusDir twoObjects [] twoOids _ listsObjects_twoObjects).1 1 _ _ rfl
    rfl, (lookups_exact.2 octopusFile octopusIndex octopus fromMmap_octopusFile
      wellFormed_octopus.lists).1 3 _ rfl⟩

end ArcVcs.GitIngress
