import ArcVcs.GitCommitText
import ArcVcs.Lib.BinarySearch

/-!
# The file of the commit graph

A table of the sorted commit ids with a fanout by their first bytes, and for each commit the
positions of its parents. A commit with more than two parents has the others in a list apart.
-/

namespace ArcVcs.GitIngress

open Git (GitOid)

/-! ## Reading the file -/

/-- `get(start..stop)`. -/
def slice (buf : Bytes) (start stop : ℕ) : Option Bytes :=
  if start ≤ stop ∧ stop ≤ buf.length then some ((buf.drop start).take (stop - start)) else none

theorem slice_append_right (front back : Bytes) (start stop : ℕ) :
    slice (front ++ back) (front.length + start) (front.length + stop) = slice back start stop := by
  unfold slice
  rw [List.length_append, List.drop_append, List.drop_eq_nil_of_le (by omega), List.nil_append,
    Nat.add_sub_cancel_left, Nat.add_sub_add_left]
  simp only [Nat.add_le_add_iff_left]

theorem slice_append_left {front back : Bytes} {start stop : ℕ} (hstop : stop ≤ front.length) :
    slice (front ++ back) start stop = slice front start stop := by
  unfold slice
  by_cases hle : start ≤ stop
  · have hstop' : stop ≤ (front ++ back).length := by
      rw [List.length_append]
      omega
    have htake : stop - start ≤ (front.drop start).length := by
      rw [List.length_drop]
      omega
    rw [if_pos ⟨hle, hstop'⟩, if_pos ⟨hle, hstop⟩, List.drop_append_of_le_length (by omega),
      List.take_append_of_le_length htake]
  · rw [if_neg (fun h => hle h.1), if_neg (fun h => hle h.1)]

def fromBeBytes (bytes : Bytes) : ℕ := bytes.foldl (fun acc b => 256 * acc + b.toNat) 0

def readUintBeAt (width : ℕ) (buf : Bytes) (offset : ℕ) (what : String) : Except GitFault ℕ :=
  match slice buf offset (offset + width) with
  | none => .error (.error ("truncated " ++ what ++ " at offset " ++ toString offset))
  | some bytes => .ok (fromBeBytes bytes)

def readU32BeAt : Bytes → ℕ → String → Except GitFault ℕ := readUintBeAt 4

def readU64BeAt : Bytes → ℕ → String → Except GitFault ℕ := readUintBeAt 8

def readU32From : Bytes → ℕ → String → Except GitFault ℕ := readUintBeAt 4

def ascii (s : String) : Bytes := s.toList.map fun c => c.toNat.toUInt8

def signature : Bytes := ascii "CGPH"

def headerLen : ℕ := 8

def fanLen : ℕ := 256

def commitDataSansHash : ℕ := 16

def noParent : ℕ := 0x70000000

def extendedEdgeMask : ℕ := 0x80000000

/-- `!COMMIT_GRAPH_EXTENDED_EDGE_MASK`. -/
def positionMask : ℕ := 0x7fffffff

structure CommitGraphIndex where
  data : Bytes
  hashLen : ℕ
  fan : List ℕ
  oidLookupOffset : ℕ
  commitDataOffset : ℕ
  edgeChunkRange : Option (ℕ × ℕ)
  commitCount : ℕ
deriving DecidableEq

namespace CommitGraphIndex

/-- The checks of the header, up to the number of the chunks. -/
def readHeader (data : Bytes) : Except GitFault ℕ :=
  if data.length < headerLen then .error (.error "commit-graph is too small")
  else if data.take 4 ≠ signature then .error (.error "commit-graph signature mismatch")
  else if data.getD 4 0 ≠ 1 then
    .error (.error ("unsupported commit-graph version " ++ toString (data.getD 4 0)))
  else if data.getD 5 0 ≠ 1 then
    .error (.error ("unsupported commit-graph hash version " ++ toString (data.getD 5 0)))
  else if data.getD 7 0 ≠ 0 then
    .error (.error ("split commit-graph chains are not supported in arc-git fast path; fallback "
      ++ "required"))
  else if data.getD 6 0 = 0 then .error (.error "commit-graph chunk table is empty")
  else .ok (data.getD 6 0).toNat

/-- The ids and the offsets in the table of contents. -/
def readEntries (data : Bytes) : ℕ → ℕ → Except GitFault (List (Bytes × ℕ))
  | 0, _ => .ok []
  | n + 1, cursor =>
      match slice data cursor (cursor + 4) with
      | none => .error (.error "commit-graph truncated chunk id")
      | some id => do
          let offset ← readU64BeAt data (cursor + 4) "commit-graph chunk offset"
          let entries ← readEntries data n (cursor + 12)
          .ok ((id, offset) :: entries)

/-- The loop over the windows of two entries. -/
def readChunks (len tocEnd : ℕ) :
    List (Bytes × ℕ) → FMap Bytes (ℕ × ℕ) → Except GitFault (FMap Bytes (ℕ × ℕ))
  | (id, start) :: (next, stop) :: entries, chunks =>
      if stop ≤ start then
        .error (.error "commit-graph chunk offsets are not strictly increasing")
      else if start < tocEnd then
        .error (.error "commit-graph chunk overlaps table-of-contents region")
      else if len < stop then .error (.error "commit-graph chunk exceeds file length")
      else if id ∈ chunks.keys then .error (.error "commit-graph contains duplicate chunk id")
      else readChunks len tocEnd ((next, stop) :: entries) (chunks.insert id (start, stop))
  | _, chunks => .ok chunks

def readFan (data : Bytes) : ℕ → ℕ → Except GitFault (List ℕ)
  | 0, _ => .ok []
  | n + 1, offset => do
      let slot ← readU32BeAt data offset "commit-graph fanout"
      let fan ← readFan data n (offset + 4)
      .ok (slot :: fan)

def chunk (chunks : FMap Bytes (ℕ × ℕ)) (id : String) : Except GitFault (ℕ × ℕ) :=
  match chunks.lookup (ascii id) with
  | none => .error (.error ("commit-graph missing " ++ id ++ " chunk"))
  | some range => .ok range

/-- The checks of the chunks. No product or sum of lengths overflows. -/
def ofChunks (data : Bytes) (chunks : FMap Bytes (ℕ × ℕ)) : Except GitFault CommitGraphIndex := do
  let oidf ← chunk chunks "OIDF"
  let oidl ← chunk chunks "OIDL"
  let cdat ← chunk chunks "CDAT"
  let edge := chunks.lookup (ascii "EDGE")
  if oidf.2 - oidf.1 ≠ fanLen * 4 then .error (.error "commit-graph OIDF chunk has invalid size")
  else
    let fan ← readFan data fanLen oidf.1
    let commitCount := fan.getD 255 0
    if oidl.2 - oidl.1 ≠ commitCount * 20 then
      .error (.error "commit-graph OIDL chunk length does not match fanout count")
    else if cdat.2 - cdat.1 ≠ commitCount * (20 + commitDataSansHash) then
      .error (.error "commit-graph CDAT chunk length does not match fanout count")
    else if edge.any fun range => (range.2 - range.1) % 4 ≠ 0 then
      .error (.error "commit-graph EDGE chunk has non-u32 length")
    else .ok ⟨data, 20, fan, oidl.1, cdat.1, edge, commitCount⟩

def fromMmap (data : Bytes) : Except GitFault CommitGraphIndex := do
  let chunkCount ← readHeader data
  let tocEnd := headerLen + (chunkCount + 1) * 12
  if data.length < tocEnd then
    .error (.error "commit-graph table-of-contents exceeds file length")
  else
    let entries ← readEntries data (chunkCount + 1) headerLen
    if entries.getLast?.map Prod.fst ≠ some [0, 0, 0, 0] then
      .error (.error "commit-graph chunk sentinel missing")
    else
      let chunks ← readChunks data.length tocEnd entries ∅
      ofChunks data chunks

/-! ## Looking commits up -/

variable (index : CommitGraphIndex)

def oidAt (pos : ℕ) : Except GitFault GitOid :=
  if index.commitCount ≤ pos then
    .error (.error ("commit-graph position " ++ toString pos ++ " out of bounds"))
  else
    let start := index.oidLookupOffset + pos * index.hashLen
    match slice index.data start (start + index.hashLen) with
    | none => .error (.error "commit-graph OIDL entry out of bounds")
    | some bytes =>
        match GitOid.ofBytes? bytes with
        | none => .error (.error "commit-graph OIDL entry has invalid hash width")
        | some oid => .ok oid

/-- The middle of two positions. Their sum has to fit. -/
def middle (lower upper : ℕ) : Except GitFault ℕ :=
  if 2 ^ 32 ≤ lower + upper then .error .panic else .ok ((lower + upper) / 2)

/-- The numbers by which ids are sorted. -/
def key (oid : GitOid) : List ℕ := oid.bytes.map UInt8.toNat

def firstByte (oid : GitOid) : ℕ := (key oid).headD 0

def lookupPosition (oid : GitOid) : Except GitFault (Option ℕ) :=
  let first := firstByte oid
  let upper := index.fan.getD first 0
  let lower := if first = 0 then 0 else index.fan.getD (first - 1) 0
  BinarySearch.search middle
    (fun mid => (index.oidAt mid).toOption.map fun midOid => cmp (key oid) (key midOid))
    (upper - lower) lower upper

def validateParentPosition (pos : ℕ) : Except GitFault ℕ :=
  if index.commitCount ≤ pos then
    .error (.error ("commit-graph parent position " ++ toString pos ++ " out of bounds"))
  else .ok pos

/-- The loop over the words of the `EDGE` chunk. Each round reads four more bytes, so the length of
the file is enough fuel. -/
def edgeParents (stop : ℕ) : ℕ → ℕ → List ℕ → Except GitFault (List ℕ)
  | 0, _, _ => .error (.error "commit-graph EDGE traversal overflow")
  | fuel + 1, cursor, parents => do
      let raw ← readU32BeAt index.data cursor "commit-graph EDGE parent"
      if raw &&& extendedEdgeMask ≠ 0 then
        let last ← index.validateParentPosition (raw &&& positionMask)
        .ok (parents ++ [last])
      else
        let parent ← index.validateParentPosition raw
        if stop < cursor + 4 then .error (.error "commit-graph EDGE traversal overflow")
        else edgeParents stop fuel (cursor + 4) (parents ++ [parent])

def laterParents (parent2 : ℕ) (parents : List ℕ) : Except GitFault (List ℕ) :=
  if parent2 = noParent then .ok parents
  else if parent2 &&& extendedEdgeMask = 0 then do
    let parent ← index.validateParentPosition parent2
    .ok (parents ++ [parent])
  else
    match index.edgeChunkRange with
    | none => .error (.error "commit-graph parent references missing EDGE chunk")
    | some range =>
        index.edgeParents range.2 (index.data.length + 1)
          (range.1 + (parent2 &&& positionMask) * 4) parents

def parentPositionsFor (pos : ℕ) : Except GitFault (List ℕ) :=
  if index.commitCount ≤ pos then
    .error (.error ("commit-graph position " ++ toString pos ++ " out of bounds"))
  else
    let entrySize := index.hashLen + commitDataSansHash
    let start := index.commitDataOffset + pos * entrySize
    match slice index.data start (start + entrySize) with
    | none => .error (.error "commit-graph CDAT entry out of bounds")
    | some entry => do
        let parent1 ← readU32From entry index.hashLen "commit-graph parent1"
        let parent2 ← readU32From entry (index.hashLen + 4) "commit-graph parent2"
        if parent1 = noParent then index.laterParents parent2 []
        else if parent1 &&& extendedEdgeMask ≠ 0 then
          .error (.error "commit-graph parent1 cannot reference EDGE list")
        else
          let parent ← index.validateParentPosition parent1
          index.laterParents parent2 [parent]

def parentOidsFor (oid : GitOid) : Except GitFault (List GitOid) := do
  match ← index.lookupPosition oid with
  | none => .error (.error "HEAD or parent OID is not present in commit-graph")
  | some pos => do
      let parentPositions ← index.parentPositionsFor pos
      parentPositions.mapM index.oidAt

/-! ## What an accepted file guarantees -/

def InFile (len : ℕ) (chunks : FMap Bytes (ℕ × ℕ)) : Prop :=
  ∀ id range, chunks.lookup id = some range → range.1 < range.2 ∧ range.2 ≤ len

theorem InFile.readChunks {len tocEnd : ℕ} {entries : List (Bytes × ℕ)}
    {chunks out : FMap Bytes (ℕ × ℕ)} (h : InFile len chunks)
    (hrun : readChunks len tocEnd entries chunks = .ok out) : InFile len out := by
  fun_induction CommitGraphIndex.readChunks len tocEnd entries chunks with
  | case1 => cases hrun
  | case2 => cases hrun
  | case3 => cases hrun
  | case4 => cases hrun
  | case5 chunks id start next stop entries hlt htoc hlen hdup ih =>
      refine ih (fun id' range hlook => ?_) hrun
      rw [FMap.lookup_insert_eq] at hlook
      split_ifs at hlook with hid
      · obtain rfl := Option.some_inj.mp hlook
        exact ⟨not_le.mp hlt, not_lt.mp hlen⟩
      · exact h id' range hlook
  | case6 =>
      obtain rfl := Except.ok.inj hrun
      exact h

theorem readEntries_append {front back : Bytes} {n cursor : ℕ}
    (hlength : cursor + 12 * n ≤ front.length) :
    readEntries (front ++ back) n cursor = readEntries front n cursor := by
  induction n generalizing cursor with
  | zero => rfl
  | succ n ih =>
      rw [readEntries, readEntries, ih (by omega), readU64BeAt, readUintBeAt, readUintBeAt,
        slice_append_left (by omega), slice_append_left (by omega)]

theorem readFan_append {before after : Bytes} {words : List ℕ} {enc : ℕ → Bytes}
    (henc : ∀ word ∈ words, (enc word).length = 4 ∧ fromBeBytes (enc word) = word) :
    readFan (before ++ words.flatMap enc ++ after) words.length before.length = .ok words := by
  induction words generalizing before with
  | nil => rfl
  | cons word words ih =>
      obtain ⟨⟨hlength, hvalue⟩, hrest⟩ := List.forall_mem_cons.mp henc
      have hdata : before ++ (word :: words).flatMap enc ++ after
          = before ++ enc word ++ words.flatMap enc ++ after := by simp
      have hnext : readFan (before ++ enc word ++ words.flatMap enc ++ after) words.length
          (before ++ enc word).length = .ok words := ih hrest
      rw [List.length_append, hlength] at hnext
      rw [hdata, List.length_cons, readFan, hnext, readU32BeAt, readUintBeAt, slice, if_pos]
      · have htake : ((before ++ enc word ++ words.flatMap enc ++ after).drop before.length).take
            (before.length + 4 - before.length) = enc word := by
          rw [Nat.add_sub_cancel_left, List.append_assoc, List.append_assoc, List.drop_left,
            ← hlength, List.take_left]
        rw [htake]
        dsimp only
        rw [hvalue]
        rfl
      · simp only [List.length_append, hlength]
        omega

theorem length_readFan {data : Bytes} {n offset : ℕ} {fan : List ℕ}
    (hrun : readFan data n offset = .ok fan) : fan.length = n := by
  induction n generalizing offset fan with
  | zero =>
      obtain rfl := Except.ok.inj hrun
      rfl
  | succ n ih =>
      obtain ⟨slot, -, hrun⟩ := Except.bind_eq_ok_iff.mp hrun
      obtain ⟨rest, hrest, hrun⟩ := Except.bind_eq_ok_iff.mp hrun
      obtain rfl := Except.ok.inj hrun
      rw [List.length_cons, ih hrest]

/-- What the checks leave to rely on. -/
structure Checked (index : CommitGraphIndex) : Prop where
  hashLen : index.hashLen = 20
  fan : index.fan.length = 256
  count : index.commitCount = index.fan.getD 255 0
  oidl : index.oidLookupOffset + index.commitCount * 20 ≤ index.data.length
  cdat : index.commitDataOffset + index.commitCount * 36 ≤ index.data.length

theorem checked_ofChunks {data : Bytes} {chunks : FMap Bytes (ℕ × ℕ)} {index : CommitGraphIndex}
    (h : InFile data.length chunks) (hrun : ofChunks data chunks = .ok index) :
    index.Checked := by
  have hchunk {id : String} {range : ℕ × ℕ} (hid : chunk chunks id = .ok range) :
      range.1 < range.2 ∧ range.2 ≤ data.length := by
    unfold chunk at hid
    cases hlook : chunks.lookup (ascii id) with
    | none => simp [hlook] at hid
    | some range' =>
        rw [hlook] at hid
        obtain rfl := Except.ok.inj hid
        exact h _ _ hlook
  obtain ⟨oidf, -, hrun⟩ := Except.bind_eq_ok_iff.mp hrun
  obtain ⟨oidl, hoidl, hrun⟩ := Except.bind_eq_ok_iff.mp hrun
  obtain ⟨cdat, hcdat, hrun⟩ := Except.bind_eq_ok_iff.mp hrun
  dsimp only at hrun
  split at hrun
  · cases hrun
  · obtain ⟨fan, hfan, hrun⟩ := Except.bind_eq_ok_iff.mp hrun
    split_ifs at hrun with hl hc
    obtain rfl := Except.ok.inj hrun
    rw [ne_eq, not_not] at hl hc
    have hl' := hchunk hoidl
    have hc' := hchunk hcdat
    rw [commitDataSansHash] at hc
    refine ⟨rfl, length_readFan hfan, rfl, ?_, ?_⟩
    · dsimp only
      omega
    · dsimp only
      omega

/-- **An accepted file** has its tables inside. -/
theorem checked_fromMmap {data : Bytes} {index : CommitGraphIndex}
    (hrun : fromMmap data = .ok index) : index.Checked := by
  obtain ⟨chunkCount, -, hrun⟩ := Except.bind_eq_ok_iff.mp hrun
  dsimp only at hrun
  split at hrun
  · cases hrun
  · obtain ⟨entries, -, hrun⟩ := Except.bind_eq_ok_iff.mp hrun
    split at hrun
    · cases hrun
    · obtain ⟨chunks, hchunks, hrun⟩ := Except.bind_eq_ok_iff.mp hrun
      refine checked_ofChunks (InFile.readChunks (fun id range h => ?_) hchunks) hrun
      simp at h

/-! ## Files that record a history -/

/-- A position that a word can name. -/
def Plain (pos : ℕ) : Prop := pos ≠ noParent ∧ pos &&& extendedEdgeMask = 0

/-- The words of the `EDGE` chunk from the cursor on, where the last one has the flag. -/
def EdgeWords (data : Bytes) (stop : ℕ) : ℕ → List ℕ → Prop
  | _, [] => False
  | cursor, [pos] =>
      cursor + 4 ≤ stop ∧ ∃ raw, readU32BeAt data cursor "commit-graph EDGE parent" = .ok raw
        ∧ raw &&& extendedEdgeMask ≠ 0 ∧ raw &&& positionMask = pos
  | cursor, pos :: rest =>
      cursor + 4 ≤ stop ∧ readU32BeAt data cursor "commit-graph EDGE parent" = .ok pos
        ∧ pos &&& extendedEdgeMask = 0 ∧ EdgeWords data stop (cursor + 4) rest

/-- The two words of an entry name the positions of the parents. -/
inductive ParentWords (index : CommitGraphIndex) : ℕ → ℕ → List ℕ → Prop
  | none : ParentWords index noParent noParent []
  | one {first : ℕ} (hfirst : Plain first) : ParentWords index first noParent [first]
  | two {first second : ℕ} (hfirst : Plain first) (hsecond : Plain second) :
      ParentWords index first second [first, second]
  | more {first word : ℕ} {rest : List ℕ} {range : ℕ × ℕ} (hfirst : Plain first)
      (hflag : word &&& extendedEdgeMask ≠ 0) (hrange : index.edgeChunkRange = some range)
      (hwords : EdgeWords index.data range.2 (range.1 + (word &&& positionMask) * 4) rest) :
      ParentWords index first word (first :: rest)

/-- The file has the commits in its tables, with exactly these parents. -/
structure WellFormed (index : CommitGraphIndex) (oids : List GitOid)
    (parents : GitOid → List GitOid) : Prop where
  small : oids.length ≤ 2 ^ 31
  sorted : oids.Pairwise fun oid oid' => key oid < key oid'
  fan : ∀ byte < 256, index.fan.getD byte 0 = oids.countP fun oid => firstByte oid ≤ byte
  table : ∀ i oid, oids[i]? = some oid →
    slice index.data (index.oidLookupOffset + i * 20) (index.oidLookupOffset + i * 20 + 20)
      = some oid.bytes
  entries : ∀ i oid, oids[i]? = some oid → ∃ parent1 parent2 positions,
    readU32BeAt index.data (index.commitDataOffset + i * 36 + 20) "commit-graph parent1"
        = .ok parent1
      ∧ readU32BeAt index.data (index.commitDataOffset + i * 36 + 24) "commit-graph parent2"
        = .ok parent2
      ∧ index.ParentWords parent1 parent2 positions
      ∧ positions.map (oids[·]?) = (parents oid).map some

variable {index} {oids : List GitOid} {parents : GitOid → List GitOid} {oid : GitOid} {i : ℕ}

theorem key_injective : Function.Injective key := by
  intro a b h
  have hbytes : a.bytes = b.bytes := 
    List.map_injective_iff.mpr (fun _ _ => UInt8.toNat_inj.mp) h
  cases a
  cases b
  simp_all

theorem firstByte_lt (oid : GitOid) : firstByte oid < 256 := by
  obtain ⟨bytes, hlength⟩ := oid
  cases bytes with
  | nil => cases hlength
  | cons b bytes => exact b.toNat_lt

theorem firstByte_le_of_key_lt {a b : GitOid} (h : key a < key b) : firstByte a ≤ firstByte b := by
  obtain ⟨bytes, hlength⟩ := a
  obtain ⟨bytes', hlength'⟩ := b
  cases bytes with
  | nil => cases hlength
  | cons x bytes =>
      cases bytes' with
      | nil => cases hlength'
      | cons y bytes' =>
          rcases List.cons_lt_cons_iff.mp h with hlt | ⟨heq, -⟩
          · exact hlt.le
          · exact heq.le

/-- The search in a table of sorted ids, between the bounds that the fanout gives for the first
byte, finds the position of an id and nothing else. -/
theorem search_oids {pivot : ℕ → ℕ → Except GitFault ℕ} {probe : ℕ → Option Ordering} {fan : ℕ → ℕ}
    (hsorted : oids.Pairwise fun oid oid' => key oid < key oid')
    (hfan : ∀ byte < 256, fan byte = oids.countP fun oid => firstByte oid ≤ byte)
    (hpivot : ∀ l u, l < u → u ≤ oids.length → ∃ mid, pivot l u = .ok mid ∧ l ≤ mid ∧ mid < u)
    (hprobe : ∀ mid midOid, oids[mid]? = some midOid →
      probe mid = some (cmp (key oid) (key midOid))) :
    let upper := fan (firstByte oid)
    let lower := if firstByte oid = 0 then 0 else fan (firstByte oid - 1)
    ∃ found, BinarySearch.search pivot probe (upper - lower) lower upper = .ok found
      ∧ ∀ i, found = some i ↔ oids[i]? = some oid := by
  intro upper lower
  have hbyte := firstByte_lt oid
  have hupper : upper = oids.countP fun oid' => firstByte oid' ≤ firstByte oid := hfan _ hbyte
  have hlower : lower = if firstByte oid = 0 then 0
      else oids.countP fun oid' => firstByte oid' ≤ firstByte oid - 1 := by
    rw [← hfan _ (by omega)]
  have hlength : upper ≤ oids.length := hupper ▸ List.countP_le_length
  have hsearch : BinarySearch.Searchable pivot probe (fun pos => (oids[pos]?.map key).getD [])
      (key oid) lower upper := by
    refine ⟨fun l u _ hlu hu => hpivot l u hlu (hu.trans hlength), fun mid _ hmid => ?_,
      fun a b _ hab hb => ?_⟩
    · have hget := List.getElem?_eq_getElem (hmid.trans_le hlength)
      rw [hprobe mid _ hget, hget, Option.map_some, Option.getD_some]
      congr
    · have hb' := hb.trans_le hlength
      have ha' := hab.trans hb'
      rw [List.getElem?_eq_getElem ha', List.getElem?_eq_getElem hb']
      exact List.pairwise_iff_getElem.mp hsorted a b ha' hb' hab
  by_cases hmem : oid ∈ oids
  · obtain ⟨i, hget⟩ := List.mem_iff_getElem?.mp hmem
    have hbounds := BinarySearch.fanout_bounds (hsorted.imp firstByte_le_of_key_lt) hget
    rw [← hupper, ← hlower] at hbounds
    refine ⟨some i, hsearch.search_eq_some le_rfl hbounds.1 hbounds.2 (by rw [hget]; rfl),
      fun j => ⟨?_, fun hget' => ?_⟩⟩
    · rintro ⟨⟩
      exact hget
    · obtain ⟨hi, hoid⟩ := List.getElem?_eq_some_iff.mp hget
      obtain ⟨hj, hoid'⟩ := List.getElem?_eq_some_iff.mp hget'
      have hnodup : oids.Nodup := hsorted.imp fun hlt heq => (heq ▸ hlt).false
      rw [(@List.Nodup.getElem_inj_iff _ _ hnodup _ hi _ hj).mp (hoid.trans hoid'.symm)]
  · refine ⟨none, hsearch.search_eq_none fun pos _ hpos hkey => hmem ?_, fun i => ?_⟩
    · have hget := List.getElem?_eq_getElem (hpos.trans_le hlength)
      rw [hget] at hkey
      have hsame : oids[pos] = oid := key_injective hkey
      exact hsame ▸ List.getElem_mem _
    · exact iff_of_false (by simp) fun hget => hmem (List.mem_of_getElem? hget)

/-- The file has the ids in its table. -/
structure Lists (index : CommitGraphIndex) (oids : List GitOid) : Prop where
  small : oids.length ≤ 2 ^ 31
  sorted : oids.Pairwise fun oid oid' => key oid < key oid'
  fan : ∀ byte < 256, index.fan.getD byte 0 = oids.countP fun oid => firstByte oid ≤ byte
  table : ∀ i oid, oids[i]? = some oid →
    slice index.data (index.oidLookupOffset + i * 20) (index.oidLookupOffset + i * 20 + 20)
      = some oid.bytes

theorem WellFormed.lists (h : index.WellFormed oids parents) : index.Lists oids :=
  ⟨h.small, h.sorted, h.fan, h.table⟩

theorem Lists.count (h : index.Lists oids) (hchecked : index.Checked) :
    index.commitCount = oids.length := by
  rw [hchecked.count, h.fan 255 (by omega), List.countP_eq_length]
  intro oid _
  have hlt := firstByte_lt oid
  simp only [decide_eq_true_eq]
  omega

theorem Lists.oidAt (h : index.Lists oids) (hchecked : index.Checked)
    (hget : oids[i]? = some oid) : index.oidAt i = .ok oid := by
  obtain ⟨hi, -⟩ := List.getElem?_eq_some_iff.mp hget
  rw [CommitGraphIndex.oidAt, h.count hchecked, if_neg (not_le.mpr hi), hchecked.hashLen]
  dsimp only
  rw [h.table i oid hget]
  simp [GitOid.ofBytes?, oid.length_bytes]

/-- **The position of an id is found**, and none for an id that is not listed. -/
theorem Lists.lookupPosition (h : index.Lists oids) (hchecked : index.Checked) (oid : GitOid) :
    ∃ found, index.lookupPosition oid = .ok found ∧ ∀ i, found = some i ↔ oids[i]? = some oid := by
  refine @search_oids oids oid _ _ (fun byte => index.fan.getD byte 0) h.sorted h.fan
    (fun l u hlu hu => ?_) fun mid midOid hget => ?_
  · have hsmall := h.small
    exact ⟨(l + u) / 2, if_neg (by omega), by omega, by omega⟩
  · rw [h.oidAt hchecked hget]
    rfl

theorem Lists.lookupPosition_of_mem (h : index.Lists oids) (hchecked : index.Checked)
    (hget : oids[i]? = some oid) : index.lookupPosition oid = .ok (some i) := by
  obtain ⟨found, hfound, hiff⟩ := h.lookupPosition hchecked oid
  rw [hfound, (hiff i).mpr hget]

theorem Lists.lookupPosition_of_notMem (h : index.Lists oids) (hchecked : index.Checked)
    (hmem : oid ∉ oids) : index.lookupPosition oid = .ok none := by
  obtain ⟨found, hfound, hiff⟩ := h.lookupPosition hchecked oid
  cases found with
  | none => exact hfound
  | some i => exact absurd (List.mem_of_getElem? ((hiff i).mp rfl)) hmem

/-! ### The parents -/

theorem slice_eq_some {buf entry : Bytes} {start stop : ℕ} (h : slice buf start stop = some entry) :
    start ≤ stop ∧ stop ≤ buf.length ∧ entry = (buf.drop start).take (stop - start) := by
  unfold slice at h
  split_ifs at h with hbounds
  exact ⟨hbounds.1, hbounds.2, (Option.some_inj.mp h).symm⟩

theorem readUintBeAt_eq_ok {width offset n : ℕ} {buf : Bytes} {what : String}
    (h : readUintBeAt width buf offset what = .ok n) :
    offset + width ≤ buf.length ∧ n = fromBeBytes ((buf.drop offset).take width) := by
  unfold readUintBeAt at h
  cases hslice : slice buf offset (offset + width) with
  | none => simp [hslice] at h
  | some bytes =>
      rw [hslice] at h
      obtain ⟨-, hle, rfl⟩ := slice_eq_some hslice
      obtain rfl := Except.ok.inj h
      rw [Nat.add_sub_cancel_left]
      exact ⟨hle, rfl⟩

theorem readUintBeAt_slice {width offset start stop n : ℕ} {buf entry : Bytes} {what : String}
    (hslice : slice buf start stop = some entry) (hle : start + offset + width ≤ stop)
    (h : readUintBeAt width buf (start + offset) what = .ok n) :
    readUintBeAt width entry offset what = .ok n := by
  obtain ⟨-, hstop, rfl⟩ := slice_eq_some hslice
  obtain ⟨-, rfl⟩ := readUintBeAt_eq_ok h
  have hlen : offset + width ≤ ((buf.drop start).take (stop - start)).length := by
    rw [List.length_take, List.length_drop]
    omega
  rw [readUintBeAt, slice, if_pos ⟨Nat.le_add_right _ _, hlen⟩, Nat.add_sub_cancel_left]
  dsimp only
  rw [List.drop_take, List.take_take, List.drop_drop, min_eq_left (by omega)]

theorem EdgeWords.length_le {data : Bytes} {stop cursor : ℕ} {rest : List ℕ}
    (h : EdgeWords data stop cursor rest) : cursor + 4 * rest.length ≤ data.length := by
  fun_induction EdgeWords data stop cursor rest with
  | case1 => exact h.elim
  | case2 cursor pos =>
      obtain ⟨-, raw, hread, -⟩ := h
      exact (readUintBeAt_eq_ok hread).1
  | case3 cursor pos rest hne ih =>
      have hrest := ih h.2.2.2
      rw [List.length_cons]
      omega

theorem edgeParents_of_words {stop cursor fuel : ℕ} {rest acc : List ℕ}
    (hpos : ∀ pos ∈ rest, pos < index.commitCount)
    (h : EdgeWords index.data stop cursor rest) (hfuel : rest.length ≤ fuel) :
    index.edgeParents stop fuel cursor acc = .ok (acc ++ rest) := by
  have hvalid {pos : ℕ} (hlt : pos < index.commitCount) :
      index.validateParentPosition pos = .ok pos := if_neg (not_le.mpr hlt)
  induction fuel generalizing cursor rest acc with
  | zero =>
      rw [List.length_eq_zero_iff.mp (Nat.le_zero.mp hfuel)] at h
      exact h.elim
  | succ fuel ih =>
      rw [edgeParents]
      match rest, h with
      | [pos], ⟨_, raw, hread, hflag, hlast⟩ =>
          rw [hread]
          dsimp only [bind, Except.bind]
          rw [if_pos hflag, hlast, hvalid (hpos pos List.mem_cons_self)]
      | pos :: next :: rest, ⟨hstop, hread, hflag, hrest⟩ =>
          rw [hread]
          dsimp only [bind, Except.bind]
          rw [if_neg (not_not.mpr hflag), hvalid (hpos pos List.mem_cons_self)]
          dsimp only
          rw [if_neg (not_lt.mpr hstop), ih (fun p hp => hpos p (.tail _ hp)) hrest
            (by simpa using hfuel), List.append_assoc, List.singleton_append]

theorem ParentWords.run {parent1 parent2 : ℕ} {positions : List ℕ}
    (h : index.ParentWords parent1 parent2 positions)
    (hpos : ∀ pos ∈ positions, pos < index.commitCount) :
    (if parent1 = noParent then index.laterParents parent2 []
      else if parent1 &&& extendedEdgeMask ≠ 0 then
        .error (.error "commit-graph parent1 cannot reference EDGE list")
      else do
        let parent ← index.validateParentPosition parent1
        index.laterParents parent2 [parent]) = .ok positions := by
  have hvalid {pos : ℕ} (hlt : pos < index.commitCount) :
      index.validateParentPosition pos = .ok pos := if_neg (not_le.mpr hlt)
  cases h with
  | none => rfl
  | one hfirst =>
      rw [if_neg hfirst.1, if_neg (not_not.mpr hfirst.2), hvalid (hpos _ List.mem_cons_self)]
      rfl
  | two hfirst hsecond =>
      rw [if_neg hfirst.1, if_neg (not_not.mpr hfirst.2), hvalid (hpos _ List.mem_cons_self)]
      dsimp only [bind, Except.bind]
      rw [laterParents, if_neg hsecond.1, if_pos hsecond.2, hvalid (hpos _ (by simp))]
      rfl
  | more hfirst hflag hrange hwords =>
      have hword : parent2 ≠ noParent := by
        rintro rfl
        exact hflag (by decide)
      rw [if_neg hfirst.1, if_neg (not_not.mpr hfirst.2), hvalid (hpos _ List.mem_cons_self)]
      dsimp only [bind, Except.bind]
      rw [laterParents, if_neg hword, if_neg hflag, hrange]
      have hlength := hwords.length_le
      exact edgeParents_of_words (fun p hp => hpos p (.tail _ hp)) hwords (by omega)

theorem WellFormed.parentPositionsFor (h : index.WellFormed oids parents)
    (hchecked : index.Checked) (hget : oids[i]? = some oid) :
    ∃ positions, index.parentPositionsFor i = .ok positions
      ∧ positions.map (oids[·]?) = (parents oid).map some := by
  obtain ⟨hi, -⟩ := List.getElem?_eq_some_iff.mp hget
  obtain ⟨parent1, parent2, positions, hfirst, hsecond, hwords, hparents⟩ := h.entries i oid hget
  have hcount := h.lists.count hchecked
  have hpos : ∀ pos ∈ positions, pos < index.commitCount := by
    intro pos hpos
    obtain ⟨p, -, hp⟩ := List.mem_map.mp (hparents ▸ List.mem_map_of_mem hpos)
    rw [hcount]
    exact (List.getElem?_eq_some_iff.mp hp.symm).1
  refine ⟨positions, ?_, hparents⟩
  have hend : index.commitDataOffset + i * 36 + 36 ≤ index.data.length := by
    have hcdat := hchecked.cdat
    rw [hcount] at hcdat
    omega
  obtain ⟨entry, hentry⟩ : ∃ entry, slice index.data (index.commitDataOffset + i * 36)
      (index.commitDataOffset + i * 36 + 36) = some entry :=
    ⟨_, if_pos ⟨Nat.le_add_right _ _, hend⟩⟩
  rw [CommitGraphIndex.parentPositionsFor, hcount, if_neg (not_le.mpr hi), hchecked.hashLen]
  dsimp only [commitDataSansHash, Nat.reduceAdd]
  rw [hentry]
  dsimp only
  rw [readU32From, readUintBeAt_slice hentry (by omega) hfirst,
    readUintBeAt_slice hentry (by omega) hsecond]
  exact hwords.run hpos

theorem WellFormed.parentOidsFor_of_mem (h : index.WellFormed oids parents)
    (hchecked : index.Checked) (hmem : oid ∈ oids) :
    index.parentOidsFor oid = .ok (parents oid) := by
  obtain ⟨i, hget⟩ := List.mem_iff_getElem?.mp hmem
  obtain ⟨positions, hpositions, hparents⟩ := h.parentPositionsFor hchecked hget
  rw [CommitGraphIndex.parentOidsFor, h.lists.lookupPosition_of_mem hchecked hget]
  dsimp only [bind, Except.bind]
  rw [hpositions]
  dsimp only
  clear hpositions
  generalize parents oid = ps at hparents
  induction positions generalizing ps with
  | nil =>
      obtain rfl := List.map_eq_nil_iff.mp hparents.symm
      rfl
  | cons pos positions ih =>
      obtain ⟨p, ps, rfl, hp, hps⟩ := List.map_eq_cons_iff.mp hparents.symm
      rw [List.mapM_cons, h.lists.oidAt hchecked hp.symm, ih ps hps.symm]
      rfl

theorem WellFormed.parentOidsFor_of_notMem (h : index.WellFormed oids parents)
    (hchecked : index.Checked) (hmem : oid ∉ oids) : index.parentOidsFor oid
      = .error (.error "HEAD or parent OID is not present in commit-graph") := by
  rw [CommitGraphIndex.parentOidsFor, h.lists.lookupPosition_of_notMem hchecked hmem]
  rfl

theorem WellFormed.mem_of_mem_parents (h : index.WellFormed oids parents) (hmem : oid ∈ oids)
    {parent : GitOid} (hparent : parent ∈ parents oid) : parent ∈ oids := by
  obtain ⟨i, hget⟩ := List.mem_iff_getElem?.mp hmem
  obtain ⟨-, -, positions, -, -, -, hparents⟩ := h.entries i oid hget
  have hsome : some parent ∈ positions.map (oids[·]?) :=
    hparents ▸ List.mem_map_of_mem hparent
  obtain ⟨pos, -, hpos⟩ := List.mem_map.mp hsome
  exact List.mem_of_getElem? hpos

end CommitGraphIndex

end ArcVcs.GitIngress
