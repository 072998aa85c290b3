import ArcVcs.Atom
import ArcVcs.Lib.Framing

/-!
# The sync codec

`ArcSyncCodec` of `arc-net`: a frame is one byte for the message type, the payload length as a
big-endian `u32`, and the payload. The decoder is incremental and undoes the encoder, so a
stream of frames survives every way of cutting it into chunks.
-/

namespace ArcVcs

namespace SyncCodec

/-- The largest accepted payload, 16 MiB. -/
def maxFrameLen : ℕ := 16 * 1024 * 1024

def u32Max : ℕ := 2 ^ 32 - 1

def usizeMax : ℕ := 2 ^ 64 - 1

inductive MessageType where
  | handshake
  | haveWant
  | payloadStream
  | keepAlive
  | progress
deriving DecidableEq

inductive ErrorKind where
  | invalidData
  | invalidInput
deriving DecidableEq

/-- An `io::Error`. -/
structure CodecError where
  kind : ErrorKind
  message : String
deriving DecidableEq

namespace MessageType

def toU8 : MessageType → UInt8
  | handshake => 0x01
  | haveWant => 0x02
  | payloadStream => 0x03
  | keepAlive => 0x04
  | progress => 0x05

def tryFrom (value : UInt8) : Except CodecError MessageType :=
  if value = 0x01 then .ok handshake
  else if value = 0x02 then .ok haveWant
  else if value = 0x03 then .ok payloadStream
  else if value = 0x04 then .ok keepAlive
  else if value = 0x05 then .ok progress
  else .error ⟨.invalidData, "unknown message type: 0x" ++ String.ofList
    [Blake3Hash.hexDigit (value.toNat / 16), Blake3Hash.hexDigit (value.toNat % 16)]⟩

@[simp] theorem tryFrom_toU8 (t : MessageType) : tryFrom t.toU8 = .ok t := by
  cases t <;> rfl

theorem toU8_of_tryFrom {value : UInt8} {t : MessageType} (h : tryFrom value = .ok t) :
    t.toU8 = value := by
  unfold tryFrom at h
  split_ifs at h with h₁ h₂ h₃ h₄ h₅ <;> cases h <;> simp_all [toU8]

end MessageType

structure SyncFrame where
  messageType : MessageType
  payload : Bytes
deriving DecidableEq

/-- `put_u32`: the four bytes, most significant first. -/
def putU32 (n : ℕ) : Bytes :=
  [n / 2 ^ 24, n / 2 ^ 16, n / 2 ^ 8, n].map UInt8.ofNat

/-- `u32::from_be_bytes`. -/
def fromBeBytes (b₁ b₂ b₃ b₄ : UInt8) : ℕ :=
  b₁.toNat * 2 ^ 24 + b₂.toNat * 2 ^ 16 + b₃.toNat * 2 ^ 8 + b₄.toNat

/-- One call of the decoder, with the buffer that it leaves. -/
def decode : Framing.Decoder SyncFrame UInt8 CodecError
  | t :: b₁ :: b₂ :: b₃ :: b₄ :: body =>
      let src := t :: b₁ :: b₂ :: b₃ :: b₄ :: body
      match MessageType.tryFrom t with
      | .error e => (.error e, src)
      | .ok messageType =>
          let length := fromBeBytes b₁ b₂ b₃ b₄
          if maxFrameLen < length then
            (.error ⟨.invalidData,
              "frame length " ++ toString length ++ " exceeds max " ++ toString maxFrameLen⟩, src)
          else if usizeMax < 5 + length then (.error ⟨.invalidData, "frame length overflow"⟩, src)
          else if src.length < 5 + length then (.ok none, src)
          else (.ok (some ⟨messageType, body.take length⟩), body.drop length)
  -- fewer than the five bytes of a header
  | src => (.ok none, src)

def encode (item : SyncFrame) (dst : Bytes) : Except CodecError Bytes :=
  let payloadLen := item.payload.length
  if u32Max < payloadLen then .error ⟨.invalidInput, "payload exceeds u32 framing limit"⟩
  else if maxFrameLen < payloadLen then
    .error ⟨.invalidInput, "payload exceeds max frame length: " ++ toString payloadLen⟩
  else .ok (dst ++ item.messageType.toU8 :: putU32 payloadLen ++ item.payload)

/-- The encodings of the frames one after the other. -/
def encodeAll (frames : List SyncFrame) (dst : Bytes) : Except CodecError Bytes :=
  frames.foldlM (fun dst frame => encode frame dst) dst

/-! ## Header -/

theorem fromBeBytes_putU32 {n : ℕ} (hn : n ≤ u32Max) :
    fromBeBytes (.ofNat (n / 2 ^ 24)) (.ofNat (n / 2 ^ 16)) (.ofNat (n / 2 ^ 8)) (.ofNat n)
      = n := by
  simp only [fromBeBytes, UInt8.toNat_ofNat']
  unfold u32Max at hn
  omega

theorem putU32_fromBeBytes (b₁ b₂ b₃ b₄ : UInt8) :
    putU32 (fromBeBytes b₁ b₂ b₃ b₄) = [b₁, b₂, b₃, b₄] := by
  have h₁ := b₁.toNat_lt
  have h₂ := b₂.toNat_lt
  have h₃ := b₃.toNat_lt
  have h₄ := b₄.toNat_lt
  simp only [putU32, fromBeBytes, List.map_cons, List.map_nil, List.cons.injEq, and_true,
    ← UInt8.toNat_inj, UInt8.toNat_ofNat']
  omega

/-- A frame that the codec accepts: its payload is within the limit. -/
def WithinLimit (frame : SyncFrame) : Prop := frame.payload.length ≤ maxFrameLen

def frameBytes (frame : SyncFrame) : Bytes :=
  frame.messageType.toU8 :: putU32 frame.payload.length ++ frame.payload

theorem encode_eq_ok_iff {frame : SyncFrame} {dst out : Bytes} :
    encode frame dst = .ok out ↔ WithinLimit frame ∧ out = dst ++ frameBytes frame := by
  unfold encode WithinLimit frameBytes
  dsimp only
  have hmax : maxFrameLen ≤ u32Max := by decide
  split_ifs with hu32 hmax'
  · simp; omega
  · simp; omega
  · simp [Nat.le_of_not_lt hmax', eq_comm]

theorem encodeAll_of_withinLimit {frames : List SyncFrame}
    (h : ∀ frame ∈ frames, WithinLimit frame) (dst : Bytes) :
    encodeAll frames dst = .ok (dst ++ frames.flatMap frameBytes) := by
  induction frames generalizing dst with
  | nil => simp [encodeAll, pure, Except.pure]
  | cons frame frames ih =>
      have hframe : encode frame dst = .ok (dst ++ frameBytes frame) :=
        encode_eq_ok_iff.mpr ⟨h frame List.mem_cons_self, rfl⟩
      have hrest := ih (fun f hf => h f (.tail _ hf)) (dst ++ frameBytes frame)
      rw [encodeAll, List.foldlM_cons, hframe]
      change encodeAll frames (dst ++ frameBytes frame) = _
      rw [hrest, List.flatMap_cons, List.append_assoc]

/-! ## The decoder -/

theorem maxFrameLen_le_u32Max : maxFrameLen ≤ u32Max := by decide

theorem header_add_maxFrameLen_le : 5 + maxFrameLen ≤ usizeMax := by decide

theorem frameBytes_append (frame : SyncFrame) (rest : Bytes) :
    frameBytes frame ++ rest = frame.messageType.toU8 :: .ofNat (frame.payload.length / 2 ^ 24)
      :: .ofNat (frame.payload.length / 2 ^ 16) :: .ofNat (frame.payload.length / 2 ^ 8)
      :: .ofNat frame.payload.length :: (frame.payload ++ rest) := by
  simp [frameBytes, putU32]

theorem decode_frameBytes_append {frame : SyncFrame} (hlimit : WithinLimit frame) (rest : Bytes) :
    decode (frameBytes frame ++ rest) = (.ok (some frame), rest) := by
  have hlen := fromBeBytes_putU32 (Nat.le_trans hlimit maxFrameLen_le_u32Max)
  have hmax : ¬ maxFrameLen < frame.payload.length := Nat.not_lt.mpr hlimit
  have husize : ¬ usizeMax < 5 + frame.payload.length := by
    have := header_add_maxFrameLen_le
    omega
  have hwhole : ¬ (frame.payload ++ rest).length + 1 + 1 + 1 + 1 + 1
      < 5 + frame.payload.length := by
    rw [List.length_append]
    omega
  simp only [frameBytes_append, decode, MessageType.tryFrom_toU8, hlen, hmax, husize, hwhole,
    List.length_cons, if_false, List.take_left, List.drop_left]

theorem length_taken {t b₁ b₂ b₃ b₄ : UInt8} {body : Bytes} {n : ℕ}
    (h : ¬ (t :: b₁ :: b₂ :: b₃ :: b₄ :: body).length < 5 + n) : (body.take n).length = n := by
  simp only [List.length_cons] at h
  rw [List.length_take]
  omega

theorem eq_frameBytes_append {t b₁ b₂ b₃ b₄ : UInt8} {n : ℕ} {body : Bytes} {frame : SyncFrame}
    (ht : frame.messageType.toU8 = t) (hlen : frame.payload.length = n)
    (hput : putU32 n = [b₁, b₂, b₃, b₄]) (hbody : body.take n = frame.payload) :
    t :: b₁ :: b₂ :: b₃ :: b₄ :: body = frameBytes frame ++ body.drop n := by
  calc
    _ = t :: [b₁, b₂, b₃, b₄] ++ (body.take n ++ body.drop n) := by
      rw [List.take_append_drop]
      rfl
    _ = frameBytes frame ++ body.drop n := by
      rw [frameBytes, ht, hlen, hput, hbody, List.append_assoc]

theorem eq_frameBytes_append_of_decode {src rest : Bytes} {frame : SyncFrame}
    (h : decode src = (.ok (some frame), rest)) :
    WithinLimit frame ∧ src = frameBytes frame ++ rest := by
  unfold decode at h
  split at h
  · rename_i t b₁ b₂ b₃ b₄ body
    cases ht : MessageType.tryFrom t with
    | error e => simp [ht] at h
    | ok messageType =>
        simp only [ht] at h
        have hput := putU32_fromBeBytes b₁ b₂ b₃ b₄
        generalize fromBeBytes b₁ b₂ b₃ b₄ = n at h hput
        by_cases hmax : maxFrameLen < n
        · simp [hmax] at h
        · by_cases hover : usizeMax < 5 + n
          · simp [hmax, hover] at h
          · rw [if_neg hmax, if_neg hover] at h
            split_ifs at h with hshort
            · simp at h
            · obtain ⟨hframe, hrest⟩ := Prod.mk.inj h
              obtain rfl := Option.some_inj.mp (Except.ok.inj hframe)
              have hlen := length_taken hshort
              refine ⟨hlen.trans_le (Nat.le_of_not_lt hmax), ?_⟩
              rw [← hrest]
              exact eq_frameBytes_append (MessageType.toU8_of_tryFrom ht) hlen hput rfl
  · simp at h

theorem decode_waits {src rest : Bytes} (h : decode src = (.ok none, rest)) : rest = src := by
  unfold decode at h
  split at h
  · rename_i t b₁ b₂ b₃ b₄ body
    cases ht : MessageType.tryFrom t with
    | error e => simp [ht] at h
    | ok messageType =>
        simp only [ht] at h
        split_ifs at h <;> simp_all
  · simpa [eq_comm] using h

theorem decode_error_append {src rest : Bytes} {e : CodecError}
    (h : decode src = (.error e, rest)) (more : Bytes) : (decode (src ++ more)).1 = .error e := by
  unfold decode at h
  split at h
  · rename_i t b₁ b₂ b₃ b₄ body
    simp only [List.cons_append, decode]
    cases ht : MessageType.tryFrom t with
    | error e' => simpa [ht] using congrArg Prod.fst h
    | ok messageType =>
        simp only [ht] at h ⊢
        by_cases hmax : maxFrameLen < fromBeBytes b₁ b₂ b₃ b₄
        · rw [if_pos hmax] at h ⊢
          exact congrArg Prod.fst h
        · by_cases hover : usizeMax < 5 + fromBeBytes b₁ b₂ b₃ b₄
          · rw [if_neg hmax, if_pos hover] at h ⊢
            exact congrArg Prod.fst h
          · rw [if_neg hmax, if_neg hover] at h
            split_ifs at h <;> simp at h
  · simp at h

theorem incremental_decode : Framing.Incremental decode where
  nil := rfl
  waits := decode_waits
  takes h := by
    obtain ⟨-, rfl⟩ := eq_frameBytes_append_of_decode h
    rw [frameBytes_append]
    simp only [List.length_cons, List.length_append]
    omega
  takes_append h more := by
    obtain ⟨hlimit, rfl⟩ := eq_frameBytes_append_of_decode h
    rw [List.append_assoc, decode_frameBytes_append hlimit]
  fails_append := decode_error_append

theorem undoes_decode : Framing.Undoes decode frameBytes WithinLimit :=
  fun _ hlimit rest => decode_frameBytes_append hlimit rest

/-- **Stream decoding undoes encoding**: a list of frames within the limit can be encoded, each
way of cutting the bytes into chunks decodes to those frames and an empty buffer, and a part of
one frame is left in the buffer. -/
theorem decode_feed_encodeAll (frames : List SyncFrame)
    (hlimit : ∀ frame ∈ frames, frame.payload.length ≤ maxFrameLen) :
    (∃ bytes, encodeAll frames [] = .ok bytes
        ∧ ∀ chunks, chunks.flatten = bytes → Framing.feedAll decode chunks = (frames, .ok []))
      ∧ ∀ frame ∈ frames, ∀ bytes, encode frame [] = .ok bytes →
        ∀ part, part <+: bytes → part ≠ bytes → decode part = (.ok none, part) := by
  refine ⟨⟨_, encodeAll_of_withinLimit hlimit [], fun chunks hcut => ?_⟩, ?_⟩
  · exact Framing.feedAll_of_flatten incremental_decode undoes_decode hlimit hcut
  · rintro frame - bytes hbytes part ⟨more, rfl⟩ hne
    obtain ⟨hframe, hpart⟩ := encode_eq_ok_iff.mp hbytes
    exact Framing.waits_of_part incremental_decode undoes_decode hframe hpart.symm
      (by simpa [eq_comm] using hne)

/-- A bare heartbeat and a payload of three bytes, sent byte by byte. -/
theorem decode_feed_two_frames :
    let frames : List SyncFrame := [⟨.keepAlive, []⟩, ⟨.payloadStream, [7, 8, 9]⟩]
    ∃ bytes, encodeAll frames [] = .ok bytes
      ∧ Framing.feedAll decode (bytes.map fun b => [b]) = (frames, .ok []) := by
  intro frames
  obtain ⟨⟨bytes, hbytes, hfeed⟩, -⟩ := decode_feed_encodeAll frames (by decide)
  exact ⟨bytes, hbytes, hfeed _ (by rw [← List.flatMap_def, List.flatMap_singleton'])⟩

end SyncCodec

end ArcVcs
