import ArcVcs.Atom
import ArcVcs.Lib.Iterators
import ArcVcs.Lib.Reader
import ArcVcs.Lib.Encoding
import Mathlib.Data.List.Sort
import Mathlib.Data.Nat.Bitwise

/-!
# EWAH bitmaps

A bitmap is a list of words. A run-length word says how many words of equal bits come first and how
many literal words follow it. `for_each_set_bit` walks over the words and calls back for the bits
that are set.
-/

namespace ArcVcs.Ewah

inductive EwahDecodeError where
  | unexpectedEof (ctx : String)
  | lengthOverflow
deriving DecidableEq

structure EwahBitmap where
  numBits : UInt32
  words : List UInt64
  rlw : UInt32
deriving DecidableEq

/-! ## Decoding -/

def readU32Be (input : Bytes) (ctx : String) : Except EwahDecodeError (UInt32 × Bytes) :=
  if input.length < 4 then .error (.unexpectedEof ctx)
  else .ok (.ofNat (Nat.ofBigEndian (input.take 4)), input.drop 4)

/-- `chunks_exact(8)`, each read by `u64::from_be_bytes`. -/
def wordsOf : Bytes → List UInt64
  | b₀ :: b₁ :: b₂ :: b₃ :: b₄ :: b₅ :: b₆ :: b₇ :: bytes =>
      .ofNat (Nat.ofBigEndian [b₀, b₁, b₂, b₃, b₄, b₅, b₆, b₇]) :: wordsOf bytes
  | _ => []

def EwahBitmap.decode (input : Bytes) : Except EwahDecodeError (EwahBitmap × Bytes) :=
  match readU32Be input "num_bits" with
  | .error e => .error e
  | .ok (numBits, rest) =>
      match readU32Be rest "word_len" with
      | .error e => .error e
      | .ok (wordLen, rest) =>
          let bytesLen := wordLen.toNat * 8
          if Usize.greatest < bytesLen then .error .lengthOverflow
          else if rest.length < bytesLen then .error (.unexpectedEof "word payload")
          else
            let words := wordsOf (rest.take bytesLen)
            match readU32Be (rest.drop bytesLen) "rlw" with
            | .error e => .error e
            | .ok (rlw, rest) => .ok (⟨numBits, words, rlw⟩, rest)

/-! ## Run-length words -/

def rlwRunningBits : UInt64 := 32

def rlwLargestRunningCount : UInt64 := (1 <<< rlwRunningBits) - 1

def rlwRunningLen (word : UInt64) : UInt64 := (word >>> 1) &&& rlwLargestRunningCount

@[irreducible] def rlwRunningLenBits (word : UInt64) : UInt64 := rlwRunningLen word * 64

@[irreducible] def rlwLiteralWords (word : UInt64) : UInt64 := word >>> (1 + rlwRunningBits)

@[irreducible] def rlwRunbitIsSet (word : UInt64) : Bool := word &&& 1 == 1

/-! ## The set bits -/

section ForEach

variable {σ : Type*} (f : σ → ℕ → Bool × σ) (limit : ℕ)

/-- The walk has returned, or it goes on at an index. -/
inductive Flow (σ : Type*) where
  | returned (s : σ)
  | goesOn (s : σ) (index : ℕ)

/-- `for _ in 0..len`, over the bits of a run. -/
def runLoop : ℕ → σ → ℕ → Flow σ
  | 0, s, index => .goesOn s index
  | len + 1, s, index =>
      if limit ≤ index then .returned s
      else
        match f s index with
        | (false, s') => .returned s'
        | (true, s') => runLoop len s' ((index + 1) % 2 ^ 64)

/-- `0..64`. -/
@[irreducible] def bitIndexes : List ℕ := List.range 64

/-- `for bit_idx in 0..64`, over the bits of a literal word. -/
def literalLoop (literal : UInt64) : List ℕ → σ → ℕ → Flow σ
  | [], s, index => .goesOn s index
  | bitIdx :: bits, s, index =>
      if limit ≤ index then .returned s
      else if literal &&& (1 <<< UInt64.ofNat bitIdx) ≠ 0 then
        match f s index with
        | (false, s') => .returned s'
        | (true, s') => literalLoop literal bits s' ((index + 1) % 2 ^ 64)
      else literalLoop literal bits s ((index + 1) % 2 ^ 64)

/-- `for _ in 0..literals`, with the words that are left. -/
def literalsLoop : ℕ → List UInt64 → σ → ℕ → Flow σ × List UInt64
  | 0, words, s, index => (.goesOn s index, words)
  | literals + 1, words, s, index =>
      if limit ≤ index then (.returned s, words)
      else
        match words with
        | [] => (.returned s, [])
        | literal :: words =>
            match literalLoop f limit literal bitIndexes s index with
            | .returned s' => (.returned s', words)
            | .goesOn s' index' => literalsLoop literals words s' index'
termination_by structural literals => literals

theorem length_literalsLoop_le (literals : ℕ) (words : List UInt64) (s : σ) (index : ℕ) :
    (literalsLoop f limit literals words s index).2.length ≤ words.length := by
  induction literals generalizing words s index with
  | zero => exact le_rfl
  | succ literals ih =>
      cases words with
      | nil =>
          rw [literalsLoop, ite_self]
      | cons literal words =>
          rw [literalsLoop]
          split_ifs
          · exact le_rfl
          · cases literalLoop f limit literal bitIndexes s index with
            | returned s' => exact Nat.le_succ _
            | goesOn s' index' => exact (ih words s' index').trans (Nat.le_succ _)

/-- The run of one word, of ones or of zeros. -/
def runPart (word : UInt64) (s : σ) (index : ℕ) : Flow σ :=
  if rlwRunbitIsSet word then runLoop f limit (rlwRunningLenBits word).toNat s index
  else
    let skip := (rlwRunningLenBits word).toNat
    .goesOn s (Usize.saturatingAdd index skip)

/-- The run of one word and its literal words, with the words that are left. -/
@[irreducible] def wordPart (word : UInt64) (words : List UInt64) (s : σ) (index : ℕ) :
    Flow σ × List UInt64 :=
  match runPart f limit word s index with
  | .returned s' => (.returned s', words)
  | .goesOn s' index' => literalsLoop f limit (rlwLiteralWords word).toNat words s' index'

theorem length_wordPart_le (word : UInt64) (words : List UInt64) (s : σ) (index : ℕ) :
    (wordPart f limit word words s index).2.length ≤ words.length := by
  rw [wordPart]
  cases runPart f limit word s index with
  | returned s' => exact le_rfl
  | goesOn s' index' => exact length_literalsLoop_le f limit _ words s' index'

/-- The outer loop, over the words that are left. -/
def wordsLoop : List UInt64 → σ → ℕ → σ
  | [], s, _ => s
  | word :: words, s, index =>
      if limit ≤ index then s
      else
        let part := wordPart f limit word words s index
        match part.1 with
        | .returned s' => s'
        | .goesOn s' index' => wordsLoop part.2 s' index'
termination_by words => words.length
decreasing_by exact Nat.lt_succ_of_le (length_wordPart_le f limit word words s index)

/-- The callback says whether to go on and may change its own state. -/
def EwahBitmap.forEachSetBit (bitmap : EwahBitmap) (s : σ) : σ :=
  wordsLoop f bitmap.numBits.toNat bitmap.words s 0

end ForEach

/-! ## The reference expansion -/

def runBit (word : UInt64) : Bool := word.toNat.testBit 0

def runLength (word : UInt64) : ℕ := word.toNat / 2 % 2 ^ 32

/-- Bits 33 to 63 of a run-length word. -/
@[irreducible] def literalCount (word : UInt64) : ℕ := word.toNat / 2 ^ 33

/-- The bits of a literal word, the lowest one first. -/
def bitsOf (literal : UInt64) : List Bool := bitIndexes.map literal.toNat.testBit

/-- The bits that the words stand for. -/
def expand : List UInt64 → List Bool
  | [] => []
  | word :: words =>
      List.replicate (64 * runLength word) (runBit word)
        ++ (words.take (literalCount word)).flatMap bitsOf
        ++ expand (words.drop (literalCount word))
termination_by words => words.length
decreasing_by exact Nat.lt_succ_of_le (List.length_drop.trans_le (Nat.sub_le _ _))

theorem rlwRunbitIsSet_eq (word : UInt64) : rlwRunbitIsSet word = runBit word := by
  rw [rlwRunbitIsSet, runBit, Nat.testBit_zero, Bool.eq_iff_iff, beq_iff_eq, decide_eq_true_eq,
    ← UInt64.toNat_inj, UInt64.toNat_and]
  change word.toNat &&& 1 = 1 ↔ _
  rw [Nat.and_one_is_mod]

theorem toNat_rlwRunningLenBits (word : UInt64) :
    (rlwRunningLenBits word).toNat = 64 * runLength word := by
  have hlen : (rlwRunningLen word).toNat = runLength word := by
    rw [rlwRunningLen, runLength, UInt64.toNat_and, UInt64.toNat_shiftRight]
    change word.toNat >>> 1 &&& (2 ^ 32 - 1) = _
    rw [Nat.and_two_pow_sub_one_eq_mod, Nat.shiftRight_eq_div_pow, Nat.pow_one]
  have hlt : runLength word < 2 ^ 32 := Nat.mod_lt _ (by decide)
  rw [rlwRunningLenBits, UInt64.toNat_mul, hlen]
  change runLength word * 64 % 2 ^ 64 = _
  omega

theorem toNat_rlwLiteralWords (word : UInt64) :
    (rlwLiteralWords word).toNat = literalCount word := by
  rw [rlwLiteralWords, literalCount, UInt64.toNat_shiftRight]
  change word.toNat >>> 33 = _
  rw [Nat.shiftRight_eq_div_pow]

theorem literal_bit_iff (literal : UInt64) {bitIdx : ℕ} (h : bitIdx < 64) :
    literal &&& (1 <<< UInt64.ofNat bitIdx) ≠ 0 ↔ literal.toNat.testBit bitIdx = true := by
  rw [Ne, ← UInt64.toNat_inj, UInt64.toNat_and, UInt64.toNat_shiftLeft]
  have hidx : (UInt64.ofNat bitIdx).toNat % 64 = bitIdx := by
    rw [UInt64.toNat_ofNat']
    omega
  have hpow : 2 ^ bitIdx < 2 ^ 64 := Nat.pow_lt_pow_right (by decide) h
  rw [hidx]
  change ¬ literal.toNat &&& (1 <<< bitIdx) % 2 ^ 64 = 0 ↔ _
  rw [Nat.one_shiftLeft, Nat.mod_eq_of_lt hpow, Nat.and_two_pow]
  cases literal.toNat.testBit bitIdx <;> simp

/-! ## The positions of the set bits -/

/-- The positions of the set bits below the limit, the first bit being at the index. -/
def positions (limit : ℕ) : ℕ → List Bool → List ℕ
  | _, [] => []
  | index, bit :: bits =>
      if limit ≤ index then []
      else if bit then index :: positions limit (index + 1) bits
      else positions limit (index + 1) bits

section Positions

variable {limit index : ℕ}

theorem positions_of_le (h : limit ≤ index) (bits : List Bool) :
    positions limit index bits = [] := by
  cases bits with
  | nil => rfl
  | cons bit bits => rw [positions, if_pos h]

theorem positions_replicate_false (n : ℕ) (bits : List Bool) :
    positions limit index (List.replicate n false ++ bits) = positions limit (index + n) bits := by
  induction n generalizing index with
  | zero => rfl
  | succ n ih =>
      rw [List.replicate_succ, List.cons_append, positions, if_neg Bool.false_ne_true, ih,
        Nat.add_right_comm, Nat.add_assoc]
      split_ifs with h
      · rw [positions_of_le (h.trans (Nat.le_add_right _ _))]
      · rfl

theorem mem_positions {bits : List Bool} {k : ℕ} :
    k ∈ positions limit index bits ↔ k < limit ∧ index ≤ k ∧ bits[k - index]? = some true := by
  induction bits generalizing index with
  | nil => simp [positions]
  | cons bit bits ih =>
      rw [positions]
      split_ifs with hlimit hbit
      · simp only [List.not_mem_nil, false_iff, not_and]
        omega
      · rw [List.mem_cons, ih]
        rcases Nat.lt_trichotomy k index with hk | rfl | hk
        · omega
        · simp only [true_or, Nat.sub_self, List.getElem?_cons_zero, hbit, and_true, le_refl,
            true_iff]
          omega
        · rw [show k - index = k - (index + 1) + 1 by omega, List.getElem?_cons_succ]
          simp only [hk.ne', false_or, Nat.succ_le_iff, hk, hk.le, true_and]
      · rw [ih]
        rcases Nat.lt_trichotomy k index with hk | rfl | hk
        · omega
        · simp only [Nat.sub_self, List.getElem?_cons_zero, hbit]
          simp
        · rw [show k - index = k - (index + 1) + 1 by omega, List.getElem?_cons_succ]
          simp only [Nat.succ_le_iff, hk, hk.le, true_and]

theorem pairwise_positions (bits : List Bool) :
    (positions limit index bits).Pairwise (· < ·) := by
  induction bits generalizing index with
  | nil => exact .nil
  | cons bit bits ih =>
      rw [positions]
      split_ifs
      · exact .nil
      · exact .cons (fun k hk => (mem_positions.mp hk).2.1) ih
      · exact ih

theorem positions_zero (limit : ℕ) (bits : List Bool) :
    positions limit 0 bits = (List.range limit).filter fun k => decide (bits[k]? = some true) := by
  refine List.Perm.eq_of_pairwise' (pairwise_positions bits)
    (List.pairwise_lt_range.filter _) ?_
  rw [List.perm_ext_iff_of_nodup ((pairwise_positions bits).imp ne_of_lt)
    (List.nodup_range.filter _)]
  intro k
  simp [mem_positions]

end Positions

/-! ## The walk visits the positions -/

section Walk

variable {σ : Type*} {f : σ → ℕ → Bool × σ} {limit : ℕ}

/-- The state at the end when the bits follow. -/
def Flow.finish (f : σ → ℕ → Bool × σ) (limit : ℕ) (bits : List Bool) : Flow σ → σ
  | .returned s => s
  | .goesOn s index => Callback.run f (positions limit index bits) s

theorem run_positions_true {s : σ} {index : ℕ} (h : ¬ limit ≤ index) (bits : List Bool) :
    Callback.run f (positions limit index (true :: bits)) s = match f s index with
      | (true, s') => Callback.run f (positions limit (index + 1) bits) s'
      | (false, s') => s' := by
  have hpositions : positions limit index (true :: bits)
      = index :: positions limit (index + 1) bits := by rw [positions, if_neg h, if_pos rfl]
  exact (congrArg (Callback.run f · s) hpositions).trans rfl

theorem finish_runLoop (hlimit : limit < 2 ^ 64) (len : ℕ) (s : σ) (index : ℕ) (more : List Bool) :
    (runLoop f limit len s index).finish f limit more
      = Callback.run f (positions limit index (List.replicate len true ++ more)) s := by
  induction len generalizing s index with
  | zero => rfl
  | succ len ih =>
      rw [runLoop, List.replicate_succ, List.cons_append]
      split_ifs with h
      · rw [positions_of_le h]
        rfl
      · rw [run_positions_true h]
        rcases f s index with ⟨_ | _, s'⟩
        · rfl
        · exact (ih s' _).trans (by rw [Nat.mod_eq_of_lt (by omega)])

theorem finish_literalLoop (hlimit : limit < 2 ^ 64) (literal : UInt64) {bits : List ℕ}
    (hbits : ∀ b ∈ bits, b < 64) (s : σ) (index : ℕ) (more : List Bool) :
    (literalLoop f limit literal bits s index).finish f limit more
      = Callback.run f (positions limit index (bits.map literal.toNat.testBit ++ more)) s := by
  induction bits generalizing s index with
  | nil => rfl
  | cons b bits ih =>
      have ih := ih fun b' hb' => hbits b' (List.mem_cons_of_mem b hb')
      rw [literalLoop, List.map_cons, List.cons_append]
      simp only [literal_bit_iff literal (hbits b List.mem_cons_self)]
      split_ifs with h hbit
      · rw [positions_of_le h]
        rfl
      · rw [hbit, run_positions_true h]
        rcases f s index with ⟨_ | _, s'⟩
        · rfl
        · exact (ih s' _).trans (by rw [Nat.mod_eq_of_lt (by omega)])
      · rw [ih, Nat.mod_eq_of_lt (by omega), positions, if_neg h, if_neg hbit]

theorem finish_literalsLoop (hlimit : limit < 2 ^ 64) (literals : ℕ) (words : List UInt64) (s : σ)
    (index : ℕ) :
    (literalsLoop f limit literals words s index).1.finish f limit (expand (words.drop literals))
        = Callback.run f (positions limit index
          ((words.take literals).flatMap bitsOf ++ expand (words.drop literals))) s
      ∧ ∀ s' index', (literalsLoop f limit literals words s index).1 = .goesOn s' index' →
        (literalsLoop f limit literals words s index).2 = words.drop literals := by
  induction literals generalizing words s index with
  | zero => exact ⟨rfl, fun _ _ _ => rfl⟩
  | succ literals ih =>
      cases words with
      | nil =>
          rw [literalsLoop, ite_self, List.drop_nil, List.take_nil, List.flatMap_nil, expand]
          exact ⟨rfl, fun _ _ _ => rfl⟩
      | cons literal words =>
          rw [literalsLoop, List.take_succ_cons, List.drop_succ_cons, List.flatMap_cons,
            List.append_assoc]
          have hbits : ∀ b ∈ bitIndexes, b < 64 := fun b hb => by
            rw [bitIndexes] at hb
            exact List.mem_range.mp hb
          have hliteral := finish_literalLoop (f := f) hlimit literal hbits s index
            ((words.take literals).flatMap bitsOf ++ expand (words.drop literals))
          split_ifs with h
          · rw [positions_of_le h]
            exact ⟨rfl, fun _ _ h => by cases h⟩
          · rw [bitsOf, ← hliteral]
            cases literalLoop f limit literal bitIndexes s index with
            | returned s' => exact ⟨rfl, fun _ _ h => by cases h⟩
            | goesOn s' index' => exact ih words s' index'

theorem finish_runPart (hlimit : limit < 2 ^ 64) (word : UInt64) (s : σ) {index : ℕ}
    (more : List Bool) :
    (runPart f limit word s index).finish f limit more
      = Callback.run f (positions limit index
          (List.replicate (64 * runLength word) (runBit word) ++ more)) s := by
  rw [runPart, rlwRunbitIsSet_eq, toNat_rlwRunningLenBits]
  cases runBit word with
  | true => exact finish_runLoop hlimit _ s index more
  | false =>
      rw [if_neg Bool.false_ne_true, positions_replicate_false, Flow.finish]
      rcases Nat.le_total (index + 64 * runLength word) Usize.greatest with h | h
      · rw [Usize.saturatingAdd_eq h]
      · have hmax : limit ≤ Usize.greatest := by rw [Usize.greatest]; omega
        rw [Usize.saturatingAdd, Nat.min_eq_right h, positions_of_le hmax,
          positions_of_le (hmax.trans h)]

theorem wordsLoop_eq (hlimit : limit < 2 ^ 64) (words : List UInt64) (s : σ) (index : ℕ) :
    wordsLoop f limit words s index = Callback.run f (positions limit index (expand words)) s := by
  induction hlen : words.length using Nat.strong_induction_on generalizing words s index with
  | _ n ih =>
      cases words with
      | nil => rw [wordsLoop, expand]; rfl
      | cons word words =>
          rw [wordsLoop, expand, List.append_assoc, ← finish_runPart hlimit]
          split_ifs with h
          · rw [finish_runPart hlimit, positions_of_le h]
            rfl
          · rw [wordPart]
            cases runPart f limit word s index with
            | returned s' => rfl
            | goesOn s' index' =>
                dsimp only
                rw [toNat_rlwLiteralWords]
                have hle := length_literalsLoop_le f limit (literalCount word) words s' index'
                obtain ⟨hfinish, hwords⟩ := finish_literalsLoop (f := f) hlimit (literalCount word)
                  words s' index'
                rw [Flow.finish, ← hfinish]
                cases hflow : (literalsLoop f limit (literalCount word) words s' index').1 with
                | returned s'' => rfl
                | goesOn s'' index'' =>
                    dsimp only
                    rw [ih _ (by rw [← hlen]; exact Nat.lt_succ_of_le hle) _ s'' index'' rfl,
                      hwords s'' index'' hflow]
                    rfl

end Walk

/-! ## The decoder reads what the encoding has -/

def putU64 (word : UInt64) : Bytes := Nat.toBigEndian 8 word.toNat

/-- The bytes of a bitmap: the header, the words and the trailer. -/
def EwahBitmap.bytes (bitmap : EwahBitmap) : Bytes :=
  Nat.toBigEndian 4 bitmap.numBits.toNat ++ Nat.toBigEndian 4 bitmap.words.length
    ++ bitmap.words.flatMap putU64 ++ Nat.toBigEndian 4 bitmap.rlw.toNat

theorem readU32Be_eq_ok_iff {input rest : Bytes} {ctx : String} {n : UInt32} :
    readU32Be input ctx = .ok (n, rest) ↔ input = Nat.toBigEndian 4 n.toNat ++ rest := by
  rw [readU32Be]
  constructor
  · intro h
    split_ifs at h with hlen
    simp only [Except.ok.injEq, Prod.mk.injEq] at h
    obtain ⟨rfl, rfl⟩ := h
    have htake : (input.take 4).length = 4 := by
      rw [List.length_take]
      omega
    have hlt : Nat.ofBigEndian (input.take 4) < 2 ^ 32 :=
      (Nat.ofBigEndian_lt (input.take 4)).trans_eq (by rw [htake]; rfl)
    rw [UInt32.toNat_ofNat', Nat.mod_eq_of_lt hlt, Nat.toBigEndian_ofBigEndian htake,
      List.take_append_drop]
  · rintro rfl
    have hlen := Nat.length_toBigEndian 4 n.toNat
    rw [if_neg (by rw [List.length_append]; omega), List.take_left' hlen, List.drop_left' hlen,
      Nat.ofBigEndian_toBigEndian, show 256 ^ 4 = 2 ^ 32 from rfl, Nat.mod_eq_of_lt n.toNat_lt,
      UInt32.ofNat_toNat]

theorem length_flatMap_putU64 (words : List UInt64) :
    (words.flatMap putU64).length = words.length * 8 := by
  induction words with
  | nil => rfl
  | cons word words ih =>
      rw [List.flatMap_cons, List.length_append, ih, putU64, Nat.length_toBigEndian,
        List.length_cons]
      omega

theorem wordsOf_append {chunk : Bytes} (h : chunk.length = 8) (bytes : Bytes) :
    wordsOf (chunk ++ bytes) = .ofNat (Nat.ofBigEndian chunk) :: wordsOf bytes := by
  obtain ⟨b₀, b₁, b₂, b₃, b₄, b₅, b₆, b₇, rfl⟩ : ∃ b₀ b₁ b₂ b₃ b₄ b₅ b₆ b₇,
      chunk = [b₀, b₁, b₂, b₃, b₄, b₅, b₆, b₇] := by
    match chunk, h with
    | [b₀, b₁, b₂, b₃, b₄, b₅, b₆, b₇], _ => exact ⟨b₀, b₁, b₂, b₃, b₄, b₅, b₆, b₇, rfl⟩
  rfl

theorem wordsOf_flatMap_putU64 (words : List UInt64) : wordsOf (words.flatMap putU64) = words := by
  induction words with
  | nil => rfl
  | cons word words ih =>
      rw [List.flatMap_cons, putU64, wordsOf_append (Nat.length_toBigEndian 8 _), ih,
        Nat.ofBigEndian_toBigEndian, show 256 ^ 8 = 2 ^ 64 from rfl,
        Nat.mod_eq_of_lt word.toNat_lt, UInt64.ofNat_toNat]

theorem wordsOf_spec {n : ℕ} {bytes : Bytes} (h : bytes.length = n * 8) :
    (wordsOf bytes).flatMap putU64 = bytes ∧ (wordsOf bytes).length = n := by
  induction n generalizing bytes with
  | zero =>
      rw [Nat.zero_mul, List.length_eq_zero_iff] at h
      subst h
      exact ⟨rfl, rfl⟩
  | succ n ih =>
      have htake : (bytes.take 8).length = 8 := by
        rw [List.length_take]
        omega
      have hdrop : (bytes.drop 8).length = n * 8 := by
        rw [List.length_drop]
        omega
      have hlt : Nat.ofBigEndian (bytes.take 8) < 2 ^ 64 :=
        (Nat.ofBigEndian_lt (bytes.take 8)).trans_eq (by rw [htake]; rfl)
      obtain ⟨hflat, hlen⟩ := ih hdrop
      have hcut := wordsOf_append htake (bytes.drop 8)
      rw [List.take_append_drop] at hcut
      rw [hcut, List.flatMap_cons, hflat, putU64, UInt64.toNat_ofNat', Nat.mod_eq_of_lt hlt,
        Nat.toBigEndian_ofBigEndian htake, List.take_append_drop, List.length_cons, hlen]
      exact ⟨rfl, rfl⟩

theorem decode_eq_ok_iff {input rest : Bytes} {bitmap : EwahBitmap} :
    EwahBitmap.decode input = .ok (bitmap, rest)
      ↔ bitmap.words.length < 2 ^ 32 ∧ input = bitmap.bytes ++ rest := by
  constructor
  · intro h
    rw [EwahBitmap.decode] at h
    split at h
    · cases h
    · rename_i numBits rest₁ hbits
      split at h
      · cases h
      · rename_i wordLen rest₂ hlen
        dsimp only at h
        split_ifs at h with hmax hshort
        split at h
        · cases h
        · rename_i rlw rest₃ hrlw
          simp only [Except.ok.injEq, Prod.mk.injEq] at h
          obtain ⟨rfl, rfl⟩ := h
          have htake : (rest₂.take (wordLen.toNat * 8)).length = wordLen.toNat * 8 := by
            rw [List.length_take]
            omega
          obtain ⟨hflat, hlength⟩ := wordsOf_spec htake
          rw [readU32Be_eq_ok_iff] at hbits hlen hrlw
          refine ⟨hlength.trans_lt wordLen.toNat_lt, ?_⟩
          rw [EwahBitmap.bytes, hbits, hlen, hlength, hflat]
          simp only [List.append_assoc]
          rw [← hrlw, List.take_append_drop]
  · rintro ⟨hlt, rfl⟩
    obtain ⟨numBits, words, rlw⟩ := bitmap
    dsimp only at hlt
    have hwordLen : (UInt32.ofNat words.length).toNat = words.length := by
      rw [UInt32.toNat_ofNat', Nat.mod_eq_of_lt hlt]
    have hflat := length_flatMap_putU64 words
    have hbits : readU32Be (EwahBitmap.bytes ⟨numBits, words, rlw⟩ ++ rest) "num_bits"
        = .ok (numBits, Nat.toBigEndian 4 words.length ++ (words.flatMap putU64
          ++ (Nat.toBigEndian 4 rlw.toNat ++ rest))) := by
      rw [readU32Be_eq_ok_iff, EwahBitmap.bytes]
      simp only [List.append_assoc]
    have hlen : readU32Be (Nat.toBigEndian 4 words.length ++ (words.flatMap putU64
        ++ (Nat.toBigEndian 4 rlw.toNat ++ rest))) "word_len"
        = .ok (.ofNat words.length, words.flatMap putU64
          ++ (Nat.toBigEndian 4 rlw.toNat ++ rest)) := by
      rw [readU32Be_eq_ok_iff, hwordLen]
    have hrlw : readU32Be (Nat.toBigEndian 4 rlw.toNat ++ rest) "rlw" = .ok (rlw, rest) :=
      readU32Be_eq_ok_iff.mpr rfl
    have hmax : ¬ Usize.greatest < words.length * 8 := by
      rw [Usize.greatest]
      omega
    rw [EwahBitmap.decode, hbits]
    dsimp only
    rw [hlen]
    dsimp only
    rw [hwordLen, if_neg hmax, if_neg (by rw [List.length_append]; omega), List.drop_left' hflat,
      List.take_left' hflat, hrlw, wordsOf_flatMap_putU64]

/-! ## What the callback gets -/

def EwahBitmap.setBits (bitmap : EwahBitmap) : List ℕ :=
  (List.range bitmap.numBits.toNat).filter fun k => decide ((expand bitmap.words)[k]? = some true)

theorem forEachSetBit_eq {σ : Type*} (f : σ → ℕ → Bool × σ) (bitmap : EwahBitmap) (s : σ) :
    bitmap.forEachSetBit f s = Callback.run f bitmap.setBits s := by
  have hlimit : bitmap.numBits.toNat < 2 ^ 64 := bitmap.numBits.toNat_lt.trans (by decide)
  rw [EwahBitmap.forEachSetBit, wordsLoop_eq hlimit, positions_zero, EwahBitmap.setBits]

theorem EwahBitmap.length_bytes (bitmap : EwahBitmap) :
    bitmap.bytes.length = 8 + 8 * bitmap.words.length + 4 := by
  simp only [bytes, List.length_append, Nat.length_toBigEndian, length_flatMap_putU64]
  omega

/-- The decoder takes the header, eight bytes for each word and the trailer. The callback gets the
set bits in ascending order, each once, and all of them unless it stops at the last one it gets. -/
theorem ewah_bitmap {σ : Type*} (bitmap : EwahBitmap) (f : σ → ℕ → Bool × σ) (s : σ)
    (input rest : Bytes) :
    (EwahBitmap.decode input = .ok (bitmap, rest)
        ↔ bitmap.words.length < 2 ^ 32 ∧ input = bitmap.bytes ++ rest)
      ∧ bitmap.bytes.length = 8 + 8 * bitmap.words.length + 4
      ∧ bitmap.setBits.Pairwise (· < ·)
      ∧ (∀ k, k ∈ bitmap.setBits
        ↔ k < bitmap.numBits.toNat ∧ (expand bitmap.words)[k]? = some true)
      ∧ bitmap.forEachSetBit (Callback.logged f) ([], s)
        = (Callback.visited f bitmap.setBits s, bitmap.forEachSetBit f s)
      ∧ Callback.visited f bitmap.setBits s <+: bitmap.setBits
      ∧ (Callback.visited f bitmap.setBits s = bitmap.setBits
        ∨ ∃ before last, Callback.visited f bitmap.setBits s = before ++ [last]
          ∧ (f (Callback.run f before s) last).1 = false) := by
  refine ⟨decode_eq_ok_iff, bitmap.length_bytes, List.pairwise_lt_range.filter _, fun k => ?_, ?_,
    Callback.visited_prefix f _ s, Callback.visited_eq_or_stops f _ s⟩
  · rw [EwahBitmap.setBits, List.mem_filter, List.mem_range, decide_eq_true_eq]
  · rw [forEachSetBit_eq, Callback.run_logged, List.nil_append, forEachSetBit_eq]

example : (⟨64, [0x200000000, 21], 0⟩ : EwahBitmap).setBits = [0, 2, 4] := by
  simp [EwahBitmap.setBits, expand, runLength, runBit, literalCount, bitsOf, bitIndexes]
  decide

end ArcVcs.Ewah
