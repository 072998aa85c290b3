import ArcVcs.GitText
import ArcVcs.Lib.Reader
import ArcVcs.Lib.Encoding
import ArcVcs.Revisions
import ArcVcs.Revset

/-!
# Ids in hexadecimal

Three readers go through a text by pairs of bytes and leave each pair to `u8::from_str_radix`, which
also takes a plus sign before one digit. `GitOid::from_hex` decodes the digits itself.
-/

namespace ArcVcs

open Git (GitOid GitSha1 hexPair parseHexOid)
open Revset (parseHexHash)
open Utf8 (encode_ascii encode_of_not_ascii encode_two encode_wide utf8Size_eq_one_iff)

/-- Two calls of `decode_hex_nibble`. -/
def digitPair (hi lo : UInt8) : Option ℕ := do
  let hi ← nybble hi
  let lo ← nybble lo
  some (16 * hi + lo)

namespace Git

/-- `GitSha1::from_hex`. -/
def GitSha1.fromHex (hex : String) : Option GitSha1 :=
  if (utf8 hex).length ≠ 40 then none
  else (hexBytes fromStrRadix (utf8 hex)).bind GitOid.ofBytes?

/-- `GitOid::from_hex`. -/
def GitOid.fromHex (hex : String) : Except String GitOid :=
  if (utf8 hex).length ≠ 40 then .error "git oid hex must be exactly 40 characters"
  else
    match (hexBytes digitPair (utf8 hex)).bind GitOid.ofBytes? with
    | none => .error "invalid hex digit in git oid"
    | some oid => .ok oid

end Git

def IsHexDigit (c : Char) : Prop := c ∈ "0123456789abcdefABCDEF".toList
deriving Decidable

/-- The text is a number of hexadecimal digits. -/
def IsHex (digits : ℕ) (s : String) : Prop :=
  s.toList.length = digits ∧ ∀ c ∈ s.toList, IsHexDigit c

/-- What is accepted is that many digits, and they are rendered in lower case. -/
def ParsesExactly {α : Type} (parse : String → Option α) (render : α → String) (digits : ℕ)
    (s : String) : Prop :=
  ((parse s).isSome ↔ IsHex digits s) ∧ ∀ id, parse s = some id → render id = s.toLower

def HexIdsParseExactly (s : String) : Prop :=
  ParsesExactly GitSha1.fromHex GitSha1.toHex 40 s
    ∧ ParsesExactly (fun s => (parseHexOid s.toList).join) GitOid.display 40 s
    ∧ ParsesExactly parseHexHash Blake3Hash.toHex 64 s
    ∧ GitSha1.fromHex s = (GitOid.fromHex s).toOption

def pairsText (pairs : List (Char × Char)) : List Char := pairs.flatMap fun p => [p.1, p.2]

/-- A pair that `u8::from_str_radix` reads. -/
def IsPair (p : Char × Char) : Prop := (p.1 = '+' ∨ IsHexDigit p.1) ∧ IsHexDigit p.2

/-- Pairs of which one has a sign. -/
def IsSignedHex (count : ℕ) (s : String) : Prop :=
  ∃ pairs, s.toList = pairsText pairs ∧ pairs.length = count ∧ (∀ p ∈ pairs, IsPair p)
    ∧ ∃ p ∈ pairs, p.1 = '+'

/-- The second byte of the text is not the last one of its character. -/
def EndsInside (s : List Char) : Prop :=
  (∃ c s', s = c :: s' ∧ 3 ≤ c.utf8Size)
    ∨ ∃ c d s', s = c :: d :: s' ∧ c.utf8Size = 1 ∧ d.utf8Size ≠ 1

/-- A slice behind some pairs ends inside a character. -/
def PartsChar (s : List Char) : Prop :=
  ∃ pairs rest, s = pairsText pairs ++ rest ∧ (∀ p ∈ pairs, IsPair p) ∧ EndsInside rest

/-! ## Pairs -/

section Pairs

variable {pair : UInt8 → UInt8 → Option ℕ} {s : List Char} {out : Bytes}

/-- A pair of characters is read as a byte. -/
def Reads (pair : UInt8 → UInt8 → Option ℕ) (p : Char × Char) (b : UInt8) : Prop :=
  p.1.toNat < 128 ∧ p.2.toNat < 128
    ∧ (pair (UInt8.ofNat p.1.toNat) (UInt8.ofNat p.2.toNat)).map UInt8.ofNat = some b

theorem not_lt_128 {b : UInt8} (h : 194 ≤ b) : ¬ b < 128 :=
  UInt8.not_lt.mpr (UInt8.le_trans (by decide) h)

theorem hexBytes_cons_cons (hi lo : UInt8) (rest : Bytes) : hexBytes pair (hi :: lo :: rest)
    = ((pair hi lo).map UInt8.ofNat).bind fun b => (hexBytes pair rest).map (b :: ·) := by
  rw [hexBytes]
  cases pair hi lo <;> cases hexBytes pair rest <;> rfl

theorem hexBytes_pairsText {pairs : List (Char × Char)} (h : List.Forall₂ (Reads pair) pairs out) :
    hexBytes pair ((pairsText pairs).flatMap String.utf8EncodeChar) = some out := by
  induction h with
  | nil => rfl
  | cons hreads _ ih =>
      rename_i p b pairs out
      rw [pairsText, List.flatMap_cons, List.flatMap_append, List.flatMap_cons,
        List.flatMap_singleton, encode_ascii hreads.1, encode_ascii hreads.2.1,
        List.singleton_append, List.cons_append, List.singleton_append, hexBytes_cons_cons,
        hreads.2.2, ← pairsText, ih]
      rfl

/-- A reader of ASCII pairs accepts nothing but pairs. By induction on two characters at a time. -/
theorem exists_pairs_of_hexBytes
    (hascii : ∀ {hi lo n}, pair hi lo = some n → hi < 128 ∧ lo < 128)
    (h : hexBytes pair (s.flatMap String.utf8EncodeChar) = some out) :
    ∃ pairs, s = pairsText pairs ∧ List.Forall₂ (Reads pair) pairs out := by
  have hnone {b b' : UInt8} {bs : Bytes} (hb : ¬ (b < 128 ∧ b' < 128)) :
      hexBytes pair (b :: b' :: bs) = none := by
    rw [hexBytes_cons_cons]
    cases hpair : pair b b' with
    | none => rfl
    | some n => exact absurd (hascii hpair) hb
  induction s using List.twoStepInduction generalizing out with
  | nil => exact ⟨[], rfl, by cases h; exact .nil⟩
  | singleton c =>
      rw [List.flatMap_singleton] at h
      by_cases hc : c.toNat < 128
      · rw [encode_ascii hc] at h
        cases h
      · obtain ⟨b, b', bs, henc, hb⟩ := encode_of_not_ascii hc
        rw [henc, hnone fun hlt => not_lt_128 hb hlt.1] at h
        cases h
  | cons_cons c d s ih _ =>
      rw [List.flatMap_cons, List.flatMap_cons] at h
      by_cases hc : c.toNat < 128
      · rw [encode_ascii hc, List.singleton_append] at h
        by_cases hd : d.toNat < 128
        · rw [encode_ascii hd, List.singleton_append, hexBytes_cons_cons] at h
          obtain ⟨b, hb, hrest⟩ := Option.bind_eq_some_iff.mp h
          obtain ⟨bytes, hbytes, rfl⟩ := Option.map_eq_some_iff.mp hrest
          obtain ⟨pairs, rfl, hpairs⟩ := ih hbytes
          exact ⟨(c, d) :: pairs, rfl, .cons ⟨hc, hd, hb⟩ hpairs⟩
        · obtain ⟨b, b', bs, henc, hb⟩ := encode_of_not_ascii hd
          rw [henc, List.cons_append, hnone fun hlt => not_lt_128 hb hlt.2] at h
          cases h
      · obtain ⟨b, b', bs, henc, hb⟩ := encode_of_not_ascii hc
        rw [henc, List.cons_append, List.cons_append, hnone fun hlt => not_lt_128 hb hlt.1] at h
        cases h

end Pairs

/-! ## Digits -/

theorem nybble_spec : ∀ n : Fin 128, ∀ v ∈ nybble (UInt8.ofNat n),
    v < 16 ∧ IsHexDigit (Char.ofNat n) ∧ (Char.ofNat n).toLower = Blake3Hash.hexDigit v := by
  decide +kernel

theorem isHexDigit_spec : ∀ c ∈ "0123456789abcdefABCDEF".toList,
    c.toNat < 128 ∧ (nybble (UInt8.ofNat c.toNat)).isSome ∧ c ≠ '+' := by
  have hall : ("0123456789abcdefABCDEF".toList.all fun c =>
      decide (c.toNat < 128 ∧ (nybble (UInt8.ofNat c.toNat)).isSome ∧ c ≠ '+')) = true := by
    decide +kernel
  exact fun c hc => of_decide_eq_true (List.all_eq_true.mp hall c hc)

theorem lt_of_nybble {b : UInt8} {v : ℕ} (h : nybble b = some v) : b < 128 := by
  rw [nybble] at h
  split_ifs at h with hdec hlow hup
  · exact UInt8.lt_of_le_of_lt hdec.2 (by decide)
  · exact UInt8.lt_of_le_of_lt hlow.2 (by decide)
  · exact UInt8.lt_of_le_of_lt hup.2 (by decide)

theorem digitPair_eq_some_iff {hi lo : UInt8} {n : ℕ} : digitPair hi lo = some n ↔
    ∃ v, nybble hi = some v ∧ ∃ w, nybble lo = some w ∧ 16 * v + w = n := by
  simp [digitPair, Option.bind_eq_some_iff]

theorem fromStrRadix_eq (hi lo : UInt8) :
    fromStrRadix hi lo = if hi = 43 then nybble lo else digitPair hi lo := rfl

theorem ascii_of_digitPair {hi lo : UInt8} {n : ℕ} (h : digitPair hi lo = some n) :
    hi < 128 ∧ lo < 128 := by
  obtain ⟨v, hv, w, hw, -⟩ := digitPair_eq_some_iff.mp h
  exact ⟨lt_of_nybble hv, lt_of_nybble hw⟩

theorem ascii_of_fromStrRadix {hi lo : UInt8} {n : ℕ} (h : fromStrRadix hi lo = some n) :
    hi < 128 ∧ lo < 128 := by
  rw [fromStrRadix_eq] at h
  split_ifs at h with hplus
  · exact ⟨hplus ▸ by decide, lt_of_nybble h⟩
  · exact ascii_of_digitPair h

theorem nybble_char {c : Char} {v : ℕ} (hc : c.toNat < 128)
    (h : nybble (UInt8.ofNat c.toNat) = some v) :
    v < 16 ∧ IsHexDigit c ∧ c.toLower = Blake3Hash.hexDigit v := by
  have hspec := nybble_spec ⟨c.toNat, hc⟩ v h
  rwa [Char.ofNat_toNat] at hspec

theorem IsHexDigit.nybble {c : Char} (h : IsHexDigit c) :
    c.toNat < 128 ∧ ∃ v, nybble (UInt8.ofNat c.toNat) = some v := by
  obtain ⟨hc, hvalue, -⟩ := isHexDigit_spec c h
  exact ⟨hc, Option.isSome_iff_exists.mp hvalue⟩

theorem IsHexDigit.ne_plus {c : Char} (h : IsHexDigit c) : c ≠ '+' := (isHexDigit_spec c h).2.2

theorem ofNat_toNat_eq_plus_iff {c : Char} (hc : c.toNat < 128) :
    UInt8.ofNat c.toNat = 43 ↔ c = '+' := by
  have hall : ∀ n : Fin 128, UInt8.ofNat n = 43 ↔ Char.ofNat n = '+' := by decide +kernel
  have hone := hall ⟨c.toNat, hc⟩
  rwa [Char.ofNat_toNat] at hone

theorem Reads.of_digitPair {p : Char × Char} {b : UInt8} (h : Reads digitPair p b) :
    IsHexDigit p.1 ∧ IsHexDigit p.2 ∧ hexPair b = [p.1.toLower, p.2.toLower] := by
  obtain ⟨h₁, h₂, hvalue⟩ := h
  obtain ⟨n, hn, rfl⟩ := Option.map_eq_some_iff.mp hvalue
  obtain ⟨v, hv, w, hw, rfl⟩ := digitPair_eq_some_iff.mp hn
  obtain ⟨hv16, hdigit₁, hlower₁⟩ := nybble_char h₁ hv
  obtain ⟨hw16, hdigit₂, hlower₂⟩ := nybble_char h₂ hw
  refine ⟨hdigit₁, hdigit₂, ?_⟩
  rw [hexPair, UInt8.toNat_ofNat', Nat.mod_eq_of_lt (by omega), hlower₁, hlower₂,
    show (16 * v + w) / 16 = v by omega, show (16 * v + w) % 16 = w by omega]

theorem exists_reads_digitPair {p : Char × Char} (h₁ : IsHexDigit p.1) (h₂ : IsHexDigit p.2) :
    ∃ b, Reads digitPair p b := by
  obtain ⟨hascii₁, v, hv⟩ := h₁.nybble
  obtain ⟨hascii₂, w, hw⟩ := h₂.nybble
  refine ⟨UInt8.ofNat (16 * v + w), hascii₁, hascii₂, ?_⟩
  rw [digitPair_eq_some_iff.mpr ⟨v, hv, w, hw, rfl⟩, Option.map_some]

theorem reads_fromStrRadix_iff {p : Char × Char} {b : UInt8} (h : p.1 ≠ '+') :
    Reads fromStrRadix p b ↔ Reads digitPair p b := by
  refine and_congr_right fun hascii => ?_
  rw [fromStrRadix_eq, if_neg (mt (ofNat_toNat_eq_plus_iff hascii).mp h)]

theorem Reads.fromStrRadix {p : Char × Char} {b : UInt8} (h : Reads digitPair p b) :
    Reads fromStrRadix p b :=
  (reads_fromStrRadix_iff h.of_digitPair.1.ne_plus).mpr h

theorem exists_reads_fromStrRadix_iff {p : Char × Char} :
    (∃ b, Reads fromStrRadix p b) ↔ IsPair p := by
  obtain ⟨c, d⟩ := p
  constructor
  · rintro ⟨b, hb⟩
    by_cases hplus : c = '+'
    · obtain ⟨-, hd, hvalue⟩ := hb
      obtain ⟨v, hv, -⟩ := Option.map_eq_some_iff.mp hvalue
      rw [fromStrRadix_eq, if_pos (by rw [hplus]; rfl)] at hv
      exact ⟨.inl hplus, (nybble_char hd hv).2.1⟩
    · obtain ⟨hc, hd, -⟩ := ((reads_fromStrRadix_iff hplus).mp hb).of_digitPair
      exact ⟨.inr hc, hd⟩
  · rintro ⟨hplus | hc, hd⟩
    · obtain ⟨hascii, v, hv⟩ := hd.nybble
      obtain rfl : c = '+' := hplus
      have hplus : '+'.toNat < 128 := by decide
      refine ⟨UInt8.ofNat v, hplus, hascii, ?_⟩
      rw [fromStrRadix_eq, if_pos (by rfl), hv, Option.map_some]
    · obtain ⟨b, hb⟩ := exists_reads_digitPair (p := (c, d)) hc hd
      exact ⟨b, hb.fromStrRadix⟩

/-! ## Texts -/

section Texts

variable {s : String} {out : Bytes} {count : ℕ}

theorem utf8_eq_flatMap (s : String) : utf8 s = s.toList.flatMap String.utf8EncodeChar := by
  rw [← Git.utf8_ofList, String.ofList_toList]

theorem hexBytes_of_toList {pair : UInt8 → UInt8 → Option ℕ} {pairs : List (Char × Char)}
    (hs : s.toList = pairsText pairs) (h : List.Forall₂ (Reads pair) pairs out) :
    hexBytes pair (utf8 s) = some out := by
  rw [utf8_eq_flatMap, hs, hexBytes_pairsText h]

theorem length_pairsText (pairs : List (Char × Char)) :
    (pairsText pairs).length = 2 * pairs.length := by
  rw [pairsText, List.length_flatMap]
  simp
  omega

theorem length_utf8_pairsText {pair : UInt8 → UInt8 → Option ℕ} {pairs : List (Char × Char)}
    (hs : s.toList = pairsText pairs) (h : List.Forall₂ (Reads pair) pairs out) :
    (utf8 s).length = 2 * pairs.length := by
  rw [utf8_eq_flatMap, hs]
  clear hs
  induction h with
  | nil => rfl
  | cons hreads _ ih =>
      rw [pairsText, List.flatMap_cons, List.flatMap_append, List.length_append, ← pairsText, ih,
        List.flatMap_cons, List.flatMap_singleton, encode_ascii hreads.1, encode_ascii hreads.2.1]
      simp
      omega

/-- The digits of the bytes. -/
def hexText (bytes : Bytes) : String := String.ofList (bytes.flatMap hexPair)

theorem hexBytes_digitPair_spec (h : hexBytes digitPair (utf8 s) = some out) :
    IsHex (2 * out.length) s ∧ hexText out = s.toLower := by
  rw [utf8_eq_flatMap] at h
  obtain ⟨pairs, hs, hreads⟩ := exists_pairs_of_hexBytes ascii_of_digitPair h
  refine ⟨⟨by rw [hs, length_pairsText, hreads.length_eq], ?_⟩, ?_⟩
  · rw [hs]
    clear hs h
    induction hreads with
    | nil => simp [pairsText]
    | cons hpair _ ih =>
        obtain ⟨hfst, hsnd, -⟩ := hpair.of_digitPair
        rw [pairsText, List.flatMap_cons]
        intro c hc
        rcases List.mem_append.mp hc with hc | hc
        · rcases List.mem_pair.mp hc with rfl | rfl
          · exact hfst
          · exact hsnd
        · exact ih c hc
  · rw [hexText, ← String.toList_inj, String.toList_ofList,
      show s.toLower = s.map Char.toLower from rfl, String.toList_map, hs]
    clear hs h
    induction hreads with
    | nil => rfl
    | cons hpair _ ih =>
        rw [pairsText, List.flatMap_cons, List.flatMap_cons, List.map_append, ← pairsText, ih,
          hpair.of_digitPair.2.2]
        rfl

theorem exists_pairs_of_forall {l : List Char} (hlength : l.length = 2 * count)
    (h : ∀ c ∈ l, IsHexDigit c) :
    ∃ pairs, l = pairsText pairs ∧ ∃ out, List.Forall₂ (Reads digitPair) pairs out := by
  induction count generalizing l with
  | zero => exact ⟨[], List.eq_nil_of_length_eq_zero hlength, [], .nil⟩
  | succ count ih =>
      obtain ⟨c, d, l, rfl⟩ : ∃ c d l', l = c :: d :: l' := by
        match l, hlength with
        | [], hlength => simp at hlength
        | [_], hlength => simp at hlength; omega
        | c :: d :: l, _ => exact ⟨c, d, l, rfl⟩
      obtain ⟨pairs, rfl, out, hout⟩ := ih (l := l)
        (by rw [List.length_cons, List.length_cons] at hlength; omega)
        fun c hc => h c (List.mem_cons_of_mem _ (List.mem_cons_of_mem _ hc))
      obtain ⟨b, hb⟩ := exists_reads_digitPair (p := (c, d)) (h c List.mem_cons_self)
        (h d (List.mem_cons_of_mem _ List.mem_cons_self))
      exact ⟨(c, d) :: pairs, rfl, b :: out, .cons hb hout⟩

theorem IsHex.exists_hexBytes (h : IsHex (2 * count) s) :
    (utf8 s).length = 2 * count ∧ ∃ out, hexBytes digitPair (utf8 s) = some out := by
  obtain ⟨pairs, hs, out, hout⟩ := exists_pairs_of_forall h.1 h.2
  refine ⟨?_, out, hexBytes_of_toList hs hout⟩
  rw [length_utf8_pairsText hs hout, ← length_pairsText, ← hs, h.1]

theorem hexBytes_fromStrRadix_of_digitPair (h : hexBytes digitPair (utf8 s) = some out) :
    hexBytes fromStrRadix (utf8 s) = some out := by
  rw [utf8_eq_flatMap] at h
  obtain ⟨pairs, hs, hreads⟩ := exists_pairs_of_hexBytes ascii_of_digitPair h
  exact hexBytes_of_toList hs (hreads.imp fun _ _ => Reads.fromStrRadix)

theorem exists_reads_of_isPair {pairs : List (Char × Char)} (h : ∀ p ∈ pairs, IsPair p) :
    ∃ out, List.Forall₂ (Reads fromStrRadix) pairs out := by
  induction pairs with
  | nil => exact ⟨[], .nil⟩
  | cons p pairs ih =>
      obtain ⟨b, hb⟩ := exists_reads_fromStrRadix_iff.mpr (h p List.mem_cons_self)
      obtain ⟨out, hout⟩ := ih fun p hp => h p (List.mem_cons_of_mem _ hp)
      exact ⟨b :: out, .cons hb hout⟩

theorem isPair_of_reads {pairs : List (Char × Char)}
    (h : List.Forall₂ (Reads fromStrRadix) pairs out) : ∀ p ∈ pairs, IsPair p := by
  induction h with
  | nil => simp
  | cons hpair _ ih =>
      exact List.forall_mem_cons.mpr ⟨exists_reads_fromStrRadix_iff.mp ⟨_, hpair⟩, ih⟩

theorem reads_digitPair_of_ne {pairs : List (Char × Char)}
    (h : List.Forall₂ (Reads fromStrRadix) pairs out) (hplus : ∀ p ∈ pairs, p.1 ≠ '+') :
    List.Forall₂ (Reads digitPair) pairs out := by
  induction h with
  | nil => exact .nil
  | cons hpair _ ih =>
      rw [List.forall_mem_cons] at hplus
      exact .cons ((reads_fromStrRadix_iff hplus.1).mp hpair) (ih hplus.2)

/-- **The library parser goes beyond the digits where a pair has a sign**, and nowhere else. -/
theorem hexBytes_fromStrRadix_cases (h : hexBytes fromStrRadix (utf8 s) = some out) :
    hexBytes digitPair (utf8 s) = some out ∨ IsSignedHex out.length s := by
  rw [utf8_eq_flatMap] at h
  obtain ⟨pairs, hs, hreads⟩ := exists_pairs_of_hexBytes ascii_of_fromStrRadix h
  by_cases hplus : ∃ p ∈ pairs, p.1 = '+'
  · exact .inr ⟨pairs, hs, hreads.length_eq, isPair_of_reads hreads, hplus⟩
  · exact .inl (hexBytes_of_toList hs (reads_digitPair_of_ne hreads fun p hp heq =>
      hplus ⟨p, hp, heq⟩))

theorem IsSignedHex.exists_hexBytes (h : IsSignedHex count s) :
    (utf8 s).length = 2 * count ∧ (∃ out, hexBytes fromStrRadix (utf8 s) = some out)
      ∧ ∀ n, ¬ IsHex n s := by
  obtain ⟨pairs, hs, rfl, hpairs, p, hp, hplus⟩ := h
  obtain ⟨out, hout⟩ := exists_reads_of_isPair hpairs
  refine ⟨length_utf8_pairsText hs hout, ⟨out, hexBytes_of_toList hs hout⟩, fun n hn => ?_⟩
  have hmem : '+' ∈ s.toList := by
    rw [hs, pairsText]
    exact List.mem_flatMap.mpr ⟨p, hp, hplus ▸ List.mem_cons_self⟩
  exact (hn.2 '+' hmem).ne_plus rfl

/-- The bytes of a text of a number of pairs, as the three readers have them. -/
def readHex (count : ℕ) (s : String) : Option Bytes :=
  if (utf8 s).length ≠ 2 * count then none else hexBytes fromStrRadix (utf8 s)

theorem readHex_eq_some_iff :
    readHex count s = some out ↔
      (utf8 s).length = 2 * count ∧ hexBytes fromStrRadix (utf8 s) = some out := by
  rw [readHex]
  by_cases h : (utf8 s).length = 2 * count
  · rw [if_neg (not_not.mpr h), and_iff_right h]
  · rw [if_pos h]
    exact iff_of_false (by simp) fun h' => h h'.1

theorem length_of_readHex (h : readHex count s = some out) : out.length = count := by
  obtain ⟨hlength, h⟩ := readHex_eq_some_iff.mp h
  rw [utf8_eq_flatMap] at h
  obtain ⟨pairs, hs, hreads⟩ := exists_pairs_of_hexBytes ascii_of_fromStrRadix h
  rw [length_utf8_pairsText hs hreads] at hlength
  rw [← hreads.length_eq]
  omega

theorem parsesExactly_readHex_iff :
    ParsesExactly (readHex count) hexText (2 * count) s ↔ ¬ IsSignedHex count s := by
  constructor
  · rintro ⟨haccepts, -⟩ hsigned
    obtain ⟨hlength, ⟨out, hout⟩, hnot⟩ := hsigned.exists_hexBytes
    have hread := readHex_eq_some_iff.mpr ⟨hlength, hout⟩
    exact hnot _ (haccepts.mp (by rw [hread]; rfl))
  · intro hsigned
    have hdigits {out : Bytes} (h : readHex count s = some out) :
        hexBytes digitPair (utf8 s) = some out :=
      (hexBytes_fromStrRadix_cases (readHex_eq_some_iff.mp h).2).resolve_right
        fun h' => hsigned (length_of_readHex h ▸ h')
    refine ⟨⟨fun h => ?_, fun h => ?_⟩, fun out h => (hexBytes_digitPair_spec (hdigits h)).2⟩
    · obtain ⟨out, hout⟩ := Option.isSome_iff_exists.mp h
      rw [← length_of_readHex hout]
      exact (hexBytes_digitPair_spec (hdigits hout)).1
    · obtain ⟨hlength, out, hout⟩ := h.exists_hexBytes
      rw [readHex_eq_some_iff.mpr ⟨hlength, hexBytes_fromStrRadix_of_digitPair hout⟩]
      rfl

/-! ## The readers -/

theorem ParsesExactly.congr {α β : Type} {parse : String → Option α} {render : α → String}
    {parse' : String → Option β} {render' : β → String}
    (h : (parse s).map render = (parse' s).map render') :
    ParsesExactly parse render count s ↔ ParsesExactly parse' render' count s := by
  rw [ParsesExactly, ParsesExactly]
  cases hparse : parse s <;> cases hparse' : parse' s <;> rw [hparse, hparse'] at h
  · simp
  · cases h
  · cases h
  · simp [Option.some_inj.mp h]

theorem map_display_ofBytes (h : out.length = 20) :
    (GitOid.ofBytes? out).map GitOid.display = some (hexText out) := by
  rw [GitOid.ofBytes?, dif_pos h]
  rfl

theorem map_readHex_bind {render : GitOid → String} (hrender : render = GitOid.display) :
    ((readHex 20 s).bind GitOid.ofBytes?).map render = (readHex 20 s).map hexText := by
  cases h : readHex 20 s with
  | none => rfl
  | some out =>
      rw [Option.bind_some, hrender, map_display_ofBytes (length_of_readHex h)]
      rfl

theorem fromHex_eq_readHex : GitSha1.fromHex s = (readHex 20 s).bind GitOid.ofBytes? := by
  rw [GitSha1.fromHex, readHex]
  split_ifs <;> rfl

theorem join_sliceHex (bytes : Bytes) :
    (Git.sliceHex bytes).join = hexBytes fromStrRadix bytes := by
  fun_induction Git.sliceHex bytes with
  | case1 => rfl
  | case2 => rfl
  | case3 hi lo rest hascii hnone =>
      rw [hexBytes_cons_cons, hnone]
      rfl
  | case4 hi lo rest hascii byte hbyte ih =>
      rw [hexBytes_cons_cons, hbyte, ← ih]
      cases Git.sliceHex rest <;> rfl
  | case5 hi lo rest hascii =>
      rw [hexBytes_cons_cons]
      cases hpair : fromStrRadix hi lo with
      | none => rfl
      | some n => exact absurd (ascii_of_fromStrRadix hpair) hascii
  | case6 hi lo rest hascii =>
      rw [hexBytes_cons_cons]
      cases hpair : fromStrRadix hi lo with
      | none => rfl
      | some n => exact absurd (ascii_of_fromStrRadix hpair) hascii

theorem parseHexOid_toList (s : String) : parseHexOid s.toList =
    if (utf8 s).length ≠ 40 then some none
    else (Git.sliceHex (utf8 s)).map fun out => out.bind GitOid.ofBytes? := by
  rw [parseHexOid, String.ofList_toList]

theorem join_parseHexOid :
    (parseHexOid s.toList).join = (readHex 20 s).bind GitOid.ofBytes? := by
  rw [parseHexOid_toList, readHex, ← join_sliceHex]
  split_ifs
  · rfl
  · cases Git.sliceHex (utf8 s) <;> rfl

/-- The digits of a big-endian number are those of its bytes. By induction from the last byte. -/
theorem digits_ofBigEndian (bytes : Bytes) :
    (List.range (2 * bytes.length)).map (fun i => Blake3Hash.hexDigit
      (Nat.ofBigEndian bytes / 16 ^ (2 * bytes.length - 1 - i) % 16)) = bytes.flatMap hexPair := by
  induction bytes using List.reverseRecOn with
  | nil => rfl
  | append_singleton bytes b ih =>
      have hb := b.toNat_lt
      rw [List.length_append, List.length_singleton, Nat.mul_add, mul_one, List.range_succ,
        List.range_succ, List.map_append, List.map_append, List.flatMap_append,
        List.flatMap_singleton, ← ih, List.append_assoc, Nat.ofBigEndian_concat]
      congr 1
      · refine List.map_congr_left fun i hi => ?_
        have hi := List.mem_range.mp hi
        rw [show 2 * bytes.length + 2 - 1 - i = 2 + (2 * bytes.length - 1 - i) by omega, pow_add,
          ← Nat.div_div_eq_div_mul, show 16 ^ 2 = 256 by rfl, Nat.mul_add_div (by decide),
          Nat.div_eq_of_lt hb, add_zero]
      · rw [hexPair, List.map_singleton, List.map_singleton, List.singleton_append]
        refine congrArg₂ (fun hi lo => [Blake3Hash.hexDigit hi, Blake3Hash.hexDigit lo]) ?_ ?_
        · rw [show 2 * bytes.length + 2 - 1 - 2 * bytes.length = 1 by omega, pow_one]
          omega
        · rw [show 2 * bytes.length + 2 - 1 - (2 * bytes.length + 1) = 0 by omega, pow_zero,
            Nat.div_one]
          omega

theorem toHex_ofBytes (h : out.length = 32) : (Blake3Hash.ofBytes out).toHex = hexText out := by
  have hlt := Nat.ofBigEndian_lt out
  rw [h] at hlt
  have hnat : (Blake3Hash.ofBytes out).toNat = Nat.ofBigEndian out :=
    Nat.mod_eq_of_lt (lt_of_lt_of_eq hlt (by rfl))
  rw [Blake3Hash.toHex, hexText, hnat, ← digits_ofBigEndian, h]

theorem parseHexHash_eq_readHex : parseHexHash s = (readHex 32 s).map Blake3Hash.ofBytes := by
  rw [parseHexHash, readHex]
  split_ifs <;> rfl

theorem map_toHex_parseHexHash :
    (parseHexHash s).map Blake3Hash.toHex = (readHex 32 s).map hexText := by
  rw [parseHexHash_eq_readHex]
  cases h : readHex 32 s with
  | none => rfl
  | some out => rw [Option.map_some, Option.map_some, toHex_ofBytes (length_of_readHex h)]; rfl

theorem hexBytes_hexText (bytes : Bytes) : hexBytes digitPair (utf8 (hexText bytes)) = some bytes
    ∧ (utf8 (hexText bytes)).length = 2 * bytes.length := by
  have hdigit : ∀ n < 16, (Blake3Hash.hexDigit n).toNat < 128
      ∧ nybble (UInt8.ofNat (Blake3Hash.hexDigit n).toNat) = some n := by decide
  obtain ⟨pairs, hpairs, hreads⟩ : ∃ pairs, bytes.flatMap hexPair = pairsText pairs
      ∧ List.Forall₂ (Reads digitPair) pairs bytes := by
    induction bytes with
    | nil => exact ⟨[], rfl, .nil⟩
    | cons b bytes ih =>
        obtain ⟨pairs, hpairs, hreads⟩ := ih
        have hb := b.toNat_lt
        obtain ⟨hhi, hv⟩ := hdigit (b.toNat / 16) (by omega)
        obtain ⟨hlo, hw⟩ := hdigit (b.toNat % 16) (by omega)
        refine ⟨(Blake3Hash.hexDigit (b.toNat / 16), Blake3Hash.hexDigit (b.toNat % 16)) :: pairs,
          by rw [List.flatMap_cons, hpairs]; rfl, .cons ⟨hhi, hlo, ?_⟩ hreads⟩
        rw [digitPair_eq_some_iff.mpr ⟨_, hv, _, hw, Nat.div_add_mod _ _⟩, Option.map_some,
          UInt8.ofNat_toNat]
  have hs : (hexText bytes).toList = pairsText pairs := by
    rw [hexText, String.toList_ofList, hpairs]
  refine ⟨hexBytes_of_toList hs hreads, ?_⟩
  rw [length_utf8_pairsText hs hreads, hreads.length_eq]

theorem fromHex_display (oid : GitOid) : GitOid.fromHex oid.display = .ok oid := by
  obtain ⟨hbytes, hlength⟩ := hexBytes_hexText oid.bytes
  have hdisplay : oid.display = hexText oid.bytes := rfl
  rw [oid.length_bytes] at hlength
  rw [GitOid.fromHex, hdisplay, if_neg (not_not.mpr hlength), hbytes, Option.bind_some,
    GitOid.ofBytes?, dif_pos oid.length_bytes]

end Texts

theorem hexBytes_eq_of_not_signed {s : String} (hlength : (utf8 s).length = 40)
    (h : ¬ IsSignedHex 20 s) : hexBytes fromStrRadix (utf8 s) = hexBytes digitPair (utf8 s) := by
  cases hread : hexBytes fromStrRadix (utf8 s) with
  | some out =>
      have hout := @length_of_readHex _ _ 20 (readHex_eq_some_iff.mpr ⟨hlength, hread⟩)
      exact ((hexBytes_fromStrRadix_cases hread).resolve_right fun h' => h (hout ▸ h')).symm
  | none =>
      cases hdigits : hexBytes digitPair (utf8 s) with
      | none => rfl
      | some out =>
          rw [hexBytes_fromStrRadix_of_digitPair hdigits] at hread
          cases hread

theorem fromHex_eq_toOption {s : String} (h : ¬ IsSignedHex 20 s) :
    GitSha1.fromHex s = (GitOid.fromHex s).toOption := by
  rw [GitSha1.fromHex, GitOid.fromHex]
  by_cases hlength : (utf8 s).length = 40
  · rw [if_neg (not_not.mpr hlength), if_neg (not_not.mpr hlength),
      hexBytes_eq_of_not_signed hlength h]
    cases (hexBytes digitPair (utf8 s)).bind GitOid.ofBytes? <;> rfl
  · rw [if_pos hlength, if_pos hlength]
    rfl

/-! ## Slices -/

theorem IsPair.ascii {p : Char × Char} (h : IsPair p) : p.1.toNat < 128 ∧ p.2.toNat < 128 := by
  obtain ⟨b, hfst, hsnd, -⟩ := exists_reads_fromStrRadix_iff.mpr h
  exact ⟨hfst, hsnd⟩

theorem not_endsInside_of_ascii {c d : Char} {s : List Char} (hc : c.toNat < 128)
    (hd : d.toNat < 128) : ¬ EndsInside (c :: d :: s) := by
  rintro (⟨c', s', hs, hsize⟩ | ⟨c', d', s', hs, -, hsize⟩)
  · obtain ⟨rfl, -⟩ := List.cons_eq_cons.mp hs
    rw [utf8Size_eq_one_iff.mpr hc] at hsize
    omega
  · obtain ⟨rfl, htail⟩ := List.cons_eq_cons.mp hs
    obtain ⟨rfl, -⟩ := List.cons_eq_cons.mp htail
    exact hsize (utf8Size_eq_one_iff.mpr hd)

theorem partsChar_cons_cons {c d : Char} {s : List Char} (h : IsPair (c, d)) :
    PartsChar (c :: d :: s) ↔ PartsChar s := by
  constructor
  · rintro ⟨pairs, rest, hs, hpairs, hrest⟩
    cases pairs with
    | nil =>
        obtain rfl : c :: d :: s = rest := hs
        exact absurd hrest (not_endsInside_of_ascii h.ascii.1 h.ascii.2)
    | cons p pairs =>
        obtain ⟨-, htail⟩ := List.cons_eq_cons.mp hs
        exact ⟨pairs, rest, (List.cons_eq_cons.mp htail).2, (List.forall_mem_cons.mp hpairs).2,
          hrest⟩
  · rintro ⟨pairs, rest, rfl, hpairs, hrest⟩
    exact ⟨(c, d) :: pairs, rest, rfl, List.forall_mem_cons.mpr ⟨h, hpairs⟩, hrest⟩

theorem partsChar_iff_endsInside {s : List Char}
    (h : ∀ c d s', s = c :: d :: s' → ¬ IsPair (c, d)) : PartsChar s ↔ EndsInside s := by
  refine ⟨?_, fun hs => ⟨[], s, rfl, by simp, hs⟩⟩
  rintro ⟨pairs, rest, rfl, hpairs, hrest⟩
  cases pairs with
  | nil => exact hrest
  | cons p pairs => exact absurd (hpairs p List.mem_cons_self) (h p.1 p.2 _ rfl)

theorem ofNat_lt_128 {n : ℕ} (h : n < 128) : UInt8.ofNat n < 128 := by
  rw [UInt8.lt_iff_toNat_lt, UInt8.toNat_ofNat', Nat.mod_eq_of_lt (by omega)]
  exact h

theorem endsInside_cons_iff {c : Char} {s : List Char} (hc : ¬ c.toNat < 128) :
    EndsInside (c :: s) ↔ 3 ≤ c.utf8Size := by
  constructor
  · rintro (⟨c', s', hs, hsize⟩ | ⟨c', d', s', hs, hsize, -⟩)
    · exact (List.cons_eq_cons.mp hs).1 ▸ hsize
    · obtain ⟨rfl, -⟩ := List.cons_eq_cons.mp hs
      exact absurd (utf8Size_eq_one_iff.mp hsize) hc
  · exact fun hsize => .inl ⟨c, s, rfl, hsize⟩

theorem sliceHex_encode_eq_none_iff {c : Char} (hc : ¬ c.toNat < 128) (bytes : Bytes) :
    Git.sliceHex (String.utf8EncodeChar c ++ bytes) = none ↔ 3 ≤ c.utf8Size := by
  have hone : c.utf8Size ≠ 1 := fun heq => hc (utf8Size_eq_one_iff.mp heq)
  have hpos := c.utf8Size_pos
  rcases Nat.lt_or_ge c.utf8Size 3 with hlt | hge
  · obtain ⟨b, b', henc, hb, hb'⟩ := encode_two (c := c) (by omega)
    rw [henc, List.cons_append, List.cons_append, Git.sliceHex,
      if_neg fun h => not_lt_128 hb h.1, if_pos ⟨hb, hb'⟩]
    exact iff_of_false (by simp) (by omega)
  · obtain ⟨b, b', bs, henc, -, hb⟩ := encode_wide hge
    rw [henc, List.cons_append, List.cons_append, Git.sliceHex,
      if_neg fun h => not_lt_128 (UInt8.le_trans (by decide) hb) h.1,
      if_neg fun h => absurd (UInt8.le_trans hb h.2) (by decide)]
    exact iff_of_true rfl hge

/-- By induction on two characters at a time, which are two bytes when they are a pair. -/
theorem sliceHex_eq_none_iff {s : List Char} {count : ℕ}
    (h : (s.flatMap String.utf8EncodeChar).length = 2 * count) :
    Git.sliceHex (s.flatMap String.utf8EncodeChar) = none ↔ PartsChar s := by
  have hhead {c : Char} {s : List Char} (hc : ¬ c.toNat < 128) :
      Git.sliceHex ((c :: s).flatMap String.utf8EncodeChar) = none ↔ PartsChar (c :: s) := by
    rw [List.flatMap_cons, sliceHex_encode_eq_none_iff hc, partsChar_iff_endsInside,
      endsInside_cons_iff hc]
    intro c' d s' hs hpair
    exact hc ((List.cons_eq_cons.mp hs).1 ▸ hpair.ascii.1)
  induction s using List.twoStepInduction generalizing count with
  | nil =>
      rw [partsChar_iff_endsInside (by simp)]
      exact iff_of_false (by simp [Git.sliceHex]) (by simp [EndsInside])
  | singleton c =>
      by_cases hc : c.toNat < 128
      · rw [List.flatMap_singleton, encode_ascii hc, List.length_singleton] at h
        omega
      · exact hhead hc
  | cons_cons c d s ih _ =>
      by_cases hc : c.toNat < 128
      swap
      · exact hhead hc
      rw [List.flatMap_cons, List.flatMap_cons, encode_ascii hc] at h ⊢
      by_cases hd : d.toNat < 128
      · rw [encode_ascii hd] at h ⊢
        rw [List.singleton_append, List.singleton_append, Git.sliceHex,
          if_pos ⟨ofNat_lt_128 hc, ofNat_lt_128 hd⟩]
        cases hpair : fromStrRadix (UInt8.ofNat c.toNat) (UInt8.ofNat d.toNat) with
        | none =>
            refine iff_of_false (by simp) fun hparts => ?_
            refine not_endsInside_of_ascii hc hd ((partsChar_iff_endsInside ?_).mp hparts)
            intro c' d' s' hs hread
            obtain ⟨rfl, htail⟩ := List.cons_eq_cons.mp hs
            obtain ⟨rfl, -⟩ := List.cons_eq_cons.mp htail
            obtain ⟨b, -, -, hb⟩ := exists_reads_fromStrRadix_iff.mpr hread
            rw [hpair] at hb
            cases hb
        | some n =>
            have hread : IsPair (c, d) :=
              exists_reads_fromStrRadix_iff.mp ⟨_, hc, hd, by rw [hpair]; rfl⟩
            have hrest : (s.flatMap String.utf8EncodeChar).length = 2 * (count - 1) := by
              rw [List.length_append, List.length_append, List.length_singleton,
                List.length_singleton] at h
              omega
            rw [partsChar_cons_cons hread]
            exact Iff.trans (by simp) (ih hrest)
      · obtain ⟨b, b', bs, henc, hb⟩ := encode_of_not_ascii hd
        have hlow : ¬ 194 ≤ UInt8.ofNat c.toNat := fun h => not_lt_128 h (ofNat_lt_128 hc)
        rw [henc, List.singleton_append, List.cons_append, Git.sliceHex,
          if_neg fun h => not_lt_128 hb h.2, if_neg fun h => hlow h.1,
          partsChar_iff_endsInside]
        · exact iff_of_true rfl (.inr ⟨c, d, s, rfl, utf8Size_eq_one_iff.mpr hc,
            fun hsize => hd (utf8Size_eq_one_iff.mp hsize)⟩)
        · intro c' d' s' hs hpair
          obtain ⟨-, htail⟩ := List.cons_eq_cons.mp hs
          exact hd ((List.cons_eq_cons.mp htail).1 ▸ hpair.ascii.2)

/-- **An id in hexadecimal is read exactly where no pair has a sign.** -/
theorem hexIds_exact_iff (s : String) :
    (HexIdsParseExactly s ↔ ¬ IsSignedHex 20 s ∧ ¬ IsSignedHex 32 s)
      ∧ (parseHexOid s.toList = none ↔ (utf8 s).length = 40 ∧ PartsChar s.toList) := by
  have hsha1 : ParsesExactly GitSha1.fromHex GitSha1.toHex 40 s ↔ ¬ IsSignedHex 20 s := by
    rw [← parsesExactly_readHex_iff]
    refine ParsesExactly.congr ?_
    rw [fromHex_eq_readHex, map_readHex_bind (funext Git.toHex_eq_display)]
  have hoid : ParsesExactly (fun s => (parseHexOid s.toList).join) GitOid.display 40 s
      ↔ ¬ IsSignedHex 20 s := by
    rw [← parsesExactly_readHex_iff]
    refine ParsesExactly.congr ?_
    rw [join_parseHexOid, map_readHex_bind rfl]
  have hhash : ParsesExactly parseHexHash Blake3Hash.toHex 64 s ↔ ¬ IsSignedHex 32 s := by
    rw [← parsesExactly_readHex_iff]
    exact ParsesExactly.congr map_toHex_parseHexHash
  refine ⟨?_, ?_⟩
  · rw [HexIdsParseExactly, hsha1, hoid, hhash]
    exact ⟨fun h => ⟨h.1, h.2.2.1⟩, fun h => ⟨h.1, h.1, h.2, fromHex_eq_toOption h.1⟩⟩
  · rw [parseHexOid_toList]
    by_cases hlength : (utf8 s).length = 40
    · rw [if_neg (not_not.mpr hlength), Option.map_eq_none_iff, and_iff_right hlength]
      rw [utf8_eq_flatMap] at hlength ⊢
      exact @sliceHex_eq_none_iff _ 20 hlength
    · rw [if_pos hlength]
      exact iff_of_false (by simp) fun h => hlength h.1

/-- Twenty pairs of a sign and a digit are read as an object id. -/
theorem signed_id_accepted : ¬ HexIdsParseExactly "+0+1+2+3+4+5+6+7+8+9+a+b+c+d+e+f+0+1+2+3" := by
  rintro ⟨⟨haccepts, -⟩, -⟩
  have hsome : (GitSha1.fromHex "+0+1+2+3+4+5+6+7+8+9+a+b+c+d+e+f+0+1+2+3").isSome := by
    decide +kernel
  exact (haccepts.mp hsome).2 '+' (by decide +kernel) |>.ne_plus rfl

end ArcVcs
