import ArcVcs.GitObject
import ArcVcs.Hex
import ArcVcs.Sparse

/-!
# The texts of a git repository

What `arc-git` reads in them. Texts are handled as their lists of characters.
-/

namespace ArcVcs.Git

open SparsePattern (isWhiteSpace trimMatches)

/-- `str::trim`. -/
def trim (s : List Char) : List Char := trimMatches isWhiteSpace s

/-- Some object id when there are 20 bytes. -/
def GitOid.ofBytes? (bytes : Bytes) : Option GitOid :=
  if h : bytes.length = 20 then some ⟨bytes, h⟩ else none

/-- The slices of two bytes. `none` is the panic at a slice that parts a character, and the inner
`none` the error at one that is no number. -/
def sliceHex : Bytes → Option (Option Bytes)
  | [] => some (some [])
  | [_] => none
  | hi :: lo :: rest =>
      if hi < 128 ∧ lo < 128 then
        match fromStrRadix hi lo with
        | none => some none
        | some byte => (sliceHex rest).map fun bytes => bytes.map (UInt8.ofNat byte :: ·)
      else if 194 ≤ hi ∧ hi ≤ 223 then some none
      else none

/-- `parse_hex_oid`. The outer `none` is a panic. -/
def parseHexOid (hex : List Char) : Option (Option GitOid) :=
  let bytes := utf8 (String.ofList hex)
  if bytes.length ≠ 40 then some none
  else (sliceHex bytes).map fun out => out.bind GitOid.ofBytes?

theorem utf8_ofList (s : List Char) : utf8 (String.ofList s) = s.flatMap String.utf8EncodeChar := by
  rw [utf8_eq, String.toByteArray_ofList]
  simp [List.utf8Encode]

theorem hexDigit_spec : ∀ n : Fin 16, let byte := UInt8.ofNat (Blake3Hash.hexDigit n).toNat
    byte < 128 ∧ byte ≠ 43 ∧ nybble byte = some n.val
      ∧ String.utf8EncodeChar (Blake3Hash.hexDigit n) = [byte]
      ∧ isWhiteSpace (Blake3Hash.hexDigit n) = false := by
  decide

theorem hexDigit_lt_spec {n : ℕ} (h : n < 16) : ∃ byte < 128, byte ≠ 43 ∧ nybble byte = some n
    ∧ String.utf8EncodeChar (Blake3Hash.hexDigit n) = [byte]
    ∧ isWhiteSpace (Blake3Hash.hexDigit n) = false := ⟨_, hexDigit_spec ⟨n, h⟩⟩

theorem sliceHex_hexPair (b : UInt8) (rest : Bytes) :
    sliceHex ((hexPair b).flatMap String.utf8EncodeChar ++ rest)
      = (sliceHex rest).map fun bytes => bytes.map (b :: ·) := by
  have hb := b.toNat_lt
  obtain ⟨hi, hhi, hplus, hvalue, henc, -⟩ := hexDigit_lt_spec (n := b.toNat / 16) (by omega)
  obtain ⟨lo, hlo, -, hvalue', henc', -⟩ := hexDigit_lt_spec (n := b.toNat % 16) (by omega)
  have hbyte : UInt8.ofNat (16 * (b.toNat / 16) + b.toNat % 16) = b := by
    rw [Nat.div_add_mod]
    exact UInt8.ofNat_toNat
  rw [hexPair, List.flatMap_cons, List.flatMap_singleton, henc, henc', List.singleton_append,
    List.cons_append, List.singleton_append, sliceHex, if_pos ⟨hhi, hlo⟩, fromStrRadix,
    if_neg hplus, hvalue, hvalue']
  simp [hbyte]

theorem sliceHex_flatMap (bytes : Bytes) :
    sliceHex ((bytes.flatMap hexPair).flatMap String.utf8EncodeChar) = some (some bytes) := by
  induction bytes with
  | nil => rfl
  | cons b bytes ih =>
      rw [List.flatMap_cons, List.flatMap_append, sliceHex_hexPair, ih]
      rfl

theorem length_flatMap_hexPair (bytes : Bytes) :
    ((bytes.flatMap hexPair).flatMap String.utf8EncodeChar).length = 2 * bytes.length := by
  induction bytes with
  | nil => rfl
  | cons b bytes ih =>
      have hb := b.toNat_lt
      obtain ⟨hi, -, -, -, henc, -⟩ := hexDigit_lt_spec (n := b.toNat / 16) (by omega)
      obtain ⟨lo, -, -, -, henc', -⟩ := hexDigit_lt_spec (n := b.toNat % 16) (by omega)
      rw [List.flatMap_cons, List.flatMap_append, List.length_append, ih, hexPair,
        List.flatMap_cons, List.flatMap_singleton, henc, henc']
      simp
      omega

/-- **An object id is read as it is displayed.** -/
theorem parseHexOid_display (oid : GitOid) : parseHexOid oid.display.toList = some (some oid) := by
  rw [parseHexOid, GitOid.display, String.toList_ofList, utf8_ofList, length_flatMap_hexPair,
    oid.length_bytes, if_neg (by simp), sliceHex_flatMap]
  simp [GitOid.ofBytes?, oid.length_bytes]

theorem trimMatches_of_forall {p : Char → Bool} {s : List Char} (h : ∀ c ∈ s, p c = false) :
    trimMatches p s = s := by
  have hdrop {s : List Char} (h : ∀ c ∈ s, p c = false) : s.dropWhile p = s := by
    cases s with
    | nil => rfl
    | cons c s => rw [List.dropWhile_cons, h c List.mem_cons_self, if_neg Bool.false_ne_true]
  rw [trimMatches, hdrop h, hdrop (fun c hc => h c (List.mem_reverse.mp hc)), List.reverse_reverse]

theorem isWhiteSpace_of_mem_display {oid : GitOid} {c : Char} (hc : c ∈ oid.display.toList) :
    isWhiteSpace c = false := by
  rw [GitOid.display, String.toList_ofList] at hc
  obtain ⟨b, -, hc⟩ := List.mem_flatMap.mp hc
  have hb := b.toNat_lt
  rcases List.mem_pair.mp hc with rfl | rfl
  · exact (hexDigit_lt_spec (by omega)).choose_spec.2.2.2.2
  · exact (hexDigit_lt_spec (by omega)).choose_spec.2.2.2.2

theorem trim_display (oid : GitOid) : trim oid.display.toList = oid.display.toList :=
  trimMatches_of_forall fun _ => isWhiteSpace_of_mem_display

/-- `str::lines`. A carriage return belongs to the line feed after it. -/
def linesOf (line : List Char) : List Char → List (List Char)
  | [] => if line = [] then [] else [line]
  | '\r' :: '\n' :: s => line :: linesOf [] s
  | '\n' :: s => line :: linesOf [] s
  | c :: s => linesOf (line ++ [c]) s

def lines (s : List Char) : List (List Char) := linesOf [] s

def stripPrefix : List Char → List Char → Option (List Char)
  | [], s => some s
  | _ :: _, [] => none
  | c :: cs, d :: s => if c = d then stripPrefix cs s else none

theorem stripPrefix_append (p s : List Char) : stripPrefix p (p ++ s) = some s := by
  induction p with
  | nil => rfl
  | cons c p ih => rw [List.cons_append, stripPrefix, if_pos rfl, ih]

theorem eq_append_of_stripPrefix {p s rest : List Char} (h : stripPrefix p s = some rest) :
    s = p ++ rest := by
  induction p generalizing s with
  | nil => exact Option.some_inj.mp h
  | cons c p ih =>
      cases s with
      | nil => cases h
      | cons d s =>
          rw [stripPrefix] at h
          split_ifs at h with hc
          rw [hc, List.cons_append, ih h]

/-- The part before the first space and the one after it, when there is a space. -/
def splitSpace : List Char → Option (List Char × List Char)
  | [] => none
  | c :: s => if c = ' ' then some ([], s) else (splitSpace s).map fun p => (c :: p.1, p.2)

end ArcVcs.Git
