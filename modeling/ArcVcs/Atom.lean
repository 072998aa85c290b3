import ArcVcs.Lib.Encoding
import Mathlib.Data.Fin.Basic
import Mathlib.Order.Fin.Basic
import Mathlib.Data.Nat.Notation

/-!
# The atom vocabulary

Hashes, node paths and the atoms of `arc-algebra-types`, with the byte encodings that
replay stores in the state.
-/

namespace ArcVcs

/-- A 32-byte digest read as a big-endian number, so that `<` is the byte order. -/
def Blake3Hash := Fin (2 ^ 256)

abbrev NodePath := List String

abbrev Bytes := List UInt8

instance neZeroDigests : NeZero (2 ^ 256 : ℕ) := inferInstance

namespace Blake3Hash

instance : LinearOrder Blake3Hash := inferInstanceAs (LinearOrder (Fin (2 ^ 256)))

instance : LawfulBEq Blake3Hash := inferInstance

instance (n : ℕ) : OfNat Blake3Hash n := inferInstanceAs (OfNat (Fin (2 ^ 256)) n)

def toNat (h : Blake3Hash) : ℕ := Fin.val h

/-- The digest with a number, reduced to 256 bits. -/
def ofNat (n : ℕ) : Blake3Hash := Fin.ofNat (2 ^ 256) n

/-- The 32 bytes, most significant first. -/
def asBytes (h : Blake3Hash) : Bytes :=
  (List.range 32).map fun i => UInt8.ofNat (h.toNat / 256 ^ (31 - i))

/-- The digest with the bytes, most significant first. -/
def ofBytes (bytes : Bytes) : Blake3Hash :=
  ofNat (bytes.foldl (fun acc b => 256 * acc + b.toNat) 0)

def hexDigit (n : ℕ) : Char :=
  if n < 10 then Char.ofNat ('0'.toNat + n) else Char.ofNat ('a'.toNat + (n - 10))

/-- The 64 lowercase hexadecimal digits. -/
def toHex (h : Blake3Hash) : String :=
  String.ofList ((List.range 64).map fun i => hexDigit (h.toNat / 16 ^ (63 - i) % 16))

end Blake3Hash

/-- Bytes of a string literal or of formatted text. -/
def utf8 (s : String) : Bytes := s.toUTF8.toList

theorem utf8_eq (s : String) : utf8 s = s.toByteArray.data.toList :=
  ByteArray.toList_eq_data_toList _

theorem utf8_injective : Function.Injective utf8 := by
  intro s s' h
  rw [utf8_eq, utf8_eq] at h
  exact String.toByteArray_inj.mp (ByteArray.ext (Array.toList_inj.mp h))

theorem fromUtf8_utf8 (s : String) : String.fromUTF8? (utf8 s).toByteArray = some s := by
  have hbytes : (utf8 s).toByteArray = s.toByteArray := by
    apply ByteArray.ext
    apply Array.toList_inj.mp
    rw [List.toList_data_toByteArray, utf8_eq]
  rw [hbytes, String.fromUTF8?, dif_pos s.isValidUTF8]
  rfl

/-- Address of a mounted sub-graph. -/
structure SpacetimeCoordinate where
  ns : String
  repo : String
  hash : Blake3Hash
deriving DecidableEq

def SpacetimeCoordinate.toUri (c : SpacetimeCoordinate) : String :=
  "arc://" ++ c.ns ++ "/" ++ c.repo ++ "@" ++ c.hash.toHex

inductive Atom where
  | insert (at_ : NodePath) (contentHash : Blake3Hash)
  | delete (at_ : NodePath) (priorHash : Blake3Hash)
  | move (from_ to_ : NodePath)
  | semanticsPreserving (at_ : NodePath) (description : String)
  | directory (path : NodePath)
  | blob (path : String) (hash : Blake3Hash) (size : UInt64)
  | mount (path : NodePath) (coordinate : SpacetimeCoordinate)
  | conflict (bases sides : List Blake3Hash) (at_ : NodePath)
deriving DecidableEq

namespace Atom

/-- Every AST path the atom touches. A `blob` reports none. -/
def paths : Atom → List NodePath
  | insert at_ _ => [at_]
  | delete at_ _ => [at_]
  | move from_ to_ => [from_, to_]
  | semanticsPreserving at_ _ => [at_]
  | directory path => [path]
  | blob .. => []
  | mount path _ => [path]
  | conflict _ _ at_ => [at_]

end Atom

/-! ## Serialized forms -/

namespace Bincode

/-- `n` as a little-endian number of `width` bytes. -/
def le (width n : ℕ) : Bytes :=
  (List.range width).map fun i => UInt8.ofNat (n / 256 ^ i)

/-- A length prefix and the encoded elements. -/
def vec {α : Type*} (enc : α → Bytes) (xs : List α) : Bytes :=
  le 8 xs.length ++ xs.flatMap enc

def str (s : String) : Bytes := le 8 (utf8 s).length ++ utf8 s

/-- A `Conflict` atom: its variant index and its three fields. -/
def conflict (bases sides : List Blake3Hash) (at_ : NodePath) : Bytes :=
  le 4 7 ++ vec Blake3Hash.asBytes bases ++ vec Blake3Hash.asBytes sides ++ vec str at_

end Bincode

/-- The token that replay stores for a tracked asset. -/
def blobToken (hash : Blake3Hash) : Bytes := utf8 "ARC_BLOB_REF:" ++ hash.asBytes

def mountToken (coordinate : SpacetimeCoordinate) : Bytes :=
  utf8 ("ARC_MOUNT:" ++ coordinate.toUri)

def conflictToken (bases sides : List Blake3Hash) (at_ : NodePath) : Bytes :=
  utf8 "ARC_CONFLICT_REF:" ++ Bincode.conflict bases sides at_

end ArcVcs
