import ArcVcs.Atom

/-!
# Sparse checkouts

Normalized include prefixes and the matcher over file paths, node paths and atoms.
Path text is handled as its list of characters.
-/

namespace ArcVcs

/-- One normalized include prefix. -/
structure SparsePattern where
  text : List Char
deriving DecidableEq

namespace SparsePattern

/-- The Unicode `White_Space` property, which `trim` removes at both ends. -/
def isWhiteSpace (c : Char) : Bool :=
  let n := c.toNat
  (9 ≤ n && n ≤ 13) || n = 32 || n = 0x85 || n = 0xA0 || n = 0x1680
    || (0x2000 ≤ n && n ≤ 0x200A) || n = 0x2028 || n = 0x2029 || n = 0x202F || n = 0x205F
    || n = 0x3000

/-- Drop the characters that satisfy `p` at both ends. -/
def trimMatches (p : Char → Bool) (s : List Char) : List Char :=
  ((s.dropWhile p).reverse.dropWhile p).reverse

/-- Drop every leading `./`. -/
def stripDotSlash : List Char → List Char
  | '.' :: '/' :: s => stripDotSlash s
  | s => s

def normalizePath (path : List Char) : List Char :=
  let s := (trimMatches isWhiteSpace path).map fun c => if c = '\\' then '/' else c
  trimMatches (· = '/') (stripDotSlash s)

def new (input : String) : Option SparsePattern :=
  let s := normalizePath input.toList
  if s.isEmpty then none else some ⟨s⟩

/-- The path is the prefix itself or continues it after a separator. -/
def matchesPath (pattern : SparsePattern) (path : String) : Bool :=
  let p := normalizePath path.toList
  p = pattern.text
    || (pattern.text.isPrefixOf p && (p.drop pattern.text.length).head? = some '/')

end SparsePattern

structure SparseMatcher where
  patterns : List SparsePattern

namespace SparseMatcher

def fromPatterns (patterns : List String) : SparseMatcher :=
  ⟨patterns.filterMap SparsePattern.new⟩

/-- No sparse boundary is active. -/
def isFull (m : SparseMatcher) : Bool := m.patterns.isEmpty

def matchesFilePath (m : SparseMatcher) (filePath : String) : Bool :=
  m.isFull || m.patterns.any fun p => p.matchesPath filePath

def matchesNodePath (m : SparseMatcher) (path : NodePath) : Bool :=
  m.isFull ||
    match path with
    | kind :: filePath :: _ => (kind = "file" || kind = "dir") && m.matchesFilePath filePath
    | _ => false

def matchesAtom (m : SparseMatcher) (atom : Atom) : Bool :=
  m.isFull || atom.paths.any m.matchesNodePath

end SparseMatcher

end ArcVcs
