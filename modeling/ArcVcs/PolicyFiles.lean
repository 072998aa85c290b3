import ArcVcs.GitText
import ArcVcs.Lib.Inclusion
import ArcVcs.PolicyText

/-!
# The lines of policy files

What the loaders of `arc-store-policy` read in a file: the files that it includes and what it
contributes itself. The file system, the TOML parser and the glob parser are a `PolicyEnv`.
-/

namespace ArcVcs

open Git (trim stripPrefix)
open SparsePattern (trimMatches)

/-! ## Paths -/

/-- `std::path::Component` on Unix. -/
inductive PathComponent where
  | rootDir
  | curDir
  | parentDir
  | normal (name : Bytes)
deriving DecidableEq

def PathComponent.text : PathComponent → Bytes
  | rootDir => []
  | curDir => [46]
  | parentDir => [46, 46]
  | normal name => name

/-- A path, told apart by its components. -/
structure PathBuf where
  components : List PathComponent
deriving DecidableEq

namespace PathBuf

/-- A piece between slashes. -/
def component (piece : Bytes) : Option PathComponent :=
  if piece = [] ∨ piece = [46] then none
  else if piece = [46, 46] then some .parentDir
  else some (.normal piece)

def ofText (text : List Char) : PathBuf :=
  let bytes := utf8 (String.ofList text)
  match bytes.splitOn 47 with
  | [] => ⟨[]⟩
  | first :: rest =>
      let components := (first :: rest).filterMap component
      if bytes.head? = some 47 then ⟨.rootDir :: components⟩
      else if first = [46] then ⟨.curDir :: components⟩
      else ⟨components⟩

/-- `Path::join`. -/
def join (path other : PathBuf) : PathBuf :=
  if other.components.head? = some .rootDir ∨ path.components = [] then other
  else if other.components.head? = some .curDir then
    ⟨path.components ++ other.components.tail⟩
  else ⟨path.components ++ other.components⟩

/-- `Path::parent`. -/
def parent (path : PathBuf) : Option PathBuf :=
  match path.components.getLast? with
  | none => none
  | some .rootDir => none
  | some _ => some ⟨path.components.dropLast⟩

def startsWith (path base : PathBuf) : Bool := base.components.isPrefixOf path.components

/-- `to_string_lossy`, and what `display` shows. -/
def display (path : PathBuf) : String :=
  fromUtf8Lossy (if path.components = [.rootDir] then [47]
    else [(47 : UInt8)].intercalate (path.components.map PathComponent.text))

end PathBuf

/-! ## Errors and atoms -/

inductive PolicyStoreError where
  | read (path : PathBuf) (source : String)
  | invalidGlob (path : PathBuf) (pattern details : String)
  | includeCycle (cycle : String)
  | outsideWorkspace (path : PathBuf)
  | maxDepth (path : PathBuf)

inductive PolicyValue (α : Type) where
  | present (value : α)
  | cleared
  | unset

inductive TrustLevel where
  | untrusted
  | user
  | repo
  | trusted
deriving DecidableEq

inductive PolicyDomain where
  | ignore
  | config
deriving DecidableEq

structure SourceTrace where
  origin : String
  depth : ℕ
  trust : TrustLevel

structure PolicyAtom (α : Type) where
  domain : PolicyDomain
  key : String
  value : PolicyValue α
  source : SourceTrace

/-- A TOML value. A float and a datetime are given by their texts, and the entries of a table are in
the order in which it is iterated. -/
inductive TomlValue where
  | string (s : String)
  | integer (i : ℤ)
  | float (text : String)
  | boolean (b : Bool)
  | datetime (text : String)
  | array (values : List TomlValue)
  | table (entries : List (String × TomlValue))

/-- What the loaders call. An `io::Error` is its text. -/
structure PolicyEnv (Gitignore : Type) where
  canonicalize : PathBuf → Except String PathBuf
  exists_ : PathBuf → Bool
  read : PathBuf → Except String Bytes
  /-- `toml::from_slice` -/
  fromSlice : Bytes → Option TomlValue
  /-- `to_string` of an array or a table -/
  tomlText : TomlValue → String
  /-- The config directory of `directories::ProjectDirs` -/
  configDir : Option PathBuf
  /-- The `uid` of `symlink_metadata` -/
  owner : PathBuf → Except String ℕ
  euid : ℕ
  /-- `SUDO_UID`, when it is a number -/
  sudoUid : Option ℕ
  /-- The matcher of a pattern from a file below the root, or the error of the builder. -/
  addLine : PathBuf → PathBuf → String → Except String Gitignore

structure IgnoreRule (Gitignore : Type) where
  pattern : String
  matcher : Gitignore
  line : ℕ

variable {Gitignore : Type} (env : PolicyEnv Gitignore) (workspaceRoot : PathBuf)

/-! ## Includes -/

def resolvePath (sourcePath : PathBuf) (include_ : List Char) : Except PolicyStoreError PathBuf :=
  let includePath := (sourcePath.parent.getD workspaceRoot).join (.ofText include_)
  match env.canonicalize includePath with
  | .error source => .error (.read includePath source)
  | .ok canonical =>
      if canonical.startsWith workspaceRoot then .ok canonical
      else .error (.outsideWorkspace canonical)

def resolveInclude : PathBuf → List Char → Except PolicyStoreError PathBuf :=
  resolvePath env workspaceRoot

def resolveIgnoreInclude : PathBuf → List Char → Except PolicyStoreError PathBuf :=
  resolvePath env workspaceRoot

def lineText (line : LineView) : List Char := trim (fromUtf8Lossy line.content).toList

/-- The text before the first `=` and the one after it. -/
def splitEq (s : List Char) : List Char × List Char :=
  (s.takeWhile (· ≠ '='), (s.dropWhile (· ≠ '=')).tail)

def unquoted (s : List Char) : List Char := trimMatches (· = '\"') (trim s)

def normalizeSlashes (s : List Char) : List Char := s.map fun c => if c = '\\' then '/' else c

/-- The include of a line, when it has one. -/
def configInclude (sourcePath : PathBuf) (line : LineView) :
    Option (Except PolicyStoreError PathBuf) :=
  let line := lineText line
  if line = [] ∨ line.head? = some '#' then none
  else
    match stripPrefix "include =".toList line with
    | some rest => some (resolveInclude env workspaceRoot sourcePath (unquoted rest))
    | none =>
        match stripPrefix "includeIf.gitdir:".toList line with
        | some rest =>
            let parts := splitEq rest
            let start := trim parts.1
            let rootNorm := normalizeSlashes workspaceRoot.display.toList
            if start ≠ [] ∧ start.isPrefixOf rootNorm then
              some (resolveInclude env workspaceRoot sourcePath (unquoted parts.2))
            else none
        | none =>
            match stripPrefix "includeIf.exists =".toList line with
            | some rest =>
                let candidate :=
                  (sourcePath.parent.getD workspaceRoot).join (.ofText (unquoted rest))
                if env.exists_ candidate then
                  some (resolveInclude env workspaceRoot sourcePath (unquoted rest))
                else none
            | none => none

def parseConfigIncludes (bytes : Bytes) (sourcePath : PathBuf) :
    List (Except PolicyStoreError PathBuf) :=
  (iterLines bytes).filterMap (configInclude env workspaceRoot sourcePath)

/-! ## The values of a config file -/

def tomlScalarToString : TomlValue → String
  | .string s => s
  | .integer i => toString i
  | .float text => text
  | .boolean b => toString b
  | .datetime text => text
  | .array values => env.tomlText (.array values)
  | .table entries => env.tomlText (.table entries)

section Flatten

variable (sourcePath : PathBuf) (depth : ℕ) (trust : TrustLevel)

def configAtom (key value : String) : PolicyAtom String where
  domain := .config
  key := key
  value := .present value
  source := ⟨sourcePath.display, depth, trust⟩

mutual

/-- The atoms that are pushed for a value, in this order. -/
def flattenConfigValue (key : String) : TomlValue → List (PolicyAtom String)
  | .table entries => flattenEntries key entries
  | .array values => [configAtom sourcePath depth trust key
      (",".intercalate (values.map (tomlScalarToString env)))]
  | value => [configAtom sourcePath depth trust key (tomlScalarToString env value)]

def flattenEntries (key : String) : List (String × TomlValue) → List (PolicyAtom String)
  | [] => []
  | (k, v) :: entries =>
      flattenConfigValue (if key = "" then k else key ++ "." ++ k) v ++ flattenEntries key entries

end

end Flatten

/-! ## The patterns of an ignore file -/

/-- A pattern with its line. -/
structure IgnoreLine (Gitignore : Type) where
  lineNo : ℕ
  value : PolicyValue Bool
  pattern : String
  matcher : Gitignore

/-- What a loader does next: take up something of the file, load another file, or fail. -/
inductive PolicyItem (ρ : Type) where
  | own (r : ρ)
  | nested (path : PathBuf)
  | fail (e : PolicyStoreError)

def PolicyItem.ofInclude {ρ : Type} : Except PolicyStoreError PathBuf → PolicyItem ρ
  | .error e => .fail e
  | .ok path => .nested path

/-- What is done for a line, when something is. -/
def ignoreItem (canonical : PathBuf) (view : LineView) :
    Option (PolicyItem (IgnoreLine Gitignore)) :=
  let line := lineText view
  if line = [] then none
  else
    match stripPrefix "#include ".toList line with
    | some rest => some (.ofInclude (resolveIgnoreInclude env workspaceRoot canonical (trim rest)))
    | none =>
        match stripPrefix "#includeIf.exists ".toList line with
        | some rest =>
            let candidate := (canonical.parent.getD workspaceRoot).join (.ofText (trim rest))
            if env.exists_ candidate then
              some (.ofInclude (resolveIgnoreInclude env workspaceRoot canonical (trim rest)))
            else none
        | none =>
            if line.head? = some '#' then none
            else
              let (value, pattern) :=
                match stripPrefix ['!'] line with
                | some stripped => (PolicyValue.present false, stripped)
                | none => (PolicyValue.present true, line)
              let pattern := trim pattern
              if pattern = [] then none
              else
                match env.addLine workspaceRoot canonical (String.ofList pattern) with
                | .error details =>
                    some (.fail (.invalidGlob canonical (String.ofList pattern) details))
                | .ok matcher =>
                    some (.own ⟨view.lineNo, value, String.ofList pattern, matcher⟩)

/-! ## The loaders -/

/-- The body of `load_recursive` for a canonical path, and what is done with what it takes up. -/
structure PolicyLoader (ρ τ : Type) where
  items : PathBuf → Except PolicyStoreError (List (PolicyItem ρ))
  contribute : PathBuf → ℕ → ρ → τ → τ

/-- The includes are parsed first, and after them the values. -/
def ConfigLoader (trust : TrustLevel) : PolicyLoader TomlValue (List (PolicyAtom String)) where
  items canonical :=
    match env.read canonical with
    | .error source => .error (.read canonical source)
    | .ok bytes =>
        let includes := (parseConfigIncludes env workspaceRoot bytes canonical).map fun include_ =>
          match include_ with
          | .error e => PolicyItem.fail e
          | .ok path =>
              if path.startsWith workspaceRoot then .nested path else .fail (.outsideWorkspace path)
        .ok (includes ++ [.own ((env.fromSlice bytes).getD (.table []))])
  contribute canonical depth parsed lattice :=
    lattice ++ flattenConfigValue env canonical depth trust "" parsed

/-- The lattice and the rules of an ignore matcher. -/
structure IgnoreRules (Gitignore : Type) where
  lattice : List (PolicyAtom Bool)
  rules : FMap String (IgnoreRule Gitignore)

/-- The lines are taken up one after the other. -/
def IgnoreLoader : PolicyLoader (IgnoreLine Gitignore) (IgnoreRules Gitignore) where
  items canonical :=
    match env.read canonical with
    | .error source => .error (.read canonical source)
    | .ok bytes => .ok ((iterLines bytes).filterMap (ignoreItem env workspaceRoot canonical))
  contribute canonical depth line acc :=
    let key := canonical.display ++ ":" ++ toString line.lineNo ++ ":" ++ line.pattern
    { lattice := acc.lattice ++ [⟨.ignore, key, line.value, ⟨canonical.display, depth, .repo⟩⟩]
      rules := acc.rules.insert key ⟨line.pattern, line.matcher, line.lineNo⟩ }

/-! ## The errors of a file -/

/-- An error that only the include state has. -/
def PolicyStoreError.IsNesting : PolicyStoreError → Prop
  | includeCycle _ => True
  | maxDepth _ => True
  | _ => False

def PolicyLoader.FailsInFiles {ρ τ : Type} (loader : PolicyLoader ρ τ) : Prop :=
  ∀ canonical e, (loader.items canonical = .error e
    ∨ ∃ items, loader.items canonical = .ok items ∧ .fail e ∈ items) → ¬ e.IsNesting

variable {env workspaceRoot}

theorem not_isNesting_of_resolvePath {sourcePath : PathBuf} {include_ : List Char}
    {e : PolicyStoreError} (h : resolvePath env workspaceRoot sourcePath include_ = .error e) :
    ¬ e.IsNesting := by
  rw [resolvePath] at h
  split at h
  · cases h
    exact not_false
  · split_ifs at h
    cases h
    exact not_false

theorem not_isNesting_of_configInclude {sourcePath : PathBuf} {line : LineView}
    {e : PolicyStoreError}
    (h : configInclude env workspaceRoot sourcePath line = some (.error e)) : ¬ e.IsNesting := by
  rw [configInclude] at h
  split at h
  · cases h
  split at h
  · exact not_isNesting_of_resolvePath (Option.some.inj h)
  split at h
  · dsimp only at h
    split_ifs at h
    exact not_isNesting_of_resolvePath (Option.some.inj h)
  split at h
  · dsimp only at h
    split_ifs at h
    exact not_isNesting_of_resolvePath (Option.some.inj h)
  · cases h

theorem configLoader_failsInFiles (trust : TrustLevel) :
    (ConfigLoader env workspaceRoot trust).FailsInFiles := by
  rintro canonical e (h | ⟨items, h, hfail⟩) <;> rw [ConfigLoader] at h <;> dsimp only at h
  · split at h <;> cases h
    exact not_false
  · split at h
    · cases h
    cases h
    rcases List.mem_append.mp hfail with hfail | hfail
    · obtain ⟨include_, hmem, heq⟩ := List.mem_map.mp hfail
      cases include_ with
      | error e' =>
          cases heq
          obtain ⟨line, -, hline⟩ := List.mem_filterMap.mp hmem
          exact not_isNesting_of_configInclude hline
      | ok path =>
          dsimp only at heq
          split_ifs at heq
          cases heq
          exact not_false
    · cases List.mem_singleton.mp hfail

theorem PolicyItem.ofInclude_eq_fail {ρ : Type} {res : Except PolicyStoreError PathBuf}
    {e : PolicyStoreError} (h : (.ofInclude res : PolicyItem ρ) = .fail e) : res = .error e := by
  cases res with
  | error e' => exact congrArg _ (PolicyItem.fail.inj h)
  | ok path => cases h

theorem not_isNesting_of_ignoreItem {canonical : PathBuf} {view : LineView} {e : PolicyStoreError}
    (h : ignoreItem env workspaceRoot canonical view = some (.fail e)) : ¬ e.IsNesting := by
  rw [ignoreItem] at h
  dsimp only at h
  split at h
  · cases h
  split at h
  · exact not_isNesting_of_resolvePath (PolicyItem.ofInclude_eq_fail (Option.some.inj h))
  split at h
  · split_ifs at h
    exact not_isNesting_of_resolvePath (PolicyItem.ofInclude_eq_fail (Option.some.inj h))
  split_ifs at h
  · split at h <;> cases h
    exact not_false

theorem ignoreLoader_failsInFiles : (IgnoreLoader env workspaceRoot).FailsInFiles := by
  rintro canonical e (h | ⟨items, h, hfail⟩) <;> rw [IgnoreLoader] at h <;> dsimp only at h
  · split at h <;> cases h
    exact not_false
  · split at h
    · cases h
    cases h
    obtain ⟨view, -, hview⟩ := List.mem_filterMap.mp hfail
    exact not_isNesting_of_ignoreItem hview

end ArcVcs
