import ArcVcs.Repo

/-!
# Differences of states

`compute_state_delta`, which compares two materialized states file by file as source text.
The language plugin stands for the parser and the text it works on.
-/

namespace ArcVcs

/-- The Rust plugin: the source text of a file in a state, and the atoms between two texts with
the contents that diffing them stores. -/
structure LanguagePlugin where
  unparse : MaterializedState → String → String
  diff : String → String → Except RepoError (List Atom × List Bytes)

def extractFilepathsFromState (state : MaterializedState) : Finset String :=
  (state.keys.image fileOfPath).eraseNone

/-- The atom at its place below a file. -/
def prefixAtomPath (filepath : String) : Atom → Atom
  | .insert at_ contentHash => .insert ("file" :: filepath :: at_) contentHash
  | .delete at_ priorHash => .delete ("file" :: filepath :: at_) priorHash
  | .move from_ to_ => .move ("file" :: filepath :: from_) ("file" :: filepath :: to_)
  | .semanticsPreserving at_ description =>
      .semanticsPreserving ("file" :: filepath :: at_) description
  | .directory path => .directory ("file" :: filepath :: path)
  | .blob path hash size =>
      .blob (if path = "" then filepath else filepath ++ "/" ++ path) hash size
  | .mount path coordinate => .mount ("file" :: filepath :: path) coordinate
  | .conflict bases sides at_ => .conflict bases sides ("file" :: filepath :: at_)

namespace Repo

variable [Crypto]

/-- The atoms from the old to the new source of every file where these differ. -/
def diffFiles (plugin : LanguagePlugin) (srcOld srcNew : String → String) :
    List String → RepoM (List Atom)
  | [] => pure []
  | filepath :: files =>
      if srcOld filepath = srcNew filepath then diffFiles plugin srcOld srcNew files
      else do
        let (astAtoms, contents) ← .ofExcept (plugin.diff (srcOld filepath) (srcNew filepath))
        writeBlobs contents
        let rest ← diffFiles plugin srcOld srcNew files
        pure (astAtoms.map (prefixAtomPath filepath) ++ rest)

/-- The atoms that transform `stateAfter` into `stateBefore`: the files of the first state, and
then those that only the second one has, which are diffed against nothing. -/
def computeStateDelta (plugin : LanguagePlugin) (stateAfter stateBefore : MaterializedState) :
    RepoM (List Atom) := do
  let filesAfter := extractFilepathsFromState stateAfter
  let filesBefore := extractFilepathsFromState stateBefore
  let changed ← diffFiles plugin (plugin.unparse stateAfter) (plugin.unparse stateBefore)
    filesAfter.sorted
  let restored ← diffFiles plugin (fun _ => "") (plugin.unparse stateBefore)
    (filesBefore \ filesAfter).sorted
  pure (changed ++ restored)

end Repo

end ArcVcs
