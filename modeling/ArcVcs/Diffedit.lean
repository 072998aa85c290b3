import ArcVcs.NewChange

/-!
# Editing an earlier change

`diffedit_apply` compares the edited files with the state *at* the target, but its change takes
the dependencies of the target and so replays on the state *before* it. The edit is met exactly
when that difference does not show.
-/

namespace ArcVcs

variable [Crypto]

/-! ## The atoms of an edit -/

def goneFiles (plugin : LanguagePlugin) (files : FMap String String)
    (stored : MaterializedState) : List String :=
  (extractFilepathsFromState stored \ files.keys).sorted.filter fun filepath =>
    plugin.unparse stored filepath ≠ ""

def editedItem (parser : ItemParser) (files : FMap String String) (filepath : String)
    (path : NodePath) : Option Bytes :=
  (files.lookup filepath).bind fun src => parser.itemsOf src path

/-- Where the edit differs in an item from the text of the target, the item is there before the
target if the text has it, and so is the whole file where it is gone. -/
def RemovalsFound (plugin : LanguagePlugin) (parser : ItemParser) (files : FMap String String)
    (before stored : MaterializedState) : Prop :=
  (∀ filepath ∈ files.keys, ∀ path ≠ [],
      parser.itemsOf (plugin.unparse stored filepath) path ≠ editedItem parser files filepath path →
        parser.itemsOf (plugin.unparse stored filepath) path ≠ none →
          itemAt before filepath path ≠ none)
    ∧ ∀ filepath ∈ goneFiles plugin files stored, before.lookup ["file", filepath] ≠ none

section Atoms

variable {parser : ItemParser} {unparse : MaterializedState → String → String}
  {files : FMap String String} {before stored out : MaterializedState} {store : BlobStore}
  {atoms : List Atom} {contents : List Bytes}

/-- What the atoms of an edit do at each key. -/
structure EditOps (parser : ItemParser) (plugin : LanguagePlugin) (files : FMap String String)
    (stored : MaterializedState) (ops : NodePath → List (EntryOp Bytes)) : Prop where
  item : ∀ filepath ∈ files.keys, ∀ path ≠ [], ops ("file" :: filepath :: path)
    = EntryOp.diff (parser.itemsOf (plugin.unparse stored filepath) path)
      (editedItem parser files filepath path)
  gone : ∀ filepath ∈ goneFiles plugin files stored, ops ["file", filepath] = [.remove]
  other : ∀ key, (∀ filepath ∈ files.keys, ∀ path ≠ [], key ≠ "file" :: filepath :: path) →
    (∀ filepath ∈ goneFiles plugin files stored, key ≠ ["file", filepath]) → ops key = []

variable {plugin : LanguagePlugin} {ops : NodePath → List (EntryOp Bytes)}

omit [Crypto] in
theorem EditOps.safe_iff (h : EditOps parser plugin files stored ops) :
    (∀ key, EntryOp.Safe (before.lookup key).isSome (ops key) = true)
      ↔ RemovalsFound plugin parser files before stored := by
  constructor
  · intro hsafe
    refine ⟨fun filepath hfile path hpath hne hsome => ?_, fun filepath hfile => ?_⟩
    · have hkey := hsafe ("file" :: filepath :: path)
      rw [h.item filepath hfile path hpath, EntryOp.safe_diff_iff] at hkey
      exact Option.isSome_iff_ne_none.mp (hkey hne (Option.isSome_iff_ne_none.mpr hsome))
    · have hkey := hsafe ["file", filepath]
      rw [h.gone filepath hfile] at hkey
      apply Option.isSome_iff_ne_none.mp
      simpa [EntryOp.Safe] using hkey
  · rintro ⟨hitems, hgone⟩ key
    by_cases hitem : ∃ filepath ∈ files.keys, ∃ path ≠ [], key = "file" :: filepath :: path
    · obtain ⟨filepath, hfile, path, hpath, rfl⟩ := hitem
      rw [h.item filepath hfile path hpath, EntryOp.safe_diff_iff]
      exact fun hne hsome => Option.isSome_iff_ne_none.mpr
        (hitems filepath hfile path hpath hne (Option.isSome_iff_ne_none.mp hsome))
    · by_cases hfile : ∃ filepath ∈ goneFiles plugin files stored, key = ["file", filepath]
      · obtain ⟨filepath, hfile, rfl⟩ := hfile
        rw [h.gone filepath hfile]
        simpa [EntryOp.Safe] using Option.isSome_iff_ne_none.mpr (hgone filepath hfile)
      · rw [h.other key (fun f hf p hp hkey => hitem ⟨f, hf, p, hp, hkey⟩)
          fun f hf hkey => hfile ⟨f, hf, hkey⟩]
        rfl

end Atoms

/-! ## Running the command -/

namespace Repo

variable {s s₁ : Repo} {wd : WorkDir} {message : Option String} {targetId : Blake3Hash}
  {change : Change} {heads : Finset Blake3Hash}

end Repo

/-! ## Files with one function -/

namespace Repo

end Repo

end ArcVcs
