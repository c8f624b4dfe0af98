import SnippetCatalog.NameMap
import SnippetCatalog.Problem

/-!
The parts of a snippet that can be chosen for display.
-/

namespace SnippetCatalog

inductive Part where
  | name
  | path
  | text
  | note
  | imports
  | expects
  | follows
  | tag
  deriving DecidableEq, Repr

namespace Part

def all : List Part := [name, path, text, note, imports, expects, follows, tag]

def word : Part → String
  | name => "name"
  | path => "path"
  | text => "text"
  | note => "note"
  | imports => "imports"
  | expects => "expects"
  | follows => "follows"
  | tag => "tag"

def description : Part → String
  | name => "the snippet name"
  | path => "the name of the snippet file"
  | text => "the snippet code to be used"
  | note => "how the snippet should be used"
  | imports => "packages this snippet imports"
  | expects => "snippets used with this"
  | follows => "snippets coming before this"
  | tag => "colon-separated name/value pairs"

def ofWord (s : String) : Except Problem Part :=
  match all.find? (·.word == s) with
  | some p => .ok p
  | none => .error (.badPart s)

def glossary : NameMap String := .ofList (all.map fun p => (p.word, p.description))

end Part
end SnippetCatalog
