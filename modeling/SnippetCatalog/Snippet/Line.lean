import SnippetCatalog.Text.Blank
import SnippetCatalog.Text.Fold

/-!
The lines of a snippet file. A line is code unless it is marked, which it is by `//` and the marker
at its start. A marked line tells something about the snippet if a keyword and a colon follow; any
other marked line is of no account.
-/

namespace SnippetCatalog

inductive Directive where
  | imports
  | expects
  | follows
  | note
  | tag
  deriving DecidableEq, Repr

namespace Directive

def all : List Directive := [imports, expects, follows, note, tag]

theorem mem_all (d : Directive) : d ∈ all := by cases d <;> decide

def keywords : Directive → List String
  | imports => ["imports", "import"]
  | expects => ["expects", "expect", "comesbefore"]
  | follows => ["follows", "follow", "comesafter"]
  | note => ["note", "notes", "doc", "docs"]
  | tag => ["tag", "tags"]

def isKeyword (d : Directive) (word : List Char) : Bool :=
  (d.keywords.map String.toList).contains (word.map Text.foldCase)

def ofKeyword? (word : List Char) : Option Directive := all.find? (·.isKeyword word)

end Directive

inductive Line where
  | code (text : List Char)
  | directive (kind : Directive) (payload : List Char)
  | other
  deriving DecidableEq, Repr

namespace Line

open Text (skipBlank afterWord?)

def marker : String := "snippet:"

def afterMarker? (line : List Char) : Option (List Char) :=
  match afterWord? ['/', '/'] (skipBlank line) with
  | some rest => afterWord? marker.toList (skipBlank rest)
  | none => none

/-- What stands behind the marker. The keyword reaches right up to the first colon. -/
def ofMarked (rest : List Char) : Line :=
  let rest := skipBlank rest
  match Directive.ofKeyword? (rest.takeWhile (· ≠ ':')), rest.dropWhile (· ≠ ':') with
  | some kind, _ :: payload => .directive kind (skipBlank payload)
  | _, _ => .other

def ofChars (line : List Char) : Line :=
  match afterMarker? line with
  | some rest => ofMarked rest
  | none => .code line

end Line
end SnippetCatalog
