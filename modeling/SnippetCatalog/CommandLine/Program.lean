import SnippetCatalog.CommandLine.Arguments
import SnippetCatalog.Listing.Run
import SnippetCatalog.Shelf

/-!
The command: it lists snippets, or checks that the named ones have what they expect, and says what
is wrong. Its exit code is 0 if nothing is, 1 if something is and 2 if the arguments make no sense.
-/

namespace SnippetCatalog.CommandLine

structure Reply where
  code : Nat
  output : String := ""
  errors : String := ""
  deriving DecidableEq, Repr

def usage : String :=
  "Usage: snippet [-d DIRS]... [-p PARTS]... [-t TAGS]... [--hide-intro] [--check] [--list-parts]\n" ++
  "               [-v]... [NAME]...\n"

def partsTable : String :=
  String.join (Part.glossary.entries.map fun e =>
    e.1 ++ Section.spaces (8 - e.1.length) ++ " " ++ e.2 ++ "\n")

def loadAll (fs : FileSystem) (dirs : List Path) :
    Shelf → List String → Shelf × List (Except Problem Snippet)
  | shelf, [] => (shelf, [])
  | shelf, name :: names =>
    match shelf.load fs dirs name with
    | .ok (s, shelf) =>
      let (shelf, results) := loadAll fs dirs shelf names
      (shelf, .ok s :: results)
    | .error p =>
      let (shelf, results) := loadAll fs dirs shelf names
      (shelf, .error p :: results)

def check (fs : FileSystem) (dirs : List Path) (view : View) (names : List String) :
    String × Journal :=
  let (shelf, results) := loadAll fs dirs {} names
  let blocks := results.filterMap fun r => r.toOption.map view.render
  let failures := results.filterMap fun r =>
    match r with
    | .ok _ => none
    | .error p => some (Category.badSnippet, p)
  (String.join blocks, ⟨failures ++ shelf.missing.map (Category.missingSnippet, ·)⟩)

def list (fs : FileSystem) (listing : Listing) : String × Journal :=
  let outcome := listing.run fs .unlimited
  (Utf8.decode outcome.output, ⟨outcome.notes⟩)

def failure (message : String) : String := s!"Error: {message}\n"

/-- The reply to work done: the report follows on the errors' side if there is anything in it. -/
def conclude (output : String) (journal : Journal) : Reply :=
  if journal.isEmpty then { code := 0, output }
  else {
    code := 1, output
    errors := journal.report "Snippet errors" ++ failure s!"{journal.size} problem(s) found" }

def perform (fs : FileSystem) (a : Arguments) : Reply :=
  if a.listParts then { code := 0, output := partsTable }
  else
    match ({} : View).withWords a.parts with
    | .error p =>
      { code := 1, errors := failure s!"bad --part\n\nCaused by:\n    {p.message}" }
    | .ok view =>
      let view := (view.withTags a.tags).withHiddenIntro a.hideIntro
      if a.check then
        if a.names = [] then
          { code := 1, errors := failure "--check needs at least one snippet name" }
        else
          let (output, journal) := check fs a.dirs view a.names
          conclude output journal
      else
        let (output, journal) := list fs { dirs := a.dirs, selection := .ofList a.names, view }
        conclude output journal

def run (fs : FileSystem) (environment : Option Bytes) (args : List Bytes) : Reply :=
  match Arguments.read args environment with
  | .error .usage => { code := 2, errors := usage }
  | .error .help => { code := 0, output := usage }
  | .ok a => perform fs a

end SnippetCatalog.CommandLine
