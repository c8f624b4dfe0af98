import SnippetCatalog.Journal
import SnippetCatalog.Listing.Itinerary
import SnippetCatalog.Snippet.Draft
import SnippetCatalog.View.Section

/-!
What a listing does at its stops. The ledger carries from one visit to the next which root a name
was first found in, which file a content was first found in and who expects what; the events are
what is written and noted, in order.
-/

namespace SnippetCatalog

inductive Event where
  | intro (root : Path)
  /-- The block of a snippet; one found below a root has the root. -/
  | block (root : Option Path) (snippet : Snippet)
  | noted (category : Category) (problem : Problem)
  deriving DecidableEq

namespace Event

def text (view : View) : Event → String
  | intro root => if view.hideIntro then "" else s!"in: {root.display}\n"
  | block _ s => view.render s
  | noted _ _ => ""

def note? : Event → Option (Category × Problem)
  | noted category problem => some (category, problem)
  | _ => none

end Event

/-- Puts the introduction of a root in front of the first block, if there is one. -/
def introduce (root : Path) : List Event → List Event
  | [] => []
  | .block from? s :: events => .intro root :: .block from? s :: events
  | event :: events => event :: introduce root events

structure Ledger where
  roots : NameMap Path := .empty
  contents : List (Bytes × Path) := []
  /-- The snippets that expect each name, in the order in which they were shown. -/
  expecting : NameMap (List String) := .empty

namespace Ledger

def expect (ledger : Ledger) (s : Snippet) : Ledger :=
  { ledger with
    expecting := s.expects.foldl
      (fun m e => m.insert e ((m.get? e).getD [] ++ [s.name])) ledger.expecting }

def present (ledger : Ledger) (root : Option Path) (name : String) (path : Path)
    (content : Bytes) : Ledger × List Event :=
  match Snippet.ofContent content path name with
  | .error problem => (ledger, [.noted .badSnippet problem])
  | .ok s => (ledger.expect s, [.block root s])

/-- Looks for an earlier file with the same content, which is noted but does not keep the file from
being shown. -/
def compare (ledger : Ledger) (path : Path) (content : Bytes) : Ledger × List Event :=
  match ledger.contents.lookup content with
  | none => ({ ledger with contents := (content, path) :: ledger.contents }, [])
  | some first =>
    (ledger, if first.Same path then [] else [.noted .duplicateSnippet (.duplicate path first)])

/-- The root of an earlier entry of the same name, if it is another root. -/
def eclipsing? (ledger : Ledger) (root : Path) (name : String) : Option Path :=
  (ledger.roots.get? name).filter fun first => ¬ first.Same root

/-- An entry below a root. One that cannot be read does not take its name. -/
def enter (ledger : Ledger) (fs : FileSystem) (root : Path) (name : String) (path : Path) :
    Ledger × List Event :=
  match fs.read path with
  | .error fault => (ledger, [.noted .badSnippet (.unreadable name fault)])
  | .ok content =>
    match ledger.eclipsing? root name with
    | some first => (ledger, [.noted .eclipsedSnippet (.eclipsed name root first)])
    | none =>
      let ledger := { ledger with roots := ledger.roots.insert name root }
      let (ledger, duplicates) := ledger.compare path content
      let (ledger, shown) := ledger.present (some root) name path content
      (ledger, duplicates ++ shown)

def visit (ledger : Ledger) (fs : FileSystem) (root : Path) : Visit → Ledger × List Event
  | .snippet trail => ledger.enter fs root trail.name (trail.path root)
  | .badSubdirectory trail fault =>
    (ledger, [.noted .badSubdirectory (.badSubdirectory trail.name fault)])
  | .special trail kind =>
    (ledger, [.noted .unexpectedFileType (.unexpectedType (trail.path root) kind.describe)])
  | .untold trail fault => (ledger, [.noted .badSnippet (.unreadable trail.name fault)])

def visitAll (ledger : Ledger) (fs : FileSystem) (root : Path) :
    List Visit → Ledger × List Event
  | [] => (ledger, [])
  | v :: vs =>
    let (ledger, events) := ledger.visit fs root v
    let (ledger, later) := ledger.visitAll fs root vs
    (ledger, events ++ later)

def enterNamed (ledger : Ledger) (fs : FileSystem) (name : String) (path : Path) :
    Ledger × List Event :=
  match fs.read path with
  | .error fault => (ledger, [.noted .badSnippet (.unreadable name fault)])
  | .ok content => ledger.present none name path content

def stop (ledger : Ledger) (fs : FileSystem) : Stop → Ledger × List Event
  | .nowhere name fault => (ledger, [.noted .badSpecificSnippet (.unreadable name fault)])
  | .file name path => ledger.enterNamed fs name path
  | .absent => (ledger, [])
  | .badRoot root fault => (ledger, [.noted .badSnippetsDirectory (.badDirectory root fault)])
  | .tree root visits =>
    let (ledger, events) := ledger.visitAll fs root visits
    (ledger, introduce root events)

def stopAll (ledger : Ledger) (fs : FileSystem) : List Stop → Ledger × List Event
  | [] => (ledger, [])
  | s :: ss =>
    let (ledger, events) := ledger.stop fs s
    let (ledger, later) := ledger.stopAll fs ss
    (ledger, events ++ later)

def missing (ledger : Ledger) : List Event :=
  (ledger.expecting.entries.filter fun e => ¬ ledger.roots.contains e.1).map fun e =>
    .noted .missingExpectedSnippet (.missingExpected e.1 e.2)

end Ledger
end SnippetCatalog
