import SnippetCatalog.FileSystem.Search
import SnippetCatalog.NameMap
import SnippetCatalog.Snippet.Draft

/-!
The shelf of snippets that have been loaded by name. A snippet on the shelf stays as it was when it
was first loaded, whatever becomes of its file.
-/

namespace SnippetCatalog

structure Shelf where
  held : NameMap Snippet := .empty
  deriving DecidableEq

namespace Shelf

def get (shelf : Shelf) (name : String) : Except Problem Snippet :=
  match shelf.held.get? name with
  | some s => .ok s
  | none => .error (.notHeld name)

def size (shelf : Shelf) : Nat := shelf.held.size

/-- Loads a snippet unless it is held. Failing leaves nothing on the shelf. -/
def load (shelf : Shelf) (fs : FileSystem) (dirs : List Path) (name : String) :
    Except Problem (Snippet × Shelf) :=
  match shelf.held.get? name with
  | some s => .ok (s, shelf)
  | none => do
    let (content, path) ← fs.find dirs name
    let s ← Snippet.ofContent content path name
    .ok (s, ⟨shelf.held.insert name s⟩)

/-- What held snippets expect and the shelf does not hold, by the expecting snippet and then by the
expected name. -/
def missing (shelf : Shelf) : List Problem :=
  shelf.held.values.flatMap fun s =>
    (s.expects.filter fun e => ¬ shelf.held.contains e).map fun e => .missing e s.name

end Shelf
end SnippetCatalog
