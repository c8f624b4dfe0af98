import SnippetCatalog.FileSystem.Resolve
import SnippetCatalog.Listing.Selection

/-!
What a walk below a root meets, in the order in which it meets it: the entries of a directory by
the bytes of their names, a sub-directory's own entries in its place. A snippet goes by the name
that its way from the root reads as, and that name is also what the way is taken by.
-/

namespace SnippetCatalog

/-- The names on the way from a root to an entry below it. -/
abbrev Trail := List Bytes

namespace Trail

def name (t : Trail) : String := "/".intercalate (t.map Utf8.decode)

def path (root : Path) (t : Trail) : Path := root.join (.ofText t.name)

end Trail

inductive Visit where
  | snippet (trail : Trail)
  | badSubdirectory (trail : Trail) (fault : Fault)
  | special (trail : Trail) (kind : Special)
  /-- An entry whose type cannot be told, whether its name is selected or not. -/
  | untold (trail : Trail) (fault : Fault)
  deriving DecidableEq, Repr

namespace Visit

/-- What one entry leads to, where `below` walks the entries of a sub-directory. -/
def ofEntry (fs : FileSystem) (root : Path)
    (below : Selection → Trail → List (Bytes × Entry) → List Visit)
    (selection : Selection) (trail : Trail) (entry : Bytes × Entry) : List Visit :=
  let trail := trail ++ [entry.1]
  match entry.2 with
  | .file _ | .link _ => if selection.takesFile trail.name then [.snippet trail] else []
  | .special kind => [.special trail kind]
  | .untold reason => [.untold trail reason.fault]
  | .directory =>
    if selection.takesDirectory trail.name then
      match fs.readDirectory (trail.path root) with
      | .error fault => [.badSubdirectory trail fault]
      | .ok entries => below (selection.below trail.name) trail entries
    else []

def ofEntries (fs : FileSystem) (root : Path) :
    Nat → Selection → Trail → List (Bytes × Entry) → List Visit
  | 0, _, _, _ => []
  | depth + 1, selection, trail, entries =>
    entries.flatMap (ofEntry fs root (ofEntries fs root depth) selection trail)

/-- The walk below a root with the given entries. A level deeper the paths are longer, and beyond
the limit no directory can be read, so the walk never meets the bound on its depth. -/
def below (fs : FileSystem) (root : Path) (selection : Selection)
    (entries : List (Bytes × Entry)) : List Visit :=
  ofEntries fs root FileSystem.pathLimit selection [] entries

end Visit
end SnippetCatalog
