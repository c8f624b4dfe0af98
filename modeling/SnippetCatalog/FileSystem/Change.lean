import SnippetCatalog.FileSystem.Resolve

/-!
Changing a file system: putting an entry at a path, with the directories that lead to it, and
taking one away with all that is below it.
-/

namespace SnippetCatalog.FileSystem

/-- Puts an entry at a location instead of what is there. A location with a part that names nothing
changes nothing. -/
def put (fs : FileSystem) (place : Location) (entry : Entry) : FileSystem :=
  if h : ∀ name ∈ place, IsName name then
    { fs with
      records := (place, entry) :: fs.records.filter (·.1 ≠ place)
      named := by
        intro r hr
        rcases List.mem_cons.1 hr with rfl | hr
        · exact h
        · exact fs.named r (List.mem_filter.1 hr).1 }
  else fs

def erase (fs : FileSystem) (place : Location) : FileSystem :=
  { fs with
    records := fs.records.filter fun r => ¬ place.isPrefixOf r.1
    named := fun r hr => fs.named r (List.mem_filter.1 hr).1 }

def enter (fs : FileSystem) : Location → List Bytes → FileSystem × Location
  | place, [] => (fs, place)
  | place, piece :: rest =>
    match fs.walkLinks linkLimit place [piece] with
    | .ok next => fs.enter next rest
    | .error _ => (fs.put (place ++ [piece]) .directory).enter (place ++ [piece]) rest

/-- Puts an entry at a path. A directory that is there already stays as it is. -/
def make (fs : FileSystem) (p : Path) (entry : Entry) : FileSystem :=
  let start := startOf fs.workingDirectory p
  if entry = .directory then (fs.enter start p.pieces).1
  else
    let (fs, place) := fs.enter start p.pieces.dropLast
    fs.put (place ++ [p.pieces.getLastD []]) entry

/-- Takes away what stands at a path itself: a link, not what it leads to. -/
def remove (fs : FileSystem) (p : Path) : FileSystem :=
  match fs.walkLinks linkLimit (startOf fs.workingDirectory p) p.pieces.dropLast with
  | .ok place => fs.erase (place ++ [p.pieces.getLastD []])
  | .error _ => fs

end SnippetCatalog.FileSystem
