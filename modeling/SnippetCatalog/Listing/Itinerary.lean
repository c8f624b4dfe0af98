import SnippetCatalog.Listing.Visit

/-!
Where a listing goes: first to every absolute path among the selected names, in ascending order,
then to the snippet directories, in the order given.
-/

namespace SnippetCatalog

inductive Stop where
  | nowhere (name : String) (fault : Fault)
  /-- A named path that leads to something other than a directory. -/
  | file (name : String) (path : Path)
  | absent
  | badRoot (root : Path) (fault : Fault)
  | tree (root : Path) (visits : List Visit)
  deriving DecidableEq, Repr

namespace Stop

def atRoot (fs : FileSystem) (selection : Selection) (root : Path) : Stop :=
  match fs.readDirectory root with
  | .error .notFound => .absent
  | .error fault => .badRoot root fault
  | .ok entries => .tree root (Visit.below fs root selection entries)

/-- A directory that is named itself is walked as a root, and everything below it is selected. -/
def atName (fs : FileSystem) (name : String) : Stop :=
  match fs.isDirectory (.ofText name) with
  | .error fault => .nowhere name fault
  | .ok true => atRoot fs .everything (.ofText name)
  | .ok false => .file name (.ofText name)

end Stop

def itinerary (fs : FileSystem) (selection : Selection) (dirs : List Path) : List Stop :=
  (selection.names.filter fun n => (Path.ofText n).isAbsolute).map (Stop.atName fs) ++
    dirs.map (Stop.atRoot fs selection)

end SnippetCatalog
