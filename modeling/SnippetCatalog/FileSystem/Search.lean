import SnippetCatalog.FileSystem.Resolve
import SnippetCatalog.Problem

/-!
Finding the file of a snippet by its name in an ordered list of directories.
-/

namespace SnippetCatalog.FileSystem

def firstReadable (fs : FileSystem) (name : Path) : List Path → Option (Bytes × Path)
  | [] => none
  | dir :: dirs =>
    match fs.read (dir.join name) with
    | .ok content => some (content, dir.join name)
    | .error _ => fs.firstReadable name dirs

/-- The content and the path of the file with a name. An absolute name is itself the path. -/
def find (fs : FileSystem) (dirs : List Path) (name : String) :
    Except Problem (Bytes × Path) :=
  let path := Path.ofText name
  if path.isAbsolute then
    match fs.read path with
    | .ok content => .ok (content, path)
    | .error fault => .error (.unreadable name fault)
  else
    match dirs, fs.firstReadable path dirs with
    | [], _ => .error .noDirectories
    | _, some found => .ok found
    | [_], none => .error (.notInDirectory name dirs)
    | _, none => .error (.notInAnyDirectory name dirs)

end SnippetCatalog.FileSystem
