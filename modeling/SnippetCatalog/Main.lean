import SnippetCatalog.CommandLine.Program
import SnippetCatalog.FileSystem.Change

/-!
The command on a real disk. It copies what the arguments can lead to and answers from the copy.
-/

namespace SnippetCatalog.CommandLine

def placeOf (real : String) : Location := (Path.ofText real).pieces.filter (· ≠ [])

structure Copy where
  fs : FileSystem := .bare
  complete : List Location := []

/-- Copies an entry; if `deep`, with all that is below it and that its links lead to. What cannot be
read is left out. -/
partial def Copy.add (deep : Bool) (copy : Copy) (entry : IO.FS.DirEntry) : IO Copy := do
  try
    let root ← IO.FS.realPath entry.root
    let place := placeOf root.toString ++ [Utf8.encode entry.fileName]
    let fs := (copy.fs.enter [] place.dropLast).1
    match (← entry.path.symlinkMetadata).type with
    | .dir =>
      let copy := { copy with fs := (fs.enter [] place).1 }
      if deep && ¬ copy.complete.contains place then
        (← entry.path.readDir).foldlM (add true) { copy with complete := place :: copy.complete }
      else return copy
    | .file =>
      let content ← IO.FS.readBinFile entry.path
      return { copy with fs := fs.put place (.file content.toList) }
    | .symlink =>
      let target ← IO.FS.realPath entry.path
      let copy := { copy with fs := fs.put place (.link (.ofText target.toString)) }
      match target.parent, target.fileName with
      | some root, some fileName => add deep copy { root, fileName }
      | _, _ => return copy
    | .other => return { copy with fs := fs.put place (.special .unknown) }
  catch _ => return copy

def Copy.addPath (copy : Copy) (path : String) : IO Copy := do
  let names := (path.splitOn "/").filter (· ≠ "")
  let mut root := if path.startsWith "/" then "/" else "."
  let mut copy := copy
  for name in names.dropLast do
    copy ← copy.add false { root, fileName := name }
    root := root ++ "/" ++ name
  match names.getLast? with
  | some name => copy.add true { root, fileName := name }
  | none => return copy

def main (args : List String) : IO UInt32 := do
  let args := args.map Utf8.encode
  let environment := (← IO.getEnv "SNIPPET_DIRS").map Utf8.encode
  let here ← IO.FS.realPath "."
  let mut copy : Copy := { fs := { FileSystem.bare with workingDirectory := placeOf here.toString } }
  copy := { copy with fs := (copy.fs.enter [] copy.fs.workingDirectory).1 }
  match Arguments.read args environment with
  | .error _ => pure ()
  | .ok a =>
    let paths := a.dirs.map Path.display
    for path in paths ++ a.names ++ paths.flatMap (fun d => a.names.map (d ++ "/" ++ ·)) do
      copy ← copy.addPath path
  let reply := run copy.fs environment args
  IO.print reply.output
  IO.eprint reply.errors
  return .ofNat reply.code

end SnippetCatalog.CommandLine

def main (args : List String) : IO UInt32 := SnippetCatalog.CommandLine.main args
