import SnippetCatalog.FileSystem.Basic

/-!
Following paths. A path is walked piece by piece from the root or the working directory; every
piece, also an empty one or a dot, asks for a directory to be looked up in. Links are followed
wherever they stand, the pieces of the target taking the place of the link.
-/

namespace SnippetCatalog.FileSystem

def pathLimit : Nat := 4096

def linkLimit : Nat := 40

/-- Walks to where the pieces lead, leaving a link to `onLink`, which is given the directory the
link stands in, its target and the pieces behind it. -/
def walk (fs : FileSystem) (onLink : Location → Path → List Bytes → Except Fault Location) :
    Location → List Bytes → Except Fault Location
  | place, [] => .ok place
  | place, piece :: rest =>
    if fs.entry? place ≠ some .directory then .error .notDirectory
    else
      match fs.barred place piece with
      | some reason => .error reason.fault
      | none =>
        if piece = [] ∨ piece = Path.dot then walk fs onLink place rest
        else if piece = Path.dotDot then walk fs onLink place.dropLast rest
        else if 255 < piece.length then .error .nameTooLong
        else
          match fs.entry? (place ++ [piece]) with
          | none => .error .notFound
          | some (.untold reason) => .error reason.fault
          | some (.link target) => onLink place target rest
          | some _ => walk fs onLink (place ++ [piece]) rest

def startOf (place : Location) (p : Path) : Location := if p.isAbsolute then [] else place

def walkLinks (fs : FileSystem) : Nat → Location → List Bytes → Except Fault Location
  | 0 => walk fs fun _ _ _ => .error .linkLoop
  | links + 1 => walk fs fun place target rest =>
    if target.bytes = [] then .error .notFound
    else walkLinks fs links (startOf place target) (target.pieces ++ rest)

/-- The location a path leads to, which is never that of a link. -/
def resolve (fs : FileSystem) (p : Path) : Except Fault Location :=
  if 0 ∈ p.bytes then .error .nulInPath
  else if p.bytes = [] then .error .notFound
  else if pathLimit ≤ p.bytes.length then .error .nameTooLong
  else fs.walkLinks linkLimit (startOf fs.workingDirectory p) p.pieces

def contentAt (fs : FileSystem) (place : Location) : Entry → Except Fault Bytes
  | .file content => .ok content
  | .directory => .error .isDirectory
  | .special kind => if kind.answers then (fs.answer place).mapError (·.fault) else .error .noDevice
  | .link _ => .error .linkLoop
  | .untold reason => .error reason.fault

def read (fs : FileSystem) (p : Path) : Except Fault Bytes := do
  let place ← fs.resolve p
  match fs.closed place, fs.entry? place with
  | some reason, _ => .error reason.fault
  | none, some entry => fs.contentAt place entry
  | none, none => .error .notFound

/-- What stands in a directory, ascending by name, each entry as itself: a link is a link. -/
def readDirectory (fs : FileSystem) (p : Path) : Except Fault (List (Bytes × Entry)) := do
  let place ← fs.resolve p
  if fs.entry? place ≠ some .directory then .error .notDirectory
  else
    match fs.closed place with
    | some reason => .error reason.fault
    | none => .ok (fs.children place)

def isDirectory (fs : FileSystem) (p : Path) : Except Fault Bool := do
  let place ← fs.resolve p
  .ok (fs.entry? place = some .directory)

end SnippetCatalog.FileSystem
