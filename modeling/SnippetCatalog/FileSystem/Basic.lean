import SnippetCatalog.Ascending
import SnippetCatalog.FileSystem.Fault
import SnippetCatalog.Path

/-!
File systems as values. An entry stands at a location, the list of names that leads to it from the
root directory. The root is always there; any other location holds what the first record for it
says, and a record below something that is not a directory is out of reach. For permissions, defects
and the like, the system may refuse to look a name up or to open what is there, with any fault. A
read that never ends is not told of here: a pipe or a device gives every reader the same answer.
-/

namespace SnippetCatalog

def IsName (name : Bytes) : Prop :=
  name ≠ [] ∧ name ≠ Path.dot ∧ name ≠ Path.dotDot ∧ Path.slash ∉ name ∧ 0 ∉ name ∧
    name.length ≤ 255

instance (name : Bytes) : Decidable (IsName name) := inferInstanceAs (Decidable (_ ∧ _))

/-- Names from the root directory down. -/
abbrev Location := List Bytes

inductive Special where
  | socket
  | namedPipe
  | blockDevice
  | characterDevice
  | unknown
  deriving DecidableEq, Repr

namespace Special

def describe : Special → String
  | socket => "socket"
  | namedPipe => "named pipe"
  | blockDevice => "block device"
  | characterDevice => "character device"
  | unknown => "unknown"

def answers : Special → Bool
  | namedPipe | blockDevice | characterDevice => true
  | socket | unknown => false

end Special

inductive Entry where
  | file (content : Bytes)
  | directory
  | link (target : Path)
  | special (kind : Special)
  /-- An entry of which not even the type can be told. -/
  | untold (reason : SystemFault)
  deriving DecidableEq, Repr

structure FileSystem where
  workingDirectory : Location
  records : List (Location × Entry)
  named : ∀ r ∈ records, ∀ name ∈ r.1, IsName name
  /-- Looking a name up in a directory fails. -/
  barred : Location → Bytes → Option SystemFault := fun _ _ => none
  /-- Opening or reading what stands at a location fails. -/
  closed : Location → Option SystemFault := fun _ => none
  /-- What a pipe or a device gives its readers. -/
  answer : Location → Except SystemFault Bytes := fun _ => .ok []

namespace FileSystem

def bare : FileSystem where
  workingDirectory := []
  records := []
  named := by simp

def entry? (fs : FileSystem) : Location → Option Entry
  | [] => some .directory
  | name :: rest => fs.records.lookup (name :: rest)

def nameIn : Location → Location → Option Bytes
  | [], [name] => some name
  | d :: dir, l :: rest => if d = l then nameIn dir rest else none
  | _, _ => none

def names (fs : FileSystem) (dir : Location) : List Bytes :=
  Ascending.ofList (fs.records.filterMap fun r => nameIn dir r.1)

def children (fs : FileSystem) (dir : Location) : List (Bytes × Entry) :=
  (fs.names dir).filterMap fun name => (fs.entry? (dir ++ [name])).map (name, ·)

end FileSystem
end SnippetCatalog
