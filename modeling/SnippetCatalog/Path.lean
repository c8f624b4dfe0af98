import SnippetCatalog.Text.Pieces
import SnippetCatalog.Text.Utf8

/-!
Paths as written. A path is its bytes and is never normalised; two spellings of one path are told
to be the same by their components.
-/

namespace SnippetCatalog

structure Path where
  bytes : Bytes
  deriving DecidableEq, Inhabited, Repr

namespace Path

def slash : UInt8 := 0x2F
def dot : Bytes := [0x2E]
def dotDot : Bytes := [0x2E, 0x2E]

def ofText (s : String) : Path := ⟨Utf8.encode s⟩

def display (p : Path) : String := Utf8.decode p.bytes

def isAbsolute (p : Path) : Bool := p.bytes.head? == some slash

/-- `name` below `dir`: one slash between the two unless `dir` is empty or ends in one. An absolute
`name` stands for itself. -/
def join (dir name : Path) : Path :=
  if name.isAbsolute then name
  else if dir.bytes = [] ∨ dir.bytes.getLast? = some slash then ⟨dir.bytes ++ name.bytes⟩
  else ⟨dir.bytes ++ slash :: name.bytes⟩

/-- What stands between the slashes; empty pieces come from slashes at either end or in a row. -/
def pieces (p : Path) : List Bytes := Text.pieces slash p.bytes

/-- The pieces that count when two paths are compared. Empty pieces do not, and a dot does only
as the very first piece. -/
def components (p : Path) : List Bytes :=
  match p.pieces with
  | [] => []
  | first :: rest =>
    (if first = [] then [] else [first]) ++ rest.filter fun c => c ≠ [] ∧ c ≠ dot

def Same (p q : Path) : Prop := p.isAbsolute = q.isAbsolute ∧ p.components = q.components

instance (p q : Path) : Decidable (p.Same q) := inferInstanceAs (Decidable (_ ∧ _))

theorem Same.refl (p : Path) : p.Same p := ⟨rfl, rfl⟩

theorem Same.symm {p q : Path} (h : p.Same q) : q.Same p := ⟨h.1.symm, h.2.symm⟩

theorem Same.trans {p q r : Path} (h : p.Same q) (k : q.Same r) : p.Same r :=
  ⟨h.1.trans k.1, h.2.trans k.2⟩

end Path
end SnippetCatalog
