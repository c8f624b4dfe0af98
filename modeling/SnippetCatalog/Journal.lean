import SnippetCatalog.Problem

/-!
Problems noted along the way, by category. A journal is the notes in the order in which they were
made; the report sorts them by category and keeps that order within each.
-/

namespace SnippetCatalog

/-- In the order of the report. -/
inductive Category where
  | badSnippetsDirectory
  | badSubdirectory
  | badSpecificSnippet
  | eclipsedSnippet
  | duplicateSnippet
  | badSnippet
  | unexpectedFileType
  | missingExpectedSnippet
  | missingSnippet
  deriving DecidableEq, Repr

namespace Category

def all : List Category := [badSnippetsDirectory, badSubdirectory, badSpecificSnippet,
  eclipsedSnippet, duplicateSnippet, badSnippet, unexpectedFileType, missingExpectedSnippet,
  missingSnippet]

theorem mem_all (c : Category) : c ∈ all := by cases c <;> decide

def title : Category → String
  | badSnippetsDirectory => "Bad snippets directory"
  | badSubdirectory => "Bad sub-directory"
  | badSpecificSnippet => "Bad specific snippet"
  | eclipsedSnippet => "Eclipsed snippet"
  | duplicateSnippet => "Duplicate snippet"
  | badSnippet => "Bad snippet"
  | unexpectedFileType => "Unexpected file type"
  | missingExpectedSnippet => "Missing expected snippet"
  | missingSnippet => "Missing snippet"

end Category

structure Journal where
  notes : List (Category × Problem) := []
  deriving DecidableEq, Repr

namespace Journal

def add (j : Journal) (c : Category) (p : Problem) : Journal := ⟨j.notes ++ [(c, p)]⟩

def addAll (j : Journal) (notes : List (Category × Problem)) : Journal := ⟨j.notes ++ notes⟩

def problems (j : Journal) (c : Category) : List Problem :=
  (j.notes.filter (·.1 = c)).map (·.2)

def size (j : Journal) : Nat := j.notes.length

def isEmpty (j : Journal) : Bool := j.notes.isEmpty

def sorted (j : Journal) : List (Category × List Problem) :=
  (Category.all.map fun c => (c, j.problems c)).filter (·.2 ≠ [])

def heading (c : Category) (count : Nat) : String :=
  let noun := if count = 1 then "error" else "errors"
  s!"{c.title} ({count} {noun}):"

def reportLines (j : Journal) (title : String) : List String :=
  if j.isEmpty then []
  else
    s!"{title}:" :: j.sorted.flatMap fun (c, ps) =>
      heading c ps.length :: ps.map fun p => "    " ++ p.message

def report (j : Journal) (title : String) : String :=
  String.join ((j.reportLines title).map (· ++ "\n"))

end Journal
end SnippetCatalog
