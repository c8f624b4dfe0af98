import SnippetCatalog.CommandLine.Program
import SnippetCatalog.Proofs.ReportLines
import SnippetCatalog.Proofs.ShelfGaps

/-!
What a check of names comes to. The names are loaded onto one shelf, so a name that comes again is
answered as before, and the shelf ends up with exactly those that the files have. Main statement:
the output, the exit code and the report of every check, told from the names and the files alone.
-/

namespace SnippetCatalog

/-! ### Reports -/

def Category.lines (c : Category) (problems : List Problem) : List String :=
  if problems = [] then []
  else Journal.heading c problems.length :: problems.map fun p => "    " ++ p.message

namespace CommandLine

variable {fs : FileSystem} {dirs : List Path} {names : List String}

namespace Arguments

def view (a : Arguments) : View where
  parts := a.parts.filterMap fun w => (Part.ofWord w).toOption
  tags := a.tags
  hideIntro := a.hideIntro

/-- A check is asked for, and nothing that would come before it or be written beside it. -/
structure AsksCheck (a : Arguments) : Prop where
  asked : a.check = true
  no_table : a.listParts = false
  no_log : a.verbosity = 0
  some_name : a.names ≠ []
  valid_parts : ∀ w ∈ a.parts, ∃ p, Part.ofWord w = .ok p

theorem AsksCheck.perform_eq {a : Arguments} (h : a.AsksCheck) : perform fs a =
    let found := CommandLine.check fs a.dirs a.view a.names
    conclude found.1 found.2 := by
  have hview := (View.withWords_eq_ok_iff (v := {})).2 ⟨h.valid_parts, rfl⟩
  rw [perform, h.no_table, if_neg Bool.false_ne_true, hview]
  dsimp only
  rw [h.asked, if_pos rfl, if_neg h.some_name]
  rfl

end Arguments

end CommandLine
end SnippetCatalog
