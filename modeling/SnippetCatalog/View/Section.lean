import SnippetCatalog.Snippet.Basic
import SnippetCatalog.View.Basic

/-!
A snippet as shown. The sections of a view stand in a fixed order, one line per value. With
labels, a section's label stands in front of its first value, all labels ending in one column, and
the other values are set in by as much; a label's width is taken in bytes.
-/

namespace SnippetCatalog

structure Section where
  label : String
  indent : Nat := 8
  values : List String
  deriving DecidableEq, Repr

namespace Section

def spaces (n : Nat) : String := .ofList (List.replicate n ' ')

def alignRight (width : Nat) (s : String) : String := spaces (width - s.length) ++ s

def lead (width : Nat) (s : Section) : String :=
  spaces s.indent ++ (if s.label = "" then "" else alignRight width s.label ++ " ")

def lines (width : Nat) (s : Section) : List String :=
  let lead := s.lead width
  match s.values with
  | [] => []
  | v :: vs => (lead ++ v) :: vs.map (spaces lead.utf8ByteSize ++ ·)

end Section

namespace View

def sections (v : View) (s : Snippet) : List Section :=
  let usual (p : Part) (sec : Section) := if v.showsUsual p then [sec] else []
  let chosen (p : Part) (sec : Section) := if v.showsChosen p then [sec] else []
  usual .name { label := "", indent := 4, values := [s.name] } ++
  chosen .path { label := "Pathname:", values := [s.path.display] } ++
  usual .note { label := "Note:", values := s.docs } ++
  usual .imports { label := "Imports:", values := s.imports } ++
  usual .follows { label := "Follows:", values := s.follows } ++
  usual .expects { label := "Expects:", values := s.expects.filter fun e => e ∉ s.follows } ++
  chosen .tag { label := "Tags:", values := s.tags.keys } ++
  (s.tags.entries.filter fun t => v.showsTag t.1).map (fun t =>
    { label := t.1 ++ ":", values := t.2 }) ++
  chosen .text { label := "", values := s.text }

/-- The widest label, shown or not. -/
def width (sections : List Section) : Nat :=
  sections.foldl (fun w s => max w s.label.utf8ByteSize) 0

def lines (v : View) (s : Snippet) : List String :=
  let sections := v.sections s
  if v.hideIntro then sections.flatMap (·.values)
  else sections.flatMap (·.lines (width sections))

def render (v : View) (s : Snippet) : String :=
  "\n" ++ String.join ((v.lines s).map (· ++ "\n"))

end View

def Snippet.display (s : Snippet) : String := ({} : View).render s

end SnippetCatalog
