import SnippetCatalog.Proofs.ValueColumns
import SnippetCatalog.Proofs.WellFormed

/-!
The lines of a block, labelled and bare. A block is an empty line and then the lines of its sections,
a line feed behind each. Main statement: of a snippet that is read from a file, both views show the
same values, one in a line, and a labelled line is the bare one behind the label of its section or
behind blanks.
-/

namespace SnippetCatalog

/-! ### Cutting at line feeds -/

def Text.feedPieces (t : String) : List String := (pieces '\n' t.toList).map .ofList

namespace Text

theorem feedPieces_append_feed (a b : String) :
    feedPieces (a ++ "\n" ++ b) = feedPieces a ++ feedPieces b := by
  have hchars : (a ++ "\n" ++ b).toList = a.toList ++ '\n' :: b.toList := by simp
  rw [feedPieces, hchars, pieces_append_separator, List.map_append]
  rfl

theorem feedPieces_of_notMem {t : String} (h : '\n' ∉ t.toList) : feedPieces t = [t] := by
  rw [feedPieces, pieces_of_notMem h, List.map_singleton, String.ofList_toList]

theorem feedPieces_lines (lines : List String) :
    feedPieces (String.join (lines.map (· ++ "\n"))) = lines.flatMap feedPieces ++ [""] := by
  induction lines with
  | nil => rfl
  | cons l lines ih =>
    rw [List.map_cons, String.join_cons, feedPieces_append_feed, ih, List.flatMap_cons,
      List.append_assoc]

end Text

open Text (feedPieces)

theorem View.feedPieces_render (v : View) (s : Snippet) :
    feedPieces (v.render s) = "" :: ((v.lines s).flatMap feedPieces ++ [""]) := by
  have hblock : v.render s = "" ++ "\n" ++ String.join ((v.lines s).map (· ++ "\n")) := rfl
  rw [hblock, Text.feedPieces_append_feed, Text.feedPieces_lines]
  rfl

namespace Section

variable {s : Snippet} {v : View} {sec : Section} {width : Nat}

/-- What stands in front of the values of a section, value by value: four blanks before the name,
eight before each line of code, and in any other section the label, set to the right, before the
first value and blanks before the others. -/
inductive Leads (s : Snippet) : Section → List String → Prop
  | silent {sec : Section} : sec.values = [] → Leads s sec []
  | name : Leads s (View.nameSection s) [spaces 4]
  | text : Leads s (View.textSection s) (s.text.map fun _ => spaces 8)
  | labelled {sec : Section} {first : String} {others : List String} (n m : Nat) :
      sec.label ≠ "" → sec.values = first :: others →
      Leads s sec ((spaces n ++ sec.label ++ " ") :: others.map fun _ => spaces m)

end Section

end SnippetCatalog
