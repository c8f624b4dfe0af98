import SnippetCatalog.Ascending
import SnippetCatalog.Snippet.Basic
import SnippetCatalog.Text.Quoted

/-!
Where two snippets differ first, and how it is told.
-/

namespace SnippetCatalog

inductive Difference where
  | names (this other : String)
  | paths (this other : Path)
  | lists (label : String) (this other : List String)
  | tagNames (this other : List String)
  deriving DecidableEq, Repr

namespace Difference

open Text (quote)

/-- The places, counted from `i`, where two lists hold different entries. -/
def disagreements : Nat → List String → List String → List (Nat × String × String)
  | i, x :: xs, y :: ys =>
    if x = y then disagreements (i + 1) xs ys else (i, x, y) :: disagreements (i + 1) xs ys
  | _, _, _ => []

def lengthLines (this other : List String) : List String :=
  if this.length = other.length then []
  else [s!"the lengths differ: {this.length} != {other.length}"]

/-- The first place is told, of the others only how many there are. -/
def entryLines : List (Nat × String × String) → List String
  | [] => []
  | (i, x, y) :: further =>
    s!"entry[{i}] differs: {quote x} != {quote y}" ::
      match further.length with
      | 0 => []
      | 1 => ["an additional difference was found"]
      | n => [s!"{n} additional differences were found"]

def listLines (this other : List String) : List String :=
  lengthLines this other ++ entryLines (disagreements 0 this other)

def lines : Difference → List String
  | names this other => [s!"the names differ: this: {quote this}, other: {quote other}"]
  | paths this other =>
    [s!"the paths differ: this: {quote this.display}, other: {quote other.display}"]
  | lists label this other => s!"{label} differs:" :: listLines this other
  | tagNames this other =>
    "the tag names differ:" :: Ascending.ofList
      (this.map (fun t => s!"{quote t} in this, not in other") ++
        other.map (fun t => s!"{quote t} in other, not in this"))

def message (d : Difference) : String := "\n\t".intercalate d.lines

def ofLists? (label : String) (this other : List String) : Option Difference :=
  if listLines this other = [] then none else some (.lists label this other)

def unshared (this other : NameMap (List String)) : List String :=
  this.keys.filter fun t => ¬ other.contains t

theorem contains_of_unshared_eq_nil {this other : NameMap (List String)}
    (h : unshared this other = []) {t : String × List String} (ht : t ∈ this.entries) :
    other.contains t.1 := by
  have hkey : t.1 ∈ this.keys := List.mem_map_of_mem ht
  simpa using List.filter_eq_nil_iff.1 h t.1 hkey

/-- Names come before values; of the values, those of the least name that has different ones. That
each name is looked up in a map that has it is known from the comparison of the names. -/
def ofTags? (this other : NameMap (List String)) : Option Difference :=
  if h : unshared this other = [] ∧ unshared other this = [] then
    this.entries.attach.findSome? fun t =>
      ofLists? ("Tag:" ++ t.1.1) t.1.2 (other.get t.1.1 (contains_of_unshared_eq_nil h.1 t.2))
  else some (.tagNames (unshared this other) (unshared other this))

end Difference

namespace Snippet

open Difference (ofLists? ofTags?)

/-- The first difference, field by field. Paths differ if their components do. -/
def difference? (this other : Snippet) : Option Difference :=
  if this.name ≠ other.name then some (.names this.name other.name)
  else if ¬ this.path.Same other.path then some (.paths this.path other.path)
  else
    ofLists? "text" this.text other.text <|>
    ofLists? "docs" this.docs other.docs <|>
    ofLists? "expects" this.expects other.expects <|>
    ofLists? "imports" this.imports other.imports <|>
    ofLists? "follows" this.follows other.follows <|>
    ofTags? this.tags other.tags

end Snippet
end SnippetCatalog
