import SnippetCatalog.View.Section

/-!
The sections that a view chooses from. A snippet has them in a fixed order, each with the part or the
tag that it is shown for. Main statement: the sections of a view are those of the snippet's sections
that the view asks for.
-/

namespace SnippetCatalog

/-- What a section is shown for: a part that is among the usual ones, a part that has to be asked
for, or a tag. -/
inductive Occasion where
  | usual (p : Part)
  | special (p : Part)
  | tag (name : String)

namespace View

def asksFor (v : View) : Occasion → Bool
  | .usual p => v.showsUsual p
  | .special p => v.showsChosen p
  | .tag name => v.showsTag name

def nameSection (s : Snippet) : Section := { label := "", indent := 4, values := [s.name] }

def followsSection (s : Snippet) : Section := { label := "Follows:", values := s.follows }

def expectsSection (s : Snippet) : Section :=
  { label := "Expects:", values := s.expects.filter fun e => e ∉ s.follows }

def tagSection (t : String × List String) : Section := { label := t.1 ++ ":", values := t.2 }

def textSection (s : Snippet) : Section := { label := "", values := s.text }

def leadingSections (s : Snippet) : List (Occasion × Section) :=
  [(.usual .name, nameSection s),
    (.special .path, { label := "Pathname:", values := [s.path.display] }),
    (.usual .note, { label := "Note:", values := s.docs }),
    (.usual .imports, { label := "Imports:", values := s.imports })]

def trailingSections (s : Snippet) : List (Occasion × Section) :=
  [(.special .tag, { label := "Tags:", values := s.tags.keys })] ++
    s.tags.entries.map (fun t => (.tag t.1, tagSection t)) ++ [(.special .text, textSection s)]

def allSections (s : Snippet) : List (Occasion × Section) :=
  leadingSections s ++ [(.usual .follows, followsSection s), (.usual .expects, expectsSection s)] ++
    trailingSections s

def shown (v : View) (sections : List (Occasion × Section)) : List Section :=
  (sections.filter fun c => v.asksFor c.1).map (·.2)

theorem shown_append (v : View) (a b : List (Occasion × Section)) :
    v.shown (a ++ b) = v.shown a ++ v.shown b := by
  rw [shown, List.filter_append, List.map_append]
  rfl

theorem shown_cons (v : View) (o : Occasion) (sec : Section) (rest : List (Occasion × Section)) :
    v.shown ((o, sec) :: rest) = (if v.asksFor o then [sec] else []) ++ v.shown rest := by
  rw [shown, List.filter_cons]
  split <;> rfl

theorem shown_tags (v : View) (entries : List (String × List String)) :
    v.shown (entries.map fun t => (.tag t.1, tagSection t)) =
      (entries.filter fun t => v.showsTag t.1).map tagSection := by
  rw [shown, List.filter_map, List.map_map]
  rfl

theorem sections_eq (v : View) (s : Snippet) : v.sections s = v.shown (allSections s) := by
  have hnone : v.shown [] = [] := rfl
  simp only [allSections, leadingSections, trailingSections, shown_append, shown_cons, shown_tags,
    hnone, List.append_nil, List.append_assoc]
  simp only [sections, List.append_assoc]
  rfl

theorem mem_sections_iff {v : View} {s : Snippet} {sec : Section} :
    sec ∈ v.sections s ↔ ∃ o, (o, sec) ∈ allSections s ∧ v.asksFor o := by
  rw [sections_eq, shown, List.mem_map]
  constructor
  · rintro ⟨⟨o, sec⟩, hmem, rfl⟩
    exact ⟨o, List.mem_filter.1 hmem⟩
  · rintro ⟨o, hmem⟩
    exact ⟨(o, sec), List.mem_filter.2 hmem, rfl⟩

end View
end SnippetCatalog
