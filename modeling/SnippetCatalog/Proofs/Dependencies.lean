import Mathlib.Data.List.Basic
import SnippetCatalog.Proofs.ViewSections
import SnippetCatalog.Proofs.WellFormed

/-!
How dependencies are shown. What comes before a snippet is also expected by it, and is shown as coming
before it only. Main statement: a view with both sections shows each name that the snippet expects
once, among those that come before it exactly if a line of the file says that it does.
-/

namespace SnippetCatalog

open Line (Directs)

def Declares (content : Bytes) (kind : Directive) (x : String) : Prop :=
  ∃ line ∈ Snippet.linesOf content, ∃ payload, Directs line kind payload ∧ Names payload x

namespace Dictates

variable {ls : List (List Char)} {s : Snippet} {content : Bytes} {x : String}

theorem mem_follows_iff (h : Dictates (Snippet.linesOf content) s) :
    x ∈ s.follows ↔ Declares content .follows x := by
  rw [h.follows.2, Declares]
  simp only [List.mem_singleton, exists_eq_left]

theorem mem_expects_iff (h : Dictates (Snippet.linesOf content) s) :
    x ∈ s.expects ↔ Declares content .expects x ∨ Declares content .follows x := by
  rw [h.expects.2]
  constructor
  · rintro ⟨line, hline, kind, hkind, hnames⟩
    simp only [List.mem_cons, List.not_mem_nil, or_false] at hkind
    rcases hkind with rfl | rfl
    · exact .inl ⟨line, hline, hnames⟩
    · exact .inr ⟨line, hline, hnames⟩
  · rintro (⟨line, hline, hnames⟩ | ⟨line, hline, hnames⟩)
    · exact ⟨line, hline, .expects, by simp, hnames⟩
    · exact ⟨line, hline, .follows, by simp, hnames⟩

end Dictates

namespace View

theorem label_of_mem_leading {v : View} {s : Snippet} {sec : Section}
    (h : sec ∈ v.shown (leadingSections s)) :
    sec.label ∈ ["", "Pathname:", "Note:", "Imports:"] := by
  obtain ⟨⟨o, sec⟩, hmem, rfl⟩ := List.mem_map.1 h
  have hlisted := (List.mem_filter.1 hmem).1
  simp only [leadingSections, List.mem_cons, List.not_mem_nil, or_false, Prod.mk.injEq] at hlisted
  rcases hlisted with ⟨-, rfl⟩ | ⟨-, rfl⟩ | ⟨-, rfl⟩ | ⟨-, rfl⟩
  all_goals simp [nameSection]

theorem sections_of_dependencies {v : View} (hfollows : v.showsUsual .follows)
    (hexpects : v.showsUsual .expects) (s : Snippet) :
    v.sections s = v.shown (leadingSections s) ++
      followsSection s :: expectsSection s :: v.shown (trailingSections s) := by
  have hpair : v.shown [(.usual .follows, followsSection s), (.usual .expects, expectsSection s)] =
      [followsSection s, expectsSection s] := by
    rw [shown_cons, shown_cons, asksFor, asksFor, if_pos hfollows, if_pos hexpects]
    rfl
  rw [sections_eq, allSections, shown_append, shown_append, hpair, List.append_assoc]
  rfl

end View

namespace Snippet.WellFormed

variable {s : Snippet}

theorem pairwise_expected (h : s.WellFormed) : (s.expects.filter fun e => e ∉ s.follows).Pairwise
    fun a b => Utf8.encode a < Utf8.encode b :=
  h.expects.ascending.sublist List.filter_sublist

theorem perm_expects (h : s.WellFormed) :
    (s.follows ++ s.expects.filter fun e => e ∉ s.follows).Perm s.expects := by
  have hnodup : (s.follows ++ s.expects.filter fun e => e ∉ s.follows).Nodup := by
    refine List.nodup_append.2 ⟨h.follows.nodup, h.expects.nodup.filter _, ?_⟩
    rintro x hx y hy rfl
    exact absurd hx (by simpa using (List.mem_filter.1 hy).2)
  rw [List.perm_ext_iff_of_nodup hnodup h.expects.nodup]
  intro x
  have hexpected : x ∈ s.follows → x ∈ s.expects := fun hx => h.expected hx
  rw [List.mem_append, List.mem_filter, decide_eq_true_iff]
  constructor
  · rintro (hx | hx)
    · exact hexpected hx
    · exact hx.1
  · intro hx
    by_cases hfollows : x ∈ s.follows
    · exact .inl hfollows
    · exact .inr ⟨hx, hfollows⟩

end Snippet.WellFormed

/-- A view that shows both what comes before a snippet and what it expects shows all that the snippet
expects, in two ascending sections that have no name in common: the names that some line says come
before it in the first, and the others that some line says are expected in the second. -/
theorem dependencies_are_shown_once {content : Bytes} {path : Path} {name : String} {s : Snippet}
    (v : View) (read : Snippet.ofContent content path name = .ok s)
    (shows_follows : v.showsUsual .follows) (shows_expects : v.showsUsual .expects) :
    ∃ (followed expected : List String) (before after : List Section),
      v.sections s = before ++ { label := "Follows:", values := followed } ::
        { label := "Expects:", values := expected } :: after ∧
      (∀ sec ∈ before, sec.label ≠ "Follows:" ∧ sec.label ≠ "Expects:") ∧
      followed.Pairwise (fun a b => Utf8.encode a < Utf8.encode b) ∧
      expected.Pairwise (fun a b => Utf8.encode a < Utf8.encode b) ∧
      (∀ x ∈ followed, x ∉ expected) ∧ (followed ++ expected).Perm s.expects ∧
      (∀ x, x ∈ followed ↔ Declares content .follows x) ∧
      ∀ x, x ∈ expected ↔ Declares content .expects x ∧ ¬ Declares content .follows x := by
  have hwell := Snippet.wellFormed_of_ofContent read
  obtain ⟨-, -, hdictates, -⟩ := Snippet.ofContent_eq_ok_iff.1 read
  refine ⟨s.follows, s.expects.filter fun e => e ∉ s.follows, v.shown (View.leadingSections s),
    v.shown (View.trailingSections s), View.sections_of_dependencies shows_follows shows_expects s,
    ?_, hwell.follows.ascending, hwell.pairwise_expected, ?_, hwell.perm_expects,
    fun x => hdictates.mem_follows_iff, ?_⟩
  · intro sec hsec
    have hlabels : ∀ label ∈ ["", "Pathname:", "Note:", "Imports:"],
        label ≠ "Follows:" ∧ label ≠ "Expects:" := by decide
    exact hlabels _ (View.label_of_mem_leading hsec)
  · intro x hx hexpected
    exact absurd hx (by simpa using (List.mem_filter.1 hexpected).2)
  · intro x
    rw [List.mem_filter, decide_eq_true_iff, hdictates.mem_follows_iff, hdictates.mem_expects_iff]
    constructor
    · rintro ⟨hdeclared | hfollows, hnot⟩
      · exact ⟨hdeclared, hnot⟩
      · exact absurd hfollows hnot
    · rintro ⟨hdeclared, hnot⟩
      exact ⟨.inl hdeclared, hnot⟩

def dependentFile : Bytes := Utf8.encode
  "// snippet: Follows: init \n// snippet: expect: setup\n// snippet: comesbefore: init\ncode\n"

def dependent : Snippet :=
  ⟨"x", .ofText "/x", ["code"], [], [], ["init", "setup"], ["init"], .empty⟩

theorem dependencies_are_shown_once_in_dependentFile :
    Snippet.ofContent dependentFile (.ofText "/x") "x" = .ok dependent ∧
    ({} : View).showsUsual .follows ∧ ({} : View).showsUsual .expects ∧
    ∃ followed expected : List String, (∀ x ∈ followed, x ∉ expected) ∧
      (followed ++ expected).Perm ["init", "setup"] ∧
      (∀ x, x ∈ followed ↔ Declares dependentFile .follows x) ∧
      ∀ x, x ∈ expected ↔ Declares dependentFile .expects x ∧ ¬ Declares dependentFile .follows x := by
  have hread : Snippet.ofContent dependentFile (.ofText "/x") "x" = .ok dependent := by
    decide +kernel
  obtain ⟨followed, expected, before, after, -, -, -, -, hdisjoint, hperm, hfollowed, hexpected⟩ :=
    dependencies_are_shown_once {} hread rfl rfl
  exact ⟨hread, rfl, rfl, followed, expected, hdisjoint, hperm, hfollowed, hexpected⟩

end SnippetCatalog
