import SnippetCatalog.Proofs.ArisingProblems
import SnippetCatalog.Proofs.JoinedFiles
import SnippetCatalog.Proofs.QuotedLists
import SnippetCatalog.Proofs.ReportLines

/-!
The lines of a message. What a message repeats is quoted, so that a line feed in it is written by its
letter; only the path of an empty file stands there as it is. Main statement: of the messages that
arise just those about empty files with a line feed in their paths are more than one line, and each
such line feed adds a line to the report, which otherwise has its title, a line for each category and
one for each problem.
-/

namespace SnippetCatalog

/-! ### Counting line feeds -/

namespace Utf8

theorem count_feed_decodeFrom {s : State} (hs : s.Beyond) (b : Bytes) :
    (decodeFrom s b).count '\n' = b.count 0x0A := by
  have hflush : ∀ s : State, s.flush.count '\n' = 0 := by
    intro s
    cases s <;> rfl
  induction b generalizing s with
  | nil => exact hflush s
  | cons c r ih =>
    by_cases hc : c = 0x0A
    · -- the character under way, if there is one, ends in front of the line feed
      rw [hc, decodeFrom_cons_of_ascii hs (by decide), List.count_append, hflush, Nat.zero_add,
        List.count_cons_self, ← @ih .between True.intro]
      exact List.count_cons_self
    · have hstep : '\n' ∉ (s.step c).1 := fun hmem =>
        hc (UInt8.toNat_inj.1 (of_mem_step hs hmem (by decide)))
      rw [decodeFrom, List.count_append, List.count_eq_zero.2 hstep, ih (beyond_step hs c),
        Nat.zero_add, List.count_cons_of_ne hc]

end Utf8

theorem Path.count_feed_display (p : Path) : p.display.toList.count '\n' = p.bytes.count 0x0A := by
  rw [display, Utf8.decode, String.toList_ofList]
  exact Utf8.count_feed_decodeFrom (s := .between) True.intro p.bytes

namespace Text

theorem count_feed_append (s t : String) :
    (s ++ t).toList.count '\n' = s.toList.count '\n' + t.toList.count '\n' := by
  rw [String.toList_append, List.count_append]

theorem count_feed_quote (s : String) : (quote s).toList.count '\n' = 0 :=
  List.count_eq_zero.2 (feed_notMem_quote s)

theorem count_feed_quoteAll (l : List String) : (quoteAll l).toList.count '\n' = 0 := by
  induction l with
  | nil => rfl
  | cons s l ih =>
    have hcons : quoteAll (s :: l) = quote s ++ if l = [] then "" else ", " ++ quoteAll l :=
      quoteAllBy_cons s l
    rw [hcons, count_feed_append, count_feed_quote]
    split
    · rfl
    · rw [count_feed_append, ih]
      rfl

theorem length_lines {cs : List Char} (h : ∀ c ∈ cs.getLast?, c = '\n') :
    (lines cs).length = cs.count '\n' := by
  have hlines := isLines_lines cs
  generalize lines cs = ls at hlines
  induction hlines with
  | nil => rfl
  | unended hne hl =>
    have hlast := h _ (List.getLast?_eq_some_getLast hne)
    exact absurd (hlast ▸ List.getLast_mem hne) hl
  | @ended l cs ls hl _ ih =>
    have hrest : ∀ c ∈ cs.getLast?, c = '\n' := by
      intro c hc
      refine h c ?_
      rw [List.getLast?_append, List.getLast?_cons, Option.mem_def.1 hc]
      rfl
    rw [List.length_cons, ih hrest, List.count_append, List.count_eq_zero.2 hl,
      List.count_cons_self, Nat.zero_add]

theorem length_lines_join (ls : List String) :
    (lines (String.join (ls.map (· ++ "\n"))).toList).length =
      (ls.map fun l => l.toList.count '\n' + 1).sum := by
  induction ls with
  | nil => rfl
  | cons l ls ih =>
    have hlast : ∀ c ∈ (l ++ "\n").toList.getLast?, c = '\n' := by simp
    rw [List.map_cons, String.join_cons, String.toList_append, lines_append hlast,
      List.length_append, ih, length_lines hlast, List.map_cons, List.sum_cons,
      String.toList_append, List.count_append]
    rfl

end Text

/-! ### Messages -/

theorem Special.feed_notMem_describe (kind : Special) : '\n' ∉ kind.describe.toList := by
  cases kind <;> decide +kernel

namespace Problem

def lineBreaks : Problem → Nat
  | empty _ path => path.bytes.count 0x0A
  | _ => 0

theorem lineBreaks_ne_zero_iff {p : Problem} :
    p.lineBreaks ≠ 0 ↔ ∃ name path, p = .empty name path ∧ 0x0A ∈ path.bytes := by
  cases p with
  | empty name path =>
    have hcount : path.bytes.count 0x0A ≠ 0 ↔ 0x0A ∈ path.bytes :=
      Nat.pos_iff_ne_zero.symm.trans List.count_pos_iff
    simpa [lineBreaks] using hcount
  | _ => simp [lineBreaks]

theorem Plain.count_feed_message {p : Problem} (h : p.Plain) :
    p.message.toList.count '\n' = p.lineBreaks := by
  have hliterals : "snippet ".toList.count '\n' = 0 ∧ " (".toList.count '\n' = 0 ∧
      ") has no text and no imports".toList.count '\n' = 0 := by decide
  cases p with
  | unreadable name fault | badDirectory dir fault | badSubdirectory name fault =>
    have hfault : fault.message.toList.count '\n' = 0 := List.count_eq_zero.2 h
    simp only [message, quotePath, lineBreaks, toString, Text.count_feed_append,
      Text.count_feed_quote, hfault]
    rfl
  | unexpectedType path type =>
    obtain ⟨kind, rfl⟩ := h
    have hkind := List.count_eq_zero.2 kind.feed_notMem_describe
    simp only [message, quotePath, lineBreaks, toString, Text.count_feed_append,
      Text.count_feed_quote, hkind]
    rfl
  | empty name path =>
    simp only [message, lineBreaks, toString, Text.count_feed_append, Text.count_feed_quote,
      path.count_feed_display, hliterals, Nat.zero_add, Nat.add_zero]
  | _ =>
    simp only [message, quotePath, quotePaths, lineBreaks, toString, Text.count_feed_append,
      Text.count_feed_quote, Text.count_feed_quoteAll]
    rfl

end Problem

/-! ### Reports -/

theorem Journal.count_feed_heading (c : Category) (n : Nat) :
    (heading c n).toList.count '\n' = 0 := by
  have hdigits : (toString n).toList.count '\n' = 0 := by
    rw [Nat.toString_eq_repr, Nat.toList_repr, List.count_eq_zero]
    intro hmem
    exact absurd (Nat.isDigit_of_mem_toDigits (by decide) (by decide) hmem) (by decide)
  have htitle : c.title.toList.count '\n' = 0 := by
    cases c <;> decide +kernel
  show (c.title ++ " (" ++ toString n ++ " " ++ (if n = 1 then "error" else "errors") ++
    "):").toList.count '\n' = 0
  simp only [Text.count_feed_append, hdigits, htitle]
  split <;> rfl

theorem Journal.length_lines_report {j : Journal} {title : String} (hnotes : j.notes ≠ [])
    (htitle : '\n' ∉ title.toList) : (Text.lines (j.report title).toList).length =
      1 + j.categories.length + j.size +
        (j.notes.map fun n => n.2.message.toList.count '\n').sum := by
  have hlines : ∀ c, ((heading c (j.problems c).length ::
        (j.problems c).map fun p => "    " ++ p.message).map fun l => l.toList.count '\n' + 1).sum =
      1 + ((j.problems c).map fun p => p.message.toList.count '\n' + 1).sum := by
    intro c
    have hindented : ∀ p : Problem, ("    " ++ p.message).toList.count '\n' =
        p.message.toList.count '\n' := fun p =>
      (Text.count_feed_append "    " p.message).trans (Nat.zero_add _)
    rw [List.map_cons, List.sum_cons, count_feed_heading, List.map_map]
    simp only [Function.comp_def, hindented]
  have htitleLine : (s!"{title}:").toList.count '\n' = 0 := by
    show (title ++ ":").toList.count '\n' = 0
    rw [Text.count_feed_append, List.count_eq_zero.2 htitle]
    rfl
  rw [report, reportLines_cons hnotes, Text.length_lines_join, List.map_cons, List.sum_cons,
    htitleLine, List.map_flatMap, List.flatMap_def, List.sum_flatten, List.map_map]
  simp only [Function.comp_def, hlines]
  -- one for each heading; the messages of all categories are those of all notes
  rw [List.sum_map_add, j.sum_categories fun p => p.message.toList.count '\n' + 1,
    List.sum_map_add]
  simp only [List.map_const', List.sum_replicate_nat, Nat.mul_one, size]
  omega

/-- Of the messages that arise those have a line feed that are about an empty file with a line feed
in its path. A report with a title of one line has a line for the title, one for each category with
problems and one for each problem, and besides as many as there are line feeds in such paths: so it
keeps to one line for each problem exactly if no message has a line feed. -/
theorem only_empty_files_break_lines (journal : Journal) (title : String)
    (arise : ∀ n ∈ journal.notes, n.2.Arises) (title_in_line : '\n' ∉ title.toList) :
    (∀ n ∈ journal.notes, '\n' ∈ n.2.message.toList ↔
      ∃ name path, n.2 = .empty name path ∧ 0x0A ∈ path.bytes) ∧
    (journal.notes ≠ [] →
      let told := (Text.lines (journal.report title).toList).length
      let due := 1 + journal.categories.length + journal.size
      told = due + (journal.notes.map (·.2.lineBreaks)).sum ∧
      (told = due ↔ ∀ n ∈ journal.notes, '\n' ∉ n.2.message.toList)) := by
  have hcount : ∀ n ∈ journal.notes, n.2.message.toList.count '\n' = n.2.lineBreaks :=
    fun n hn => (arise n hn).plain.count_feed_message
  refine ⟨fun n hn => ?_, fun hnotes => ?_⟩
  · rw [← Problem.lineBreaks_ne_zero_iff, ← hcount n hn, Ne, List.count_eq_zero, not_not]
  · intro told due
    have htold : told = due + (journal.notes.map fun n => n.2.message.toList.count '\n').sum :=
      Journal.length_lines_report hnotes title_in_line
    refine ⟨by rw [htold, List.map_congr_left hcount], ?_⟩
    rw [htold, Nat.add_eq_left, List.sum_eq_zero_iff_forall_eq_nat, List.forall_mem_map]
    simp only [List.count_eq_zero]

/-- A directory `d` with an empty file and with a link that leads nowhere, both named in two lines. -/
def twoLineNames : FileSystem where
  workingDirectory := []
  records := [([[0x64]], .directory), ([[0x64], [0x61, 0x0A, 0x62]], .file []),
    ([[0x64], [0x63, 0x0A, 0x64]], .link (.ofText "nowhere"))]
  named := by decide

def twoLineNotes : Journal := ⟨(Listing.run { dirs := [.ofText "d"] } twoLineNames .unlimited).notes⟩

theorem arises_of_mem_twoLineNotes : ∀ n ∈ twoLineNotes.notes, n.2.Arises := fun _ => .listed

theorem twoLineNotes_eq : twoLineNotes = ⟨[(.badSnippet, .empty "a\nb" (.ofText "d/a\nb")),
    (.badSnippet, .unreadable "c\nd" .notFound)]⟩ := by decide +kernel

theorem only_empty_files_break_lines_in_twoLineNotes :
    (∀ n ∈ twoLineNotes.notes, n.2.Arises) ∧ '\n' ∉ "Snippet errors".toList ∧
    (Text.lines (twoLineNotes.report "Snippet errors").toList).length = 1 + 1 + 2 + 1 := by
  have htitle : '\n' ∉ "Snippet errors".toList := by decide
  obtain ⟨-, hlines⟩ :=
    only_empty_files_break_lines twoLineNotes "Snippet errors" arises_of_mem_twoLineNotes htitle
  have hnotes : twoLineNotes.notes ≠ [] := by
    rw [twoLineNotes_eq]
    exact List.cons_ne_nil _ _
  have hdue : 1 + twoLineNotes.categories.length + twoLineNotes.size +
      (twoLineNotes.notes.map (·.2.lineBreaks)).sum = 1 + 1 + 2 + 1 := by
    rw [twoLineNotes_eq]
    decide
  exact ⟨arises_of_mem_twoLineNotes, htitle, (hlines hnotes).1.trans hdue⟩

/-- The line feed in the name of the link is written by its letter, that in the path of the empty
file stands in the report and breaks the line. -/
theorem two_line_path_breaks_the_report :
    (∀ n ∈ twoLineNotes.notes, n.2.Arises) ∧
    twoLineNotes.notes.map (·.2.message) =
      ["snippet \"a\\nb\" (d/a\nb) has no text and no imports",
        "snippet \"c\\nd\": No such file or directory (os error 2)"] ∧
    twoLineNotes.report "Snippet errors" = String.join (["Snippet errors:",
      "Bad snippet (2 errors):", "    snippet \"a\\nb\" (d/a", "b) has no text and no imports",
      "    snippet \"c\\nd\": No such file or directory (os error 2)"].map (· ++ "\n")) ∧
    (Text.lines (twoLineNotes.report "Snippet errors").toList).length ≠
      1 + twoLineNotes.categories.length + twoLineNotes.size := by
  refine ⟨arises_of_mem_twoLineNotes, ?_⟩
  rw [twoLineNotes_eq]
  decide +kernel

end SnippetCatalog
