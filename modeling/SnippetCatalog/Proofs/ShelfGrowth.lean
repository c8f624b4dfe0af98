import Mathlib.Data.List.Sort
import Mathlib.Data.Prod.Lex
import Mathlib.Data.String.Basic
import SnippetCatalog.Proofs.ByteOrder
import SnippetCatalog.Proofs.ShelfGaps

/-!
What a shelf lacks as it grows. A load that takes a snippet in closes the gaps at its name and opens
one for each name that the snippet expects and that is not held even then. Main statement: after any
history the gaps are those of the snippets that are held, in the order of their bytes, and such a
load merges the new gaps into the ones that are left.
-/

namespace SnippetCatalog.Shelf

def Before (gap gap' : String × String) : Prop :=
  Utf8.encode gap.1 < Utf8.encode gap'.1 ∨
    gap.1 = gap'.1 ∧ Utf8.encode gap.2 < Utf8.encode gap'.2

instance : DecidableRel Before := fun _ _ => inferInstanceAs (Decidable (_ ∨ _))

def told (gap : String × String) : Problem := .missing gap.2 gap.1

variable {shelf : Shelf} {gap gap' : String × String}

theorem before_iff_toLex : Before gap gap' ↔ toLex gap < toLex gap' := by
  unfold Before
  rw [Utf8.encode_lt_encode_iff, Utf8.encode_lt_encode_iff, Prod.Lex.toLex_lt_toLex]

theorem not_before_iff_toLex : ¬ Before gap' gap ↔ toLex gap ≤ toLex gap' := by
  rw [before_iff_toLex, not_lt]

theorem nodup_of_before {gaps : List (String × String)} (h : gaps.Pairwise Before) : gaps.Nodup :=
  h.imp fun hlt heq => (before_iff_toLex.1 hlt).ne (congrArg toLex heq)

theorem told_injective : Function.Injective told := by
  intro gap gap' h
  obtain ⟨hexpected, hname⟩ := Problem.missing.inj h
  exact Prod.ext hname hexpected

theorem Sound.pairwise_before (h : shelf.Sound) : shelf.gaps.Pairwise Before :=
  (pairwise_gaps h).imp fun hlt => before_iff_toLex.2 hlt

theorem Sound.mem_values_iff (h : shelf.Sound) {name : String} {s : Snippet} :
    s ∈ shelf.held.values ∧ s.name = name ↔ shelf.held.get? name = some s := by
  constructor
  · rintro ⟨hs, rfl⟩
    obtain ⟨⟨key, t⟩, hentry, rfl⟩ := List.mem_map.1 hs
    have hheld := NameMap.mem_entries_iff.1 hentry
    rw [(h key t hheld).1]
    exact hheld
  · intro hheld
    exact ⟨List.mem_map.2 ⟨(name, s), NameMap.mem_entries_iff.2 hheld, rfl⟩, (h name s hheld).1⟩

theorem Sound.mem_gaps_iff_values (h : shelf.Sound) {name expected : String} :
    (name, expected) ∈ shelf.gaps ↔
      (∃ s ∈ shelf.held.values, s.name = name ∧ expected ∈ s.expects) ∧
        ∀ t ∈ shelf.held.values, t.name ≠ expected := by
  rw [mem_gaps_iff, Option.eq_none_iff_forall_ne_some]
  simp only [ne_eq, ← h.mem_values_iff, not_and, and_assoc]

/-! ### A load that takes a snippet in -/

variable {fs : FileSystem} {dirs : List Path} {name : String} {s : Snippet}

theorem held_of_new (hnew : ¬ shelf.held.contains name)
    (hload : (shelf.answer (.load fs dirs name)).1 = .snippet (.ok s)) :
    (shelf.answer (.load fs dirs name)).2.held = shelf.held.insert name s := by
  rw [answer_load_of_not_held (NameMap.not_contains_iff.1 hnew)] at hload ⊢
  rw [Answer.snippet.inj hload]

variable {grown : Shelf}

theorem mem_gaps_of_insert (hnew : ¬ shelf.held.contains name)
    (hgrown : grown.held = shelf.held.insert name s) :
    gap ∈ grown.gaps ↔ (gap ∈ shelf.gaps ∧ gap.2 ≠ name) ∨
      gap.1 = name ∧ gap.2 ∈ s.expects ∧ ¬ grown.held.contains gap.2 := by
  have hget : ∀ key, grown.held.get? key = if key = name then some s else shelf.held.get? key := by
    intro key
    rw [hgrown, NameMap.get?_insert]
  obtain ⟨n, e⟩ := gap
  rw [mem_gaps_iff, mem_gaps_iff, NameMap.not_contains_iff, hget e, hget n]
  have hnone := NameMap.not_contains_iff.1 hnew
  -- the new snippet had no gaps before, and a gap at its name is closed
  by_cases hn : n = name
  · subst hn
    simp [hnone]
  · by_cases he : e = name
    · simp [he, hn]
    · simp [he, hn]

def opened (grown : Shelf) (name : String) (s : Snippet) : List (String × String) :=
  (s.expects.filter fun e => ¬ grown.held.contains e).map (name, ·)

theorem mem_opened_iff : gap ∈ grown.opened name s ↔
    gap.1 = name ∧ gap.2 ∈ s.expects ∧ ¬ grown.held.contains gap.2 := by
  unfold opened
  rw [List.mem_map]
  constructor
  · rintro ⟨e, he, rfl⟩
    obtain ⟨hexpected, hopen⟩ := List.mem_filter.1 he
    exact ⟨rfl, hexpected, of_decide_eq_true hopen⟩
  · rintro ⟨rfl, hexpected, hopen⟩
    exact ⟨gap.2, List.mem_filter.2 ⟨hexpected, decide_eq_true hopen⟩, rfl⟩

theorem Sound.pairwise_opened (h : grown.Sound) (hs : grown.held.get? name = some s) :
    (grown.opened name s).Pairwise Before := by
  obtain ⟨-, hexpects⟩ := h name s hs
  unfold opened
  rw [List.pairwise_map]
  exact (hexpects.filter _).imp fun hlt => .inr ⟨rfl, Utf8.encode_lt_encode_iff.2 hlt⟩

def merged (gaps gaps' : List (String × String)) : List (String × String) :=
  gaps.merge gaps' fun gap gap' => ¬ Before gap' gap

theorem eq_merged {all gaps gaps' : List (String × String)} (hall : all.Pairwise Before)
    (hgaps : gaps.Pairwise Before) (hgaps' : gaps'.Pairwise Before)
    (hdisjoint : gaps.Disjoint gaps') (hmem : ∀ gap, gap ∈ all ↔ gap ∈ gaps ∨ gap ∈ gaps') :
    all = merged gaps gaps' := by
  -- two lists in ascending order that have the same members, each once, are the same
  have hle : ∀ {l : List (Lex (String × String))}, l.Pairwise Before → l.Pairwise (· ≤ ·) :=
    fun hl => hl.imp fun hlt => (before_iff_toLex.1 hlt).le
  have hperm : all.Perm (gaps ++ gaps') := by
    rw [List.perm_ext_iff_of_nodup (nodup_of_before hall)
      (List.nodup_append'.2 ⟨nodup_of_before hgaps, nodup_of_before hgaps', hdisjoint⟩)]
    simpa only [List.mem_append] using hmem
  have hmerge : merged gaps gaps' = gaps.merge gaps' fun gap gap' => toLex gap ≤ toLex gap' := by
    simp only [merged, not_before_iff_toLex]
  rw [hmerge]
  exact List.Perm.eq_of_pairwise (α := Lex (String × String)) (fun _ _ _ _ => le_antisymm)
    (hle hall) (List.Pairwise.merge (hle hgaps) (hle hgaps'))
    (hperm.trans (List.merge_perm_append _).symm)

theorem gaps_of_insert (h : shelf.Sound) (hg : grown.Sound) (hnew : ¬ shelf.held.contains name)
    (hgrown : grown.held = shelf.held.insert name s) :
    grown.gaps = merged (shelf.gaps.filter fun gap => gap.2 ≠ name) (grown.opened name s) := by
  have hheld : grown.held.get? name = some s := by
    rw [hgrown, NameMap.get?_insert, if_pos rfl]
  apply eq_merged hg.pairwise_before (h.pairwise_before.filter _) (hg.pairwise_opened hheld)
  · -- the name was not held, so none of the gaps was there for it
    intro gap hgap hopened
    obtain ⟨rfl, -⟩ := mem_opened_iff.1 hopened
    obtain ⟨⟨t, ht, -⟩, -⟩ := mem_gaps_iff.1 (List.mem_of_mem_filter hgap)
    rw [NameMap.not_contains_iff.1 hnew] at ht
    cases ht
  · intro gap
    rw [mem_gaps_of_insert hnew hgrown, List.mem_filter, mem_opened_iff, decide_eq_true_iff]

/-- After any requests, with any files at any load, a gap is told for each snippet held and each
name that it expects and under which none is held: once, and in the order of the bytes. A load that
takes in a snippet under a new name leaves the gaps that were not at the name, and merges in those
that the snippet has even now that it is held. -/
theorem gaps_are_told_in_order (rs : List Request) :
    let shelf := after {} rs
    shelf.answer .missing = (.problems (shelf.gaps.map told), shelf) ∧
    (∀ name expected, (name, expected) ∈ shelf.gaps ↔
      (∃ s ∈ shelf.held.values, s.name = name ∧ expected ∈ s.expects) ∧
        ∀ t ∈ shelf.held.values, t.name ≠ expected) ∧
    shelf.gaps.Pairwise Before ∧ (shelf.gaps.map told).Nodup ∧
    ∀ fs dirs name s, ¬ shelf.held.contains name →
      (shelf.answer (.load fs dirs name)).1 = .snippet (.ok s) →
      let grown := (shelf.answer (.load fs dirs name)).2
      grown.gaps = merged (shelf.gaps.filter fun gap => gap.2 ≠ name) (grown.opened name s) ∧
        grown.answer .missing = (.problems (grown.gaps.map told), grown) := by
  intro shelf
  have hsound : shelf.Sound := sound_after rs
  have hanswer : ∀ {other : Shelf}, other.Sound →
      other.answer .missing = (.problems (other.gaps.map told), other) := fun h => by
    rw [answer, missing_eq h]
    rfl
  refine ⟨hanswer hsound, fun _ _ => hsound.mem_gaps_iff_values, hsound.pairwise_before,
    (nodup_of_before hsound.pairwise_before).map told_injective, ?_⟩
  intro fs dirs name s hnew hload grown
  have hgrown : grown = after {} (rs ++ [.load fs dirs name]) := by
    rw [after_append]
    rfl
  have hsound' : grown.Sound := hgrown ▸ sound_after _
  exact ⟨gaps_of_insert hsound hsound' hnew (held_of_new hnew hload), hanswer hsound'⟩

/-- In the root directory: `m` expects `k` and `n`, `p` expects `n` and `s`, and `n` expects `m` and
itself and comes after `q`. -/
def expectantFiles : FileSystem where
  workingDirectory := []
  records := [([[0x6D]], .file (Utf8.encode "//snippet:expects:n\n//snippet:expects:k\nM\n")),
    ([[0x70]], .file (Utf8.encode "//snippet:expects:n\n//snippet:expects:s\nP\n")),
    ([[0x6E]], .file (Utf8.encode
      "//snippet:expects:n\n//snippet:follows:q\n//snippet:expects:m\nN\n"))]
  named := by decide

theorem gaps_are_told_in_expectantFiles :
    let load := Request.load expectantFiles [.ofText "/"]
    let shelf := after {} [load "p", load "m"]
    let grown := (shelf.answer (load "n")).2
    shelf.gaps = [("m", "k"), ("m", "n"), ("p", "n"), ("p", "s")] ∧
    ¬ shelf.held.contains "n" ∧
    (∃ s, (shelf.answer (load "n")).1 = .snippet (.ok s) ∧ s.expects = ["m", "n", "q"] ∧
      grown.gaps = merged (shelf.gaps.filter fun gap => gap.2 ≠ "n") (grown.opened "n" s)) ∧
    grown.gaps = [("m", "k"), ("n", "q"), ("p", "s")] := by
  intro load shelf grown
  have hnew : ¬ shelf.held.contains "n" := by decide +kernel
  obtain ⟨s, hload, hexpects⟩ : ∃ s, (shelf.answer (load "n")).1 = .snippet (.ok s) ∧
      s.expects = ["m", "n", "q"] := by
    rw [answer_load_of_not_held (NameMap.not_contains_iff.1 hnew)]
    have hread : (expectantFiles.snippet [.ofText "/"] "n").toOption.map (·.expects) =
        some ["m", "n", "q"] := by decide +kernel
    cases hsnippet : expectantFiles.snippet [.ofText "/"] "n" with
    | error p => simp [hsnippet, Except.toOption] at hread
    | ok s => exact ⟨s, rfl, by simpa [hsnippet, Except.toOption] using hread⟩
  obtain ⟨-, -, -, -, hgrowth⟩ := gaps_are_told_in_order [load "p", load "m"]
  obtain ⟨hmerged, -⟩ := hgrowth expectantFiles [.ofText "/"] "n" s hnew hload
  exact ⟨by decide +kernel, hnew, ⟨s, hload, hexpects, hmerged⟩, by decide +kernel⟩

end SnippetCatalog.Shelf
