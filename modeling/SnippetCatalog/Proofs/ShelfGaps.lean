import Mathlib.Data.List.Basic
import SnippetCatalog.Proofs.ShelfHistory

/-!
What a shelf lacks. Every snippet that is held goes by its own name and expects each name once, in
ascending order, so what is lacking is a list of pairs in ascending order. Main statement: after any
loads from the same files, the pairs are those of a name that was loaded and a name that it expects
and that was not.
-/

namespace SnippetCatalog.Shelf

def Sound (shelf : Shelf) : Prop := ∀ name s, shelf.held.get? name = some s →
  s.name = name ∧ s.expects.Pairwise (· < ·)

theorem sound_after (rs : List Request) : (after {} rs).Sound := by
  intro name s h
  obtain ⟨past, fs, dirs, -, hs, -⟩ := LoadedAfter.exists_first h
  obtain ⟨content, path, -, hparse⟩ := FileSystem.snippet_eq_ok_iff.1 hs
  exact ⟨(Snippet.name_of_ofContent hparse).1, Snippet.pairwise_expects hparse⟩

def gaps (shelf : Shelf) : List (String × String) :=
  shelf.held.entries.flatMap fun t =>
    (t.2.expects.filter fun e => ¬ shelf.held.contains e).map (t.1, ·)

variable {shelf : Shelf}

theorem missing_eq (h : shelf.Sound) :
    shelf.missing = shelf.gaps.map fun gap => .missing gap.2 gap.1 := by
  unfold missing gaps NameMap.values
  rw [List.flatMap_map, List.map_flatMap]
  apply List.flatMap_congr
  rintro ⟨name, s⟩ hs
  obtain ⟨hname, -⟩ := h name s (NameMap.mem_entries_iff.1 hs)
  rw [List.map_map, hname]
  rfl

theorem mem_missing_iff (h : shelf.Sound) {name expected : String} :
    .missing expected name ∈ shelf.missing ↔ (name, expected) ∈ shelf.gaps := by
  rw [missing_eq h]
  simp

theorem mem_gaps_iff {name expected : String} : (name, expected) ∈ shelf.gaps ↔
    (∃ s, shelf.held.get? name = some s ∧ expected ∈ s.expects) ∧
      shelf.held.get? expected = none := by
  unfold gaps
  rw [List.mem_flatMap]
  constructor
  · rintro ⟨⟨name', s⟩, hs, hmem⟩
    obtain ⟨e, he, heq⟩ := List.mem_map.1 hmem
    cases heq
    obtain ⟨he, hnot⟩ := List.mem_filter.1 he
    exact ⟨⟨s, NameMap.mem_entries_iff.1 hs, he⟩, NameMap.not_contains_iff.1 (of_decide_eq_true hnot)⟩
  · rintro ⟨⟨s, hs, he⟩, hnot⟩
    refine ⟨(name, s), NameMap.mem_entries_iff.2 hs, List.mem_map.2 ⟨expected, ?_, rfl⟩⟩
    exact List.mem_filter.2 ⟨he, decide_eq_true (NameMap.not_contains_iff.2 hnot)⟩

theorem pairwise_gaps (h : shelf.Sound) :
    shelf.gaps.Pairwise (Prod.Lex (· < ·) (· < ·)) := by
  unfold gaps
  rw [List.pairwise_flatMap]
  constructor
  · rintro ⟨name, s⟩ hs
    obtain ⟨-, hexpects⟩ := h name s (NameMap.mem_entries_iff.1 hs)
    rw [List.pairwise_map]
    exact (hexpects.filter _).imp fun hlt => Prod.Lex.right name hlt
  · apply shelf.held.ascending.imp
    intro t t' hlt gap hgap gap' hgap'
    obtain ⟨e, -, rfl⟩ := List.mem_map.1 hgap
    obtain ⟨e', -, rfl⟩ := List.mem_map.1 hgap'
    exact Prod.Lex.left e e' hlt

/-! ### Names loaded from the same files -/

def Agrees (shelf : Shelf) (fs : FileSystem) (dirs : List Path) : Prop :=
  ∀ name s, shelf.held.get? name = some s → fs.snippet dirs name = .ok s

variable {fs : FileSystem} {dirs : List Path}

theorem Agrees.answer_load (h : shelf.Agrees fs dirs) (name : String) :
    (shelf.answer (.load fs dirs name)).1 = .snippet (fs.snippet dirs name) := by
  cases hheld : shelf.held.get? name with
  | some s => rw [answer_load_of_held hheld, h name s hheld]
  | none => rw [answer_load_of_not_held hheld]

theorem Agrees.answer (h : shelf.Agrees fs dirs) (name : String) :
    (shelf.answer (.load fs dirs name)).2.Agrees fs dirs := by
  intro other s hs
  rw [get?_answer, firstFound?_singleton, Request.found?] at hs
  cases hheld : shelf.held.get? other with
  | some t =>
    rw [hheld] at hs
    cases hs
    exact h other s hheld
  | none =>
    rw [hheld, Option.none_or] at hs
    cases hfound : fs.snippet dirs name with
    | error p => simp [hfound, Except.toOption] at hs
    | ok t =>
      simp only [hfound, Except.toOption, Option.map_some, Option.ite_none_right_eq_some,
        Option.some.injEq] at hs
      rw [hs.1, hfound, hs.2]

theorem firstFound?_loads (names : List String) (name : String) :
    firstFound? (names.map (.load fs dirs)) name =
      if name ∈ names then (fs.snippet dirs name).toOption else none := by
  induction names with
  | nil => rfl
  | cons n names ih =>
    have hcons := firstFound?_append [.load fs dirs n] (names.map (.load fs dirs)) name
    have hhead : firstFound? [.load fs dirs n] name =
        if name = n then (fs.snippet dirs n).toOption else none := by
      rw [firstFound?_singleton, Request.found?]
      cases fs.snippet dirs n with
      | error p => exact (ite_self none).symm
      | ok s => rfl
    rw [ih, hhead] at hcons
    rw [List.map_cons, ← List.singleton_append, hcons]
    by_cases hn : name = n
    · subst hn
      rw [if_pos rfl, if_pos List.mem_cons_self]
      split <;> cases fs.snippet dirs name <;> rfl
    · have hmem : name ∈ n :: names ↔ name ∈ names := by simp [hn]
      rw [if_neg hn, Option.none_or]
      simp only [hmem]

theorem get?_after_loads (names : List String) (name : String) :
    (after {} (names.map (.load fs dirs))).held.get? name =
      if name ∈ names then (fs.snippet dirs name).toOption else none := by
  rw [get?_after_empty, firstFound?_loads]

theorem get?_after_loads_eq_some_iff {names : List String} {name : String} {s : Snippet} :
    (after {} (names.map (.load fs dirs))).held.get? name = some s ↔
      name ∈ names ∧ fs.snippet dirs name = .ok s := by
  rw [get?_after_loads]
  split
  · next h => cases hs : fs.snippet dirs name <;> simp [h, Except.toOption]
  · next h => simp [h]

theorem agrees_after_loads (names : List String) :
    (after {} (names.map (.load fs dirs))).Agrees fs dirs :=
  fun _ _ h => (get?_after_loads_eq_some_iff.1 h).2

theorem mem_gaps_after_loads_iff {names : List String} {name expected : String} :
    (name, expected) ∈ (after {} (names.map (.load fs dirs))).gaps ↔
      name ∈ names ∧ (∃ s, fs.snippet dirs name = .ok s ∧ expected ∈ s.expects) ∧
        ¬ (expected ∈ names ∧ ∃ t, fs.snippet dirs expected = .ok t) := by
  rw [mem_gaps_iff, Option.eq_none_iff_forall_ne_some]
  simp only [get?_after_loads_eq_some_iff, ne_eq]
  constructor
  · rintro ⟨⟨s, ⟨hname, hs⟩, he⟩, hnot⟩
    exact ⟨hname, ⟨s, hs, he⟩, fun ⟨he', t, ht⟩ => hnot t ⟨he', ht⟩⟩
  · rintro ⟨hname, ⟨s, hs, he⟩, hnot⟩
    exact ⟨⟨s, ⟨hname, hs⟩, he⟩, fun t ⟨he', ht⟩ => hnot ⟨he', t, ht⟩⟩

end SnippetCatalog.Shelf
