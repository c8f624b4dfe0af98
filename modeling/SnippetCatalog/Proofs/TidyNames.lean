import Mathlib.Data.List.Destutter
import SnippetCatalog.Proofs.ByteOrder
import SnippetCatalog.Proofs.JoinedFiles

/-!
Tidy lists as sets of names. A list is tidied by leaving out what is empty, sorting the rest by its
bytes and dropping what stands behind its equal; sorted, equal names are neighbours, so that each is
left once. Main statement: a tidy list is the one ascending list of the names in it.
-/

namespace SnippetCatalog

/-! ### Neighbours in a sorted list -/

def Utf8.notAfter (s t : String) : Bool := Utf8.encode s ≤ Utf8.encode t

theorem Utf8.notAfter_iff {s t : String} : Utf8.notAfter s t = true ↔ s ≤ t := by
  rw [notAfter, decide_eq_true_iff, ← Std.not_lt, ← Std.not_lt, encode_lt_encode_iff]

theorem mem_destutter'_iff {name first : String} {names : List String} :
    name ∈ names.destutter' (· ≠ ·) first ↔ name ∈ first :: names := by
  induction names generalizing first with
  | nil => rfl
  | cons second names ih =>
    by_cases hsame : first = second
    · subst hsame
      rw [List.destutter'_cons_neg _ (not_not_intro rfl), ih]
      simp
    · rw [List.destutter'_cons_pos _ hsame, List.mem_cons, ih, List.mem_cons (b := first)]

theorem mem_destutter_iff {name : String} {names : List String} :
    name ∈ names.destutter (· ≠ ·) ↔ name ∈ names := by
  cases names with
  | nil => rfl
  | cons first names => exact mem_destutter'_iff

theorem pairwise_lt_of_sorted {names : List String} (sorted : names.Pairwise (· ≤ ·))
    (differ : names.IsChain (· ≠ ·)) : names.Pairwise (· < ·) := by
  induction names with
  | nil => exact .nil
  | cons first names ih =>
    obtain ⟨hfirst, hrest⟩ := List.pairwise_cons.1 sorted
    have hascending := ih hrest differ.tail
    refine List.pairwise_cons.2 ⟨fun name hname => ?_, hascending⟩
    cases names with
    | nil => cases hname
    | cons second names =>
      have hsecond : first < second := Std.lt_of_le_of_ne (hfirst second List.mem_cons_self)
        (List.isChain_cons_cons.1 differ).1
      rcases List.mem_cons.1 hname with rfl | hname
      · exact hsecond
      · exact Std.lt_trans hsecond ((List.pairwise_cons.1 hascending).1 name hname)

theorem pairwise_destutter {names : List String} (sorted : names.Pairwise (· ≤ ·)) :
    (names.destutter (· ≠ ·)).Pairwise (· < ·) :=
  pairwise_lt_of_sorted (sorted.sublist (List.destutter_sublist _ _)) (List.isChain_destutter _ _)

/-! ### Tidying step by step -/

theorem tidy_eq_destutter (names : List String) :
    tidy names = ((names.filter (· ≠ "")).mergeSort Utf8.notAfter).destutter (· ≠ ·) := by
  have hsorted : ((names.filter (· ≠ "")).mergeSort Utf8.notAfter).Pairwise (· ≤ ·) := by
    refine (List.pairwise_mergeSort ?_ ?_ _).imp Utf8.notAfter_iff.1
    · intro s t u hst htu
      exact Utf8.notAfter_iff.2 (Std.le_trans (Utf8.notAfter_iff.1 hst) (Utf8.notAfter_iff.1 htu))
    · intro s t
      rw [Bool.or_eq_true, Utf8.notAfter_iff, Utf8.notAfter_iff]
      exact Std.le_total
  apply Ascending.eq_of_mem_iff (pairwise_tidy _) (pairwise_destutter hsorted)
  intro name
  rw [mem_tidy, mem_destutter_iff, List.mem_mergeSort, List.mem_filter, decide_eq_true_iff]

theorem tidy_eq_tidy_iff {names names' : List String} :
    tidy names = tidy names' ↔ ∀ name ≠ "", name ∈ names ↔ name ∈ names' := by
  constructor
  · intro h name hname
    have hmem : name ∈ tidy names ↔ name ∈ names ∧ name ≠ "" := mem_tidy
    rw [h, mem_tidy] at hmem
    exact ⟨fun hin => (hmem.2 ⟨hin, hname⟩).1, fun hin => (hmem.1 ⟨hin, hname⟩).1⟩
  · intro h
    apply Ascending.eq_of_mem_iff (pairwise_tidy _) (pairwise_tidy _)
    intro name
    rw [mem_tidy, mem_tidy]
    exact and_congr_left (h name)

/-- Tidying leaves out what is empty, sorts by bytes and drops what stands behind its equal. What
comes of it is the one list that ascends and holds the names of the list that are not empty, so it
tells of the list which names it holds, and nothing of their order or of how often they stand
there. -/
theorem tidied_lists_stand_for_sets (names names' : List String) :
    let ascending (l : List String) := l.Pairwise fun s t => Utf8.encode s < Utf8.encode t
    tidy names = ((names.filter (· ≠ "")).mergeSort Utf8.notAfter).destutter (· ≠ ·) ∧
    ascending (tidy names) ∧ "" ∉ tidy names ∧
    (∀ name, name ∈ tidy names ↔ name ∈ names ∧ name ≠ "") ∧
    (∀ l, ascending l → (∀ name, name ∈ l ↔ name ∈ names ∧ name ≠ "") → l = tidy names) ∧
    (tidy names = tidy names' ↔ ∀ name ≠ "", name ∈ names ↔ name ∈ names') ∧
    tidy (tidy names) = tidy names ∧
    (names.Perm names' → tidy names = tidy names') ∧
    (names' ⊆ names → tidy (names ++ names') = tidy names) ∧
    tidy (names ++ names') = tidy (tidy names ++ tidy names') := by
  intro ascending
  have hbytes : ∀ l, ascending l ↔ l.Pairwise (· < ·) :=
    fun l => List.Pairwise.iff fun _ _ => Utf8.encode_lt_encode_iff
  have hempty : "" ∉ tidy names := fun h => (mem_tidy.1 h).2 rfl
  refine ⟨tidy_eq_destutter names, (hbytes _).2 (pairwise_tidy names), hempty, fun _ => mem_tidy, ?_,
    tidy_eq_tidy_iff, ?_, ?_, ?_, (tidy_tidy_append names names').symm⟩
  · intro l hl hmem
    apply Ascending.eq_of_mem_iff ((hbytes l).1 hl) (pairwise_tidy names)
    intro name
    rw [hmem, mem_tidy]
  · apply tidy_eq_tidy_iff.2
    intro name hname
    rw [mem_tidy]
    exact and_iff_left hname
  · intro hperm
    exact tidy_congr fun _ => hperm.mem_iff
  · intro hsub
    apply tidy_congr
    intro name
    rw [List.mem_append]
    exact or_iff_left_of_imp fun h => hsub h

end SnippetCatalog
