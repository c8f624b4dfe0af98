import Mathlib.Algebra.BigOperators.Group.List.Basic
import Mathlib.Algebra.GroupWithZero.Nat
import SnippetCatalog.Journal

/-!
The lines of a report, by category. Main statements: after the title come the categories that have
problems, each with its heading and a line for each problem; and what is summed up category by
category is summed up over all notes.
-/

namespace SnippetCatalog

namespace Journal

def categories (j : Journal) : List Category := Category.all.filter fun c => j.problems c ≠ []

variable {j : Journal}

theorem mem_categories_iff {c : Category} : c ∈ j.categories ↔ j.problems c ≠ [] := by
  rw [categories, List.mem_filter, decide_eq_true_iff]
  exact and_iff_right (Category.mem_all c)

theorem categories_eq_nil_iff : j.categories = [] ↔ j.notes = [] := by
  rw [categories, List.filter_eq_nil_iff]
  constructor
  · intro h
    refine List.eq_nil_iff_forall_not_mem.2 fun n hn => ?_
    have hnone : j.problems n.1 = [] := by simpa using h n.1 (Category.mem_all n.1)
    have hproblem : n.2 ∈ j.problems n.1 :=
      List.mem_map.2 ⟨n, List.mem_filter.2 ⟨hn, decide_eq_true rfl⟩, rfl⟩
    rw [hnone] at hproblem
    cases hproblem
  · intro h c _
    simp [problems, h]

theorem sorted_eq (j : Journal) : j.sorted = j.categories.map fun c => (c, j.problems c) := by
  rw [sorted, List.filter_map]
  rfl

theorem reportLines_cons (h : j.notes ≠ []) (title : String) : j.reportLines title =
    s!"{title}:" :: j.categories.flatMap fun c =>
      heading c (j.problems c).length :: (j.problems c).map fun p => "    " ++ p.message := by
  have hnonempty : j.isEmpty = false := List.isEmpty_eq_false_iff.2 h
  rw [reportLines, hnonempty, if_neg Bool.false_ne_true, sorted_eq, List.flatMap_map]

theorem problems_append (notes later : List (Category × Problem)) (c : Category) :
    (Journal.mk (notes ++ later)).problems c =
      (Journal.mk notes).problems c ++ (Journal.mk later).problems c := by
  rw [problems, List.filter_append, List.map_append]
  rfl

theorem problems_map (ps : List Problem) (c c' : Category) :
    (Journal.mk (ps.map (c, ·))).problems c' = if c = c' then ps else [] := by
  rw [problems, List.filter_map, List.map_map]
  split
  · next h => simp [h, Function.comp_def]
  · next h => simp [h, Function.comp_def]

theorem sum_all (weight : Problem → Nat) (notes : List (Category × Problem)) :
    (Category.all.map fun c => (((Journal.mk notes).problems c).map weight).sum).sum =
      (notes.map fun n => weight n.2).sum := by
  induction notes with
  | nil => rfl
  | cons n notes ih =>
    have hone : (Category.all.map fun c =>
        (((Journal.mk [n]).problems c).map weight).sum).sum = weight n.2 := by
      obtain ⟨c, p⟩ := n
      cases c <;> simp [Category.all, problems]
    have hsplit : ∀ c, (((Journal.mk (n :: notes)).problems c).map weight).sum =
        (((Journal.mk [n]).problems c).map weight).sum +
          (((Journal.mk notes).problems c).map weight).sum := by
      intro c
      have happend := problems_append [n] notes c
      rw [List.singleton_append] at happend
      rw [happend, List.map_append, List.sum_append]
    simp only [hsplit]
    rw [List.sum_map_add, hone, ih, List.map_cons, List.sum_cons]

theorem sum_categories (weight : Problem → Nat) (j : Journal) :
    (j.categories.map fun c => ((j.problems c).map weight).sum).sum =
      (j.notes.map fun n => weight n.2).sum := by
  have hnothing : ∀ cs : List Category,
      ((cs.filter fun c => j.problems c ≠ []).map fun c => ((j.problems c).map weight).sum).sum =
        (cs.map fun c => ((j.problems c).map weight).sum).sum := by
    intro cs
    induction cs with
    | nil => rfl
    | cons c cs ih =>
      by_cases hc : j.problems c = []
      · rw [List.filter_cons_of_neg (by simpa using hc), ih, List.map_cons, List.sum_cons, hc]
        exact (Nat.zero_add _).symm
      · rw [List.filter_cons_of_pos (by simpa using hc), List.map_cons, List.map_cons,
          List.sum_cons, List.sum_cons, ih]
  exact (hnothing Category.all).trans (sum_all weight j.notes)

theorem sum_lengths (j : Journal) :
    (j.categories.map fun c => (j.problems c).length).sum = j.size := by
  have hcount := j.sum_categories fun _ => 1
  simpa [size] using hcount

end Journal
end SnippetCatalog
