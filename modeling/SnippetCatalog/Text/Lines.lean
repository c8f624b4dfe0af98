/-!
Lines. A line ends at a line feed or at a carriage return with a line feed behind it; a last line
need not end. Main statements: where a text is empty or ends with a line feed, the lines of what
follows it stand for themselves; and the lines are the one way to cut a text at its line feeds,
leaving out one carriage return before each.
-/

namespace SnippetCatalog.Text

def lines : List Char → List (List Char)
  | [] => []
  | '\n' :: r => [] :: lines r
  | '\r' :: '\n' :: r => [] :: lines r
  | c :: r =>
    match lines r with
    | [] => [[c]]
    | l :: ls => (c :: l) :: ls

theorem lines_ne_nil {cs : List Char} (h : cs ≠ []) : lines cs ≠ [] := by
  fun_cases lines cs <;> simp_all

theorem lines_append {a b : List Char} (h : ∀ c ∈ a.getLast?, c = '\n') :
    lines (a ++ b) = lines a ++ lines b := by
  fun_induction lines a with
  | case1 => rfl
  | case2 r ih =>
    have h' : ∀ c ∈ r.getLast?, c = '\n' := by
      cases r with
      | nil => simp
      | cons d s => simpa [List.getLast?_cons_cons] using h
    simp [lines, ih h']
  | case3 r ih =>
    have h' : ∀ c ∈ r.getLast?, c = '\n' := by
      cases r with
      | nil => simp
      | cons d s => simpa [List.getLast?_cons_cons] using h
    simp [lines, ih h']
  | case4 c r hn hr hl ih =>
    cases r with
    | nil => exact absurd (h c (by simp)) (by simpa using hn)
    | cons d s => exact absurd hl (lines_ne_nil (by simp))
  | case5 c r hn hr l ls hl ih =>
    cases r with
    | nil => simp [lines] at hl
    | cons d s =>
      have h' : ∀ c ∈ (d :: s).getLast?, c = '\n' := by
        simpa [List.getLast?_cons_cons] using h
      have hrest : ∀ t, c = '\r' → (d :: s) ++ b = '\n' :: t → False := by
        intro t hc ht
        simp only [List.cons_append, List.cons.injEq] at ht
        exact hr s hc (by rw [ht.1])
      rw [List.cons_append, lines]
      · rw [ih h', hl]
        rfl
      · exact hn
      · exact hrest

/-! ### Cutting at line feeds -/

def dropReturn (l : List Char) : List Char := if l.getLast? = some '\r' then l.dropLast else l

/-- A text cut at its line feeds; behind the last of them a line stands only if it is not empty. -/
inductive IsLines : List Char → List (List Char) → Prop
  | nil : IsLines [] []
  | unended {l : List Char} : l ≠ [] → '\n' ∉ l → IsLines l [l]
  | ended {l cs : List Char} {ls : List (List Char)} : '\n' ∉ l → IsLines cs ls →
      IsLines (l ++ '\n' :: cs) (dropReturn l :: ls)

theorem lines_unended {l : List Char} (hne : l ≠ []) (h : '\n' ∉ l) : lines l = [l] := by
  induction l with
  | nil => exact absurd rfl hne
  | cons c r ih =>
    have hc : c ≠ '\n' := fun hc => h (hc ▸ List.mem_cons_self)
    have hr : '\n' ∉ r := fun hr => h (List.mem_cons_of_mem c hr)
    have hpair : ∀ t, c = '\r' → r = '\n' :: t → False := by
      rintro t - rfl
      exact hr List.mem_cons_self
    rw [lines.eq_4 c r hc hpair]
    cases r with
    | nil => rfl
    | cons d s => rw [ih (by simp) hr]

theorem dropReturn_cons {c : Char} {r : List Char} (h : c ≠ '\r' ∨ r ≠ []) :
    dropReturn (c :: r) = c :: dropReturn r := by
  cases r with
  | nil =>
    have hc : c ≠ '\r' := h.resolve_right (by simp)
    simp [dropReturn, hc]
  | cons d s =>
    rw [dropReturn, List.getLast?_cons_cons, dropReturn]
    split <;> rfl

theorem lines_ended {l : List Char} (cs : List Char) (h : '\n' ∉ l) :
    lines (l ++ '\n' :: cs) = dropReturn l :: lines cs := by
  induction l with
  | nil => rfl
  | cons c r ih =>
    have hc : c ≠ '\n' := fun hc => h (hc ▸ List.mem_cons_self)
    have hr : '\n' ∉ r := fun hr => h (List.mem_cons_of_mem c hr)
    by_cases hcr : c = '\r' ∧ r = []
    · obtain ⟨rfl, rfl⟩ := hcr
      rfl
    · have hpair : ∀ t, c = '\r' → r ++ '\n' :: cs = '\n' :: t → False := by
        intro t hcr' ht
        cases r with
        | nil => exact hcr ⟨hcr', rfl⟩
        | cons d s => exact hr ((List.cons.inj ht).1 ▸ List.mem_cons_self)
      rw [List.cons_append, lines.eq_4 c _ hc hpair, ih hr, dropReturn_cons]
      exact Decidable.not_and_iff_not_or_not.1 hcr

theorem isLines_lines (cs : List Char) : IsLines cs (lines cs) := by
  by_cases h : '\n' ∈ cs
  · obtain ⟨l, r, hcs, hl⟩ := List.eq_append_cons_of_mem h
    rw [hcs, lines_ended r hl]
    exact .ended hl (isLines_lines r)
  · by_cases hne : cs = []
    · exact hne ▸ .nil
    · rw [lines_unended hne h]
      exact .unended hne h
  termination_by cs.length
  decreasing_by
    rw [hcs, List.length_append, List.length_cons]
    omega

theorem isLines_iff {cs : List Char} {ls : List (List Char)} : IsLines cs ls ↔ ls = lines cs := by
  constructor
  · intro h
    induction h with
    | nil => rfl
    | unended hne hl => exact (lines_unended hne hl).symm
    | ended hl _ ih => rw [lines_ended _ hl, ih]
  · rintro rfl
    exact isLines_lines cs

theorem mem_of_mem_dropReturn {c : Char} {l : List Char} (h : c ∈ dropReturn l) : c ∈ l := by
  unfold dropReturn at h
  split at h
  · exact List.dropLast_subset l h
  · exact h

theorem notMem_of_mem_lines {l cs : List Char} (h : l ∈ lines cs) : '\n' ∉ l := by
  have hlines := isLines_lines cs
  generalize lines cs = ls at h hlines
  induction hlines with
  | nil => cases h
  | unended _ hl => exact List.mem_singleton.1 h ▸ hl
  | ended hl _ ih =>
    rcases List.mem_cons.1 h with rfl | h
    · exact fun hc => hl (mem_of_mem_dropReturn hc)
    · exact ih h

/-- Lines that end with a carriage return and a line feed are read back as they are, also those
that have another carriage return before. -/
theorem lines_flatMap_return {ls : List (List Char)} (h : ∀ l ∈ ls, '\n' ∉ l) :
    lines (ls.flatMap fun l => l ++ ['\r', '\n']) = ls := by
  induction ls with
  | nil => rfl
  | cons l ls ih =>
    have hl : '\n' ∉ l ++ ['\r'] := by
      simpa using h l List.mem_cons_self
    have hdrop : dropReturn (l ++ ['\r']) = l := by simp [dropReturn]
    have hcut := lines_ended (ls.flatMap fun l => l ++ ['\r', '\n']) hl
    rw [hdrop, ih fun k hk => h k (List.mem_cons_of_mem l hk)] at hcut
    rw [List.flatMap_cons, ← hcut]
    simp

end SnippetCatalog.Text
