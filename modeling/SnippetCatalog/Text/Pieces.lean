/-!
Cutting a list at every occurrence of a separator. `n` occurrences give `n + 1` pieces, of which
any may be empty. Main statements: cutting undoes joining and joining undoes cutting; and two lists
with a separator between them are cut one after the other.
-/

namespace SnippetCatalog.Text

def pieces {α : Type} [DecidableEq α] (separator : α) : List α → List (List α)
  | [] => [[]]
  | a :: r =>
    if a = separator then [] :: pieces separator r
    else
      match pieces separator r with
      | [] => [[a]]
      | p :: ps => (a :: p) :: ps

theorem pieces_ne_nil {α : Type} [DecidableEq α] (separator : α) (l : List α) :
    pieces separator l ≠ [] := by
  cases l with
  | nil => simp [pieces]
  | cons a r =>
    rw [pieces]
    split
    · simp
    · split <;> simp

section

variable {α : Type} [DecidableEq α] {separator : α}

theorem pieces_cons_self (r : List α) : pieces separator (separator :: r) = [] :: pieces separator r :=
  if_pos rfl

theorem pieces_cons_of_ne {a : α} (h : a ≠ separator) {p r : List α} {ps : List (List α)}
    (hr : pieces separator r = p :: ps) : pieces separator (a :: r) = (a :: p) :: ps := by
  rw [pieces, if_neg h, hr]

theorem intercalate_pieces (l : List α) : [separator].intercalate (pieces separator l) = l := by
  induction l with
  | nil => rfl
  | cons a r ih =>
    obtain ⟨p, ps, hr⟩ := List.exists_cons_of_ne_nil (pieces_ne_nil separator r)
    rw [hr] at ih
    by_cases h : a = separator
    · rw [h, pieces_cons_self, hr, List.intercalate_cons_cons, ih]
      rfl
    · rw [pieces_cons_of_ne h hr, List.intercalate_cons_cons_left, ih]

omit [DecidableEq α] in
theorem intercalate_isPrefix {ls : List (List α)} (hne : ls ≠ []) (ms : List (List α)) :
    [separator].intercalate ls <+: [separator].intercalate (ls ++ ms) := by
  induction ls with
  | nil => exact absurd rfl hne
  | cons l ls ih =>
    cases ls with
    | nil =>
      cases ms with
      | nil => exact List.prefix_rfl
      | cons m ms =>
        rw [List.intercalate_singleton, List.singleton_append, List.intercalate_cons_cons,
          List.append_assoc]
        exact List.prefix_append _ _
    | cons k ls =>
      obtain ⟨rest, hrest⟩ := ih (by simp)
      refine ⟨rest, ?_⟩
      rw [List.intercalate_cons_cons, List.append_assoc, hrest]
      exact List.intercalate_cons_cons.symm

omit [DecidableEq α] in
theorem length_le_length_intercalate {ls : List (List α)} (h : ∀ l ∈ ls, l ≠ []) :
    ls.length ≤ ([separator].intercalate ls).length := by
  induction ls with
  | nil => exact Nat.le_refl 0
  | cons l ls ih =>
    have hl : 0 < l.length := List.length_pos_iff.2 (h l List.mem_cons_self)
    cases ls with
    | nil =>
      rw [List.intercalate_singleton]
      exact hl
    | cons m ms =>
      have hrest := ih fun k hk => h k (List.mem_cons_of_mem l hk)
      rw [List.intercalate_cons_cons, List.length_append, List.length_append, List.length_cons]
      omega

theorem pieces_injective {l m : List α} (h : pieces separator l = pieces separator m) : l = m := by
  rw [← intercalate_pieces l, h, intercalate_pieces]

theorem pieces_append_separator (l m : List α) :
    pieces separator (l ++ separator :: m) = pieces separator l ++ pieces separator m := by
  induction l with
  | nil => exact pieces_cons_self m
  | cons a r ih =>
    obtain ⟨p, ps, hr⟩ := List.exists_cons_of_ne_nil (pieces_ne_nil separator r)
    rw [hr] at ih
    by_cases h : a = separator
    · rw [h, List.cons_append, pieces_cons_self, pieces_cons_self, ih, hr]
      rfl
    · rw [List.cons_append, pieces_cons_of_ne h ih, pieces_cons_of_ne h hr]
      rfl

theorem pieces_of_notMem {l : List α} (h : separator ∉ l) : pieces separator l = [l] := by
  induction l with
  | nil => rfl
  | cons a r ih =>
    have ha : a ≠ separator := fun ha => h (ha ▸ List.mem_cons_self)
    exact pieces_cons_of_ne ha (ih fun hr => h (List.mem_cons_of_mem a hr))

theorem pieces_append_of_notMem {l r p : List α} {ps : List (List α)} (h : separator ∉ l)
    (hr : pieces separator r = p :: ps) : pieces separator (l ++ r) = (l ++ p) :: ps := by
  induction l with
  | nil => exact hr
  | cons a l ih =>
    have ha : a ≠ separator := fun ha => h (ha ▸ List.mem_cons_self)
    exact pieces_cons_of_ne ha (ih fun hl => h (List.mem_cons_of_mem a hl))

theorem length_pieces_le (l : List α) : (pieces separator l).length ≤ l.length + 1 := by
  induction l with
  | nil => exact Nat.le_refl 1
  | cons a r ih =>
    obtain ⟨p, ps, hr⟩ := List.exists_cons_of_ne_nil (pieces_ne_nil separator r)
    by_cases h : a = separator
    · rw [h, pieces_cons_self]
      exact Nat.succ_le_succ ih
    · rw [hr] at ih
      rw [pieces_cons_of_ne h hr]
      exact Nat.le_succ_of_le ih

theorem pieces_intercalate {ls : List (List α)} (hne : ls ≠ []) (h : ∀ l ∈ ls, separator ∉ l) :
    pieces separator ([separator].intercalate ls) = ls := by
  induction ls with
  | nil => exact absurd rfl hne
  | cons l ls ih =>
    have hl : pieces separator l = [l] := pieces_of_notMem (h l List.mem_cons_self)
    cases ls with
    | nil => rw [List.intercalate_singleton, hl]
    | cons m ms =>
      rw [List.intercalate_cons_cons, List.append_assoc, List.singleton_append,
        pieces_append_separator, hl,
        ih (by simp) fun k hk => h k (List.mem_cons_of_mem l hk)]
      rfl

theorem notMem_of_mem_pieces {l p : List α} (h : p ∈ pieces separator l) : separator ∉ p := by
  induction l generalizing p with
  | nil =>
    rw [pieces, List.mem_singleton] at h
    rw [h]
    simp
  | cons a r ih =>
    obtain ⟨q, qs, hr⟩ := List.exists_cons_of_ne_nil (pieces_ne_nil separator r)
    by_cases ha : a = separator
    · rw [ha, pieces_cons_self] at h
      rcases List.mem_cons.1 h with rfl | h
      · simp
      · exact ih h
    · rw [pieces_cons_of_ne ha hr] at h
      rcases List.mem_cons.1 h with rfl | h
      · have hq := ih (hr ▸ List.mem_cons_self)
        simp [hq, Ne.symm ha]
      · exact ih (hr ▸ List.mem_cons_of_mem q h)

theorem exists_of_mem_pieces {p l : List α} (h : p ∈ pieces separator l) :
    ∃ (before : List (List α)) (behind : List α),
      l = (before.flatMap fun q => q ++ [separator]) ++ (p ++ behind) ∧
      (∀ q ∈ before, separator ∉ q) ∧ (behind = [] ∨ ∃ rest, behind = separator :: rest) := by
  obtain ⟨before, after, hpieces⟩ := List.append_of_mem h
  have hjoin : ∀ qs : List (List α), [separator].intercalate (qs ++ p :: after) =
      (qs.flatMap fun q => q ++ [separator]) ++ [separator].intercalate (p :: after) := by
    intro qs
    induction qs with
    | nil => rfl
    | cons q qs ih =>
      rw [List.cons_append, List.intercalate_cons_of_ne_nil (by simp), ih]
      simp
  have hl : [separator].intercalate (pieces separator l) = l := intercalate_pieces l
  rw [hpieces, hjoin] at hl
  refine ⟨before, ?_⟩
  have hbefore : ∀ q ∈ before, separator ∉ q := fun q hq =>
    notMem_of_mem_pieces (hpieces ▸ List.mem_append_left _ hq)
  cases after with
  | nil =>
    refine ⟨[], ?_, hbefore, .inl rfl⟩
    rw [← hl, List.intercalate_singleton, List.append_nil]
  | cons r rs =>
    refine ⟨separator :: [separator].intercalate (r :: rs), ?_, hbefore, .inr ⟨_, rfl⟩⟩
    rw [← hl, List.intercalate_cons_cons]
    simp

end

end SnippetCatalog.Text
