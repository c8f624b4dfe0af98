/-!
Strictly ascending lists as the written form of finite sets. Main statements: `ofList` holds the
members of the list it is made from, is strictly ascending, and two strictly ascending lists with
the same members are equal.
-/

namespace SnippetCatalog.Ascending

variable {α : Type} [LT α] [DecidableLT α] [DecidableEq α]

def insert (x : α) : List α → List α
  | [] => [x]
  | y :: r => if x < y then x :: y :: r else if x = y then y :: r else y :: insert x r

def ofList (l : List α) : List α := l.foldr insert []

theorem mem_insert {x y : α} {l : List α} : y ∈ insert x l ↔ y = x ∨ y ∈ l := by
  induction l with
  | nil => simp [insert]
  | cons z r ih => grind [insert]

@[simp] theorem mem_ofList {y : α} {l : List α} : y ∈ ofList l ↔ y ∈ l := by
  induction l with
  | nil => simp [ofList]
  | cons x r ih =>
    have h : ofList (x :: r) = insert x (ofList r) := rfl
    rw [h, mem_insert, ih, List.mem_cons]

section

variable {β : Type} {f : β → α}

theorem exists_map_insert {x : β} {l : List β} (h : f x ∉ l.map f) :
    ∃ k : List β, insert (f x) (l.map f) = k.map f ∧ k.Perm (x :: l) := by
  induction l with
  | nil => exact ⟨[x], rfl, .refl _⟩
  | cons y l ih =>
    obtain ⟨hne, hrest⟩ := List.ne_and_not_mem_of_not_mem_cons h
    rw [List.map_cons, insert, if_neg hne]
    split
    · exact ⟨x :: y :: l, rfl, .refl _⟩
    · obtain ⟨k, hk, hperm⟩ := ih hrest
      exact ⟨y :: k, by rw [hk, List.map_cons], (hperm.cons y).trans (.swap x y l)⟩

theorem exists_map_ofList {l : List β} (h : (l.map f).Nodup) :
    ∃ k : List β, ofList (l.map f) = k.map f ∧ k.Perm l := by
  induction l with
  | nil => exact ⟨[], rfl, .refl _⟩
  | cons x l ih =>
    obtain ⟨hx, hl⟩ := List.nodup_cons.1 h
    obtain ⟨k, hk, hperm⟩ := ih hl
    have hfresh : f x ∉ k.map f := fun hmem => hx ((hperm.map f).mem_iff.1 hmem)
    obtain ⟨k', hk', hperm'⟩ := exists_map_insert hfresh
    have hcons : ofList ((x :: l).map f) = insert (f x) (ofList (l.map f)) := rfl
    exact ⟨k', by rw [hcons, hk, hk'], hperm'.trans (hperm.cons x)⟩

end

variable [LE α] [Std.IsLinearOrder α] [Std.LawfulOrderLT α]

theorem pairwise_insert {x : α} {l : List α} (h : l.Pairwise (· < ·)) :
    (insert x l).Pairwise (· < ·) := by
  induction l with
  | nil => simp [insert]
  | cons y r ih =>
    rw [List.pairwise_cons] at h
    rw [insert]
    split
    · next hxy =>
      refine List.pairwise_cons.2 ⟨fun z hz => ?_, List.pairwise_cons.2 h⟩
      rcases List.mem_cons.1 hz with rfl | hz
      · exact hxy
      · exact Std.lt_trans hxy (h.1 z hz)
    · next hxy =>
      split
      · exact List.pairwise_cons.2 h
      · next hne =>
        refine List.pairwise_cons.2 ⟨fun z hz => ?_, ih h.2⟩
        rcases mem_insert.1 hz with rfl | hz
        · exact Std.lt_of_le_of_ne (Std.not_lt.1 hxy) (Ne.symm hne)
        · exact h.1 z hz

theorem pairwise_ofList (l : List α) : (ofList l).Pairwise (· < ·) := by
  induction l with
  | nil => simp [ofList]
  | cons x r ih => exact pairwise_insert ih

omit [DecidableLT α] [DecidableEq α] in
theorem eq_of_mem_iff {l m : List α} (hl : l.Pairwise (· < ·)) (hm : m.Pairwise (· < ·))
    (h : ∀ x, x ∈ l ↔ x ∈ m) : l = m := by
  induction l generalizing m with
  | nil =>
    cases m with
    | nil => rfl
    | cons y s => simpa using (h y).2 List.mem_cons_self
  | cons x r ih =>
    cases m with
    | nil => simpa using (h x).1 List.mem_cons_self
    | cons y s =>
      rw [List.pairwise_cons] at hl hm
      have hxy : x = y := by
        rcases List.mem_cons.1 ((h x).1 List.mem_cons_self) with rfl | hx
        · rfl
        · rcases List.mem_cons.1 ((h y).2 List.mem_cons_self) with rfl | hy
          · rfl
          · exact absurd (Std.lt_trans (hm.1 x hx) (hl.1 y hy)) Std.lt_irrefl
      subst hxy
      congr 1
      refine ih hl.2 hm.2 fun z => ⟨fun hz => ?_, fun hz => ?_⟩
      · rcases List.mem_cons.1 ((h z).1 (List.mem_cons_of_mem _ hz)) with rfl | hz'
        · exact absurd (hl.1 z hz) Std.lt_irrefl
        · exact hz'
      · rcases List.mem_cons.1 ((h z).2 (List.mem_cons_of_mem _ hz)) with rfl | hz'
        · exact absurd (hm.1 z hz) Std.lt_irrefl
        · exact hz'

end SnippetCatalog.Ascending
