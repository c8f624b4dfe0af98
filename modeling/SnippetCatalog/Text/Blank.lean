/-!
White space: the 25 characters with the Unicode property White_Space, and trimming by them. Main
statement: a text is in exactly one way white space and then a rest that does not start with any.
-/

namespace SnippetCatalog.Text

def isBlank (c : Char) : Bool :=
  let n := c.toNat
  (0x09 ≤ n && n ≤ 0x0D) || n == 0x20 || n == 0x85 || n == 0xA0 || n == 0x1680 ||
    (0x2000 ≤ n && n ≤ 0x200A) || n == 0x2028 || n == 0x2029 || n == 0x202F || n == 0x205F ||
    n == 0x3000

def skipBlank (cs : List Char) : List Char := cs.dropWhile isBlank

def dropTrailingBlank (cs : List Char) : List Char := (cs.reverse.dropWhile isBlank).reverse

def trim (cs : List Char) : List Char := dropTrailingBlank (skipBlank cs)

/-! ### White space at the start -/

def AllBlank (cs : List Char) : Prop := ∀ c ∈ cs, isBlank c

def Flush (cs : List Char) : Prop := ∀ c ∈ cs.head?, isBlank c = false

def NoBlank (cs : List Char) : Prop := ∀ c ∈ cs, isBlank c = false

instance (cs : List Char) : Decidable (NoBlank cs) := List.decidableBAll (isBlank · = false) cs

theorem flush_cons {c : Char} {cs : List Char} (h : isBlank c = false) : Flush (c :: cs) := by
  intro d hd
  rw [List.head?_cons, Option.mem_some_iff] at hd
  exact hd ▸ h

theorem Flush.append {cs : List Char} (h : Flush cs) (hne : cs ≠ []) (w : List Char) :
    Flush (cs ++ w) := by
  obtain ⟨c, r, rfl⟩ := List.exists_cons_of_ne_nil hne
  exact flush_cons (h c rfl)

theorem flush_skipBlank (cs : List Char) : Flush (skipBlank cs) := by
  intro c hc
  have h := List.head?_dropWhile_not isBlank cs
  rw [skipBlank, Option.mem_def] at hc
  simpa [hc] using h

theorem exists_append_skipBlank (cs : List Char) : ∃ w, AllBlank w ∧ cs = w ++ skipBlank cs :=
  ⟨cs.takeWhile isBlank, List.all_eq_true.1 List.all_takeWhile,
    List.takeWhile_append_dropWhile.symm⟩

theorem skipBlank_of_flush {cs : List Char} (h : Flush cs) : skipBlank cs = cs := by
  cases cs with
  | nil => rfl
  | cons c r => rw [skipBlank, List.dropWhile_cons, h c rfl]; rfl

theorem skipBlank_append {w rest : List Char} (hw : AllBlank w) (h : Flush rest) :
    skipBlank (w ++ rest) = rest := by
  rw [skipBlank, List.dropWhile_append_of_pos hw]
  exact skipBlank_of_flush h

/-! ### Trimming -/

theorem reverse_dropTrailingBlank (cs : List Char) :
    (dropTrailingBlank cs).reverse = skipBlank cs.reverse := List.reverse_reverse _

theorem exists_dropTrailingBlank_append (cs : List Char) :
    ∃ w, cs = dropTrailingBlank cs ++ w := by
  obtain ⟨w, -, h⟩ := exists_append_skipBlank cs.reverse
  refine ⟨w.reverse, ?_⟩
  rw [← List.reverse_inj, List.reverse_append, List.reverse_reverse, reverse_dropTrailingBlank]
  exact h

theorem flush_trim (cs : List Char) : Flush (trim cs) := by
  obtain ⟨w, hw⟩ := exists_dropTrailingBlank_append (skipBlank cs)
  intro c hc
  refine flush_skipBlank cs c ?_
  rw [hw, List.head?_append, ← trim, Option.mem_def.1 hc]
  rfl

theorem flush_reverse_trim (cs : List Char) : Flush (trim cs).reverse := by
  rw [trim, reverse_dropTrailingBlank]
  exact flush_skipBlank _

theorem trim_of_flush {cs : List Char} (h : Flush cs) (hr : Flush cs.reverse) : trim cs = cs := by
  rw [trim, skipBlank_of_flush h, ← List.reverse_inj, reverse_dropTrailingBlank,
    skipBlank_of_flush hr]

def Trimmed (cs : List Char) : Prop := Flush cs ∧ Flush cs.reverse

theorem trimmed_trim (cs : List Char) : Trimmed (trim cs) := ⟨flush_trim cs, flush_reverse_trim cs⟩

theorem Trimmed.trim_eq {cs : List Char} (h : Trimmed cs) : trim cs = cs := trim_of_flush h.1 h.2

theorem mem_of_mem_trim {c : Char} {cs : List Char} (h : c ∈ trim cs) : c ∈ cs := by
  obtain ⟨w, -, hw⟩ := exists_append_skipBlank cs
  obtain ⟨v, hv⟩ := exists_dropTrailingBlank_append (skipBlank cs)
  have hmem : c ∈ skipBlank cs := by
    rw [hv]
    exact List.mem_append_left v h
  rw [hw]
  exact List.mem_append_right w hmem

theorem trim_trim (cs : List Char) : trim (trim cs) = trim cs :=
  trim_of_flush (flush_trim cs) (flush_reverse_trim cs)

theorem trim_append_blank {cs w : List Char} (hcs : Flush cs) (hne : cs ≠ [])
    (hw : AllBlank w) : trim (cs ++ w) = trim cs := by
  have hblank : ∀ c ∈ w.reverse, isBlank c := fun c hc => hw c (List.mem_reverse.1 hc)
  rw [trim, trim, skipBlank_of_flush (hcs.append hne w), skipBlank_of_flush hcs, dropTrailingBlank,
    List.reverse_append, List.dropWhile_append_of_pos hblank, dropTrailingBlank]

end SnippetCatalog.Text
