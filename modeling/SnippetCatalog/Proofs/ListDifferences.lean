import Mathlib.Data.List.Range
import SnippetCatalog.Difference

/-!
What is told of two lists. The entries that disagree are found at the clashes, the places that both
lists have and where their entries differ, in ascending order. Main statement: nothing is told exactly
of equal lists, and of others whether their lengths differ, the first clash and how many there are
beyond it.
-/

namespace SnippetCatalog.Difference

open Text (quote)

def clashes (this other : List String) : List Nat :=
  (List.range (min this.length other.length)).filter fun i => this[i]? ≠ other[i]?

section

variable {this other : List String}

theorem mem_clashes_iff {i : Nat} :
    i ∈ clashes this other ↔ ∃ x y, this[i]? = some x ∧ other[i]? = some y ∧ x ≠ y := by
  rw [clashes, List.mem_filter, List.mem_range, Nat.lt_min, decide_eq_true_iff]
  constructor
  · rintro ⟨⟨hthis, hother⟩, hne⟩
    rw [List.getElem?_eq_getElem hthis, List.getElem?_eq_getElem hother] at hne
    exact ⟨_, _, List.getElem?_eq_getElem hthis, List.getElem?_eq_getElem hother,
      fun heq => hne (congrArg some heq)⟩
  · rintro ⟨x, y, hx, hy, hne⟩
    obtain ⟨hthis, -⟩ := List.getElem?_eq_some_iff.1 hx
    obtain ⟨hother, -⟩ := List.getElem?_eq_some_iff.1 hy
    exact ⟨⟨hthis, hother⟩, by simpa [hx, hy] using hne⟩

theorem pairwise_clashes (this other : List String) : (clashes this other).Pairwise (· < ·) :=
  List.pairwise_lt_range.filter _

theorem clashes_beyond {i : Nat} {beyond : List Nat} (h : clashes this other = i :: beyond) :
    (∀ j ∈ clashes this other, i ≤ j) ∧
      beyond = (clashes this other).filter fun j => i < j := by
  have hpairwise := pairwise_clashes this other
  rw [h, List.pairwise_cons] at hpairwise
  rw [h]
  constructor
  · intro j hj
    rcases List.mem_cons.1 hj with rfl | hj
    · exact Nat.le_refl j
    · exact Nat.le_of_lt (hpairwise.1 j hj)
  · have hself : ∀ j ∈ beyond, decide (i < j) = true := fun j hj => by simpa using hpairwise.1 j hj
    rw [List.filter_cons_of_neg (by simp), List.filter_eq_self.2 hself]

theorem clashes_cons (x y : String) (xs ys : List String) :
    clashes (x :: xs) (y :: ys) =
      (if x = y then [] else [0]) ++ (clashes xs ys).map (· + 1) := by
  have hnext : ((fun i => decide ((x :: xs)[i]? ≠ (y :: ys)[i]?)) ∘ Nat.succ) =
      fun i => decide (xs[i]? ≠ ys[i]?) := by
    funext i
    simp
  rw [clashes, clashes, List.length_cons, List.length_cons, Nat.add_min_add_right,
    List.range_succ_eq_map, List.filter_cons, List.filter_map, hnext]
  by_cases h : x = y <;> simp [h]

theorem eq_of_clashes_eq_nil (hlength : this.length = other.length)
    (h : clashes this other = []) : this = other := by
  apply List.ext_getElem hlength
  intro i hthis hother
  by_contra hne
  have hmem : i ∈ clashes this other := mem_clashes_iff.2 ⟨_, _, List.getElem?_eq_getElem hthis,
    List.getElem?_eq_getElem hother, hne⟩
  rw [h] at hmem
  cases hmem

theorem clashes_self (l : List String) : clashes l l = [] :=
  List.filter_eq_nil_iff.2 fun i _ => by simp

theorem map_fst_disagreements (n : Nat) (this other : List String) :
    (disagreements n this other).map (·.1) = (clashes this other).map (n + ·) := by
  induction this generalizing n other with
  | nil => simp [disagreements, clashes]
  | cons x xs ih =>
    cases other with
    | nil => simp [disagreements, clashes]
    | cons y ys =>
      have hshift : ((clashes xs ys).map (· + 1)).map (n + ·) =
          (clashes xs ys).map (n + 1 + ·) := by
        rw [List.map_map]
        refine List.map_congr_left fun i _ => ?_
        simp only [Function.comp_apply]
        omega
      rw [clashes_cons, List.map_append, hshift, ← ih, disagreements]
      by_cases h : x = y <;> simp [h]

theorem entries_of_mem_disagreements {n : Nat} {e : Nat × String × String}
    (h : e ∈ disagreements n this other) :
    this[e.1 - n]? = some e.2.1 ∧ other[e.1 - n]? = some e.2.2 ∧ n ≤ e.1 := by
  induction this generalizing n other with
  | nil => simp [disagreements] at h
  | cons x xs ih =>
    cases other with
    | nil => simp [disagreements] at h
    | cons y ys =>
      have hlater : e ∈ disagreements (n + 1) xs ys →
          (x :: xs)[e.1 - n]? = some e.2.1 ∧ (y :: ys)[e.1 - n]? = some e.2.2 ∧ n ≤ e.1 := by
        intro hmem
        obtain ⟨hthis, hother, hle⟩ := ih hmem
        have hplace : e.1 - n = e.1 - (n + 1) + 1 := by omega
        rw [hplace, List.getElem?_cons_succ, List.getElem?_cons_succ]
        exact ⟨hthis, hother, by omega⟩
      rw [disagreements] at h
      split at h
      · exact hlater h
      · rcases List.mem_cons.1 h with rfl | h
        · simp
        · exact hlater h

end

/-! ### The lines -/

inductive LengthsTold (this other : List String) : List String → Prop
  | same : this.length = other.length → LengthsTold this other []
  | differ : this.length ≠ other.length →
      LengthsTold this other [s!"the lengths differ: {this.length} != {other.length}"]

inductive FurtherTold : Nat → List String → Prop
  | none : FurtherTold 0 []
  | one : FurtherTold 1 ["an additional difference was found"]
  | several {k : Nat} : 2 ≤ k → FurtherTold k [s!"{k} additional differences were found"]

/-- What is told of the entries of two lists: the first clash with what the lists have there, and the
number of clashes beyond it. -/
inductive EntriesTold (this other : List String) : List String → Prop
  | agree : (∀ (i : Nat) x y, this[i]? = some x → other[i]? = some y → x = y) → EntriesTold this other []
  | clash {i : Nat} {x y : String} {further : List String} :
      this[i]? = some x → other[i]? = some y → x ≠ y → (∀ j < i, this[j]? = other[j]?) →
      FurtherTold ((List.range (min this.length other.length)).countP
        fun j => i < j ∧ this[j]? ≠ other[j]?) further →
      EntriesTold this other (s!"entry[{i}] differs: {quote x} != {quote y}" :: further)

section

variable {this other : List String}

theorem lengthsTold_lengthLines (this other : List String) :
    LengthsTold this other (lengthLines this other) := by
  unfold lengthLines
  split
  · next h => exact .same h
  · next h => exact .differ h

theorem getElem?_eq_of_lt_clash {i : Nat} (hi : i ∈ clashes this other)
    (hleast : ∀ j ∈ clashes this other, i ≤ j) : ∀ j < i, this[j]? = other[j]? := by
  intro j hlt
  by_contra hne
  have hrange := (List.mem_filter.1 hi).1
  have hj : j ∈ clashes this other := List.mem_filter.2
    ⟨List.mem_range.2 (Nat.lt_trans hlt (List.mem_range.1 hrange)), by simpa using hne⟩
  exact absurd (hleast j hj) (Nat.not_le.2 hlt)

theorem length_clashes_beyond (i : Nat) :
    ((clashes this other).filter fun j => i < j).length =
      (List.range (min this.length other.length)).countP
        fun j => i < j ∧ this[j]? ≠ other[j]? := by
  rw [clashes, List.filter_filter, ← List.countP_eq_length_filter]
  congr 1
  funext j
  rw [Bool.decide_and]

theorem entriesTold_entryLines (this other : List String) :
    EntriesTold this other (entryLines (disagreements 0 this other)) := by
  have hplaces := map_fst_disagreements 0 this other
  simp only [Nat.zero_add, List.map_id'] at hplaces
  cases hdis : disagreements 0 this other with
  | nil =>
    rw [hdis, List.map_nil] at hplaces
    refine .agree fun i x y hx hy => ?_
    by_contra hne
    have hmem : i ∈ clashes this other := mem_clashes_iff.2 ⟨x, y, hx, hy, hne⟩
    rw [← hplaces] at hmem
    cases hmem
  | cons e further =>
    obtain ⟨i, x, y⟩ := e
    have hfirst : (i, x, y) ∈ disagreements 0 this other := hdis ▸ List.mem_cons_self
    obtain ⟨hx, hy, -⟩ : this[i]? = some x ∧ other[i]? = some y ∧ _ :=
      entries_of_mem_disagreements hfirst
    rw [hdis, List.map_cons] at hplaces
    obtain ⟨hleast, hbeyond⟩ := clashes_beyond hplaces.symm
    have hi : i ∈ clashes this other := hplaces ▸ List.mem_cons_self
    have hne : x ≠ y := by
      obtain ⟨x', y', hx', hy', hne⟩ := mem_clashes_iff.1 hi
      rwa [Option.some.inj (hx.symm.trans hx'), Option.some.inj (hy.symm.trans hy')]
    have hcount : further.length = (List.range (min this.length other.length)).countP
        fun j => i < j ∧ this[j]? ≠ other[j]? := by
      rw [← length_clashes_beyond, ← hbeyond, List.length_map]
    refine .clash hx hy hne (getElem?_eq_of_lt_clash hi hleast) ?_
    rw [← hcount]
    split
    · next hnone => exact hnone ▸ .none
    · next hone => exact hone ▸ .one
    · next hzero hone => exact .several ((Nat.two_le_iff _).2 ⟨hzero, hone⟩)

theorem entryLines_eq_nil_iff {l : List (Nat × String × String)} : entryLines l = [] ↔ l = [] := by
  cases l with
  | nil => simp [entryLines]
  | cons e further => simp [entryLines]

theorem listLines_eq_nil_iff : listLines this other = [] ↔ this = other := by
  have hplaces := map_fst_disagreements 0 this other
  simp only [Nat.zero_add, List.map_id'] at hplaces
  rw [listLines, List.append_eq_nil_iff, entryLines_eq_nil_iff]
  constructor
  · rintro ⟨hlengths, hdis⟩
    have hlength : this.length = other.length := by
      by_contra hne
      rw [lengthLines, if_neg hne] at hlengths
      cases hlengths
    rw [hdis, List.map_nil] at hplaces
    exact eq_of_clashes_eq_nil hlength hplaces.symm
  · rintro rfl
    rw [clashes_self] at hplaces
    exact ⟨if_pos rfl, List.map_eq_nil_iff.1 hplaces⟩

theorem ofLists?_eq_none_iff {label : String} : ofLists? label this other = none ↔ this = other := by
  rw [ofLists?, ite_eq_left_iff, ← @listLines_eq_nil_iff this other]
  simp

theorem ofLists?_of_ne {label : String} (h : this ≠ other) :
    ofLists? label this other = some (.lists label this other) :=
  if_neg fun hnil => h (listLines_eq_nil_iff.1 hnil)

end

theorem message_of_lines {d : Difference} {first : String} {more : List String}
    (h : d.lines = first :: more) :
    d.message = first ++ String.join (more.map ("\n\t" ++ ·)) := by
  rw [message, h]
  clear h
  induction more generalizing first with
  | nil => simp
  | cons l more ih =>
    rw [String.intercalate_cons_cons, ih, List.map_cons, String.join_cons]
    simp [String.append_assoc]

/-- Nothing is told of two lists exactly if they are equal. Of others it is told, under their label,
one line after the other, that the lengths differ if they do, and what the first clash is and how
many there are beyond it if there is one. -/
theorem lists_are_told_apart (label : String) (this other : List String) :
    (ofLists? label this other = none ↔ this = other) ∧
    (this ≠ other → ∃ d lengths entries, ofLists? label this other = some d ∧
      LengthsTold this other lengths ∧ EntriesTold this other entries ∧
      d.message =
        label ++ " differs:" ++ String.join ((lengths ++ entries).map ("\n\t" ++ ·))) := by
  refine ⟨ofLists?_eq_none_iff, fun hne => ?_⟩
  have hlines : (lists label this other).lines =
      (label ++ " differs:") :: listLines this other := rfl
  exact ⟨_, lengthLines this other, entryLines (disagreements 0 this other), ofLists?_of_ne hne,
    lengthsTold_lengthLines this other, entriesTold_entryLines this other, message_of_lines hlines⟩

example : (ofLists? "docs" ["Hello", "World", "and"] ["Bonjour", "World", "etc", ""]).map message =
    some ("docs differs:\n\tthe lengths differ: 3 != 4\n\tentry[0] differs: " ++
      "\"Hello\" != \"Bonjour\"\n\tan additional difference was found") := by decide +kernel

end SnippetCatalog.Difference
