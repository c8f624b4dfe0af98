import Mathlib.Logic.Relation
import SnippetCatalog.Proofs.JoinedPaths

/-!
Spellings of a path. Each path has a plain spelling, with one slash between its components and none at
its end, which it comes to by leaving out slashes and dots that do not count. Main statement: two
paths are the same exactly if one turns into the other by leaving out and putting in such slashes and
dots.
-/

namespace SnippetCatalog.Path

/-- The second spelling leaves out a slash or a dot of the first one that does not count. -/
inductive Respelled : Path → Path → Prop
  | doubled (u v : Bytes) : Respelled ⟨u ++ slash :: slash :: v⟩ ⟨u ++ slash :: v⟩
  | ended {u : Bytes} : u ≠ [] → Respelled ⟨u ++ [slash]⟩ ⟨u⟩
  | dotted (u v : Bytes) : Respelled ⟨u ++ slash :: (dot ++ slash :: v)⟩ ⟨u ++ slash :: v⟩
  | dotEnded (u : Bytes) : Respelled ⟨u ++ slash :: dot⟩ ⟨u ++ [slash]⟩

/-! ### What is left out does not count -/

theorem isAbsolute_append_slash (u v w : Bytes) :
    (⟨u ++ slash :: v⟩ : Path).isAbsolute = (⟨u ++ slash :: w⟩ : Path).isAbsolute := by
  cases u <;> rfl

theorem components_append_slash (u v : Bytes) : (⟨u ++ slash :: v⟩ : Path).components =
    (⟨u⟩ : Path).components ++ counting (Text.pieces slash v) := by
  obtain ⟨first, rest, hu⟩ := List.exists_cons_of_ne_nil (Text.pieces_ne_nil slash u)
  have hpieces : (⟨u ++ slash :: v⟩ : Path).pieces = first :: (rest ++ Text.pieces slash v) := by
    rw [pieces, Text.pieces_append_separator, hu, List.cons_append]
  rw [components_cons hpieces, components_cons (p := ⟨u⟩) hu, counting_append, List.append_assoc]

theorem Respelled.same {p q : Path} (h : Respelled p q) : p.Same q := by
  have hdot : Text.pieces slash dot = [dot] := by decide
  cases h with
  | doubled u v =>
    refine ⟨isAbsolute_append_slash u _ _, ?_⟩
    rw [components_append_slash, components_append_slash, Text.pieces_cons_self]
    rfl
  | @ended u hu =>
    obtain ⟨b, u, rfl⟩ := List.exists_cons_of_ne_nil hu
    refine ⟨rfl, ?_⟩
    rw [components_append_slash]
    exact List.append_nil _
  | dotted u v =>
    refine ⟨isAbsolute_append_slash u _ _, ?_⟩
    rw [components_append_slash, components_append_slash, Text.pieces_append_separator, hdot]
    rfl
  | dotEnded u =>
    refine ⟨isAbsolute_append_slash u _ _, ?_⟩
    rw [components_append_slash, components_append_slash, hdot]
    rfl

/-! ### The plain spelling -/

def slashed (pieces : List Bytes) : Bytes := pieces.flatMap (slash :: ·)

theorem intercalate_cons (first : Bytes) (rest : List Bytes) :
    [slash].intercalate (first :: rest) = first ++ slashed rest := by
  induction rest generalizing first with
  | nil => simp [slashed]
  | cons next rest ih =>
    rw [List.intercalate_cons_cons, ih]
    simp [slashed]

/-- The spelling that begins with `u` and has no more than the given components behind it; a root
alone keeps its slash. -/
def settled (u : Bytes) (components : List Bytes) : Bytes :=
  if u = [] ∧ components = [] then [slash] else u ++ slashed components

theorem settled_of_ne_nil {u : Bytes} (h : u ≠ []) (components : List Bytes) :
    settled u components = u ++ slashed components :=
  if_neg fun hnil => h hnil.1

theorem settled_cons (u c : Bytes) (components : List Bytes) :
    settled u (c :: components) = settled (u ++ slash :: c) components := by
  have hne : u ++ slash :: c ≠ [] := by simp
  rw [settled_of_ne_nil hne, settled, if_neg (by simp)]
  simp [slashed]

theorem respelled_skip {c : Bytes} (h : c = [] ∨ c = dot) (u d : Bytes) (rest : List Bytes) :
    Respelled ⟨u ++ slashed (c :: d :: rest)⟩ ⟨u ++ slashed (d :: rest)⟩ := by
  rcases h with rfl | rfl
  · exact .doubled u (d ++ slashed rest)
  · exact .dotted u (d ++ slashed rest)

theorem eqvGen_skip_last {c : Bytes} (h : c = [] ∨ c = dot) (u : Bytes) :
    Relation.EqvGen Respelled ⟨u ++ slashed [c]⟩ ⟨settled u []⟩ := by
  have hslash : Relation.EqvGen Respelled ⟨u ++ slashed [c]⟩ ⟨u ++ [slash]⟩ := by
    rcases h with rfl | rfl
    · exact .refl _
    · exact .rel _ _ (.dotEnded u)
  refine hslash.trans _ _ _ ?_
  by_cases hu : u = []
  · subst hu
    exact .refl _
  · have hsettled : settled u [] = u := (settled_of_ne_nil hu []).trans (List.append_nil u)
    rw [hsettled]
    exact .rel _ _ (.ended hu)

theorem eqvGen_settled {u : Bytes} {rest : List Bytes} (h : u ≠ [] ∨ rest ≠ []) :
    Relation.EqvGen Respelled ⟨u ++ slashed rest⟩ ⟨settled u (counting rest)⟩ := by
  induction rest generalizing u with
  | nil =>
    have hsettled : settled u (counting []) = u ++ slashed [] :=
      settled_of_ne_nil (h.resolve_right (by simp)) []
    rw [hsettled]
    exact .refl _
  | cons c rest ih =>
    by_cases hcounts : c ≠ [] ∧ c ≠ dot
    · have hkept : counting (c :: rest) = c :: counting rest :=
        List.filter_cons_of_pos (by simpa using hcounts)
      have hcons : u ++ slashed (c :: rest) = (u ++ slash :: c) ++ slashed rest := by
        simp [slashed]
      rw [hkept, settled_cons, hcons]
      exact ih (.inl (by simp))
    · have hskipped : counting (c :: rest) = counting rest :=
        List.filter_cons_of_neg (by simpa using hcounts)
      have hc : c = [] ∨ c = dot := by
        rcases Decidable.not_and_iff_not_or_not.1 hcounts with hnil | hdot
        · exact .inl (Decidable.not_not.1 hnil)
        · exact .inr (Decidable.not_not.1 hdot)
      rw [hskipped]
      cases rest with
      | nil => exact eqvGen_skip_last hc u
      | cons d rest =>
        exact (Relation.EqvGen.rel _ _ (respelled_skip hc u d rest)).trans _ _ _ (ih (.inr (by simp)))

def plain (p : Path) : Path :=
  if p.isAbsolute then ⟨settled [] p.components⟩
  else
    match p.components with
    | [] => ⟨[]⟩
    | first :: rest => ⟨settled first rest⟩

theorem eqvGen_plain (p : Path) : Relation.EqvGen Respelled p p.plain := by
  obtain ⟨first, rest, hpieces⟩ := List.exists_cons_of_ne_nil (Text.pieces_ne_nil slash p.bytes)
  have hcomponents := components_cons (p := p) hpieces
  have hbytes : p = ⟨first ++ slashed rest⟩ := by
    rw [← intercalate_cons, ← hpieces, Text.intercalate_pieces]
  by_cases hfirst : first = []
  · rw [if_pos hfirst, List.nil_append] at hcomponents
    cases rest with
    | nil =>
      have hplain : p.plain = p := by
        rw [hbytes, hfirst]
        rfl
      rw [hplain]
      exact .refl _
    | cons c rest =>
      have habsolute : p.isAbsolute := by
        rw [hbytes, hfirst]
        rfl
      rw [plain, if_pos habsolute, hcomponents]
      conv => arg 2; rw [hbytes, hfirst]
      exact eqvGen_settled (.inr (by simp))
  · have habsolute : ¬ p.isAbsolute := by
      intro h
      obtain ⟨more, hmore⟩ := pieces_of_isAbsolute h
      exact hfirst (List.cons.inj (hpieces.symm.trans hmore)).1
    rw [if_neg hfirst] at hcomponents
    rw [plain, if_neg habsolute, hcomponents]
    conv => arg 2; rw [hbytes]
    exact eqvGen_settled (.inl hfirst)

theorem same_iff_eqvGen {p q : Path} : p.Same q ↔ Relation.EqvGen Respelled p q := by
  constructor
  · intro h
    have hplain : p.plain = q.plain := by
      rw [plain, plain, h.1, h.2]
    exact ((eqvGen_plain p).trans _ _ _ (hplain ▸ .refl _)).trans _ _ _ ((eqvGen_plain q).symm _ _)
  · intro h
    induction h with
    | rel p q hstep => exact hstep.same
    | refl p => exact .refl p
    | symm p q _ ih => exact ih.symm
    | trans p q r _ _ hpq hqr => exact hpq.trans hqr

end SnippetCatalog.Path
