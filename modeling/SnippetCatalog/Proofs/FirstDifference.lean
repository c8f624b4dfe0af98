import SnippetCatalog.Proofs.FirstReadable
import SnippetCatalog.Proofs.PathSpellings
import SnippetCatalog.Proofs.TagDifferences

/-!
Which difference of two snippets is told. They are compared by one field after the other, in a fixed
order, and the values of tags last. Main statement: nothing is told exactly of snippets that are the
same, and of others the first field in which they differ, both ways round.
-/

namespace SnippetCatalog

/-! ### Fields -/

inductive ListField where
  | text
  | docs
  | expects
  | imports
  | follows
  deriving DecidableEq, Repr

namespace ListField

def label : ListField → String
  | text => "text"
  | docs => "docs"
  | expects => "expects"
  | imports => "imports"
  | follows => "follows"

def of (s : Snippet) : ListField → List String
  | text => s.text
  | docs => s.docs
  | expects => s.expects
  | imports => s.imports
  | follows => s.follows

def place : ListField → Nat
  | text => 0
  | docs => 1
  | expects => 2
  | imports => 3
  | follows => 4

theorem place_lt (f : ListField) : f.place < 5 := by
  cases f <;> decide

end ListField

inductive Field where
  | name
  | path
  | list (field : ListField)
  | tagNames
  | tagValues (tag : String)
  deriving DecidableEq, Repr

namespace Field

def place : Field → Nat
  | name => 0
  | path => 1
  | list f => 2 + f.place
  | tagNames => 7
  | tagValues _ => 8

/-- The values of tags come in the order of the tags' names. -/
inductive Before : Field → Field → Prop
  | place {f g : Field} : f.place < g.place → Before f g
  | tag {s t : String} : Utf8.encode s < Utf8.encode t → Before (tagValues s) (tagValues t)

def Differs (a b : Snippet) : Field → Prop
  | name => a.name ≠ b.name
  | path => ¬ a.path.Same b.path
  | list f => f.of a ≠ f.of b
  | tagNames => a.tags.keys ≠ b.tags.keys
  | tagValues t => a.tags.get? t ≠ b.tags.get? t

instance (a b : Snippet) : DecidablePred (Differs a b)
  | name => inferInstanceAs (Decidable (_ ≠ _))
  | path => inferInstanceAs (Decidable (¬ _))
  | list _ => inferInstanceAs (Decidable (_ ≠ _))
  | tagNames => inferInstanceAs (Decidable (_ ≠ _))
  | tagValues _ => inferInstanceAs (Decidable (_ ≠ _))

def told (a b : Snippet) : Field → Difference
  | name => .names a.name b.name
  | path => .paths a.path b.path
  | list f => .lists f.label (f.of a) (f.of b)
  | tagNames => .tagNames (Difference.unshared a.tags b.tags) (Difference.unshared b.tags a.tags)
  | tagValues t =>
    .lists ("Tag:" ++ t) ((a.tags.get? t).getD []) ((b.tags.get? t).getD [])

def heading : Field → String
  | name => "the names differ: this: "
  | path => "the paths differ: this: "
  | list f => f.label ++ " differs:"
  | tagNames => "the tag names differ:"
  | tagValues t => "Tag:" ++ t ++ " differs:"

structure First (a b : Snippet) (f : Field) : Prop where
  differs : f.Differs a b
  least : ∀ g : Field, g.Before f → ¬ g.Differs a b

variable {a b : Snippet} {f : Field}

theorem differs_comm : f.Differs a b ↔ f.Differs b a := by
  cases f with
  | path => exact not_congr ⟨Path.Same.symm, Path.Same.symm⟩
  | _ => exact ne_comm

theorem eq_tagNames_of_place (h : f.place = 7) : f = tagNames := by
  cases f with
  | list g =>
    have hlt := g.place_lt
    simp only [place] at h
    omega
  | tagNames => rfl
  | _ => exact absurd h (by simp [place])

theorem heading_isPrefix (a b : Snippet) (f : Field) :
    f.heading.toList <+: (f.told a b).message.toList := by
  have hfirst : ∀ {d : Difference} {first : String} {more : List String}, d.lines = first :: more →
      f.heading.toList <+: first.toList → f.heading.toList <+: d.message.toList := by
    intro d first more hlines hprefix
    rw [Difference.message_of_lines hlines, String.toList_append]
    exact hprefix.trans (List.prefix_append _ _)
  have hquoted : ∀ start this other : String,
      start.toList <+: (start ++ this ++ ", other: " ++ other).toList := by
    intro start this other
    rw [String.append_assoc, String.append_assoc, String.toList_append]
    exact List.prefix_append _ _
  cases f with
  | name => exact hfirst rfl (hquoted _ _ _)
  | path => exact hfirst rfl (hquoted _ _ _)
  | list f => exact hfirst rfl List.prefix_rfl
  | tagNames => exact hfirst rfl List.prefix_rfl
  | tagValues t => exact hfirst rfl List.prefix_rfl

end Field

/-! ### The comparison -/

namespace Snippet

open Difference (ofLists? ofTags?)

theorem Same.refl (s : Snippet) : s.Same s := ⟨.refl _, rfl⟩

theorem Same.field_eq {a b : Snippet} {α : Type} (h : a.Same b) (field : Snippet → α)
    (hfield : ∀ p, field { b with path := p } = field b) : field a = field b := by
  rw [h.2, hfield]

theorem Same.symm {a b : Snippet} (h : a.Same b) : b.Same a := by
  refine ⟨h.1.symm, ?_⟩
  rw [h.2]

theorem Same.trans {a b c : Snippet} (h : a.Same b) (k : b.Same c) : a.Same c := by
  refine ⟨h.1.trans k.1, ?_⟩
  rw [h.2, k.2]

theorem Same.not_differs {a b : Snippet} (h : a.Same b) (f : Field) : ¬ f.Differs a b := by
  intro hdiffers
  cases f with
  | path => exact hdiffers h.1
  | name => exact hdiffers (h.field_eq (·.name) fun _ => rfl)
  | list f => exact hdiffers (h.field_eq (f.of ·) fun _ => by cases f <;> rfl)
  | tagNames => exact hdiffers (h.field_eq (·.tags.keys) fun _ => rfl)
  | tagValues t => exact hdiffers (h.field_eq (·.tags.get? t) fun _ => rfl)

def plainFields : List Field :=
  [.name, .path, .list .text, .list .docs, .list .expects, .list .imports, .list .follows]

theorem mem_plainFields_iff {f : Field} : f ∈ plainFields ↔ f.place < 7 := by
  cases f with
  | list f => cases f <;> decide
  | _ => simp [plainFields, Field.place]

theorem pairwise_plainFields : plainFields.Pairwise fun f g => f.place < g.place := by decide

theorem same_of_plainFields {a b : Snippet} (h : ∀ f : Field, f.place < 7 → ¬ f.Differs a b)
    (htags : a.tags = b.tags) : a.Same b := by
  have hname : a.name = b.name := not_not.1 (h .name (by decide))
  have hlist : ∀ f : ListField, f.of a = f.of b := fun f =>
    not_not.1 (h (.list f) (mem_plainFields_iff.1 (by cases f <;> decide)))
  refine ⟨not_not.1 (h .path (by decide)), ?_⟩
  have htext : a.text = b.text := hlist .text
  have hdocs : a.docs = b.docs := hlist .docs
  have hexpects : a.expects = b.expects := hlist .expects
  have himports : a.imports = b.imports := hlist .imports
  have hfollows : a.follows = b.follows := hlist .follows
  rw [← hname, ← htext, ← hdocs, ← hexpects, ← himports, ← hfollows, ← htags]

section

variable (a b : Snippet)

theorem ofLists?_orElse (f : ListField) (r : Option Difference) :
    (ofLists? f.label (f.of a) (f.of b) <|> r) =
      if f.of a ≠ f.of b then some (Field.told a b (.list f)) else r := by
  split
  · next hne =>
    rw [Difference.ofLists?_of_ne hne]
    rfl
  · next heq =>
    rw [Difference.ofLists?_eq_none_iff.2 (Decidable.not_not.1 heq)]
    rfl

theorem find?_cons_orElse (f : Field) (fields : List Field) (r : Option Difference) :
    (((f :: fields).find? fun f => Field.Differs a b f).map (Field.told a b) <|> r) =
      if f.Differs a b then some (f.told a b)
      else ((fields.find? fun f => Field.Differs a b f).map (Field.told a b) <|> r) := by
  rw [List.find?_cons]
  split
  · next hdiffers =>
    rw [if_pos (of_decide_eq_true hdiffers)]
    rfl
  · next hagrees => rw [if_neg (of_decide_eq_false hagrees)]

theorem difference?_eq : a.difference? b =
    (((plainFields.find? fun f => Field.Differs a b f).map (Field.told a b)) <|>
      ofTags? a.tags b.tags) := by
  have hfields : a.difference? b =
      if a.name ≠ b.name then some (Field.told a b .name)
      else if ¬ a.path.Same b.path then some (Field.told a b .path)
      else [ListField.text, .docs, .expects, .imports, .follows].foldr
        (fun f r => ofLists? f.label (f.of a) (f.of b) <|> r) (ofTags? a.tags b.tags) := rfl
  rw [hfields]
  simp only [plainFields, find?_cons_orElse, List.foldr_cons, List.foldr_nil, ofLists?_orElse]
  rfl

end

theorem first_of_find? {a b : Snippet} {f : Field}
    (h : (plainFields.find? fun f => Field.Differs a b f) = some f) : Field.First a b f := by
  obtain ⟨hdiffers, before, after, hfields, hbefore⟩ := List.find?_eq_some_iff_append.1 h
  have hplain : f.place < 7 := mem_plainFields_iff.1 (List.mem_of_find?_eq_some h)
  refine ⟨of_decide_eq_true hdiffers, fun g hg hgdiffers => ?_⟩
  have hlt : g.place < f.place := by
    cases hg with
    | place hlt => exact hlt
    | tag => exact absurd hplain (by simp [Field.place])
  have hmem : g ∈ before ++ f :: after :=
    hfields ▸ mem_plainFields_iff.2 (Nat.lt_trans hlt hplain)
  have hordered := pairwise_plainFields
  rw [hfields, List.pairwise_append, List.pairwise_cons] at hordered
  rcases List.mem_append.1 hmem with hearlier | hlater
  · have hagrees := hbefore g hearlier
    rw [decide_eq_true hgdiffers] at hagrees
    cases hagrees
  · rcases List.mem_cons.1 hlater with rfl | hlater
    · exact absurd hlt (Nat.lt_irrefl _)
    · exact absurd (hordered.2.1.1 g hlater) (Nat.lt_asymm hlt)

theorem find?_plainFields_comm (a b : Snippet) :
    (plainFields.find? fun f => Field.Differs b a f) =
      plainFields.find? fun f => Field.Differs a b f := by
  congr 1
  funext f
  exact decide_eq_decide.2 Field.differs_comm

theorem difference?_cases (a b : Snippet) : (a.Same b ∧ a.difference? b = none) ∨
    ∃ f, Field.First a b f ∧ a.difference? b = some (Field.told a b f) ∧
      b.difference? a = some (Field.told b a f) := by
  rw [difference?_eq, difference?_eq b a, find?_plainFields_comm a b]
  cases hfind : plainFields.find? fun f => Field.Differs a b f with
  | some f => exact .inr ⟨f, first_of_find? hfind, rfl, rfl⟩
  | none =>
    have hplain : ∀ f : Field, f.place < 7 → ¬ f.Differs a b := by
      intro f hf hdiffers
      exact List.find?_eq_none.1 hfind f (mem_plainFields_iff.2 hf) (decide_eq_true hdiffers)
    have hnone : ∀ (s t : Snippet) (r : Option Difference),
        ((none : Option Field).map (Field.told s t) <|> r) = r := fun _ _ _ => rfl
    rw [hnone, hnone]
    by_cases hkeys : a.tags.keys = b.tags.keys
    · rcases Difference.ofTags?_of_names_shared (NameMap.keys_eq_iff.1 hkeys) with
        ⟨hsame, htags⟩ | ⟨t, values, others, hthis, hother, hne, hleast, htold, hback⟩
      · exact .inl ⟨same_of_plainFields hplain htags, hsame⟩
      · refine .inr ⟨.tagValues t, ⟨?_, fun g hg => ?_⟩, ?_, ?_⟩
        · simpa [Field.Differs, hthis, hother] using hne
        · cases hg with
          | place hlt =>
            rcases Nat.lt_or_eq_of_le (Nat.le_of_lt_succ hlt) with hlt | heq
            · exact hplain g hlt
            · rw [Field.eq_tagNames_of_place heq]
              exact not_not.2 hkeys
          | tag hlt => exact not_not.2 (hleast _ (Utf8.encode_lt_encode_iff.1 hlt))
        · rw [htold, Field.told, hthis, hother]
          rfl
        · rw [hback, Field.told, hthis, hother]
          rfl
    · have hdiffer : ∃ t, a.tags.contains t ≠ b.tags.contains t := by
        rw [NameMap.keys_eq_iff] at hkeys
        exact not_forall.1 hkeys
      refine .inr ⟨.tagNames, ⟨hkeys, fun g hg => ?_⟩, Difference.ofTags?_of_names_differ hdiffer,
        Difference.ofTags?_of_names_differ (hdiffer.imp fun t ht => Ne.symm ht)⟩
      cases hg with
      | place hlt => exact hplain g hlt

theorem difference?_eq_none_iff {a b : Snippet} : a.difference? b = none ↔ a.Same b := by
  rcases difference?_cases a b with ⟨hsame, hnone⟩ | ⟨f, hfirst, hsome, -⟩
  · exact iff_of_true hnone hsame
  · rw [hsome]
    exact iff_of_false nofun fun hsame => hsame.not_differs f hfirst.differs

/-- The comparison decides whether two snippets are the same, which is an equivalence: equal in all
but the path, and the path in another spelling at most. Of others it tells the first field in which
they differ, and so it does the other way round. -/
theorem comparison_tells_the_first_difference (a b : Snippet) :
    (a.difference? b = none ↔ a.Same b) ∧
    (a.path.Same b.path ↔ Relation.EqvGen Path.Respelled a.path b.path) ∧
    Equivalence (fun s t : Snippet => s.difference? t = none) ∧
    ∀ d, a.difference? b = some d → ∃ f : Field, f.Differs a b ∧
      (∀ g : Field, g.Before f → ¬ g.Differs a b) ∧ d = f.told a b ∧
      f.heading.toList <+: d.message.toList ∧ b.difference? a = some (f.told b a) := by
  refine ⟨difference?_eq_none_iff, Path.same_iff_eqvGen, ?_, fun d hd => ?_⟩
  · simp only [difference?_eq_none_iff]
    exact ⟨Same.refl, Same.symm, Same.trans⟩
  · rcases difference?_cases a b with ⟨-, hnone⟩ | ⟨f, hfirst, hsome, hback⟩
    · rw [hnone] at hd
      cases hd
    · obtain rfl : f.told a b = d := Option.some.inj (hsome.symm.trans hd)
      exact ⟨f, hfirst.differs, hfirst.least, rfl, f.heading_isPrefix a b, hback⟩

end Snippet
end SnippetCatalog
