import Mathlib.Data.List.Flatten
import SnippetCatalog.Proofs.BlockLines

/-!
What is shown for what is chosen. A view that chooses something asks for more sections the more it
chooses, and one that chooses nothing asks for what the usual parts and all tags of a snippet are
shown in. Main statement: the bare lines of a choice are among those of any larger one, in order; a
tag that the snippet does not have changes nothing; and no choice at all is the same as the usual one.
-/

namespace SnippetCatalog

open Text (feedPieces)

/-! ### Choosing -/

inductive Choice where
  | words (words : List String)
  | part (p : Part)
  | tags (tags : List String)
  | hideIntro (hide : Bool)

namespace Choice

def parts : Choice → List Part
  | words ws => ws.filterMap fun w => (Part.ofWord w).toOption
  | part p => [p]
  | _ => []

def tagNames : Choice → List String
  | tags ts => ts
  | _ => []

end Choice

namespace View

def choose (v : View) : Choice → Except Problem View
  | .words ws => v.withWords ws
  | .part p => .ok (v.withPart p)
  | .tags ts => .ok (v.withTags ts)
  | .hideIntro hide => .ok (v.withHiddenIntro hide)

def chooseAll (v : View) : List Choice → Except Problem View
  | [] => .ok v
  | c :: cs =>
    match v.choose c with
    | .ok w => w.chooseAll cs
    | .error p => .error p

variable {v w : View}

theorem choose_eq_ok {c : Choice} (h : v.choose c = .ok w) :
    w.parts = v.parts ++ c.parts ∧ w.tags = v.tags ++ c.tagNames := by
  cases c with
  | words ws =>
    obtain ⟨-, rfl⟩ := withWords_eq_ok_iff.1 h
    exact ⟨rfl, (List.append_nil _).symm⟩
  | part p =>
    cases h
    exact ⟨rfl, (List.append_nil _).symm⟩
  | tags ts =>
    cases h
    exact ⟨(List.append_nil _).symm, rfl⟩
  | hideIntro hide =>
    cases h
    exact ⟨(List.append_nil _).symm, (List.append_nil _).symm⟩

theorem chooseAll_eq_ok {cs : List Choice} (h : v.chooseAll cs = .ok w) :
    w.parts = v.parts ++ cs.flatMap Choice.parts ∧
      w.tags = v.tags ++ cs.flatMap Choice.tagNames := by
  induction cs generalizing v with
  | nil =>
    cases h
    exact ⟨(List.append_nil _).symm, (List.append_nil _).symm⟩
  | cons c cs ih =>
    rw [chooseAll] at h
    split at h
    · next u hu =>
      obtain ⟨hparts, htags⟩ := choose_eq_ok hu
      obtain ⟨hparts', htags'⟩ := ih h
      rw [hparts', htags', hparts, htags, List.flatMap_cons, List.flatMap_cons, List.append_assoc,
        List.append_assoc]
      exact ⟨rfl, rfl⟩
    · cases h

/-! ### Asking for sections -/

variable {v' : View} {s : Snippet}

def usualParts : List Part := [.name, .note, .imports, .follows, .expects]

theorem showsUsual_iff {p : Part} : v.showsUsual p ↔ v.isDefault ∨ p ∈ v.parts := by
  simp [showsUsual]

theorem showsChosen_iff {p : Part} : v.showsChosen p ↔ p ∈ v.parts := by
  simp [showsChosen]

theorem showsTag_iff {tag : String} : v.showsTag tag ↔ v.isDefault ∨ tag ∈ v.tags := by
  simp [showsTag]

theorem occasion_cases {o : Occasion} {sec : Section} (h : (o, sec) ∈ allSections s) :
    (∃ p ∈ usualParts, o = .usual p) ∨ (∃ p ∉ usualParts, o = .special p) ∨
      ∃ tag ∈ s.tags.keys, o = .tag tag := by
  simp only [allSections, leadingSections, trailingSections, List.mem_append, List.mem_cons,
    List.not_mem_nil, or_false, Prod.mk.injEq, List.mem_map] at h
  rcases h with (((⟨rfl, -⟩ | ⟨rfl, -⟩ | ⟨rfl, -⟩ | ⟨rfl, -⟩) | (⟨rfl, -⟩ | ⟨rfl, -⟩)) |
    ((⟨rfl, -⟩ | ⟨t, ht, rfl, -⟩) | ⟨rfl, -⟩))
  · exact .inl ⟨.name, by decide, rfl⟩
  · exact .inr (.inl ⟨.path, by decide, rfl⟩)
  · exact .inl ⟨.note, by decide, rfl⟩
  · exact .inl ⟨.imports, by decide, rfl⟩
  · exact .inl ⟨.follows, by decide, rfl⟩
  · exact .inl ⟨.expects, by decide, rfl⟩
  · exact .inr (.inl ⟨.tag, by decide, rfl⟩)
  · exact .inr (.inr ⟨t.1, List.mem_map.2 ⟨t, ht, rfl⟩, rfl⟩)
  · exact .inr (.inl ⟨.text, by decide, rfl⟩)

/-- Who chooses something asks for more by choosing more. -/
theorem asksFor_mono (hchosen : ¬ v.isDefault) (hparts : v.parts ⊆ v'.parts)
    (htags : v.tags ⊆ v'.tags) {o : Occasion} (h : v.asksFor o) : v'.asksFor o := by
  cases o with
  | usual p => exact showsUsual_iff.2 (.inr (hparts ((showsUsual_iff.1 h).resolve_left hchosen)))
  | special p => exact showsChosen_iff.2 (hparts (showsChosen_iff.1 h))
  | tag name => exact showsTag_iff.2 (.inr (htags ((showsTag_iff.1 h).resolve_left hchosen)))

theorem sections_sublist (h : ∀ o, v.asksFor o → v'.asksFor o) :
    (v.sections s).Sublist (v'.sections s) := by
  rw [sections_eq, sections_eq, shown, shown]
  exact (List.monotone_filter_right (allSections s) fun c hc => h c.1 hc).map _

theorem render_congr (hhide : v.hideIntro = v'.hideIntro)
    (husual : ∀ p ∈ usualParts, v.showsUsual p ↔ v'.showsUsual p)
    (hspecial : ∀ p ∉ usualParts, v.showsChosen p ↔ v'.showsChosen p)
    (htag : ∀ tag ∈ s.tags.keys, v.showsTag tag ↔ v'.showsTag tag) :
    v.render s = v'.render s := by
  have hasks : ∀ c ∈ allSections s, v.asksFor c.1 = v'.asksFor c.1 := by
    rintro ⟨o, sec⟩ hmem
    apply Bool.eq_iff_iff.2
    rcases occasion_cases hmem with ⟨p, hp, rfl⟩ | ⟨p, hp, rfl⟩ | ⟨tag, hkey, rfl⟩
    · exact husual p hp
    · exact hspecial p hp
    · exact htag tag hkey
  have hsections : v.sections s = v'.sections s := by
    rw [sections_eq, sections_eq, shown, shown, List.filter_congr hasks]
  rw [render, render, lines, lines, hsections, hhide]

theorem lines_of_hidden (h : v.hideIntro = true) (s : Snippet) :
    v.lines s = (v.sections s).flatMap (·.values) := by
  rw [lines, h]
  rfl

theorem feedPieces_render_sublist (hhide : v.hideIntro = true) (hhide' : v'.hideIntro = true)
    (h : ∀ o, v.asksFor o → v'.asksFor o) :
    (feedPieces (v.render s)).Sublist (feedPieces (v'.render s)) := by
  rw [feedPieces_render, feedPieces_render, lines_of_hidden hhide, lines_of_hidden hhide']
  exact ((((sections_sublist h).flatMap _).flatMap _).append_right _).cons_cons _

theorem render_withTags_of_notMem {tag : String} (hchosen : ¬ v.isDefault)
    (htag : tag ∉ s.tags.keys) : (v.withTags [tag]).render s = v.render s := by
  have hchosen' : ¬ (v.withTags [tag]).isDefault := fun h =>
    hchosen ⟨h.1, (List.append_eq_nil_iff.1 h.2).1⟩
  have hhide : (v.withTags [tag]).hideIntro = v.hideIntro := rfl
  apply render_congr hhide
  · intro p _
    rw [showsUsual_iff, showsUsual_iff]
    simp only [hchosen, hchosen', false_or]
    rfl
  · exact fun p _ => Iff.rfl
  · intro key hkey
    have hne : key ≠ tag := fun heq => htag (heq ▸ hkey)
    have htags : key ∈ (v.withTags [tag]).tags ↔ key ∈ v.tags := by
      simp [withTags, hne]
    rw [showsTag_iff, showsTag_iff]
    simp only [hchosen, hchosen', false_or, htags]

theorem render_of_usual (hparts : ∀ p, p ∈ v.parts ↔ p ∈ usualParts)
    (htags : ∀ tag, tag ∈ v.tags ↔ tag ∈ s.tags.keys) :
    v.render s = View.render { hideIntro := v.hideIntro } s := by
  have hchosen : ¬ v.isDefault := by
    intro h
    have hname := (hparts .name).2 (by decide)
    rw [h.1] at hname
    cases hname
  have hdefault : View.isDefault { hideIntro := v.hideIntro } := ⟨rfl, rfl⟩
  have hhide : v.hideIntro = View.hideIntro { hideIntro := v.hideIntro } := rfl
  apply render_congr hhide
  · intro p hp
    rw [showsUsual_iff, showsUsual_iff]
    simp only [hchosen, hdefault, false_or, true_or, hparts, hp]
  · intro p hp
    rw [showsChosen_iff, showsChosen_iff, hparts]
    exact iff_of_false hp List.not_mem_nil
  · intro key hkey
    rw [showsTag_iff, showsTag_iff]
    simp only [hchosen, hdefault, false_or, true_or, htags, hkey]

end View

/-- What is shown bare of a choice stands in order among what is shown of any choice with the same
parts and tags and possibly more, however often and in whatever order they are given; a tag that the
snippet does not have shows nothing; and if nothing is chosen, the usual parts and all tags of the
snippet are shown as if they had been chosen. -/
theorem more_is_shown_of_more_chosen (s : Snippet) :
    (∀ (cs cs' : List Choice) (v v' : View), View.chooseAll {} cs = .ok v →
      View.chooseAll {} cs' = .ok v' → v.hideIntro = true → v'.hideIntro = true →
      cs.flatMap Choice.parts ⊆ cs'.flatMap Choice.parts →
      cs.flatMap Choice.tagNames ⊆ cs'.flatMap Choice.tagNames →
      ¬ (cs.flatMap Choice.parts = [] ∧ cs.flatMap Choice.tagNames = []) →
      (feedPieces (v.render s)).Sublist (feedPieces (v'.render s))) ∧
    (∀ (v : View) (tag : String), ¬ v.isDefault → tag ∉ s.tags.keys →
      (v.withTags [tag]).render s = v.render s) ∧
    ∀ v : View, (∀ p, p ∈ v.parts ↔ p ∈ View.usualParts) → (∀ tag, tag ∈ v.tags ↔ tag ∈ s.tags.keys) →
      v.render s = View.render { hideIntro := v.hideIntro } s := by
  refine ⟨?_, fun v tag => View.render_withTags_of_notMem, fun v => View.render_of_usual⟩
  intro cs cs' v v' hv hv' hhide hhide' hparts htags hchosen
  obtain ⟨hvparts, hvtags⟩ := View.chooseAll_eq_ok hv
  obtain ⟨hvparts', hvtags'⟩ := View.chooseAll_eq_ok hv'
  rw [List.nil_append] at hvparts hvtags hvparts' hvtags'
  rw [← hvparts, ← hvparts'] at hparts
  rw [← hvtags, ← hvtags'] at htags
  rw [← hvparts, ← hvtags] at hchosen
  exact View.feedPieces_render_sublist hhide hhide' fun _ => View.asksFor_mono hchosen hparts htags

def fewChoices : List Choice := [.words ["note"], .hideIntro true, .tags ["é"]]

def manyChoices : List Choice :=
  [.part .text, .tags ["é", "Author", "é"], .words ["note", "name", "note"], .hideIntro true]

theorem more_is_shown_of_more_chosen_in_credited :
    View.chooseAll {} fewChoices = .ok ⟨[.note], ["é"], true⟩ ∧
    View.chooseAll {} manyChoices =
      .ok ⟨[.text, .note, .name, .note], ["é", "Author", "é"], true⟩ ∧
    (feedPieces (View.render ⟨[.note], ["é"], true⟩ credited)).Sublist
      (feedPieces (View.render ⟨[.text, .note, .name, .note], ["é", "Author", "é"], true⟩ credited)) ∧
    View.render ⟨[.note], ["é", "Editor"], false⟩ credited =
      View.render ⟨[.note], ["é"], false⟩ credited ∧
    View.render ⟨[.expects, .follows, .imports, .note, .name], ["é", "Author"], false⟩ credited =
      View.render {} credited := by
  have hfew : View.chooseAll {} fewChoices = .ok ⟨[.note], ["é"], true⟩ := rfl
  have hmany : View.chooseAll {} manyChoices =
      .ok ⟨[.text, .note, .name, .note], ["é", "Author", "é"], true⟩ := rfl
  have hkeys : credited.tags.keys = ["Author", "é"] := by decide +kernel
  obtain ⟨hmore, hunknown, husual⟩ := more_is_shown_of_more_chosen credited
  refine ⟨hfew, hmany, ?_, ?_, ?_⟩
  · exact hmore _ _ _ _ hfew hmany rfl rfl (by decide +kernel) (by decide +kernel)
      (by decide +kernel)
  · exact hunknown ⟨[.note], ["é"], false⟩ "Editor" (by decide) (by decide +kernel)
  · apply husual ⟨[.expects, .follows, .imports, .note, .name], ["é", "Author"], false⟩
    · intro p
      cases p <;> decide
    · intro tag
      rw [hkeys]
      simp [or_comm]

end SnippetCatalog
