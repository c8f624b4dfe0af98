import Mathlib.Data.List.Forall2
import SnippetCatalog.Proofs.ViewSections
import SnippetCatalog.Snippet.Draft

/-!
The columns of a labelled block. A label is set to the width of the widest one by its characters, and
the values below the first one are set in by its bytes. Main statement: all labelled values of a
block start in one column, one space behind the labels, exactly if no shown tag that has more than
one value has a name with a character beyond ASCII.
-/

namespace SnippetCatalog

def StandsAt (column : Nat) (value line : String) : Prop :=
  ∃ lead : String, lead.length = column ∧ line = lead ++ value

theorem standsAt_iff {column : Nat} {lead value : String} :
    StandsAt column value (lead ++ value) ↔ lead.length = column := by
  constructor
  · rintro ⟨lead', hlength, hline⟩
    have htotal := congrArg String.length hline
    rw [String.length_append, String.length_append] at htotal
    omega
  · intro hlength
    exact ⟨lead, hlength, rfl⟩

/-! ### Bytes and characters -/

theorem utf8ByteSize_ofList_cons (c : Char) (cs : List Char) :
    (String.ofList (c :: cs)).utf8ByteSize = c.utf8Size + (String.ofList cs).utf8ByteSize := by
  rw [String.ofList_cons, String.utf8ByteSize_append, String.utf8ByteSize_singleton]

theorem length_le_utf8ByteSize (s : String) : s.length ≤ s.utf8ByteSize := by
  suffices h : ∀ cs : List Char, cs.length ≤ (String.ofList cs).utf8ByteSize by
    have hs := h s.toList
    rwa [String.ofList_toList, String.length_toList] at hs
  intro cs
  induction cs with
  | nil => exact Nat.le_refl 0
  | cons c cs ih =>
    have hc := c.utf8Size_pos
    rw [utf8ByteSize_ofList_cons, List.length_cons]
    omega

theorem utf8ByteSize_eq_length_iff {s : String} :
    s.utf8ByteSize = s.length ↔ ∀ c ∈ s.toList, c.toNat < 0x80 := by
  suffices h : ∀ cs : List Char, (String.ofList cs).utf8ByteSize = cs.length ↔
      ∀ c ∈ cs, c.toNat < 0x80 by
    have hs := h s.toList
    rwa [String.ofList_toList, String.length_toList] at hs
  intro cs
  induction cs with
  | nil => simp
  | cons c cs ih =>
    have hsize : c.utf8Size = 1 ↔ c.toNat < 0x80 := by
      rw [Char.utf8Size_eq_one_iff, UInt32.le_iff_toNat_le]
      exact Nat.lt_succ_iff.symm
    have hpos := c.utf8Size_pos
    have hle := length_le_utf8ByteSize (String.ofList cs)
    rw [String.length_ofList] at hle
    rw [List.forall_mem_cons, ← ih, ← hsize, utf8ByteSize_ofList_cons, List.length_cons]
    omega

namespace Section

theorem length_spaces (n : Nat) : (spaces n).length = n := by
  rw [spaces, String.length_ofList, List.length_replicate]

theorem utf8ByteSize_spaces (n : Nat) : (spaces n).utf8ByteSize = n := by
  have hascii : (spaces n).utf8ByteSize = (spaces n).length := by
    rw [utf8ByteSize_eq_length_iff, spaces, String.toList_ofList]
    intro c hc
    rw [List.eq_of_mem_replicate hc]
    decide
  rw [hascii, length_spaces]

theorem spaces_append (m n : Nat) : spaces m ++ spaces n = spaces (m + n) := by
  rw [spaces, spaces, spaces, ← String.ofList_append, List.replicate_append_replicate]

/-- The bytes of a label beyond one for each character. -/
def surplus (sec : Section) : Nat := sec.label.utf8ByteSize - sec.label.length

variable {sec : Section} {width column : Nat}

theorem surplus_eq_zero_iff : sec.surplus = 0 ↔ ∀ c ∈ sec.label.toList, c.toNat < 0x80 := by
  have hle := length_le_utf8ByteSize sec.label
  rw [← utf8ByteSize_eq_length_iff, surplus]
  omega

theorem lead_of_label (h : sec.label ≠ "") : sec.lead width =
    spaces (sec.indent + (width - sec.label.length)) ++ sec.label ++ " " := by
  rw [lead, if_neg h, alignRight, ← spaces_append, String.append_assoc, String.append_assoc,
    String.append_assoc]

theorem utf8ByteSize_lead (h : sec.label ≠ "") (hwidth : sec.label.utf8ByteSize ≤ width) :
    (sec.lead width).utf8ByteSize = sec.indent + width + 1 + sec.surplus := by
  have hspace : " ".utf8ByteSize = 1 := rfl
  have hle := length_le_utf8ByteSize sec.label
  rw [lead_of_label h, String.utf8ByteSize_append, String.utf8ByteSize_append, utf8ByteSize_spaces,
    hspace, surplus]
  omega

/-- What the lines of a labelled section are: below the first one the values are further in by the
surplus of the label. -/
theorem lines_of_label {first : String} {others : List String} (h : sec.label ≠ "")
    (hwidth : sec.label.utf8ByteSize ≤ width) (hvalues : sec.values = first :: others) :
    sec.lines width =
      (spaces (sec.indent + (width - sec.label.length)) ++ sec.label ++ " " ++ first) ::
        others.map (spaces (sec.indent + width + 1 + sec.surplus) ++ ·) := by
  rw [lines, utf8ByteSize_lead h hwidth, lead_of_label h, hvalues]

/-- All values of a section start in the column, and its label ends one space before it. -/
structure LinesUp (width column : Nat) (sec : Section) : Prop where
  values : List.Forall₂ (StandsAt column) sec.values (sec.lines width)
  label : ∀ value ∈ sec.values.head?, ∀ line ∈ (sec.lines width).head?, ∃ n,
    line = spaces n ++ sec.label ++ " " ++ value ∧ n + sec.label.length + 1 = column

theorem length_first (hwidth : sec.label.utf8ByteSize ≤ width) :
    (spaces (sec.indent + (width - sec.label.length)) ++ sec.label ++ " ").length =
      sec.indent + width + 1 := by
  have hspace : " ".length = 1 := rfl
  have hle := length_le_utf8ByteSize sec.label
  rw [String.length_append, String.length_append, length_spaces, hspace]
  omega

theorem linesUp_iff (h : sec.label ≠ "") (hwidth : sec.label.utf8ByteSize ≤ width)
    (hvalues : sec.values ≠ []) : sec.LinesUp width column ↔
      column = sec.indent + width + 1 ∧ (2 ≤ sec.values.length → sec.surplus = 0) := by
  have hle := length_le_utf8ByteSize sec.label
  obtain ⟨first, others, hcons⟩ := List.exists_cons_of_ne_nil hvalues
  have hlines := lines_of_label h hwidth hcons
  constructor
  · intro hup
    have hall := hup.values
    rw [hcons, hlines, List.forall₂_cons] at hall
    have hcolumn : column = sec.indent + width + 1 := by
      rw [← length_first hwidth]
      exact (standsAt_iff.1 hall.1).symm
    refine ⟨hcolumn, fun htwo => ?_⟩
    cases others with
    | nil =>
      rw [hcons] at htwo
      exact absurd htwo (Nat.lt_irrefl 1)
    | cons second others =>
      have hsecond := hall.2
      rw [List.map_cons, List.forall₂_cons, standsAt_iff, length_spaces] at hsecond
      omega
  · rintro ⟨rfl, hsurplus⟩
    constructor
    · rw [hcons, hlines, List.forall₂_cons]
      refine ⟨standsAt_iff.2 (length_first hwidth), List.forall₂_map_right_iff.2 ?_⟩
      rw [List.forall₂_same]
      intro value hvalue
      have htwo : 2 ≤ sec.values.length := by
        have hpos := List.length_pos_of_mem hvalue
        rw [hcons, List.length_cons]
        omega
      rw [standsAt_iff, length_spaces, hsurplus htwo, Nat.add_zero]
    · intro value hvalue line hline
      rw [hcons, List.head?_cons, Option.mem_some_iff] at hvalue
      rw [hlines, List.head?_cons, Option.mem_some_iff] at hline
      refine ⟨sec.indent + (width - sec.label.length), ?_, by omega⟩
      rw [← hvalue, ← hline]

theorem linesUp_of_no_values (hvalues : sec.values = []) : sec.LinesUp width column := by
  constructor
  · rw [lines, hvalues]
    exact .nil
  · intro value hvalue
    rw [hvalues] at hvalue
    cases hvalue

end Section

namespace View

theorem label_le_width {sections : List Section} {sec : Section} (h : sec ∈ sections) :
    sec.label.utf8ByteSize ≤ width sections := by
  have hfold : ∀ (secs : List Section) (w : Nat), w ≤ secs.foldl
      (fun w s => max w s.label.utf8ByteSize) w ∧ ∀ s ∈ secs, s.label.utf8ByteSize ≤
        secs.foldl (fun w s => max w s.label.utf8ByteSize) w := by
    intro secs
    induction secs with
    | nil => exact fun w => ⟨Nat.le_refl w, List.forall_mem_nil _⟩
    | cons s secs ih =>
      intro w
      obtain ⟨hstart, hrest⟩ := ih (max w s.label.utf8ByteSize)
      rw [List.foldl_cons, List.forall_mem_cons]
      exact ⟨Nat.le_trans (Nat.le_max_left _ _) hstart,
        Nat.le_trans (Nat.le_max_right _ _) hstart, hrest⟩
  exact (hfold sections 0).2 sec h

variable {v : View} {s : Snippet}

def fixedLabels : List String :=
  ["Pathname:", "Note:", "Imports:", "Follows:", "Expects:", "Tags:"]

theorem utf8ByteSize_of_mem_fixedLabels {label : String} (h : label ∈ fixedLabels) :
    label.utf8ByteSize = label.length := by
  revert label
  decide

def fixedSections (s : Snippet) : List Section :=
  [{ label := "Pathname:", values := [s.path.display] }, { label := "Note:", values := s.docs },
    { label := "Imports:", values := s.imports }, { label := "Follows:", values := s.follows },
    { label := "Expects:", values := s.expects.filter fun e => e ∉ s.follows },
    { label := "Tags:", values := s.tags.keys }]

theorem of_mem_fixedSections {sec : Section} (h : sec ∈ fixedSections s) :
    sec.indent = 8 ∧ sec.label ∈ fixedLabels := by
  simp only [fixedSections, List.mem_cons, List.not_mem_nil, or_false] at h
  rcases h with rfl | rfl | rfl | rfl | rfl | rfl
  all_goals exact ⟨rfl, by simp [fixedLabels]⟩

theorem section_cases {sec : Section} (h : sec ∈ v.sections s) :
    sec = nameSection s ∨ sec = textSection s ∨ sec ∈ fixedSections s ∨
      ∃ t ∈ s.tags.entries, v.showsTag t.1 = true ∧ sec = tagSection t := by
  obtain ⟨o, hmem, hasks⟩ := mem_sections_iff.1 h
  simp only [allSections, leadingSections, trailingSections, List.mem_append, List.mem_cons,
    List.not_mem_nil, or_false, Prod.mk.injEq, List.mem_map] at hmem
  rcases hmem with (((⟨-, rfl⟩ | ⟨-, rfl⟩ | ⟨-, rfl⟩ | ⟨-, rfl⟩) | (⟨-, rfl⟩ | ⟨-, rfl⟩)) |
    ((⟨-, rfl⟩ | ⟨t, ht, rfl, rfl⟩) | ⟨-, rfl⟩))
  · exact .inl rfl
  iterate 6 exact .inr (.inr (.inl (by simp [fixedSections, followsSection, expectsSection])))
  · exact .inr (.inr (.inr ⟨t, ht, hasks, rfl⟩))
  · exact .inr (.inl rfl)

theorem labelled_cases {sec : Section} (h : sec ∈ v.sections s) (hlabel : sec.label ≠ "") :
    sec.indent = 8 ∧ (sec.label ∈ fixedLabels ∨
      ∃ t ∈ s.tags.entries, v.showsTag t.1 = true ∧ sec = tagSection t) := by
  rcases section_cases h with rfl | rfl | hfixed | ⟨t, ht, hshown, rfl⟩
  · exact absurd rfl hlabel
  · exact absurd rfl hlabel
  · exact ⟨(of_mem_fixedSections hfixed).1, .inl (of_mem_fixedSections hfixed).2⟩
  · exact ⟨rfl, .inr ⟨t, ht, hshown, rfl⟩⟩

theorem tagSection_mem_sections {t : String × List String} (ht : t ∈ s.tags.entries)
    (hshown : v.showsTag t.1 = true) : tagSection t ∈ v.sections s := by
  refine mem_sections_iff.2 ⟨.tag t.1, ?_, hshown⟩
  simp only [allSections, trailingSections, List.mem_append, List.mem_map]
  exact .inr (.inl (.inr ⟨t, ht, rfl⟩))

theorem label_tagSection_ne (t : String × List String) : (tagSection t).label ≠ "" := by
  intro h
  have hlength := congrArg String.length h
  have hcolon : ":".length = 1 := rfl
  rw [tagSection, String.length_append, hcolon] at hlength
  exact absurd hlength (Nat.succ_ne_zero _)

theorem surplus_tagSection_eq_zero_iff {t : String × List String} :
    (tagSection t).surplus = 0 ↔ ∀ c ∈ t.1.toList, c.toNat < 0x80 := by
  rw [Section.surplus_eq_zero_iff, tagSection, String.toList_append]
  constructor
  · intro h c hc
    exact h c (List.mem_append_left _ hc)
  · intro h c hc
    rcases List.mem_append.1 hc with hc | hc
    · exact h c hc
    · rw [List.mem_singleton.1 hc]
      decide

def LinesUp (v : View) (s : Snippet) : Prop := ∃ column, ∀ sec ∈ v.sections s, sec.label ≠ "" →
  sec.LinesUp (width (v.sections s)) column

theorem linesUp_iff : v.LinesUp s ↔ ∀ t ∈ s.tags.entries, v.showsTag t.1 = true →
    2 ≤ t.2.length → ∀ c ∈ t.1.toList, c.toNat < 0x80 := by
  constructor
  · rintro ⟨column, hup⟩ t ht hshown htwo
    have hmem := tagSection_mem_sections ht hshown
    have hlabel := label_tagSection_ne t
    have hvalues : (tagSection t).values ≠ [] := List.ne_nil_of_length_pos (Nat.lt_of_succ_lt htwo)
    rw [← surplus_tagSection_eq_zero_iff]
    exact ((Section.linesUp_iff hlabel (label_le_width hmem) hvalues).1 (hup _ hmem hlabel)).2 htwo
  · intro hascii
    refine ⟨8 + width (v.sections s) + 1, fun sec hmem hlabel => ?_⟩
    obtain ⟨hindent, hkind⟩ := labelled_cases hmem hlabel
    by_cases hvalues : sec.values = []
    · exact Section.linesUp_of_no_values hvalues
    · rw [Section.linesUp_iff hlabel (label_le_width hmem) hvalues, hindent]
      refine ⟨rfl, fun htwo => ?_⟩
      rcases hkind with hfixed | ⟨t, ht, hshown, rfl⟩
      · rw [Section.surplus, utf8ByteSize_of_mem_fixedLabels hfixed, Nat.sub_self]
      · exact surplus_tagSection_eq_zero_iff.2 (hascii t ht hshown htwo)

end View

/-- A labelled block is the lines of its sections. In a labelled section the first value stands one
space behind the label, in a column that all sections share, and the others are further in by as many
characters as the label has bytes beyond one for each; so the values are in one column exactly if no
tag that is shown with several values has a name beyond ASCII. -/
theorem values_line_up_below_ascii_labels (v : View) (s : Snippet) (labelled : v.hideIntro = false) :
    let sections := v.sections s
    let width := View.width sections
    let column := 8 + width + 1
    v.render s =
      "\n" ++ String.join ((sections.flatMap (Section.lines width)).map (· ++ "\n")) ∧
    (∀ sec ∈ sections, sec.label ≠ "" → ∀ first others, sec.values = first :: others →
      ∃ n, n + sec.label.length + 1 = column ∧ sec.lines width =
        (Section.spaces n ++ sec.label ++ " " ++ first) ::
          others.map (Section.spaces (column + sec.surplus) ++ ·)) ∧
    (v.LinesUp s ↔ ∀ t ∈ s.tags.entries, v.showsTag t.1 = true → 2 ≤ t.2.length →
      ∀ c ∈ t.1.toList, c.toNat < 0x80) := by
  intro sections width column
  refine ⟨?_, fun sec hmem hlabel first others hvalues => ?_, View.linesUp_iff⟩
  · rw [View.render, View.lines, labelled]
    rfl
  · have hwidth : sec.label.utf8ByteSize ≤ width := View.label_le_width hmem
    have hle := length_le_utf8ByteSize sec.label
    obtain ⟨hindent, -⟩ := View.labelled_cases hmem hlabel
    refine ⟨sec.indent + (width - sec.label.length), by omega, ?_⟩
    rw [Section.lines_of_label hlabel hwidth hvalues, hindent]

def credited : Snippet :=
  ⟨"x", .ofText "/x", ["code"], ["n", "m"], [], [], [], .ofList [("Author", ["a", "b"]), ("é", ["c"])]⟩

theorem values_line_up_in_credited :
    ({} : View).hideIntro = false ∧ ({} : View).LinesUp credited ∧
    ({} : View).render credited = "\n    x\n           Note: n\n                 m\n" ++
      "         Author: a\n                 b\n              é: c\n" := by
  obtain ⟨-, -, hiff⟩ := values_line_up_below_ascii_labels {} credited rfl
  have hascii : ∀ t ∈ credited.tags.entries, 2 ≤ t.2.length →
      t.1.toList.all (fun c => c.toNat < 0x80) = true := by decide +kernel
  refine ⟨rfl, hiff.2 fun t ht _ htwo c hc => ?_, by decide +kernel⟩
  exact of_decide_eq_true (List.all_eq_true.1 (hascii t ht htwo) c hc)

def accentedTags : Bytes :=
  Utf8.encode "// snippet: tag: é: a\n// snippet: tag: é: b\ncode\n"

def accented : Snippet :=
  ⟨"x", .ofText "/x", ["code"], [], [], [], [], .ofList [("é", ["a", "b"])]⟩

/-- The second value of a tag `é` is a column further in than the first. -/
theorem accented_tag_does_not_line_up :
    Snippet.ofContent accentedTags (.ofText "/x") "x" = .ok accented ∧
    ({} : View).hideIntro = false ∧
    ({} : View).render accented = "\n    x\n              é: a\n                  b\n" ∧
    ¬ ({} : View).LinesUp accented := by
  refine ⟨by decide +kernel, rfl, by decide +kernel, ?_⟩
  rw [View.linesUp_iff]
  intro hascii
  have hsmall : 'é'.toNat < 0x80 := hascii ("é", ["a", "b"]) (by decide +kernel) (by decide +kernel)
    (by decide) 'é' (by decide +kernel)
  exact absurd hsmall (by decide)

end SnippetCatalog
