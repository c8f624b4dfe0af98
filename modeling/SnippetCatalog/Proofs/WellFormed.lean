import SnippetCatalog.Proofs.ByteOrder
import SnippetCatalog.Proofs.FileGrammar

/-!
What every snippet that is read from a file is like. Main statement: the lines of a file only
dictate well-formed snippets.
-/

namespace SnippetCatalog

open Line (Marked Marks Gives Directs)
open Text (Flush Trimmed trim)

/-- Names as they are kept: ascending by their bytes, none empty, none with white space around. -/
structure NameSet (names : List String) : Prop where
  ascending : names.Pairwise fun a b => Utf8.encode a < Utf8.encode b
  nonempty : ∀ n ∈ names, n ≠ ""
  trimmed : ∀ n ∈ names, Trimmed n.toList

theorem NameSet.nodup {names : List String} (h : NameSet names) : names.Nodup := by
  apply h.ascending.imp
  rintro a b hlt rfl
  exact absurd hlt (List.lt_irrefl _)

namespace Snippet

def strings (s : Snippet) : List String :=
  s.text ++ s.docs ++ s.imports ++ s.expects ++ s.follows ++
    s.tags.entries.flatMap fun t => t.1 :: t.2

/-- What can be told of a snippet apart from the file that it is in. -/
structure WellFormed (s : Snippet) : Prop where
  something : s.text ≠ [] ∨ s.imports ≠ []
  oneLine : ∀ t ∈ s.strings, '\n' ∉ t.toList
  code : ∀ t ∈ s.text, ¬ Marked t.toList
  docs : ∀ t ∈ s.docs, Flush t.toList
  imports : NameSet s.imports
  expects : NameSet s.expects
  follows : NameSet s.follows
  expected : s.follows ⊆ s.expects
  tagNames : ∀ t ∈ s.tags.entries, Trimmed t.1.toList ∧ ':' ∉ t.1.toList
  tagValues : ∀ t ∈ s.tags.entries, t.2 ≠ [] ∧ ∀ v ∈ t.2, Trimmed v.toList

end Snippet

/-! ### Payloads -/

theorem Line.Directs.flush {line p : List Char} {kind : Directive} (h : Directs line kind p) :
    Flush p := by
  obtain ⟨rest, -, w₃, k, w₄, keyword, -, -, -, -, -, hp⟩ := h
  exact hp

theorem Line.Directs.subset {line p : List Char} {kind : Directive} (h : Directs line kind p) :
    p ⊆ line := by
  obtain ⟨rest, ⟨w₁, w₂, m, rfl, -⟩, w₃, k, w₄, keyword, -, rfl, -⟩ := h
  intro c hc
  simp [hc]

theorem Names.trimmed {p : List Char} {x : String} (h : Names p x) : Trimmed x.toList := by
  rw [h.2, String.toList_ofList]
  exact Text.trimmed_trim p

theorem Names.subset {p : List Char} {x : String} (h : Names p x) : x.toList ⊆ p := by
  rw [h.2, String.toList_ofList]
  exact fun _ => Text.mem_of_mem_trim

section

variable {p : List Char} {name value : String}

theorem IsTag.trimmed (h : IsTag p name value) : Trimmed name.toList ∧ Trimmed value.toList := by
  rcases h with ⟨-, rfl, rfl⟩ | ⟨a, b, -, -, rfl, rfl⟩
  · rw [String.toList_ofList]
    exact ⟨Text.trimmed_trim p, Text.trimmed_trim []⟩
  · rw [String.toList_ofList, String.toList_ofList]
    exact ⟨Text.trimmed_trim a, Text.trimmed_trim b⟩

theorem IsTag.colon_notMem (h : IsTag p name value) : ':' ∉ name.toList := by
  rcases h with ⟨hp, rfl, -⟩ | ⟨a, b, -, ha, rfl, -⟩
  · rwa [String.toList_ofList]
  · rw [String.toList_ofList]
    exact fun hc => ha (Text.mem_of_mem_trim hc)

theorem IsTag.subset (h : IsTag p name value) : name.toList ⊆ p ∧ value.toList ⊆ p := by
  rcases h with ⟨-, rfl, rfl⟩ | ⟨a, b, hab, -, rfl, rfl⟩
  · rw [String.toList_ofList]
    exact ⟨fun _ => Text.mem_of_mem_trim, fun _ hc => by simp at hc⟩
  · have hmem : ∀ c, c ∈ a ∨ c ∈ b → c ∈ p := by
      intro c hc
      apply Text.mem_of_mem_trim
      rw [hab, List.mem_append, List.mem_cons]
      rcases hc with ha | hb
      · exact .inl ha
      · exact .inr (.inr hb)
    rw [String.toList_ofList, String.toList_ofList]
    exact ⟨fun c hc => hmem c (.inl (Text.mem_of_mem_trim hc)),
      fun c hc => hmem c (.inr (Text.mem_of_mem_trim hc))⟩

end

/-! ### What lines dictate -/

theorem IsSetOf.nameSet {names : List String} {ls : List (List Char)} {kinds : List Directive}
    (h : IsSetOf names ls kinds) : NameSet names where
  ascending := h.1.imp fun hlt => Utf8.encode_lt_encode_iff.2 hlt
  nonempty := by
    intro n hn
    obtain ⟨line, -, kind, -, payload, -, hnames⟩ := (h.2 n).1 hn
    exact hnames.1
  trimmed := by
    intro n hn
    obtain ⟨line, -, kind, -, payload, -, hnames⟩ := (h.2 n).1 hn
    exact hnames.trimmed

theorem IsSetOf.exists_line {names : List String} {ls : List (List Char)} {kinds : List Directive}
    (h : IsSetOf names ls kinds) {n : String} (hn : n ∈ names) :
    ∃ line ∈ ls, n.toList ⊆ line := by
  obtain ⟨line, hline, kind, -, payload, hdirects, hnames⟩ := (h.2 n).1 hn
  exact ⟨line, hline, List.Subset.trans hnames.subset hdirects.subset⟩

namespace Dictates

variable {ls : List (List Char)} {s : Snippet}

theorem exists_tag (h : Dictates ls s) {t : String × List String} (ht : t ∈ s.tags.entries) :
    t.2 ≠ [] ∧ ∀ v ∈ t.2, ∃ line ∈ ls, ∃ payload, Directs line .tag payload ∧
      IsTag payload t.1 v := by
  have hget : s.tags.get? t.1 = some t.2 := NameMap.mem_entries_iff.1 ht
  obtain ⟨hne, hcollects⟩ := (h.tags t.1 t.2).1 hget
  exact ⟨hne, fun v hv => hcollects.exists_of_mem hv⟩

theorem exists_tag_name (h : Dictates ls s) {t : String × List String}
    (ht : t ∈ s.tags.entries) : ∃ line ∈ ls, ∃ payload v, Directs line .tag payload ∧
      IsTag payload t.1 v := by
  obtain ⟨hne, hvalues⟩ := h.exists_tag ht
  obtain ⟨v, hv⟩ := List.exists_mem_of_ne_nil t.2 hne
  obtain ⟨line, hline, payload, hdirects, htag⟩ := hvalues v hv
  exact ⟨line, hline, payload, v, hdirects, htag⟩

theorem exists_line (h : Dictates ls s) {t : String} (ht : t ∈ s.strings) :
    ∃ line ∈ ls, t.toList ⊆ line := by
  simp only [Snippet.strings, List.mem_append, List.mem_flatMap, List.mem_cons] at ht
  rcases ht with ((((ht | ht) | ht) | ht) | ht) | ⟨tag, htag, ht⟩
  · obtain ⟨line, hline, -, rfl⟩ := h.text.exists_of_mem ht
    exact ⟨line, hline, by rw [String.toList_ofList]; exact List.Subset.refl line⟩
  · obtain ⟨line, hline, payload, hdirects, rfl⟩ := h.docs.exists_of_mem ht
    exact ⟨line, hline, by rw [String.toList_ofList]; exact hdirects.subset⟩
  · exact h.imports.exists_line ht
  · exact h.expects.exists_line ht
  · exact h.follows.exists_line ht
  · rcases ht with rfl | ht
    · obtain ⟨line, hline, payload, v, hdirects, htag⟩ := h.exists_tag_name htag
      exact ⟨line, hline, List.Subset.trans htag.subset.1 hdirects.subset⟩
    · obtain ⟨line, hline, payload, hdirects, htag⟩ := (h.exists_tag htag).2 t ht
      exact ⟨line, hline, List.Subset.trans htag.subset.2 hdirects.subset⟩

theorem wellFormed (h : Dictates ls s) (hls : ∀ line ∈ ls, '\n' ∉ line)
    (hne : s.text ≠ [] ∨ s.imports ≠ []) : s.WellFormed where
  something := hne
  oneLine := by
    intro t ht hfeed
    obtain ⟨line, hline, hsubset⟩ := h.exists_line ht
    exact hls line hline (hsubset hfeed)
  code := by
    intro t ht
    obtain ⟨line, -, hmarked, rfl⟩ := h.text.exists_of_mem ht
    rwa [String.toList_ofList]
  docs := by
    intro t ht
    obtain ⟨line, -, payload, hdirects, rfl⟩ := h.docs.exists_of_mem ht
    rw [String.toList_ofList]
    exact hdirects.flush
  imports := h.imports.nameSet
  expects := h.expects.nameSet
  follows := h.follows.nameSet
  expected := by
    intro n hn
    obtain ⟨line, hline, kind, hkind, payload, hpayload⟩ := (h.follows.2 n).1 hn
    exact (h.expects.2 n).2 ⟨line, hline, kind, List.mem_cons_of_mem _ hkind, payload, hpayload⟩
  tagNames := by
    intro t ht
    obtain ⟨line, -, payload, v, -, htag⟩ := h.exists_tag_name ht
    exact ⟨htag.trimmed.1, htag.colon_notMem⟩
  tagValues := by
    intro t ht
    obtain ⟨hne, hvalues⟩ := h.exists_tag ht
    refine ⟨hne, ?_⟩
    intro v hv
    obtain ⟨line, -, payload, -, htag⟩ := hvalues v hv
    exact htag.trimmed.2

end Dictates

theorem Snippet.wellFormed_of_ofContent {content : Bytes} {path : Path} {name : String}
    {s : Snippet} (h : ofContent content path name = .ok s) : s.WellFormed := by
  obtain ⟨-, -, hdictates, hne⟩ := ofContent_eq_ok_iff.1 h
  exact hdictates.wellFormed (fun _ => Text.notMem_of_mem_lines) hne

end SnippetCatalog
