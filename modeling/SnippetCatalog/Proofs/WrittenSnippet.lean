import Mathlib.Data.List.Basic
import SnippetCatalog.Proofs.WellFormed

/-!
Writing a snippet so that it is read back. Main statements: a line is read as the one that was
written, the lines of a well-formed snippet dictate the snippet, and so a snippet is what some file
holds exactly if it is well-formed.
-/

namespace SnippetCatalog

open Line (Marked Marks Gives Directs ofChars)
open Text (Flush Trimmed trim)

/-! ### Lines -/

def Directive.keyword : Directive → String
  | imports => "imports"
  | expects => "expects"
  | follows => "follows"
  | note => "note"
  | tag => "tag"

theorem Directive.keyword_mem_keywords : ∀ kind : Directive, kind.keyword ∈ kind.keywords := by
  intro kind
  cases kind <;> decide

namespace Line

def write : Line → List Char
  | .code text => text
  | .directive kind payload =>
    "// snippet: ".toList ++ (kind.keyword.toList ++ ':' :: payload)
  | .other => "// snippet:".toList

def Definite : Line → Prop
  | .code text => ¬ Marked text
  | .directive _ payload => Flush payload
  | .other => True

theorem directs_write {kind : Directive} {payload : List Char} (h : Flush payload) :
    Directs (write (.directive kind payload)) kind payload := by
  have hblank : Text.AllBlank [' '] := by
    intro c hc
    exact List.mem_singleton.1 hc ▸ rfl
  have hnone : Text.AllBlank [] := fun _ hc => nomatch hc
  have hmarks : Marks (write (.directive kind payload))
      (' ' :: (kind.keyword.toList ++ ':' :: payload)) :=
    ⟨[], [' '], marker.toList, rfl, hnone, hblank, Text.Spells.refl _⟩
  have hgives : Gives (' ' :: (kind.keyword.toList ++ ':' :: payload)) kind payload :=
    ⟨[' '], kind.keyword.toList, [], kind.keyword, kind.keyword_mem_keywords, rfl, hblank, hnone,
      Text.Spells.refl _, h⟩
  exact ⟨_, hmarks, hgives⟩

theorem ofChars_write {l : Line} (h : l.Definite) : ofChars l.write = l := by
  cases l with
  | code text => exact ofChars_eq_code_iff.2 ⟨h, rfl⟩
  | directive kind payload => exact ofChars_eq_directive_iff.2 (directs_write h)
  | other => rfl

end Line

/-! ### Payloads -/

theorem Text.Flush.append_cons {a b : List Char} {c : Char} (h : Flush a)
    (hc : Text.isBlank c = false) : Flush (a ++ c :: b) := by
  cases a with
  | nil => exact Text.flush_cons hc
  | cons d r => exact Text.flush_cons (h d rfl)

theorem Text.Trimmed.append_colon {a b : List Char} (ha : Trimmed a) (hb : Trimmed b) :
    Trimmed (a ++ ':' :: b) := by
  have hcolon : Text.isBlank ':' = false := rfl
  refine ⟨ha.1.append_cons hcolon, ?_⟩
  have hreverse : (a ++ ':' :: b).reverse = b.reverse ++ ':' :: a.reverse := by simp
  rw [hreverse]
  exact hb.2.append_cons hcolon

namespace Draft

theorem named_of_trimmed {x : String} (hne : x ≠ "") (h : Trimmed x.toList) :
    named x.toList = [x] := by
  have hnil : x.toList ≠ [] := fun hx => hne (by simpa using hx)
  rw [named, h.trim_eq, if_neg hnil, String.ofList_toList]

theorem tagged_of_trimmed {name value : String} (hname : Trimmed name.toList)
    (hcolon : ':' ∉ name.toList) (hvalue : Trimmed value.toList) :
    tagged (name.toList ++ ':' :: value.toList) = (name, value) := by
  have htrim := (hname.append_colon hvalue).trim_eq
  rw [tagged_of_colon htrim hcolon, hname.trim_eq, hvalue.trim_eq, String.ofList_toList,
    String.ofList_toList]

/-- The tags with their values put in one list, each value with its tag. -/
def listed (entries : List (String × List String)) : List (String × String) :=
  entries.flatMap fun t => t.2.map (t.1, ·)

theorem valuesOf_map_pair (other name : String) (values : List String) :
    valuesOf (values.map (other, ·)) name = if name = other then values else [] := by
  unfold valuesOf
  split
  · next h => simp [h, List.filter_map, Function.comp_def]
  · next h => simp [List.filter_map, Function.comp_def, Ne.symm h]

theorem valuesOf_listed {entries : List (String × List String)}
    (h : entries.Pairwise (·.1 < ·.1)) (name : String) :
    valuesOf (listed entries) name = (entries.lookup name).getD [] := by
  induction entries with
  | nil => rfl
  | cons t ts ih =>
    obtain ⟨hhead, htail⟩ := List.pairwise_cons.1 h
    have hcons : listed (t :: ts) = t.2.map (t.1, ·) ++ listed ts := List.flatMap_cons
    rw [hcons, valuesOf_append, valuesOf_map_pair, ih htail, NameMap.lookup_cons]
    split
    · next hname =>
      -- all further names are greater, so none of them is this one
      have hnone : ts.lookup name = none := by
        rw [List.lookup_eq_none_iff]
        intro u hu
        have hlt := hhead u hu
        rw [← hname] at hlt
        exact bne_iff_ne.2 fun heq => absurd (heq ▸ hlt) Std.lt_irrefl
      rw [hnone, Option.getD_none, List.append_nil, Option.getD_some]
    · rfl

theorem gather_listed (tags : NameMap (List String)) (h : ∀ t ∈ tags.entries, t.2 ≠ []) :
    gather (listed tags.entries) = tags := by
  apply NameMap.ext_get?
  intro name
  have hvalues : valuesOf (listed tags.entries) name = (tags.get? name).getD [] :=
    valuesOf_listed tags.ascending name
  rw [get?_gather, hvalues]
  cases hget : tags.get? name with
  | none => rfl
  | some values =>
    have hne : values ≠ [] := h (name, values) (NameMap.mem_entries_iff.2 hget)
    rw [Option.getD_some, if_neg hne]

end Draft

/-! ### Names -/

namespace NameSet

variable {names names' : List String}

theorem flatMap_named (h : NameSet names) :
    (names.flatMap fun n => Draft.named n.toList) = names := by
  have hself : ∀ n ∈ names, Draft.named n.toList = [n] := fun n hn =>
    Draft.named_of_trimmed (h.nonempty n hn) (h.trimmed n hn)
  rw [List.flatMap_congr hself]
  exact List.flatMap_singleton' names

theorem tidy_append (h : NameSet names) (hsub : names' ⊆ names) :
    tidy (names ++ names') = names := by
  have hasc : names.Pairwise (· < ·) :=
    h.ascending.imp fun hlt => Utf8.encode_lt_encode_iff.1 hlt
  apply Ascending.eq_of_mem_iff (Ascending.pairwise_ofList _) hasc
  intro x
  rw [Ascending.mem_ofList, List.mem_filter, List.mem_append]
  constructor
  · rintro ⟨hx | hx, -⟩
    · exact hx
    · exact hsub hx
  · intro hx
    exact ⟨.inl hx, decide_eq_true (h.nonempty x hx)⟩

theorem tidy_eq (h : NameSet names) : tidy names = names := by
  have happend := h.tidy_append (List.nil_subset names)
  rwa [List.append_nil] at happend

end NameSet

/-! ### Files -/

namespace Snippet

def lines (s : Snippet) : List Line :=
  s.text.map (fun t => .code t.toList) ++
  s.docs.map (fun t => .directive .note t.toList) ++
  s.imports.map (fun n => .directive .imports n.toList) ++
  s.expects.map (fun n => .directive .expects n.toList) ++
  s.follows.map (fun n => .directive .follows n.toList) ++
  (Draft.listed s.tags.entries).map fun t =>
    .directive .tag (t.1.toList ++ ':' :: t.2.toList)

/-- The content of a file with the snippet. The return at the end of each line is the one that is
taken off in reading. -/
def written (s : Snippet) : Bytes :=
  Utf8.encode (.ofList (s.lines.flatMap fun l => l.write ++ ['\r', '\n']))

theorem flatMap_nothing {α β : Type} (l : List α) : (l.flatMap fun _ => ([] : List β)) = [] :=
  List.flatMap_eq_nil_iff.2 fun _ _ => rfl

theorem place_lines {α : Type} (place : Draft → List α) (hempty : place {} = [])
    (happend : ∀ a b : Draft, place (a ++ b) = place a ++ place b) (s : Snippet) :
    place (Draft.ofLines s.lines) =
      (s.text.flatMap fun t => place (.ofLine (.code t.toList))) ++
      (s.docs.flatMap fun t => place (.ofLine (.directive .note t.toList))) ++
      (s.imports.flatMap fun n => place (.ofLine (.directive .imports n.toList))) ++
      (s.expects.flatMap fun n => place (.ofLine (.directive .expects n.toList))) ++
      (s.follows.flatMap fun n => place (.ofLine (.directive .follows n.toList))) ++
      (Draft.listed s.tags.entries).flatMap fun t =>
        place (.ofLine (.directive .tag (t.1.toList ++ ':' :: t.2.toList))) := by
  rw [Draft.collected_ofLines place hempty happend, lines]
  simp only [List.flatMap_append, List.flatMap_map]

theorem mem_listed {entries : List (String × List String)} {t : String × String}
    (h : t ∈ Draft.listed entries) : ∃ values, (t.1, values) ∈ entries ∧ t.2 ∈ values := by
  obtain ⟨⟨name, values⟩, hmem, ht⟩ := List.mem_flatMap.1 h
  obtain ⟨v, hv, rfl⟩ := List.mem_map.1 ht
  exact ⟨values, hmem, hv⟩

namespace WellFormed

variable {s : Snippet}

theorem tagged_listed (h : s.WellFormed) {t : String × String}
    (ht : t ∈ Draft.listed s.tags.entries) :
    Draft.tagged (t.1.toList ++ ':' :: t.2.toList) = t := by
  obtain ⟨values, hmem, hv⟩ := mem_listed ht
  obtain ⟨hname, hcolon⟩ := h.tagNames _ hmem
  exact Draft.tagged_of_trimmed hname hcolon ((h.tagValues _ hmem).2 _ hv)

theorem definite (h : s.WellFormed) : ∀ l ∈ s.lines, l.Definite := by
  have hflush : ∀ {names : List String}, NameSet names → ∀ n ∈ names, Flush n.toList :=
    fun hnames n hn => (hnames.trimmed n hn).1
  intro l hl
  simp only [lines, List.mem_append, List.mem_map] at hl
  rcases hl with ((((hl | hl) | hl) | hl) | hl) | hl
  · obtain ⟨t, ht, rfl⟩ := hl
    exact h.code t ht
  · obtain ⟨t, ht, rfl⟩ := hl
    exact h.docs t ht
  · obtain ⟨n, hn, rfl⟩ := hl
    exact hflush h.imports n hn
  · obtain ⟨n, hn, rfl⟩ := hl
    exact hflush h.expects n hn
  · obtain ⟨n, hn, rfl⟩ := hl
    exact hflush h.follows n hn
  · obtain ⟨t, ht, rfl⟩ := hl
    obtain ⟨values, hmem, -⟩ := mem_listed ht
    exact (h.tagNames _ hmem).1.1.append_cons rfl

theorem feed_notMem_write (h : s.WellFormed) : ∀ l ∈ s.lines, '\n' ∉ l.write := by
  have hdirective : ∀ (kind : Directive) (payload : List Char), '\n' ∉ payload →
      '\n' ∉ Line.write (.directive kind payload) := by
    intro kind payload hp
    have hkeyword : '\n' ∉ "// snippet: ".toList ++ kind.keyword.toList := by
      cases kind <;> decide
    have hwrite : Line.write (.directive kind payload) =
        ("// snippet: ".toList ++ kind.keyword.toList) ++ ':' :: payload :=
      (List.append_assoc _ _ _).symm
    rw [hwrite, List.mem_append, List.mem_cons]
    rintro (hc | hc | hc)
    · exact hkeyword hc
    · exact absurd hc (by decide)
    · exact hp hc
  have hstring : ∀ t ∈ s.strings, '\n' ∉ t.toList := h.oneLine
  simp only [strings, List.mem_append, List.mem_flatMap, List.mem_cons] at hstring
  intro l hl
  simp only [lines, List.mem_append, List.mem_map] at hl
  rcases hl with ((((hl | hl) | hl) | hl) | hl) | hl
  · obtain ⟨t, ht, rfl⟩ := hl
    exact hstring t (by simp [ht])
  · obtain ⟨t, ht, rfl⟩ := hl
    exact hdirective .note _ (hstring t (by simp [ht]))
  · obtain ⟨n, hn, rfl⟩ := hl
    exact hdirective .imports _ (hstring n (by simp [hn]))
  · obtain ⟨n, hn, rfl⟩ := hl
    exact hdirective .expects _ (hstring n (by simp [hn]))
  · obtain ⟨n, hn, rfl⟩ := hl
    exact hdirective .follows _ (hstring n (by simp [hn]))
  · obtain ⟨t, ht, rfl⟩ := hl
    obtain ⟨values, hmem, hv⟩ := mem_listed ht
    have hname : '\n' ∉ t.1.toList := hstring t.1 (.inr ⟨_, hmem, .inl rfl⟩)
    have hvalue : '\n' ∉ t.2.toList := hstring t.2 (.inr ⟨_, hmem, .inr hv⟩)
    exact hdirective .tag _ (by simp [hname, hvalue])

theorem dictates_lines (h : s.WellFormed) : Dictates (s.lines.map Line.write) s := by
  have hread : (s.lines.map Line.write).map ofChars = s.lines := by
    have hself : ∀ l ∈ s.lines, (ofChars ∘ Line.write) l = l :=
      fun l hl => Line.ofChars_write (h.definite l hl)
    rw [List.map_map, List.map_congr_left hself, List.map_id']
  have hnamed : ∀ {names : List String}, NameSet names →
      (names.flatMap fun n => Draft.named n.toList) = names := fun hn => hn.flatMap_named
  have htags : (Draft.listed s.tags.entries).map
      (fun t => Draft.tagged (t.1.toList ++ ':' :: t.2.toList)) = Draft.listed s.tags.entries := by
    rw [List.map_congr_left fun t ht => h.tagged_listed ht, List.map_id']
  rw [dictates_iff rfl, hread]
  refine ⟨?_, ?_, ?_, ?_, ?_, ?_⟩
  · rw [place_lines (·.text) rfl fun _ _ => rfl]
    simp [Draft.ofLine, flatMap_nothing]
  · rw [place_lines (·.docs) rfl fun _ _ => rfl]
    simp [Draft.ofLine, flatMap_nothing]
  · rw [place_lines (·.imports) rfl fun _ _ => rfl]
    simp [Draft.ofLine, flatMap_nothing, hnamed h.imports, h.imports.tidy_eq]
  · rw [place_lines (·.expects) rfl fun _ _ => rfl]
    simp [Draft.ofLine, flatMap_nothing, hnamed h.expects, hnamed h.follows,
      h.expects.tidy_append h.expected]
  · rw [place_lines (·.follows) rfl fun _ _ => rfl]
    simp [Draft.ofLine, flatMap_nothing, hnamed h.follows, h.follows.tidy_eq]
  · have hgather := Draft.gather_listed s.tags fun t ht => (h.tagValues t ht).1
    rw [place_lines (·.tags) rfl fun _ _ => rfl]
    simp [Draft.ofLine, flatMap_nothing, ← List.map_eq_flatMap, htags, hgather]

theorem ofContent_written (h : s.WellFormed) : ofContent s.written s.path s.name = .ok s := by
  have hlines : linesOf s.written = s.lines.map Line.write := by
    have hfeed : ∀ l ∈ s.lines.map Line.write, '\n' ∉ l := by
      intro l hl
      obtain ⟨line, hline, rfl⟩ := List.mem_map.1 hl
      exact h.feed_notMem_write line hline
    have hreturn := Text.lines_flatMap_return hfeed
    rw [List.flatMap_map] at hreturn
    rw [linesOf, written, Utf8.decode_encode, String.toList_ofList]
    exact hreturn
  rw [ofContent_eq_ok_iff]
  exact ⟨rfl, rfl, hlines ▸ h.dictates_lines, h.something⟩

end WellFormed
end Snippet

/-- A snippet is what some file holds exactly if it is well-formed: nothing else is ever read, and
every well-formed snippet is read back from the file that is written for it. -/
theorem read_from_some_file_iff (s : Snippet) :
    (∃ content, Snippet.ofContent content s.path s.name = .ok s) ↔ s.WellFormed := by
  constructor
  · rintro ⟨content, h⟩
    exact Snippet.wellFormed_of_ofContent h
  · intro h
    exact ⟨s.written, h.ofContent_written⟩

end SnippetCatalog
