import SnippetCatalog.Snippet.Draft

/-!
The grammar of snippet files, said without regard to how a line is read: where the white space
stands, how the marker and the keywords may be spelled and what is left as the payload. Main
statements: a line is read as the grammar has it, no line has two readings, and a file holds the
snippet that its lines dictate.
-/

namespace SnippetCatalog

namespace Line

open Text (AllBlank Flush FoldsTo Lower Spells isBlank skipBlank afterWord? foldCase)

/-- `rest` is what a marked line has behind its marker. -/
def Marks (line rest : List Char) : Prop :=
  ∃ w₁ w₂ m, line = w₁ ++ '/' :: '/' :: (w₂ ++ (m ++ rest)) ∧
    AllBlank w₁ ∧ AllBlank w₂ ∧ Spells m marker.toList

def Marked (line : List Char) : Prop := ∃ rest, Marks line rest

/-- What stands behind the marker gives a payload to one of the keywords of a kind. -/
def Gives (rest : List Char) (kind : Directive) (payload : List Char) : Prop :=
  ∃ w₃ k w₄, ∃ keyword ∈ kind.keywords, rest = w₃ ++ (k ++ ':' :: (w₄ ++ payload)) ∧
    AllBlank w₃ ∧ AllBlank w₄ ∧ Spells k keyword.toList ∧ Flush payload

def Directs (line : List Char) (kind : Directive) (payload : List Char) : Prop :=
  ∃ rest, Marks line rest ∧ Gives rest kind payload

theorem lower_keywords : ∀ kind : Directive, ∀ k ∈ kind.keywords, Lower k.toList := by
  intro kind
  cases kind <;> decide

theorem keywords_disjoint {kind kind' : Directive} {k : String} (h : k ∈ kind.keywords)
    (h' : k ∈ kind'.keywords) : kind = kind' := by
  have hall : ∀ a ∈ Directive.all, ∀ b ∈ Directive.all, ∀ k ∈ a.keywords, k ∈ b.keywords →
      a = b := by decide
  exact hall kind kind.mem_all kind' kind'.mem_all k h h'

theorem keyword_ne_nil : ∀ kind : Directive, ∀ k ∈ kind.keywords, k.toList ≠ [] := by
  intro kind
  cases kind <;> decide

theorem noBlank_keyword : ∀ kind : Directive, ∀ k ∈ kind.keywords, Text.NoBlank k.toList := by
  intro kind
  cases kind <;> decide

theorem colon_notMem_keyword : ∀ kind : Directive, ∀ k ∈ kind.keywords, ':' ∉ k.toList := by
  intro kind
  cases kind <;> decide

/-! ### White space and colons in spellings -/

theorem not_isBlank_of_foldsTo {c w : Char} (h : FoldsTo c w) (hw : isBlank w = false) :
    isBlank c = false := by
  cases h with
  | self => exact hw
  | capital first last _ =>
    have hA : 'A'.toNat = 0x41 := rfl
    have hZ : 'Z'.toNat = 0x5A := rfl
    simp [isBlank]
    omega
  | longS => rfl
  | kelvin => rfl

theorem flush_append_of_spells {cs ws : List Char} (h : Spells cs ws) (hne : ws ≠ [])
    (hw : Text.NoBlank ws) (rest : List Char) : Flush (cs ++ rest) := by
  cases h with
  | nil => exact absurd rfl hne
  | cons hc _ => exact Text.flush_cons (not_isBlank_of_foldsTo hc (hw _ List.mem_cons_self))

theorem colon_notMem_of_spells {cs ws : List Char} (h : Spells cs ws) (hl : Lower ws)
    (hw : ':' ∉ ws) : ':' ∉ cs := by
  intro hc
  have hmem : foldCase ':' ∈ cs.map foldCase := List.mem_map_of_mem hc
  rw [(Text.map_foldCase_eq_iff hl).2 h] at hmem
  exact hw hmem

/-! ### Markers and keywords -/

theorem eq_of_foldsTo {c w : Char} (h : FoldsTo c w) (hw : w.toNat < 0x41) : c = w := by
  cases h with
  | self => rfl
  | capital first _ small =>
    have hA : 'A'.toNat = 0x41 := rfl
    omega
  | longS => exact absurd hw (by decide)
  | kelvin => exact absurd hw (by decide)

theorem eq_slashes_of_spells {m : List Char} (h : Spells m ['/', '/']) : m = ['/', '/'] := by
  cases h with
  | cons h₁ h =>
    cases h with
    | cons h₂ h =>
      cases h
      rw [eq_of_foldsTo h₁ (by decide), eq_of_foldsTo h₂ (by decide)]

theorem eq_colon_of_spells {m : List Char} (h : Spells m [':']) : m = [':'] := by
  cases h with
  | cons h₁ h =>
    cases h
    rw [eq_of_foldsTo h₁ (by decide)]

theorem afterMarker?_eq_some_iff {line rest : List Char} :
    afterMarker? line = some rest ↔ Marks line rest := by
  have hslashes : Lower ['/', '/'] := by decide
  have hmarker : Lower marker.toList := by decide
  constructor
  · intro h
    rw [afterMarker?] at h
    split at h
    · next r hr =>
      obtain ⟨m, hm, hr⟩ := (Text.afterWord?_eq_some_iff hslashes).1 hr
      have hm := eq_slashes_of_spells hm
      obtain ⟨m', hm', h⟩ := (Text.afterWord?_eq_some_iff hmarker).1 h
      obtain ⟨w₁, hw₁, h₁⟩ := Text.exists_append_skipBlank line
      obtain ⟨w₂, hw₂, h₂⟩ := Text.exists_append_skipBlank r
      refine ⟨w₁, w₂, m', ?_, hw₁, hw₂, hm'⟩
      rw [← h, ← h₂, h₁, hr, hm]
      rfl
    · cases h
  · rintro ⟨w₁, w₂, m, rfl, hw₁, hw₂, hm⟩
    have hflush := flush_append_of_spells hm (by decide) (by decide) rest
    have hslash : afterWord? ['/', '/'] ('/' :: '/' :: (w₂ ++ (m ++ rest))) =
        some (w₂ ++ (m ++ rest)) := rfl
    rw [afterMarker?, Text.skipBlank_append hw₁ (Text.flush_cons rfl), hslash]
    show afterWord? marker.toList (skipBlank (w₂ ++ (m ++ rest))) = some rest
    rw [Text.skipBlank_append hw₂ hflush]
    exact (Text.afterWord?_eq_some_iff hmarker).2 ⟨m, hm, rfl⟩

theorem isKeyword_iff {kind : Directive} {word : List Char} :
    kind.isKeyword word ↔ ∃ k ∈ kind.keywords, Spells word k.toList := by
  rw [Directive.isKeyword, List.contains_iff_mem, List.mem_map]
  constructor
  · rintro ⟨k, hk, h⟩
    exact ⟨k, hk, (Text.map_foldCase_eq_iff (lower_keywords kind k hk)).1 h.symm⟩
  · rintro ⟨k, hk, h⟩
    exact ⟨k, hk, ((Text.map_foldCase_eq_iff (lower_keywords kind k hk)).2 h).symm⟩

theorem isKeyword_unique {kind kind' : Directive} {word : List Char} (h : kind.isKeyword word)
    (h' : kind'.isKeyword word) : kind = kind' := by
  obtain ⟨k, hk, hs⟩ := isKeyword_iff.1 h
  obtain ⟨k', hk', hs'⟩ := isKeyword_iff.1 h'
  have hkk : k = k' := by
    rw [← String.toList_inj, ← (Text.map_foldCase_eq_iff (lower_keywords kind k hk)).2 hs,
      ← (Text.map_foldCase_eq_iff (lower_keywords kind' k' hk')).2 hs']
  exact keywords_disjoint hk (hkk ▸ hk')

theorem ofKeyword?_eq_some_iff {word : List Char} {kind : Directive} :
    Directive.ofKeyword? word = some kind ↔ kind.isKeyword word := by
  constructor
  · exact List.find?_some
  · intro h
    have hsome : (Directive.all.find? (·.isKeyword word)).isSome :=
      List.find?_isSome.2 ⟨kind, kind.mem_all, h⟩
    obtain ⟨kind', h'⟩ := Option.isSome_iff_exists.1 hsome
    have hk' := List.find?_some h'
    rw [Directive.ofKeyword?, h', isKeyword_unique h hk']

theorem ne_colon_of_notMem {a : List Char} (h : ':' ∉ a) : ∀ c ∈ a, decide (c ≠ ':') = true :=
  fun _ hc => decide_eq_true fun hcolon => h (hcolon ▸ hc)

theorem takeWhile_colon {a : List Char} (h : ':' ∉ a) (b : List Char) :
    (a ++ ':' :: b).takeWhile (· ≠ ':') = a := by
  rw [List.takeWhile_append_of_pos (ne_colon_of_notMem h)]
  simp

theorem dropWhile_colon {a : List Char} (h : ':' ∉ a) (b : List Char) :
    (a ++ ':' :: b).dropWhile (· ≠ ':') = ':' :: b := by
  rw [List.dropWhile_append_of_pos (ne_colon_of_notMem h)]
  simp

theorem ofMarked_eq_directive_iff {rest payload : List Char} {kind : Directive} :
    ofMarked rest = .directive kind payload ↔ Gives rest kind payload := by
  constructor
  · intro h
    rw [ofMarked] at h
    split at h
    · next kind' c payload' hk hp =>
      cases h
      obtain ⟨keyword, hkeyword, hs⟩ := isKeyword_iff.1 (ofKeyword?_eq_some_iff.1 hk)
      obtain ⟨w₃, hw₃, h₃⟩ := Text.exists_append_skipBlank rest
      obtain ⟨w₄, hw₄, h₄⟩ := Text.exists_append_skipBlank payload'
      have hc : c = ':' := by
        have h := List.head?_dropWhile_not (· ≠ ':') (skipBlank rest)
        rw [hp] at h
        simpa using h
      subst hc
      refine ⟨w₃, _, w₄, keyword, hkeyword, ?_, hw₃, hw₄, hs, Text.flush_skipBlank payload'⟩
      rw [← h₄, ← hp, List.takeWhile_append_dropWhile, ← h₃]
    · cases h
  · rintro ⟨w₃, k, w₄, keyword, hkeyword, rfl, hw₃, hw₄, hs, hp⟩
    -- no spelling of a keyword has a colon, so the first one ends the word
    have hcolon : ':' ∉ k := colon_notMem_of_spells hs (lower_keywords kind keyword hkeyword)
      (colon_notMem_keyword kind keyword hkeyword)
    have hflush := flush_append_of_spells hs (keyword_ne_nil kind keyword hkeyword)
      (noBlank_keyword kind keyword hkeyword) (':' :: (w₄ ++ payload))
    rw [ofMarked, Text.skipBlank_append hw₃ hflush, takeWhile_colon hcolon, dropWhile_colon hcolon,
      ofKeyword?_eq_some_iff.2 (isKeyword_iff.2 ⟨keyword, hkeyword, hs⟩)]
    show directive kind (skipBlank (w₄ ++ payload)) = directive kind payload
    rw [Text.skipBlank_append hw₄ hp]

theorem ofChars_eq_directive_iff {line payload : List Char} {kind : Directive} :
    ofChars line = .directive kind payload ↔ Directs line kind payload := by
  constructor
  · intro h
    rw [ofChars] at h
    split at h
    · next rest hr =>
      exact ⟨rest, afterMarker?_eq_some_iff.1 hr, ofMarked_eq_directive_iff.1 h⟩
    · cases h
  · rintro ⟨rest, hr, h⟩
    rw [ofChars, afterMarker?_eq_some_iff.2 hr]
    exact ofMarked_eq_directive_iff.2 h

theorem ofMarked_ne_code (rest text : List Char) : ofMarked rest ≠ .code text := by
  rw [ofMarked]
  split <;> simp

theorem ofChars_eq_code_iff {line text : List Char} :
    ofChars line = .code text ↔ ¬ Marked line ∧ text = line := by
  rw [ofChars]
  split
  · next rest hr =>
    have hm : Marked line := ⟨rest, afterMarker?_eq_some_iff.1 hr⟩
    simp [hm, ofMarked_ne_code]
  · next hr =>
    have hm : ¬ Marked line := by
      rintro ⟨rest, h⟩
      rw [afterMarker?_eq_some_iff.2 h] at hr
      cases hr
    simp [hm, eq_comm]

theorem Directs.marked {line p : List Char} {kind : Directive} (h : Directs line kind p) :
    Marked line :=
  h.imp fun _ hr => hr.1

theorem ofChars_eq_other_iff {line : List Char} :
    ofChars line = .other ↔ Marked line ∧ ∀ kind p, ¬ Directs line kind p := by
  constructor
  · intro h
    refine ⟨?_, fun kind p hd => ?_⟩
    · refine Classical.byContradiction fun hm => ?_
      rw [ofChars_eq_code_iff.2 ⟨hm, rfl⟩] at h
      cases h
    · rw [ofChars_eq_directive_iff.2 hd] at h
      cases h
  · rintro ⟨hm, hd⟩
    cases h : ofChars line with
    | code text => exact absurd hm (ofChars_eq_code_iff.1 h).1
    | directive kind p => exact absurd (ofChars_eq_directive_iff.1 h) (hd kind p)
    | other => rfl

theorem Directs.unique {line p p' : List Char} {kind kind' : Directive} (h : Directs line kind p)
    (h' : Directs line kind' p') : kind = kind' ∧ p = p' := by
  have := (ofChars_eq_directive_iff.2 h).symm.trans (ofChars_eq_directive_iff.2 h')
  exact Line.directive.inj this

end Line
end SnippetCatalog
