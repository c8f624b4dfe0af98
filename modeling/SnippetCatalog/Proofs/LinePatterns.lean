import SnippetCatalog.Proofs.LineGrammar

/-!
The patterns that lines are told apart by: one for the marker and one for each kind of directive,
which are tried in order. A pattern matches at the start of a line, whatever the case, and goes for
the longest white space and the first word with which the rest of it matches. Main statement: a line
is read as the patterns have it.
-/

namespace SnippetCatalog.Line

open Text (NoBlank afterWord? isBlank skipBlank)

inductive Atom where
  | blanks
  | oneOf (words : List String)

abbrev Pattern := List Atom

namespace Pattern

/-- What is left behind white space, behind the longest first. -/
def blankEnds : List Char → List (List Char)
  | [] => [[]]
  | c :: cs => if isBlank c then blankEnds cs ++ [c :: cs] else [c :: cs]

/-- What the matches leave, in the order in which they are tried. -/
def ends : Pattern → List Char → List (List Char)
  | [], cs => [cs]
  | .blanks :: p, cs => (blankEnds cs).flatMap (ends p)
  | .oneOf words :: p, cs =>
    words.flatMap fun word => (afterWord? word.toList cs).toList.flatMap (ends p)

def find? (p : Pattern) (cs : List Char) : Option (List Char) := (ends p cs).head?

def ofMarker : Pattern := [.blanks, .oneOf ["//"], .blanks, .oneOf [marker]]

def ofDirective (kind : Directive) : Pattern :=
  ofMarker ++ [.blanks, .oneOf kind.keywords, .oneOf [":"], .blanks]

end Pattern

open Pattern (find? ofMarker ofDirective)

def firstMatch? (line : List Char) : Option (Directive × List Char) :=
  Directive.all.findSome? fun kind => (find? (ofDirective kind) line).map (kind, ·)

def ofPatterns (line : List Char) : Line :=
  if find? ofMarker line = none then .code line
  else
    match firstMatch? line with
    | some (kind, payload) => .directive kind payload
    | none => .other

namespace Pattern

variable {p : Pattern} {words : List String} {cs line rest payload : List Char} {kind : Directive}

theorem head?_blankEnds (cs : List Char) : (blankEnds cs).head? = some (skipBlank cs) := by
  induction cs with
  | nil => rfl
  | cons c cs ih =>
    rw [blankEnds, skipBlank, List.dropWhile_cons]
    split
    · rw [List.head?_append, ih]
      rfl
    · rfl

/-- White space is only given back to what can start with it. -/
theorem flatMap_blankEnds {f : List Char → List (List Char)}
    (hf : ∀ c r, isBlank c = true → f (c :: r) = []) (cs : List Char) :
    (blankEnds cs).flatMap f = f (skipBlank cs) := by
  induction cs with
  | nil => exact List.flatMap_singleton f []
  | cons c cs ih =>
    rw [blankEnds, skipBlank, List.dropWhile_cons]
    split
    · next hc =>
      rw [List.flatMap_append, ih, List.flatMap_singleton, hf c cs hc, List.append_nil]
      rfl
    · exact List.flatMap_singleton f _

theorem afterWord?_of_blank {word : List Char} (hne : word ≠ []) (hword : NoBlank word) {c : Char}
    (hc : isBlank c = true) (r : List Char) : afterWord? word (c :: r) = none := by
  obtain ⟨w, ws, rfl⟩ := List.exists_cons_of_ne_nil hne
  have hw : isBlank w = false := hword w List.mem_cons_self
  refine if_neg fun hfold => ?_
  have hblank := not_isBlank_of_foldsTo (hfold ▸ Text.foldsTo_foldCase c) hw
  rw [hc] at hblank
  cases hblank

theorem find?_oneOf (words : List String) (p : Pattern) (cs : List Char) :
    find? (.oneOf words :: p) cs =
      words.findSome? fun word => (afterWord? word.toList cs).bind (find? p) := by
  rw [find?, ends, List.head?_flatMap]
  congr 1
  funext word
  cases afterWord? word.toList cs with
  | none => rfl
  | some r => exact congrArg List.head? (List.flatMap_singleton (ends p) r)

theorem find?_word (word : String) (p : Pattern) (cs : List Char) :
    find? (.oneOf [word] :: p) cs = (afterWord? word.toList cs).bind (find? p) := by
  rw [find?_oneOf, List.findSome?_cons]
  cases (afterWord? word.toList cs).bind (find? p) <;> rfl

theorem find?_blanks_oneOf (hwords : ∀ word ∈ words, word.toList ≠ [] ∧ NoBlank word.toList)
    (p : Pattern) (cs : List Char) :
    find? (.blanks :: .oneOf words :: p) cs = find? (.oneOf words :: p) (skipBlank cs) := by
  refine congrArg List.head? (flatMap_blankEnds (fun c r hc => ?_) cs)
  rw [ends, List.flatMap_eq_nil_iff]
  intro word hword
  obtain ⟨hne, hnoBlank⟩ := hwords word hword
  rw [afterWord?_of_blank hne hnoBlank hc]
  rfl

theorem find?_blanks (cs : List Char) : find? [.blanks] cs = some (skipBlank cs) := by
  have hends : ends [.blanks] cs = blankEnds cs := List.flatMap_singleton' _
  rw [find?, hends, head?_blankEnds]

/-! ### The marker -/

theorem find?_marker_append (p : Pattern) (line : List Char) :
    find? (ofMarker ++ p) line = (afterMarker? line).bind (find? p) := by
  have hslashes : ∀ word ∈ ["//"], word.toList ≠ [] ∧ NoBlank word.toList := by decide
  have hmarker : ∀ word ∈ [marker], word.toList ≠ [] ∧ NoBlank word.toList := by decide
  show find? (.blanks :: .oneOf ["//"] :: .blanks :: .oneOf [marker] :: p) line = _
  rw [find?_blanks_oneOf hslashes, find?_word, afterMarker?]
  show (afterWord? ['/', '/'] (skipBlank line)).bind _ = _
  cases afterWord? ['/', '/'] (skipBlank line) with
  | none => rfl
  | some r =>
    show find? (.blanks :: .oneOf [marker] :: p) r = _
    rw [find?_blanks_oneOf hmarker, find?_word]

theorem find?_ofMarker (line : List Char) : find? ofMarker line = afterMarker? line := by
  rw [← List.append_nil ofMarker, find?_marker_append]
  exact Option.bind_fun_some (afterMarker? line)

/-! ### Directives -/

theorem find?_directive (kind : Directive) (line : List Char) :
    find? (ofDirective kind) line = (afterMarker? line).bind fun rest =>
      kind.keywords.findSome? fun keyword =>
        (afterWord? keyword.toList (skipBlank rest)).bind fun r =>
          (afterWord? [':'] r).map skipBlank := by
  rw [ofDirective, find?_marker_append]
  congr 1
  funext rest
  have hkeywords : ∀ k ∈ kind.keywords, k.toList ≠ [] ∧ NoBlank k.toList :=
    fun k hk => ⟨keyword_ne_nil kind k hk, noBlank_keyword kind k hk⟩
  rw [find?_blanks_oneOf hkeywords, find?_oneOf]
  congr 1
  funext keyword
  congr 1
  funext r
  rw [find?_word]
  show (afterWord? [':'] r).bind (find? [.blanks]) = _
  cases afterWord? [':'] r with
  | none => rfl
  | some payload => exact find?_blanks payload

theorem directs_of_find? (h : find? (ofDirective kind) line = some payload) :
    Directs line kind payload := by
  rw [find?_directive] at h
  obtain ⟨rest, hmarker, h⟩ := Option.bind_eq_some_iff.1 h
  obtain ⟨keyword, hkeyword, h⟩ := List.exists_of_findSome?_eq_some h
  obtain ⟨r, hword, h⟩ := Option.bind_eq_some_iff.1 h
  obtain ⟨behind, hcolon, rfl⟩ := Option.map_eq_some_iff.1 h
  obtain ⟨k, hspells, hr⟩ :=
    (Text.afterWord?_eq_some_iff (lower_keywords kind keyword hkeyword)).1 hword
  obtain ⟨m, hm, hbehind⟩ := (Text.afterWord?_eq_some_iff (by decide)).1 hcolon
  obtain rfl := eq_colon_of_spells hm
  obtain ⟨w₃, hw₃, h₃⟩ := Text.exists_append_skipBlank rest
  obtain ⟨w₄, hw₄, h₄⟩ := Text.exists_append_skipBlank behind
  refine ⟨rest, afterMarker?_eq_some_iff.1 hmarker, w₃, k, w₄, keyword, hkeyword, ?_, hw₃, hw₄,
    hspells, Text.flush_skipBlank behind⟩
  rw [h₃, hr, hbehind, ← h₄]
  rfl

/-- Another keyword may match before the one that the line has, but no colon is then behind it. -/
theorem find?_isSome_of_directs (h : Directs line kind payload) :
    (find? (ofDirective kind) line).isSome := by
  obtain ⟨rest, hmarks, w₃, k, w₄, keyword, hkeyword, rfl, hw₃, -, hspells, -⟩ := h
  have hflush := flush_append_of_spells hspells (keyword_ne_nil kind keyword hkeyword)
    (noBlank_keyword kind keyword hkeyword) (':' :: (w₄ ++ payload))
  rw [find?_directive, afterMarker?_eq_some_iff.2 hmarks]
  show (kind.keywords.findSome? _).isSome
  refine List.findSome?_isSome_iff.2 ⟨keyword, hkeyword, ?_⟩
  rw [Text.skipBlank_append hw₃ hflush,
    (Text.afterWord?_eq_some_iff (lower_keywords kind keyword hkeyword)).2 ⟨k, hspells, rfl⟩]
  rfl

theorem find?_directive_eq_some_iff :
    find? (ofDirective kind) line = some payload ↔ Directs line kind payload := by
  refine ⟨directs_of_find?, fun h => ?_⟩
  obtain ⟨payload', h'⟩ := Option.isSome_iff_exists.1 (find?_isSome_of_directs h)
  rw [h', (directs_of_find? h').unique h |>.2]

end Pattern

theorem firstMatch?_eq_some_iff {line payload : List Char} {kind : Directive} :
    firstMatch? line = some (kind, payload) ↔ Directs line kind payload := by
  have hsound : ∀ {kind payload}, firstMatch? line = some (kind, payload) →
      Directs line kind payload := by
    intro kind payload h
    obtain ⟨kind', -, h⟩ := List.exists_of_findSome?_eq_some h
    obtain ⟨payload', h, heq⟩ := Option.map_eq_some_iff.1 h
    cases heq
    exact Pattern.directs_of_find? h
  refine ⟨hsound, fun h => ?_⟩
  have hsome : (firstMatch? line).isSome := by
    refine List.findSome?_isSome_iff.2 ⟨kind, kind.mem_all, ?_⟩
    rw [Pattern.find?_directive_eq_some_iff.2 h]
    rfl
  obtain ⟨⟨kind', payload'⟩, h'⟩ := Option.isSome_iff_exists.1 hsome
  obtain ⟨rfl, rfl⟩ := (hsound h').unique h
  exact h'

/-- Reading a line comes to trying the patterns. -/
theorem ofChars_eq_ofPatterns (line : List Char) : ofChars line = ofPatterns line := by
  rw [ofPatterns, Pattern.find?_ofMarker]
  split
  · next hmarker =>
    rw [ofChars, hmarker]
  · next hmarker =>
    have hmarked : Marked line := by
      obtain ⟨rest, h⟩ := Option.ne_none_iff_exists'.1 hmarker
      exact ⟨rest, afterMarker?_eq_some_iff.1 h⟩
    cases hfirst : firstMatch? line with
    | some found => exact ofChars_eq_directive_iff.2 (firstMatch?_eq_some_iff.1 hfirst)
    | none =>
      refine ofChars_eq_other_iff.2 ⟨hmarked, fun kind payload h => ?_⟩
      rw [firstMatch?_eq_some_iff.2 h] at hfirst
      cases hfirst

end SnippetCatalog.Line
