import SnippetCatalog.Problem
import SnippetCatalog.Proofs.QuotedText

/-!
Lists of quoted texts. A quoted text tells where it ends, so that no comma, quote or backslash inside
is taken for one between two texts, whichever of the characters are written by their numbers. Main
statement: a list of quoted texts tells the texts, and so does what is said of a missing name with
those that expect it.
-/

namespace SnippetCatalog.Text

/-! ### A choice of the characters that are written by their numbers -/

/-- A character that has a letter behind the backslash is written by it; of the others, those that
`byNumber` picks out are written by their numbers and the rest as they are. -/
def escapeBy (byNumber : Char → Bool) (c : Char) : List Char :=
  match letters.lookup c with
  | some l => ['\\', l]
  | none =>
    if byNumber c then '\\' :: 'u' :: '\x7b' :: (Nat.toDigits 16 c.toNat ++ ['\x7d']) else [c]

theorem mem_letters_of_lookup {c l : Char} (h : letters.lookup c = some l) : (c, l) ∈ letters := by
  obtain ⟨before, behind, hsplit, -⟩ := List.lookup_eq_some_iff.1 h
  rw [hsplit]
  exact List.mem_append_right _ List.mem_cons_self

theorem notMem_letters_of_lookup {c : Char} (h : letters.lookup c = none) (l : Char) :
    (c, l) ∉ letters := by
  intro hl
  have hne := List.lookup_eq_none_iff.1 h (c, l) hl
  simp at hne

theorem escapes_escapeBy (byNumber : Char → Bool) (c : Char) : Escapes c (escapeBy byNumber c) := by
  unfold escapeBy
  split
  · next hletter => exact .letter (mem_letters_of_lookup hletter)
  · next hnone =>
    split
    · exact .number
    · exact .plain (notMem_letters_of_lookup hnone)

theorem escapeBy_isUnprintable : escapeBy isUnprintable = escapeChar := by
  funext c
  cases hlookup : letters.lookup c with
  | some l =>
    have hall : ∀ p ∈ letters, escapeBy isUnprintable p.1 = escapeChar p.1 := by decide
    exact hall _ (mem_letters_of_lookup hlookup)
  | none =>
    have hother : ∀ p ∈ letters, c ≠ p.1 := by
      rintro ⟨d, l⟩ hl rfl
      exact notMem_letters_of_lookup hlookup l hl
    have hnul : c.toNat ≠ 0 := fun h => hother ('\x00', '0') (by decide) (Char.toNat_inj.1 h)
    rw [escapeBy, hlookup, escapeChar, if_neg (hother ('"', '"') (by decide)),
      if_neg (hother ('\\', '\\') (by decide)), if_neg (hother ('\n', 'n') (by decide)),
      if_neg (hother ('\r', 'r') (by decide)), if_neg (hother ('\t', 't') (by decide)),
      if_neg hnul]
    rfl

/-! ### Lists -/

def quoteAllBy (escape : Char → List Char) (l : List String) : String :=
  ", ".intercalate (l.map (quoteBy escape))

variable {escape : Char → List Char}

theorem quoteAllBy_cons (s : String) (l : List String) : quoteAllBy escape (s :: l) =
    quoteBy escape s ++ if l = [] then "" else ", " ++ quoteAllBy escape l := by
  cases l with
  | nil => exact String.intercalate_singleton.trans String.append_empty.symm
  | cons t l => exact String.intercalate_cons_cons.trans String.append_assoc

theorem quoteAllBy_cons_ne (s : String) (l : List String) : quoteAllBy escape (s :: l) ≠ "" := by
  intro h
  have hchars := congrArg String.toList h
  rw [quoteAllBy_cons, String.toList_append, toList_quoteBy] at hchars
  cases hchars

theorem quoteAllBy_injective (hescape : ∀ c, Escapes c (escape c)) {l l' : List String}
    (h : quoteAllBy escape l = quoteAllBy escape l') : l = l' := by
  induction l generalizing l' with
  | nil =>
    cases l' with
    | nil => rfl
    | cons t l' => exact absurd h.symm (quoteAllBy_cons_ne t l')
  | cons s l ih =>
    cases l' with
    | nil => exact absurd h (quoteAllBy_cons_ne s l)
    | cons t l' =>
      rw [quoteAllBy_cons, quoteAllBy_cons] at h
      obtain ⟨rfl, hrest⟩ := quoteBy_append_injective hescape h
      -- what follows the first text is empty only if no other text follows
      by_cases hl : l = []
      · by_cases hl' : l' = []
        · rw [hl, hl']
        · rw [if_pos hl, if_neg hl'] at hrest
          simp at hrest
      · by_cases hl' : l' = []
        · rw [if_neg hl, if_pos hl'] at hrest
          simp at hrest
        · rw [if_neg hl, if_neg hl', String.append_right_inj] at hrest
          rw [ih hrest]

end SnippetCatalog.Text

namespace SnippetCatalog

open Text

def Problem.tellExpected (escape : Char → List Char) (name : String) (expectedBy : List String) :
    String :=
  "snippet " ++ (quoteBy escape name ++ (" does not exist but is 'expected' by " ++
    quoteAllBy escape expectedBy))

theorem Problem.tellExpected_injective {escape : Char → List Char}
    (hescape : ∀ c, Escapes c (escape c)) {name name' : String} {l l' : List String}
    (h : tellExpected escape name l = tellExpected escape name' l') : name = name' ∧ l = l' := by
  obtain ⟨hname, hrest⟩ := quoteBy_append_injective hescape (String.append_right_inj _ |>.1 h)
  exact ⟨hname, quoteAllBy_injective hescape (String.append_right_inj _ |>.1 hrest)⟩

/-- A list of quoted texts tells the texts, and what is said of a missing name tells the name and
those that expect it. That is so whichever of the characters without a letter of their own are
written by their numbers; here the unprintable ones are. -/
theorem quoted_lists_are_unambiguous :
    (∀ l l', quoteAll l = quoteAll l' → l = l') ∧
    (∀ name name' l l', (Problem.missingExpected name l).message =
      (Problem.missingExpected name' l').message → name = name' ∧ l = l') ∧
    quoteAll = quoteAllBy (escapeBy isUnprintable) ∧
    (∀ name l, (Problem.missingExpected name l).message =
      Problem.tellExpected (escapeBy isUnprintable) name l) ∧
    ∀ byNumber : Char → Bool,
      (∀ l l', quoteAllBy (escapeBy byNumber) l = quoteAllBy (escapeBy byNumber) l' → l = l') ∧
      ∀ name name' l l', Problem.tellExpected (escapeBy byNumber) name l =
        Problem.tellExpected (escapeBy byNumber) name' l' → name = name' ∧ l = l' := by
  have hlists : quoteAll = quoteAllBy (escapeBy isUnprintable) := by
    rw [escapeBy_isUnprintable]
    rfl
  have hmessage : ∀ name l, (Problem.missingExpected name l).message =
      Problem.tellExpected (escapeBy isUnprintable) name l := by
    intro name l
    show "snippet " ++ quote name ++ " does not exist but is 'expected' by " ++ quoteAll l = _
    rw [hlists, escapeBy_isUnprintable, String.append_assoc, String.append_assoc]
    rfl
  refine ⟨fun l l' h => ?_, fun name name' l l' h => ?_, hlists, hmessage, fun byNumber =>
    ⟨fun l l' => quoteAllBy_injective (escapes_escapeBy byNumber),
      fun name name' l l' => Problem.tellExpected_injective (escapes_escapeBy byNumber)⟩⟩
  · rw [hlists] at h
    exact quoteAllBy_injective (escapes_escapeBy _) h
  · rw [hmessage, hmessage] at h
    exact Problem.tellExpected_injective (escapes_escapeBy _) h

end SnippetCatalog
