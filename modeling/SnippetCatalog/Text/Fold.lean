/-!
Comparing words without regard to case. The words compared with are ASCII, so of simple case
folding only the characters that fold to an ASCII letter matter: the capitals, the long s and the
Kelvin sign. Main statement: what stands behind a word is what a spelling of the word leaves.
-/

namespace SnippetCatalog.Text

def foldCase (c : Char) : Char :=
  if c.toNat = 0x17F then 's' else if c.toNat = 0x212A then 'k' else c.toLower

/-- The rest behind a word in lower case that stands at the start in any case. -/
def afterWord? : List Char → List Char → Option (List Char)
  | [], rest => some rest
  | w :: ws, c :: rest => if foldCase c = w then afterWord? ws rest else none
  | _ :: _, [] => none

/-! ### Spellings -/

/-- A character that simple case folding does not tell from `w`, which is ASCII and no capital. -/
inductive FoldsTo : Char → Char → Prop
  | self (w : Char) : FoldsTo w w
  | capital {c w : Char} (first : 'A'.toNat ≤ c.toNat) (last : c.toNat ≤ 'Z'.toNat)
      (small : w.toNat = c.toNat + 0x20) : FoldsTo c w
  | longS : FoldsTo '\u017f' 's'
  | kelvin : FoldsTo '\u212a' 'k'

inductive Spells : List Char → List Char → Prop
  | nil : Spells [] []
  | cons {c w : Char} {cs ws : List Char} : FoldsTo c w → Spells cs ws → Spells (c :: cs) (w :: ws)

theorem Spells.refl (ws : List Char) : Spells ws ws := by
  induction ws with
  | nil => exact .nil
  | cons w ws ih => exact .cons (.self w) ih

def Lower (ws : List Char) : Prop := ∀ w ∈ ws, foldCase w = w

instance (ws : List Char) : Decidable (Lower ws) :=
  List.decidableBAll (fun w => foldCase w = w) ws

theorem toNat_toLower (c : Char) : c.toLower.toNat =
    if 'A'.toNat ≤ c.toNat ∧ c.toNat ≤ 'Z'.toNat then c.toNat + 0x20 else c.toNat := by
  have hcap : c.val ≥ 'A'.val ∧ c.val ≤ 'Z'.val ↔ 'A'.toNat ≤ c.toNat ∧ c.toNat ≤ 'Z'.toNat :=
    Iff.rfl
  unfold Char.toLower
  split
  · next h =>
    rw [if_pos (hcap.1 h)]
    have hz : c.toNat ≤ 'Z'.toNat := h.2
    have hsum : (c.val + ('a'.val - 'A'.val)).toNat = (c.toNat + 0x20) % 2 ^ 32 := rfl
    have hlt : c.toNat + 0x20 < 2 ^ 32 := by
      have : 'Z'.toNat = 0x5A := rfl
      omega
    exact hsum.trans (Nat.mod_eq_of_lt hlt)
  · next h => rw [if_neg (mt hcap.2 h)]

theorem foldCase_eq_of_foldsTo {c w : Char} (hw : foldCase w = w) (h : FoldsTo c w) :
    foldCase c = w := by
  cases h with
  | self => exact hw
  | capital first last small =>
    have hA : 'A'.toNat = 0x41 := rfl
    have hZ : 'Z'.toNat = 0x5A := rfl
    rw [foldCase, if_neg (by omega), if_neg (by omega), ← Char.toNat_inj, toNat_toLower,
      if_pos ⟨first, last⟩, small]
  | longS => rfl
  | kelvin => rfl

theorem foldsTo_foldCase (c : Char) : FoldsTo c (foldCase c) := by
  unfold foldCase
  split
  · next h =>
    have hc : c = '\u017f' := Char.toNat_inj.1 h
    exact hc ▸ .longS
  · split
    · next h =>
      have hc : c = '\u212a' := Char.toNat_inj.1 h
      exact hc ▸ .kelvin
    · by_cases h : 'A'.toNat ≤ c.toNat ∧ c.toNat ≤ 'Z'.toNat
      · exact .capital h.1 h.2 (by rw [toNat_toLower, if_pos h])
      · have hc : c.toLower = c := by rw [← Char.toNat_inj, toNat_toLower, if_neg h]
        exact hc.symm ▸ .self c

theorem foldCase_eq_iff {c w : Char} (hw : foldCase w = w) : foldCase c = w ↔ FoldsTo c w :=
  ⟨fun h => h ▸ foldsTo_foldCase c, foldCase_eq_of_foldsTo hw⟩

theorem map_foldCase_eq_iff {cs ws : List Char} (hw : Lower ws) :
    cs.map foldCase = ws ↔ Spells cs ws := by
  constructor
  · rintro rfl
    clear hw
    induction cs with
    | nil => exact .nil
    | cons c cs ih => exact .cons (foldsTo_foldCase c) ih
  · intro h
    induction h with
    | nil => rfl
    | cons hc _ ih =>
      have hw' := List.forall_mem_cons.1 hw
      rw [List.map_cons, foldCase_eq_of_foldsTo hw'.1 hc, ih hw'.2]

theorem afterWord?_eq_some_iff {ws cs rest : List Char} (hw : Lower ws) :
    afterWord? ws cs = some rest ↔ ∃ m, Spells m ws ∧ cs = m ++ rest := by
  fun_induction afterWord? ws cs with
  | case1 cs =>
    constructor
    · intro h
      exact ⟨[], .nil, Option.some.inj h⟩
    · rintro ⟨m, ⟨⟩, rfl⟩
      rfl
  | case2 ws c cs' ih =>
    have hw' := List.forall_mem_cons.1 hw
    rw [ih hw'.2]
    constructor
    · rintro ⟨m, hm, rfl⟩
      exact ⟨c :: m, .cons (foldsTo_foldCase c) hm, rfl⟩
    · rintro ⟨m, hm, h⟩
      cases hm with
      | cons _ hm => exact ⟨_, hm, (List.cons.inj h).2⟩
  | case3 w ws c cs hc =>
    have hw' := List.forall_mem_cons.1 hw
    refine ⟨nofun, ?_⟩
    rintro ⟨m, hm, h⟩
    cases hm with
    | cons hd _ =>
      have hcd := (List.cons.inj h).1
      exact absurd ((foldCase_eq_iff hw'.1).2 (hcd ▸ hd)) hc
  | case4 =>
    refine ⟨nofun, ?_⟩
    rintro ⟨m, hm, h⟩
    cases hm with
    | cons => cases h

end SnippetCatalog.Text
