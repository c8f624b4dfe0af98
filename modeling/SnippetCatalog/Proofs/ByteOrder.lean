import SnippetCatalog.Text.Utf8

/-!
The order of texts and that of their bytes. A greater character has the greater byte where the two
encodings first differ, and they differ before either ends. Main statement: texts stand in the same
order as their encodings.
-/

namespace SnippetCatalog.Utf8

/-- Where the two first differ, which is before either ends, `a` has the smaller byte. -/
inductive Precedes : Bytes → Bytes → Prop
  | differ {x y : UInt8} {a b : Bytes} : x < y → Precedes (x :: a) (y :: b)
  | agree {x : UInt8} {a b : Bytes} : Precedes a b → Precedes (x :: a) (x :: b)

theorem Precedes.append_lt {a b : Bytes} (h : Precedes a b) (u v : Bytes) : a ++ u < b ++ v := by
  induction h with
  | differ hxy => exact List.Lex.rel hxy
  | agree _ ih => exact List.Lex.cons ih

theorem ofNat_lt_ofNat {m n : Nat} (h : m < n) (hn : n < 256) : UInt8.ofNat m < UInt8.ofNat n := by
  rw [UInt8.lt_iff_toNat_lt, toNat_ofNat_of_lt hn, toNat_ofNat_of_lt (Nat.lt_trans h hn)]
  exact h

theorem Precedes.cons_ofNat {m n : Nat} {a b : Bytes} (hle : m ≤ n) (hn : n < 256)
    (h : m = n → Precedes a b) : Precedes (.ofNat m :: a) (.ofNat n :: b) := by
  rcases Nat.lt_or_eq_of_le hle with hlt | rfl
  · exact .differ (ofNat_lt_ofNat hlt hn)
  · exact .agree (h rfl)

theorem precedes_encodeChar {c d : Char} (h : c.toNat < d.toNat) :
    Precedes (encodeChar c) (encodeChar d) := by
  have hd : d.toNat < 0xD800 ∨ (0xDFFF < d.toNat ∧ d.toNat < 0x110000) := d.valid
  -- characters of different widths differ in their first bytes, those of one width where the
  -- most significant of their digits differ
  unfold encodeChar
  dsimp only
  split
  · have hfirst : c.toNat < 0x80 := by assumption
    split
    · apply Precedes.cons_ofNat <;> omega
    · split
      · apply Precedes.cons_ofNat <;> omega
      · split <;> apply Precedes.cons_ofNat <;> omega
  · rw [if_neg (show ¬ d.toNat < 0x80 by omega)]
    split
    · split
      · apply Precedes.cons_ofNat (by omega) (by omega)
        intro hhigh
        apply Precedes.cons_ofNat <;> omega
      · split <;> apply Precedes.cons_ofNat <;> omega
    · rw [if_neg (show ¬ d.toNat < 0x800 by omega)]
      split
      · split
        · apply Precedes.cons_ofNat (by omega) (by omega)
          intro hhigh
          apply Precedes.cons_ofNat (by omega) (by omega)
          intro hmiddle
          apply Precedes.cons_ofNat <;> omega
        · apply Precedes.cons_ofNat <;> omega
      · rw [if_neg (show ¬ d.toNat < 0x10000 by omega)]
        apply Precedes.cons_ofNat (by omega) (by omega)
        intro hhigh
        apply Precedes.cons_ofNat (by omega) (by omega)
        intro hupper
        apply Precedes.cons_ofNat (by omega) (by omega)
        intro hlower
        apply Precedes.cons_ofNat <;> omega

theorem flatMap_encodeChar_lt {cs ds : List Char} (h : cs < ds) :
    cs.flatMap encodeChar < ds.flatMap encodeChar := by
  induction h with
  | @nil d ds =>
    obtain ⟨b, r, hb⟩ := List.exists_cons_of_ne_nil (encodeChar_ne_nil d)
    rw [List.flatMap_cons, hb]
    exact List.Lex.nil
  | rel hcd =>
    rw [List.flatMap_cons, List.flatMap_cons]
    exact (precedes_encodeChar hcd).append_lt _ _
  | cons _ ih =>
    rw [List.flatMap_cons, List.flatMap_cons]
    exact List.append_left_lt ih

theorem encode_lt_encode_iff {s t : String} : encode s < encode t ↔ s < t := by
  have hmono : ∀ {s t : String}, s < t → encode s < encode t := fun h => flatMap_encodeChar_lt h
  constructor
  · intro h
    rcases Std.lt_trichotomy s t with hlt | rfl | hgt
    · exact hlt
    · exact absurd h Std.lt_irrefl
    · exact absurd (Std.lt_trans h (hmono hgt)) Std.lt_irrefl
  · exact hmono

end SnippetCatalog.Utf8
