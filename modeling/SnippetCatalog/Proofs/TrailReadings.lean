import SnippetCatalog.Proofs.PlainResolving

/-!
The way that a trail is taken by. A walk goes by the name that a trail reads as, so the path of a
trail has the names as they read and not as they are. Main statement: the pieces of that path, for
every trail of things that directories can hold.
-/

namespace SnippetCatalog

namespace Utf8

def reread (b : Bytes) : Bytes := encode (decode b)

theorem proper_reread {b : Bytes} (h : IsName b) : FileSystem.Proper (reread b) := by
  -- dots are ASCII, so only the dots themselves read as dots
  have hascii : ∀ s : String, (∀ c ∈ s.toList, IsAscii c) → reread b = encode s → b = encode s := by
    intro s hs heq
    have hdecode : decode b = s := encode_injective heq
    rw [← heq]
    exact (encode_decode_of_ascii (hdecode ▸ hs)).symm
  have hdotAscii : IsAscii '.' := by decide
  refine ⟨?_, fun hdot => h.2.1 (hascii "." (by simpa using hdotAscii) hdot),
    fun hdots => h.2.2.1 (hascii ".." (by simpa using hdotAscii) hdots)⟩
  intro hnil
  have hempty : decode b = "" := encode_injective (t := "") hnil
  exact decode_ne_nil h.1 (hempty ▸ rfl)

end Utf8

namespace Trail

def reread (t : Trail) : Trail := t.map Utf8.reread

variable {t u : Trail} {root : Path}

theorem pieces_name (hne : t ≠ []) (h : t.Valid) : (Path.ofText t.name).pieces = t.reread := by
  have hparts : Text.pieces '/' t.name.toList = t.words := parts_name hne h
  rw [Path.pieces_ofText, hparts, words, List.map_map]
  rfl

theorem not_isAbsolute_name (hne : t ≠ []) (h : t.Valid) : ¬ (Path.ofText t.name).isAbsolute := by
  intro habs
  obtain ⟨rest, hrest⟩ := Path.pieces_of_isAbsolute habs
  obtain ⟨b, behind, rfl⟩ := List.exists_cons_of_ne_nil hne
  rw [pieces_name hne h] at hrest
  exact (Utf8.proper_reread (h b List.mem_cons_self)).1 (List.cons.inj hrest).1

theorem pieces_path (hroot : root.bytes ≠ []) (hne : t ≠ []) (h : t.Valid) :
    (path root t).pieces = root.stem ++ t.reread := by
  rw [path, Path.pieces_join hroot (not_isAbsolute_name hne h), pieces_name hne h]

end Trail
end SnippetCatalog
