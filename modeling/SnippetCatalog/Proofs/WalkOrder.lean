import SnippetCatalog.Proofs.TrailNames

/-!
The order of a walk. Main statement: the files and links are met in ascending order of their trails,
compared name by name, so none is met twice.
-/

namespace SnippetCatalog

theorem FileSystem.pairwise_children (fs : FileSystem) (place : Location) :
    (fs.children place).Pairwise fun e e' => e.1 < e'.1 := by
  have hnames : (fs.names place).Pairwise (· < ·) := Ascending.pairwise_ofList _
  apply hnames.filterMap
  intro b b' hlt e he e' he'
  obtain ⟨_, -, rfl⟩ := Option.map_eq_some_iff.1 he
  obtain ⟨_, -, rfl⟩ := Option.map_eq_some_iff.1 he'
  exact hlt

namespace Visit

variable {fs : FileSystem} {root : Path} {selection : Selection} {trail : Trail}
  {entries : List (Bytes × Entry)}

theorem exists_append_of_mem_ofEntry {depth : Nat} {e : Bytes × Entry} {t : Trail}
    (h : t ∈ (ofEntry fs root (ofEntries fs root depth) selection trail e).filterMap snippet?) :
    ∃ rest, t = trail ++ e.1 :: rest := by
  have hmem : .snippet t ∈ ofEntries fs root (depth + 1) selection trail [e] := by
    rw [ofEntries, List.flatMap_singleton]
    exact mem_filterMap_snippet?.1 h
  obtain ⟨e', he', rest, heq, -⟩ :=
    trail_of_mem_ofEntries (fun _ => True) (fun _ _ _ => trivial) (fun _ _ => trivial) rfl hmem
  exact ⟨rest, List.mem_singleton.1 he' ▸ heq⟩

theorem pairwise_ofEntries {depth : Nat} (h : entries.Pairwise fun e e' => e.1 < e'.1) :
    ((ofEntries fs root depth selection trail entries).filterMap snippet?).Pairwise (· < ·) := by
  induction depth generalizing selection trail entries with
  | zero => exact List.Pairwise.nil
  | succ depth ih =>
    rw [ofEntries, List.filterMap_flatMap, List.pairwise_flatMap]
    constructor
    · rintro ⟨b, entry⟩ -
      unfold ofEntry
      cases entry with
      | file content | link target =>
        dsimp only
        split
        · exact List.pairwise_singleton _ _
        · exact List.Pairwise.nil
      | special kind | untold reason => exact List.Pairwise.nil
      | directory =>
        dsimp only
        split
        · split
          · exact List.Pairwise.nil
          · next inner hin =>
            obtain ⟨place, -, -, rfl⟩ := FileSystem.readDirectory_eq_ok hin
            exact ih (fs.pairwise_children place)
        · exact List.Pairwise.nil
    · -- what lies below two entries differs first at their own names
      apply h.imp
      intro e e' hlt t ht t' ht'
      obtain ⟨rest, rfl⟩ := exists_append_of_mem_ofEntry ht
      obtain ⟨rest', rfl⟩ := exists_append_of_mem_ofEntry ht'
      exact List.append_left_lt (List.cons_lt_cons_iff.2 (.inl hlt))

theorem nodup_below (fs : FileSystem) (root : Path) (selection : Selection) (place : Location) :
    ((below fs root selection (fs.children place)).filterMap snippet?).Nodup := by
  have hpairwise : ((below fs root selection (fs.children place)).filterMap snippet?).Pairwise
      (· < ·) := pairwise_ofEntries (fs.pairwise_children place)
  apply hpairwise.imp
  intro t t' hlt heq
  rw [heq] at hlt
  exact Std.lt_irrefl hlt

end Visit
end SnippetCatalog
