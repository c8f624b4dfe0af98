import SnippetCatalog.Path

/-!
Joined paths piece by piece. Main statements: the pieces of a joined path are those of the
directory, but for an empty one at its end, and then those of the name; and one name joined to two
spellings of a directory gives two spellings of one path.
-/

namespace SnippetCatalog.Path

/-- The pieces of a path without the empty one that a slash at the end makes. -/
def stem (p : Path) : List Bytes :=
  if p.bytes.getLast? = some slash then Text.pieces slash p.bytes.dropLast else p.pieces

theorem stem_ne_nil (p : Path) : p.stem ≠ [] := by
  unfold stem
  split <;> exact Text.pieces_ne_nil slash _

theorem bytes_of_getLast? {p : Path} (h : p.bytes.getLast? = some slash) :
    p.bytes = p.bytes.dropLast ++ [slash] := by
  have hne : p.bytes ≠ [] := by
    intro hnil
    rw [hnil] at h
    cases h
  have hlast : p.bytes.getLast hne = slash := by
    rw [List.getLast?_eq_some_getLast hne] at h
    exact Option.some.inj h
  rw [← hlast]
  exact (List.dropLast_concat_getLast hne).symm

theorem pieces_eq_stem (p : Path) : p.pieces = p.stem ∨ p.pieces = p.stem ++ [[]] := by
  unfold stem
  split
  · next h =>
    right
    have hpieces : p.pieces = Text.pieces slash (p.bytes.dropLast ++ [slash]) := by
      rw [← bytes_of_getLast? h]
      rfl
    rw [hpieces, Text.pieces_append_separator]
    rfl
  · exact .inl rfl

theorem pieces_of_isAbsolute {p : Path} (h : p.isAbsolute) : ∃ rest, p.pieces = [] :: rest := by
  unfold isAbsolute at h
  unfold pieces
  cases hb : p.bytes with
  | nil =>
    rw [hb] at h
    cases h
  | cons b r =>
    rw [hb] at h
    have hslash : b = slash := by simpa using h
    rw [hslash, Text.pieces_cons_self]
    exact ⟨_, rfl⟩

theorem bytes_isPrefix_of_pieces {p q : Path} {more : List Bytes}
    (h : q.pieces = p.pieces ++ more) : p.bytes <+: q.bytes := by
  have hp : [slash].intercalate p.pieces = p.bytes := Text.intercalate_pieces p.bytes
  have hq : [slash].intercalate q.pieces = q.bytes := Text.intercalate_pieces q.bytes
  rw [← hp, ← hq, h]
  exact Text.intercalate_isPrefix (Text.pieces_ne_nil slash p.bytes) more

section

variable {dir dir' name : Path}

theorem exists_join_eq (hdir : dir.bytes ≠ []) (hname : ¬ name.isAbsolute) : ∃ stem : Bytes,
    Text.pieces slash stem = dir.stem ∧ (dir.join name).bytes = stem ++ slash :: name.bytes ∧
      (dir.bytes = stem ∨ dir.bytes = stem ++ [slash]) := by
  unfold join stem
  rw [if_neg hname]
  by_cases h : dir.bytes.getLast? = some slash
  · have hbytes := bytes_of_getLast? h
    refine ⟨dir.bytes.dropLast, ?_, ?_, .inr hbytes⟩
    · rw [if_pos h]
    · rw [if_pos (.inr h)]
      show dir.bytes ++ name.bytes = _
      calc dir.bytes ++ name.bytes = (dir.bytes.dropLast ++ [slash]) ++ name.bytes := by rw [← hbytes]
        _ = dir.bytes.dropLast ++ slash :: name.bytes := by simp
  · refine ⟨dir.bytes, ?_, ?_, .inl rfl⟩
    · rw [if_neg h]
      rfl
    · rw [if_neg (by simp [hdir, h])]

theorem pieces_join (hdir : dir.bytes ≠ []) (hname : ¬ name.isAbsolute) :
    (dir.join name).pieces = dir.stem ++ name.pieces := by
  obtain ⟨stem, hstem, hbytes, -⟩ := exists_join_eq hdir hname
  rw [pieces, hbytes, Text.pieces_append_separator, hstem]
  rfl

theorem bytes_isPrefix_join (hdir : dir.bytes ≠ []) (hname : ¬ name.isAbsolute) :
    dir.bytes <+: (dir.join name).bytes := by
  obtain ⟨stem, -, hbytes, h | h⟩ := exists_join_eq hdir hname
  · rw [hbytes, h]
    exact List.prefix_append _ _
  · rw [hbytes, h]
    exact ⟨name.bytes, by simp⟩

theorem length_name_lt (hdir : dir.bytes ≠ []) (hname : ¬ name.isAbsolute) :
    name.bytes.length < (dir.join name).bytes.length := by
  obtain ⟨stem, -, hbytes, -⟩ := exists_join_eq hdir hname
  rw [hbytes, List.length_append, List.length_cons]
  omega

theorem length_le_length_join (dir name : Path) :
    name.bytes.length ≤ (dir.join name).bytes.length := by
  have hbefore : ∀ before : Bytes, name.bytes.length ≤ (before ++ name.bytes).length := by
    intro before
    rw [List.length_append]
    exact Nat.le_add_left _ _
  unfold join
  split
  · exact Nat.le_refl _
  · split
    · exact hbefore dir.bytes
    · have hslash := hbefore (dir.bytes ++ [slash])
      rwa [List.append_assoc, List.singleton_append] at hslash

theorem isAbsolute_join (hdir : dir.bytes ≠ []) (hname : ¬ name.isAbsolute) :
    (dir.join name).isAbsolute = dir.isAbsolute := by
  obtain ⟨rest, hrest⟩ := bytes_isPrefix_join hdir hname
  obtain ⟨b, bs, hb⟩ := List.exists_cons_of_ne_nil hdir
  rw [isAbsolute, isAbsolute, ← hrest, hb]
  rfl

def counting (pieces : List Bytes) : List Bytes := pieces.filter fun c => c ≠ [] ∧ c ≠ dot

theorem counting_append (ps qs : List Bytes) : counting (ps ++ qs) = counting ps ++ counting qs :=
  List.filter_append ps qs

theorem components_cons {p : Path} {first : Bytes} {rest : List Bytes}
    (h : p.pieces = first :: rest) :
    p.components = (if first = [] then [] else [first]) ++ counting rest := by
  rw [components, h]
  rfl

theorem components_join (hdir : dir.bytes ≠ []) (hname : ¬ name.isAbsolute) :
    (dir.join name).components = dir.components ++ counting name.pieces := by
  obtain ⟨first, rest, hstem⟩ := List.exists_cons_of_ne_nil (stem_ne_nil dir)
  have hjoin : (dir.join name).pieces = first :: (rest ++ name.pieces) := by
    rw [pieces_join hdir hname, hstem]
    rfl
  have hcounting : ∃ more, dir.pieces = first :: more ∧ counting more = counting rest := by
    rcases pieces_eq_stem dir with h | h
    · exact ⟨rest, h.trans hstem, rfl⟩
    · refine ⟨rest ++ [[]], by rw [h, hstem]; rfl, ?_⟩
      simp [counting]
  obtain ⟨more, hpieces, hmore⟩ := hcounting
  rw [components_cons hjoin, components_cons hpieces, hmore, List.append_assoc, counting_append]

theorem Same.join (h : dir.Same dir') (hdir : dir.bytes ≠ []) (hdir' : dir'.bytes ≠ [])
    (hname : ¬ name.isAbsolute) : (dir.join name).Same (dir'.join name) := by
  constructor
  · rw [isAbsolute_join hdir hname, isAbsolute_join hdir' hname, h.1]
  · rw [components_join hdir hname, components_join hdir' hname, h.2]

theorem counting_stem (p : Path) : counting p.stem = counting p.components := by
  have hpieces : counting p.stem = counting p.pieces := by
    rcases pieces_eq_stem p with h | h
    · rw [h]
    · rw [h]
      simp [counting]
  obtain ⟨first, rest, hp⟩ := List.exists_cons_of_ne_nil (Text.pieces_ne_nil slash p.bytes)
  have hcons : p.pieces = first :: rest := hp
  rw [hpieces, components_cons hcons, hcons]
  by_cases h : first = []
  · simp [counting, h]
  · simp [counting, h, List.filter_cons]

end

theorem pieces_ofText (s : String) :
    (Path.ofText s).pieces = (Text.pieces '/' s.toList).map fun w => w.flatMap Utf8.encodeChar := by
  rw [pieces, ofText, Utf8.encode]
  induction s.toList with
  | nil => rfl
  | cons c cs ih =>
    obtain ⟨w, ws, hcs⟩ := List.exists_cons_of_ne_nil (Text.pieces_ne_nil '/' cs)
    rw [hcs] at ih
    by_cases hc : c = '/'
    · subst hc
      have hslash : Utf8.encodeChar '/' = [slash] := rfl
      rw [List.flatMap_cons, hslash, List.singleton_append, Text.pieces_cons_self,
        Text.pieces_cons_self, ih, hcs]
      rfl
    · have hnot : slash ∉ Utf8.encodeChar c := by
        have hiff := Utf8.mem_encodeChar_iff (a := '/') (c := c) (by decide)
        exact fun h => hc (hiff.1 h)
      rw [List.flatMap_cons, Text.pieces_cons_of_ne hc hcs, Text.pieces_append_of_notMem hnot ih]
      rfl

end SnippetCatalog.Path
