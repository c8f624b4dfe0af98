import SnippetCatalog.Listing.Visit

/-!
The name of a trail and its parts. A name in a directory has no slash and decoding makes none up, so
the name of a trail cut at its slashes gives the names on the trail. Main statements: the parts of a
trail's name, and what a walk meets has a trail of such names.
-/

namespace SnippetCatalog

open Text (pieces)

abbrev parts (name : String) : List (List Char) := pieces '/' name.toList

theorem parts_injective {name name' : String} (h : parts name = parts name') : name = name' :=
  String.toList_inj.1 (Text.pieces_injective h)

namespace Trail

def words (t : Trail) : List (List Char) := t.map fun b => (Utf8.decode b).toList

theorem words_append (t u : Trail) : words (t ++ u) = t.words ++ u.words := List.map_append

def Valid (t : Trail) : Prop := ∀ b ∈ t, IsName b

theorem Valid.append {t u : Trail} (ht : t.Valid) (hu : u.Valid) : Valid (t ++ u) := by
  intro b hb
  rcases List.mem_append.1 hb with hb | hb
  · exact ht b hb
  · exact hu b hb

theorem slash_notMem_decode {b : Bytes} (h : IsName b) : '/' ∉ (Utf8.decode b).toList := by
  intro hs
  have hslash : UInt8.ofNat '/'.toNat = Path.slash := rfl
  have hmem := Utf8.mem_of_mem_decode hs (by decide)
  rw [hslash] at hmem
  exact h.2.2.2.1 hmem

theorem toList_name (t : Trail) : t.name.toList = ['/'].intercalate t.words := by
  rw [name, String.toList_intercalate, List.map_map]
  rfl

theorem parts_name {t : Trail} (hne : t ≠ []) (h : t.Valid) : parts t.name = t.words := by
  rw [parts, toList_name, Text.pieces_intercalate]
  · simpa [words] using hne
  · intro w hw
    obtain ⟨b, hb, rfl⟩ := List.mem_map.1 hw
    exact slash_notMem_decode (h b hb)

theorem parts_name_concat {t : Trail} {b : Bytes} (ht : t.Valid) (hb : IsName b) :
    parts (name (t ++ [b])) = t.words ++ [(Utf8.decode b).toList] := by
  have hvalid : Valid (t ++ [b]) := ht.append (by simpa [Valid] using hb)
  rw [parts_name (by simp) hvalid, words_append]
  rfl

theorem length_le_length_encode_name {t : Trail} (h : t.Valid) :
    t.length ≤ (Utf8.encode t.name).length := by
  have hwords : ∀ w ∈ t.words, w ≠ [] := by
    intro w hw
    obtain ⟨b, hb, rfl⟩ := List.mem_map.1 hw
    exact Utf8.decode_ne_nil (h b hb).1
  calc t.length = t.words.length := (List.length_map _).symm
    _ ≤ (['/'].intercalate t.words).length := Text.length_le_length_intercalate hwords
    _ = t.name.toList.length := by rw [toList_name]
    _ ≤ (Utf8.encode t.name).length := Utf8.length_le_length_encode t.name

end Trail

namespace FileSystem

theorem mem_of_nameIn {dir place : Location} {name : Bytes} (h : nameIn dir place = some name) :
    name ∈ place := by
  fun_induction nameIn dir place with
  | case1 => exact Option.some.inj h ▸ List.mem_cons_self
  | case2 dir l rest ih => exact List.mem_cons_of_mem _ (ih h)
  | case3 => cases h
  | case4 => cases h

theorem mem_records_of_some {fs : FileSystem} {place : Location} {entry : Entry} (hne : place ≠ [])
    (h : fs.entry? place = some entry) : (place, entry) ∈ fs.records := by
  cases place with
  | nil => exact absurd rfl hne
  | cons name rest =>
    obtain ⟨l₁, l₂, heq, -⟩ := List.lookup_eq_some_iff.1 h
    rw [heq]
    simp

theorem nameIn_concat (place : Location) (b : Bytes) : nameIn place (place ++ [b]) = some b := by
  induction place with
  | nil => rfl
  | cons d dir ih =>
    rw [List.cons_append, nameIn, if_pos rfl]
    exact ih

theorem mem_children_iff {fs : FileSystem} {place : Location} {b : Bytes} {entry : Entry} :
    (b, entry) ∈ fs.children place ↔ fs.entry? (place ++ [b]) = some entry := by
  unfold children
  rw [List.mem_filterMap]
  constructor
  · rintro ⟨name, -, h⟩
    obtain ⟨e, he, heq⟩ := Option.map_eq_some_iff.1 h
    cases heq
    exact he
  · intro h
    refine ⟨b, ?_, by rw [h]; rfl⟩
    have hmem : (place ++ [b], entry) ∈ fs.records := mem_records_of_some (by simp) h
    exact Ascending.mem_ofList.2 (List.mem_filterMap.2 ⟨_, hmem, nameIn_concat place b⟩)

theorem isName_of_mem_children {fs : FileSystem} {dir : Location} {e : Bytes × Entry}
    (h : e ∈ fs.children dir) : IsName e.1 := by
  obtain ⟨name, hname, he⟩ := List.mem_filterMap.1 h
  obtain ⟨entry, -, rfl⟩ := Option.map_eq_some_iff.1 he
  obtain ⟨r, hr, hin⟩ := List.mem_filterMap.1 (Ascending.mem_ofList.1 hname)
  exact fs.named r hr name (mem_of_nameIn hin)

theorem readDirectory_eq_ok_iff {fs : FileSystem} {p : Path} {entries : List (Bytes × Entry)} :
    fs.readDirectory p = .ok entries ↔ ∃ place, fs.resolve p = .ok place ∧
      fs.entry? place = some .directory ∧ fs.closed place = none ∧ entries = fs.children place := by
  unfold readDirectory
  cases fs.resolve p with
  | error fault => simp [bind, Except.bind]
  | ok place =>
    dsimp only [bind, Except.bind]
    by_cases hdirectory : fs.entry? place = some .directory
    · cases hclosed : fs.closed place with
      | some reason => simp [hdirectory, hclosed]
      | none => simp [hdirectory, hclosed, eq_comm]
    · simp [hdirectory]

theorem readDirectory_eq_ok {fs : FileSystem} {p : Path} {entries : List (Bytes × Entry)}
    (h : fs.readDirectory p = .ok entries) : ∃ place, fs.resolve p = .ok place ∧
      fs.entry? place = some .directory ∧ entries = fs.children place := by
  obtain ⟨place, hresolve, hdirectory, -, hentries⟩ := readDirectory_eq_ok_iff.1 h
  exact ⟨place, hresolve, hdirectory, hentries⟩

theorem isName_of_readDirectory {fs : FileSystem} {p : Path} {entries : List (Bytes × Entry)}
    (h : fs.readDirectory p = .ok entries) : ∀ e ∈ entries, IsName e.1 := by
  obtain ⟨place, -, -, rfl⟩ := readDirectory_eq_ok h
  exact fun _ => isName_of_mem_children

end FileSystem

namespace Visit

def snippet? : Visit → Option Trail
  | .snippet trail => some trail
  | _ => none

/-- The trail of what is a file or link or, for all that can be told, may be one. -/
def subject? : Visit → Option Trail
  | .snippet trail | .untold trail _ => some trail
  | _ => none

theorem mem_filterMap_snippet? {t : Trail} {visits : List Visit} :
    t ∈ visits.filterMap snippet? ↔ .snippet t ∈ visits := by
  rw [List.mem_filterMap]
  constructor
  · rintro ⟨v, hv, h⟩
    cases v with
    | snippet trail =>
      cases h
      exact hv
    | _ => cases h
  · intro h
    exact ⟨_, h, rfl⟩

variable {fs : FileSystem} {root : Path}

theorem trail_of_mem_ofEntries (P : Bytes → Prop)
    (hP : ∀ place, ∀ e ∈ fs.children place, P e.1) {depth : Nat} {selection : Selection}
    {trail t : Trail} {entries : List (Bytes × Entry)} (hentries : ∀ e ∈ entries, P e.1)
    {v : Visit} (hv : v.subject? = some t)
    (h : v ∈ ofEntries fs root depth selection trail entries) :
    ∃ e ∈ entries, ∃ rest, t = trail ++ e.1 :: rest ∧ ∀ c ∈ e.1 :: rest, P c := by
  induction depth generalizing selection trail entries with
  | zero => cases h
  | succ depth ih =>
    rw [ofEntries, List.mem_flatMap] at h
    obtain ⟨⟨name, entry⟩, he, h⟩ := h
    have hname : P name := hentries _ he
    have hsingle : ∀ c ∈ [name], P c := by
      intro c hc
      exact List.mem_singleton.1 hc ▸ hname
    unfold ofEntry at h
    cases entry with
    | file content | link target =>
      dsimp only at h
      split at h
      · cases List.mem_singleton.1 h
        cases hv
        exact ⟨_, he, [], rfl, hsingle⟩
      · cases h
    | special kind =>
      cases List.mem_singleton.1 h
      cases hv
    | untold reason =>
      cases List.mem_singleton.1 h
      cases hv
      exact ⟨_, he, [], rfl, hsingle⟩
    | directory =>
      dsimp only at h
      split at h
      · split at h
        · cases List.mem_singleton.1 h
          cases hv
        · next inner hin =>
          obtain ⟨place, -, -, rfl⟩ := FileSystem.readDirectory_eq_ok hin
          obtain ⟨e, -, rest, rfl, hrest⟩ := ih (hP place) h
          refine ⟨_, he, e.1 :: rest, by simp, ?_⟩
          intro c hc
          rcases List.mem_cons.1 hc with rfl | hc
          · exact hname
          · exact hrest c hc
      · cases h

end Visit

/-! ### Entries of which the type cannot be told -/

def Entry.isTold : Entry → Bool
  | .untold _ => false
  | _ => true

def FileSystem.Told (fs : FileSystem) : Prop := ∀ r ∈ fs.records, r.2.isTold = true

instance (fs : FileSystem) : Decidable fs.Told := inferInstanceAs (Decidable (∀ _ ∈ _, _))

theorem FileSystem.Told.of_mem_children {fs : FileSystem} (h : fs.Told) {place : Location}
    {e : Bytes × Entry} (he : e ∈ fs.children place) : e.2.isTold = true :=
  h _ (mem_records_of_some (by simp) (mem_children_iff.1 he))

namespace Visit

variable {fs : FileSystem} {root : Path}

theorem untold_notMem_ofEntries (told : fs.Told) {depth : Nat} {selection : Selection}
    {trail t : Trail} {fault : Fault} {entries : List (Bytes × Entry)}
    (hentries : ∀ e ∈ entries, e.2.isTold = true) :
    .untold t fault ∉ ofEntries fs root depth selection trail entries := by
  intro h
  induction depth generalizing selection trail entries with
  | zero => cases h
  | succ depth ih =>
    rw [ofEntries, List.mem_flatMap] at h
    obtain ⟨⟨name, entry⟩, he, h⟩ := h
    unfold ofEntry at h
    cases entry with
    | file content | link target =>
      dsimp only at h
      split at h <;> simp at h
    | special kind => simp at h
    | untold reason => cases hentries _ he
    | directory =>
      dsimp only at h
      split at h
      · split at h
        · simp at h
        · next inner hin =>
          obtain ⟨place, -, -, rfl⟩ := FileSystem.readDirectory_eq_ok hin
          exact ih (fun _ => told.of_mem_children) h
      · cases h

theorem untold_notMem_below (told : fs.Told) {selection : Selection}
    {entries : List (Bytes × Entry)} (h : fs.readDirectory root = .ok entries) (t : Trail)
    (fault : Fault) : .untold t fault ∉ below fs root selection entries := by
  obtain ⟨place, -, -, rfl⟩ := FileSystem.readDirectory_eq_ok h
  exact untold_notMem_ofEntries told fun _ => told.of_mem_children

end Visit
end SnippetCatalog
