import SnippetCatalog.Proofs.TrailReadings
import SnippetCatalog.Proofs.WalkOrder

/-!
Walking where there are no links. Main statement: a name that can be read below a root is met by the
walk of the root exactly once, however deep it lies, since the walk goes down the same names as the
path.
-/

namespace SnippetCatalog

namespace Trail

def Plain (t : Trail) : Prop := ∀ b ∈ t, IsName b ∧ Utf8.encode (Utf8.decode b) = b

variable {t u : Trail}

theorem Plain.valid (h : t.Plain) : t.Valid := fun b hb => (h b hb).1

theorem Plain.append (ht : t.Plain) (hu : u.Plain) : Plain (t ++ u) := by
  intro b hb
  rcases List.mem_append.1 hb with hb | hb
  · exact ht b hb
  · exact hu b hb

theorem Plain.reread (h : t.Plain) : t.reread = t := by
  have hself : ∀ b ∈ t, Utf8.reread b = b := fun b hb => (h b hb).2
  rw [Trail.reread, List.map_congr_left hself, List.map_id']

theorem Plain.pieces_name (hne : t ≠ []) (h : t.Plain) : (Path.ofText t.name).pieces = t := by
  rw [Trail.pieces_name hne h.valid, h.reread]

theorem name_eq_iff {name : String} (hne : t ≠ []) (h : t.Plain) :
    t.name = name ↔ t = (Path.ofText name).pieces := by
  constructor
  · rintro rfl
    exact (h.pieces_name hne).symm
  · intro heq
    have hpieces : (Path.ofText t.name).pieces = (Path.ofText name).pieces := by
      rw [h.pieces_name hne, heq]
    have hbytes : Utf8.encode t.name = Utf8.encode name := Text.pieces_injective hpieces
    exact Utf8.encode_injective hbytes

theorem Plain.pieces_path {root : Path} (hroot : root.bytes ≠ []) (hne : t ≠ []) (h : t.Plain) :
    (path root t).pieces = root.stem ++ t := by
  rw [Trail.pieces_path hroot hne h.valid, h.reread]

end Trail

namespace FileSystem

def Legible (fs : FileSystem) : Prop :=
  ∀ r ∈ fs.records, ∀ name ∈ r.1, Utf8.encode (Utf8.decode name) = name

instance (fs : FileSystem) : Decidable fs.Legible := inferInstanceAs (Decidable (∀ _ ∈ _, _))

variable {fs : FileSystem} {place : Location} {e : Bytes × Entry}

theorem Legible.plain_of_mem_children (h : fs.Legible) (he : e ∈ fs.children place) :
    IsName e.1 ∧ Utf8.encode (Utf8.decode e.1) = e.1 := by
  refine ⟨isName_of_mem_children he, ?_⟩
  have hmem := mem_records_of_some (by simp) (mem_children_iff.1 he)
  exact h _ hmem e.1 (by simp)

theorem Plain.plain_of_mem_children (h : fs.Plain) (he : e ∈ fs.children place) :
    IsName e.1 ∧ Utf8.encode (Utf8.decode e.1) = e.1 :=
  Legible.plain_of_mem_children h.readable he

end FileSystem

namespace Visit

open FileSystem (Admitted Course startOf)

variable {fs : FileSystem} {root : Path}

section

variable {u t : Trail} {place : Location}

theorem admitted_of_append (hroot : root.bytes ≠ []) (hu : u.Plain) (hne : u ≠ []) (ht : t.Plain)
    (h : Admitted (Trail.path root (u ++ t))) : Admitted (Trail.path root u) := by
  have hpieces : (Trail.path root (u ++ t)).pieces = (Trail.path root u).pieces ++ t := by
    rw [(hu.append ht).pieces_path hroot (by simp [hne]), hu.pieces_path hroot hne,
      List.append_assoc]
  have hbytes : (Trail.path root u).bytes ≠ [] := by
    intro hnil
    have hprefix : root.bytes <+: (Trail.path root u).bytes :=
      Path.bytes_isPrefix_join hroot (Trail.not_isAbsolute_name hne hu.valid)
    rw [hnil] at hprefix
    exact hroot (List.prefix_nil.1 hprefix)
  exact h.of_isPrefix hbytes (Path.bytes_isPrefix_of_pieces hpieces)

theorem readDirectory_path (h : fs.Plain) (hroot : root.bytes ≠ []) (hu : u.Plain) (hne : u ≠ [])
    (hcourse : fs.Course (startOf fs.workingDirectory root) (root.stem ++ u) place)
    (hentry : fs.entry? place = some .directory) (hadmitted : Admitted (Trail.path root u)) :
    fs.readDirectory (Trail.path root u) = .ok (fs.children place) := by
  have hstart : startOf fs.workingDirectory (Trail.path root u) =
      startOf fs.workingDirectory root :=
    FileSystem.startOf_join fs.workingDirectory hroot (Trail.not_isAbsolute_name hne hu.valid)
  apply h.readDirectory_of_course hadmitted
  · rw [hstart, hu.pieces_path hroot hne]
    exact hcourse
  · exact hentry

theorem snippet_mem_ofEntries (h : fs.Plain) (hroot : root.bytes ≠ []) {content : Bytes}
    {depth : Nat} (hu : u.Plain) (ht : t.Plain) (hne : t ≠ []) (hdepth : t.length ≤ depth)
    (hplace : fs.Course (startOf fs.workingDirectory root) (root.stem ++ u) place)
    (hcourse : fs.Course place t (place ++ t))
    (hfile : fs.entry? (place ++ t) = some (.file content))
    (hadmitted : Admitted (Trail.path root (u ++ t))) :
    .snippet (u ++ t) ∈ ofEntries fs root depth .everything u (fs.children place) := by
  induction t generalizing u place depth with
  | nil => exact absurd rfl hne
  | cons b rest ih =>
    obtain ⟨depth, rfl⟩ := Nat.exists_eq_succ_of_ne_zero
      (Nat.ne_of_gt (Nat.lt_of_lt_of_le (Nat.succ_pos _) hdepth))
    have hb : IsName b := (ht b List.mem_cons_self).1
    have hsingle : Trail.Plain [b] := by
      intro c hc
      exact List.mem_singleton.1 hc ▸ ht b List.mem_cons_self
    have hrestPlain : Trail.Plain rest := fun d hd => ht d (List.mem_cons_of_mem b hd)
    rw [ofEntries, List.mem_flatMap]
    cases rest with
    | nil =>
      refine ⟨(b, .file content), FileSystem.mem_children_iff.2 hfile, ?_⟩
      unfold ofEntry
      exact List.mem_singleton.2 rfl
    | cons c rest =>
      -- the trail goes on, so its first name leads to a directory and the walk reads it
      obtain ⟨hdir, next, hleads, hrest⟩ := hcourse
      have hnext : next = place ++ [b] :=
        ((FileSystem.leads_of_proper (FileSystem.proper_of_isName hb)).1 hleads).2.2
      subst hnext
      have hub : Trail.Plain (u ++ [b]) := hu.append hsingle
      have htrail : u ++ b :: c :: rest = (u ++ [b]) ++ c :: rest := by simp
      have hloc : place ++ b :: c :: rest = (place ++ [b]) ++ c :: rest := by simp
      have hdown : fs.Course (startOf fs.workingDirectory root) (root.stem ++ (u ++ [b]))
          (place ++ [b]) := by
        rw [← List.append_assoc, FileSystem.course_append]
        exact ⟨place, hplace, hdir, _, hleads, rfl⟩
      rw [htrail] at hadmitted ⊢
      rw [hloc] at hfile hrest
      have hread : fs.readDirectory (Trail.path root (u ++ [b])) =
          .ok (fs.children (place ++ [b])) :=
        readDirectory_path h hroot hub (by simp) hdown hrest.1
          (admitted_of_append hroot hub (by simp) hrestPlain hadmitted)
      refine ⟨(b, .directory), FileSystem.mem_children_iff.2 hrest.1, ?_⟩
      unfold ofEntry
      dsimp only
      rw [Selection.takesDirectory_everything, if_pos rfl, Selection.below_everything, hread]
      exact ih hub hrestPlain (by simp) (Nat.le_of_succ_le_succ hdepth) hdown hrest hfile hadmitted

end

end Visit

/-! ### Ordinary names -/

def Ordinary (name : String) : Prop := ∀ w ∈ parts name, w ≠ [] ∧ w ≠ ['.'] ∧ w ≠ ['.', '.']

instance (name : String) : Decidable (Ordinary name) :=
  List.decidableBAll (fun w => w ≠ [] ∧ w ≠ ['.'] ∧ w ≠ ['.', '.']) (parts name)

namespace Ordinary

variable {name : String}

theorem proper (h : Ordinary name) : ∀ p ∈ (Path.ofText name).pieces, FileSystem.Proper p := by
  intro p hp
  rw [Path.pieces_ofText] at hp
  obtain ⟨w, hw, rfl⟩ := List.mem_map.1 hp
  have hencode : ∀ v : List Char, w.flatMap Utf8.encodeChar = v.flatMap Utf8.encodeChar → w = v := by
    intro v hv
    have heq : String.ofList w = String.ofList v := by
      apply Utf8.encode_injective
      rw [Utf8.encode, Utf8.encode, String.toList_ofList, String.toList_ofList, hv]
    exact String.ofList_inj.1 heq
  obtain ⟨hempty, hdot, hdots⟩ := h w hw
  exact ⟨fun h => hempty (hencode [] h), fun h => hdot (hencode ['.'] h),
    fun h => hdots (hencode ['.', '.'] h)⟩

theorem not_isAbsolute (h : Ordinary name) : ¬ (Path.ofText name).isAbsolute := by
  intro habs
  obtain ⟨rest, hrest⟩ := Path.pieces_of_isAbsolute habs
  exact (h.proper [] (hrest ▸ List.mem_cons_self)).1 rfl

end Ordinary

namespace Visit

variable {fs : FileSystem} {dir : Path} {name : String} {content : Bytes}

theorem plain_of_mem_below (h : fs.Plain) {place : Location} {t : Trail}
    (ht : t ∈ (below fs dir .everything (fs.children place)).filterMap snippet?) :
    t ≠ [] ∧ t.Plain := by
  have hchildren : ∀ place, ∀ e ∈ fs.children place,
      IsName e.1 ∧ Utf8.encode (Utf8.decode e.1) = e.1 :=
    fun _ _ => h.plain_of_mem_children
  obtain ⟨e, -, rest, rfl, hrest⟩ :=
    trail_of_mem_ofEntries (fun b => IsName b ∧ Utf8.encode (Utf8.decode b) = b) hchildren
      (hchildren place) rfl (mem_filterMap_snippet?.1 ht)
  exact ⟨by simp, hrest⟩

theorem trail_mem_below (h : fs.Plain) (hdir : dir.bytes ≠ []) (hname : Ordinary name)
    (hread : fs.read (dir.join (.ofText name)) = .ok content) : ∃ place,
      fs.readDirectory dir = .ok (fs.children place) ∧ (Path.ofText name).pieces ∈
        (below fs dir .everything (fs.children place)).filterMap snippet? := by
  obtain ⟨hadmitted, place, hreach, hcourse, hfile⟩ :=
    (h.read_join_iff hdir hname.not_isAbsolute hname.proper).1 hread
  have hne : (Path.ofText name).pieces ≠ [] := Text.pieces_ne_nil _ _
  have hrecord := FileSystem.mem_records_of_some (by simp [hne]) hfile
  have hplain : Trail.Plain (Path.ofText name).pieces := by
    intro b hb
    have hmem : b ∈ place ++ (Path.ofText name).pieces := List.mem_append_right place hb
    exact ⟨fs.named _ hrecord b hmem, h.readable _ hrecord b hmem⟩
  have hentry : fs.entry? place = some .directory := by
    obtain ⟨b, rest, hb⟩ := List.exists_cons_of_ne_nil hne
    rw [hb] at hcourse
    exact hcourse.1
  have hdepth : (Path.ofText name).pieces.length ≤ FileSystem.pathLimit := by
    have hlength : (Path.ofText name).pieces.length ≤ (Path.ofText name).bytes.length + 1 :=
      Text.length_pieces_le (Path.ofText name).bytes
    have hlonger := Path.length_name_lt hdir hname.not_isAbsolute
    have hlimit := hadmitted.2.2
    omega
  have hpath : Trail.path dir ([] ++ (Path.ofText name).pieces) = dir.join (.ofText name) := by
    rw [List.nil_append, Trail.path, (Trail.name_eq_iff hne hplain).2 rfl]
  have hstart : fs.Course (FileSystem.startOf fs.workingDirectory dir) (dir.stem ++ []) place := by
    rw [List.append_nil]
    exact hreach
  have hmeet : .snippet ([] ++ (Path.ofText name).pieces) ∈
      below fs dir .everything (fs.children place) :=
    snippet_mem_ofEntries h hdir (List.forall_mem_nil _) hplain hne hdepth hstart hcourse hfile
      (hpath ▸ hadmitted)
  refine ⟨place, ?_, mem_filterMap_snippet?.2 hmeet⟩
  have hshort : FileSystem.Admitted dir :=
    hadmitted.of_isPrefix hdir (Path.bytes_isPrefix_join hdir hname.not_isAbsolute)
  exact h.readDirectory_of_course hshort (hreach.course hentry) hentry

theorem snippets_named (h : fs.Plain) (hdir : dir.bytes ≠ []) (hname : Ordinary name)
    (hread : fs.read (dir.join (.ofText name)) = .ok content) :
    ∃ entries t, fs.readDirectory dir = .ok entries ∧ Trail.name t = name ∧
      ((below fs dir .everything entries).filterMap snippet?).filter (fun u => u.name = name) =
        [t] := by
  obtain ⟨place, hdirectory, hmem⟩ := trail_mem_below h hdir hname hread
  obtain ⟨hne, hplain⟩ := plain_of_mem_below h hmem
  refine ⟨_, _, hdirectory, (Trail.name_eq_iff hne hplain).2 rfl, ?_⟩
  have honly : ∀ u ∈ (below fs dir .everything (fs.children place)).filterMap snippet?,
      decide (u.name = name) = decide (u = (Path.ofText name).pieces) := by
    intro u hu
    obtain ⟨hu, hup⟩ := plain_of_mem_below h hu
    exact decide_eq_decide.2 (Trail.name_eq_iff hu hup)
  rw [List.filter_congr honly, List.filter_eq, (nodup_below fs dir .everything place).count,
    if_pos hmem]
  rfl

end Visit
end SnippetCatalog
