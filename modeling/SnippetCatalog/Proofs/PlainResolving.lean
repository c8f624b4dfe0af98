import SnippetCatalog.FileSystem.Search
import SnippetCatalog.Proofs.JoinedPaths
import SnippetCatalog.Proofs.TrailNames

/-!
Following paths where there are no links. A path then leads along its pieces, one after the other.
Main statements: what reading a path and reading a directory come to, and that two spellings of a
directory lead to the same file.
-/

namespace SnippetCatalog

def Entry.isPlain : Entry → Bool
  | .file _ | .directory => true
  | .special kind => !kind.answers
  | .link _ | .untold _ => false

namespace FileSystem

/-- No links, pipes or devices, every name can be read as text, and nothing is refused. -/
structure Plain (fs : FileSystem) : Prop where
  plain : ∀ r ∈ fs.records, r.2.isPlain
  readable : ∀ r ∈ fs.records, ∀ name ∈ r.1, Utf8.encode (Utf8.decode name) = name
  unbarred : ∀ place piece, fs.barred place piece = none
  unclosed : ∀ place, fs.closed place = none

def Leads (fs : FileSystem) (place : Location) (piece : Bytes) (next : Location) : Prop :=
  if piece = [] ∨ piece = Path.dot then next = place
  else if piece = Path.dotDot then next = place.dropLast
  else piece.length ≤ 255 ∧ fs.entry? (place ++ [piece]) ≠ none ∧ next = place ++ [piece]

def Course (fs : FileSystem) : Location → List Bytes → Location → Prop
  | place, [], loc => loc = place
  | place, piece :: rest, loc => fs.entry? place = some .directory ∧
      ∃ next, fs.Leads place piece next ∧ Course fs next rest loc

variable {fs : FileSystem} {place mid loc loc' : Location} {ps qs : List Bytes}

theorem Plain.isPlain_of_some (h : fs.Plain) {entry : Entry} (he : fs.entry? place = some entry) :
    entry.isPlain = true := by
  cases place with
  | nil =>
    cases he
    rfl
  | cons name rest => exact h.plain _ (mem_records_of_some (by simp) he)

theorem Plain.told (h : fs.Plain) : fs.Told := by
  intro r hr
  have hplain := h.plain r hr
  cases he : r.2 with
  | untold reason =>
    rw [he] at hplain
    cases hplain
  | _ => rfl

theorem Plain.walk_eq_ok_iff (h : fs.Plain)
    {onLink : Location → Path → List Bytes → Except Fault Location} :
    fs.walk onLink place ps = .ok loc ↔ fs.Course place ps loc := by
  induction ps generalizing place with
  | nil =>
    rw [walk, Course]
    exact ⟨fun h => (Except.ok.inj h).symm, fun h => congrArg _ h.symm⟩
  | cons piece rest ih =>
    -- both sides ask the same questions in the same order
    rw [walk, Course]
    unfold Leads
    by_cases hdir : fs.entry? place = some .directory
    · rw [if_neg (not_not_intro hdir), h.unbarred]
      simp only [hdir, true_and]
      by_cases hskip : piece = [] ∨ piece = Path.dot
      · simp only [if_pos hskip, ih, exists_eq_left]
      · by_cases hup : piece = Path.dotDot
        · simp only [if_neg hskip, if_pos hup, ih, exists_eq_left]
        · simp only [if_neg hskip, if_neg hup]
          by_cases hlong : 255 < piece.length
          · rw [if_pos hlong]
            simp [Nat.not_le.2 hlong]
          · rw [if_neg hlong]
            cases he : fs.entry? (place ++ [piece]) with
            | none => simp
            | some entry =>
              have hplain := h.isPlain_of_some he
              cases entry with
              | link _ | untold _ => cases hplain
              | _ => simp [ih, Nat.not_lt.1 hlong]
    · simp [hdir]

theorem Plain.resolve_eq_ok_iff (h : fs.Plain) {p : Path} : fs.resolve p = .ok loc ↔
    (0 ∉ p.bytes ∧ p.bytes ≠ [] ∧ p.bytes.length < pathLimit) ∧
      fs.Course (startOf fs.workingDirectory p) p.pieces loc := by
  have hwalk : fs.walkLinks linkLimit (startOf fs.workingDirectory p) p.pieces = .ok loc ↔
      fs.Course (startOf fs.workingDirectory p) p.pieces loc := h.walk_eq_ok_iff
  rw [← hwalk, resolve]
  grind

/-- Whoever opens what stands at the location gets the content: that of a file, or the answer of
what is behind a pipe or a device. -/
def Offers (fs : FileSystem) (loc : Location) (content : Bytes) : Prop :=
  fs.closed loc = none ∧ (fs.entry? loc = some (.file content) ∨
    ∃ kind, fs.entry? loc = some (.special kind) ∧ kind.answers = true ∧ fs.answer loc = .ok content)

theorem contentAt_special_eq_ok_iff {kind : Special} {content : Bytes} :
    fs.contentAt loc (.special kind) = .ok content ↔
      kind.answers = true ∧ fs.answer loc = .ok content := by
  rw [contentAt]
  by_cases hanswers : kind.answers = true
  · rw [if_pos hanswers, and_iff_right hanswers]
    cases fs.answer loc with
    | ok given =>
      show (.ok given : Except Fault Bytes) = .ok content ↔ _
      rw [Except.ok.injEq, Except.ok.injEq]
    | error reason => exact ⟨nofun, nofun⟩
  · simp [hanswers]

theorem read_eq_ok_iff {p : Path} {content : Bytes} : fs.read p = .ok content ↔
    ∃ loc, fs.resolve p = .ok loc ∧ fs.Offers loc content := by
  unfold read Offers
  cases fs.resolve p with
  | error fault => simp [bind, Except.bind]
  | ok loc =>
    cases hclosed : fs.closed loc with
    | some reason => simp [bind, Except.bind, hclosed]
    | none =>
      cases hentry : fs.entry? loc with
      | none => simp [bind, Except.bind, hclosed, hentry]
      | some entry =>
        cases entry with
        | special kind =>
          simp [bind, Except.bind, hclosed, hentry, contentAt_special_eq_ok_iff]
        | _ => simp [bind, Except.bind, hclosed, hentry, contentAt]

theorem Plain.offers_iff (h : fs.Plain) {content : Bytes} :
    fs.Offers loc content ↔ fs.entry? loc = some (.file content) := by
  constructor
  · rintro ⟨-, hfile | ⟨kind, hentry, hanswers, -⟩⟩
    · exact hfile
    · have hplain := h.isPlain_of_some hentry
      rw [Entry.isPlain, hanswers] at hplain
      cases hplain
  · intro hfile
    exact ⟨h.unclosed loc, .inl hfile⟩

/-! ### Courses -/

theorem course_append : fs.Course place (ps ++ qs) loc ↔
    ∃ mid, fs.Course place ps mid ∧ fs.Course mid qs loc := by
  induction ps generalizing place with
  | nil =>
    constructor
    · intro h
      exact ⟨place, rfl, h⟩
    · rintro ⟨mid, rfl, h⟩
      exact h
  | cons p ps ih =>
    constructor
    · rintro ⟨hdir, next, hleads, h⟩
      obtain ⟨mid, hps, hqs⟩ := ih.1 h
      exact ⟨mid, ⟨hdir, next, hleads, hps⟩, hqs⟩
    · rintro ⟨mid, ⟨hdir, next, hleads, hps⟩, hqs⟩
      exact ⟨hdir, next, hleads, ih.2 ⟨mid, hps, hqs⟩⟩

theorem Leads.unique {piece : Bytes} (h : fs.Leads place piece loc)
    (h' : fs.Leads place piece loc') : loc = loc' := by
  unfold Leads at h h'
  grind

theorem Course.unique (h : fs.Course place ps loc) (h' : fs.Course place ps loc') : loc = loc' := by
  induction ps generalizing place with
  | nil => exact Eq.trans h (Eq.symm h')
  | cons p ps ih =>
    obtain ⟨-, next, hleads, hrest⟩ := h
    obtain ⟨-, next', hleads', hrest'⟩ := h'
    have hnext := hleads.unique hleads'
    subst hnext
    exact ih hrest hrest'

theorem Course.counting (h : fs.Course place ps loc) : fs.Course place (Path.counting ps) loc := by
  induction ps generalizing place with
  | nil => exact h
  | cons p ps ih =>
    obtain ⟨hdir, next, hleads, hrest⟩ := h
    unfold Path.counting
    by_cases hskip : p = [] ∨ p = Path.dot
    · rw [List.filter_cons_of_neg (by simpa using fun h => hskip.resolve_left h)]
      rw [Leads, if_pos hskip] at hleads
      exact hleads ▸ ih hrest
    · rw [List.filter_cons_of_pos (by simpa using hskip)]
      exact ⟨hdir, next, hleads, ih hrest⟩

def Proper (piece : Bytes) : Prop := piece ≠ [] ∧ piece ≠ Path.dot ∧ piece ≠ Path.dotDot

theorem proper_of_isName {b : Bytes} (h : IsName b) : Proper b :=
  ⟨h.1, h.2.1, h.2.2.1⟩

theorem leads_of_proper {piece : Bytes} (h : Proper piece) : fs.Leads place piece loc ↔
    piece.length ≤ 255 ∧ fs.entry? (place ++ [piece]) ≠ none ∧ loc = place ++ [piece] := by
  rw [Leads, if_neg (by simpa using ⟨h.1, h.2.1⟩), if_neg h.2.2]

theorem Course.eq_append (h : fs.Course place ps loc) (hproper : ∀ p ∈ ps, Proper p) :
    loc = place ++ ps := by
  induction ps generalizing place with
  | nil => rw [List.append_nil]; exact h
  | cons p ps ih =>
    obtain ⟨-, next, hleads, hrest⟩ := h
    obtain ⟨-, -, rfl⟩ := (leads_of_proper (hproper p List.mem_cons_self)).1 hleads
    rw [ih hrest fun q hq => hproper q (List.mem_cons_of_mem p hq)]
    simp

/-! ### Paths below a directory -/

/-- What the system asks of a path before it looks. -/
def Admitted (p : Path) : Prop := 0 ∉ p.bytes ∧ p.bytes ≠ [] ∧ p.bytes.length < pathLimit

theorem Admitted.of_isPrefix {p q : Path} (h : Admitted q) (hne : p.bytes ≠ [])
    (hpq : p.bytes <+: q.bytes) : Admitted p :=
  ⟨fun hz => h.1 (hpq.subset hz), hne, Nat.lt_of_le_of_lt hpq.length_le h.2.2⟩

section

variable {dir dir' name : Path} {content content' : Bytes}

theorem startOf_join (place : Location) (hdir : dir.bytes ≠ []) (hname : ¬ name.isAbsolute) :
    startOf place (dir.join name) = startOf place dir := by
  rw [startOf, startOf, Path.isAbsolute_join hdir hname]

/-- Where a directory path leads, before a slash at its end is looked at. -/
def Reaches (fs : FileSystem) (dir : Path) (place : Location) : Prop :=
  fs.Course (startOf fs.workingDirectory dir) dir.stem place

theorem Plain.read_join_iff (h : fs.Plain) (hdir : dir.bytes ≠ []) (hname : ¬ name.isAbsolute)
    (hproper : ∀ p ∈ name.pieces, Proper p) : fs.read (dir.join name) = .ok content ↔
      Admitted (dir.join name) ∧ ∃ place, fs.Reaches dir place ∧
        fs.Course place name.pieces (place ++ name.pieces) ∧
        fs.entry? (place ++ name.pieces) = some (.file content) := by
  simp only [read_eq_ok_iff, h.offers_iff, h.resolve_eq_ok_iff, startOf_join _ hdir hname,
    Path.pieces_join hdir hname, course_append]
  constructor
  · rintro ⟨loc, ⟨hadmitted, place, hplace, hcourse⟩, hfile⟩
    have hloc := hcourse.eq_append hproper
    subst hloc
    exact ⟨hadmitted, place, hplace, hcourse, hfile⟩
  · rintro ⟨hadmitted, place, hplace, hcourse, hfile⟩
    exact ⟨_, ⟨hadmitted, place, hplace, hcourse⟩, hfile⟩

theorem Plain.content_unique (h : fs.Plain) (hsame : dir.Same dir') (hdir : dir.bytes ≠ [])
    (hdir' : dir'.bytes ≠ []) (hname : ¬ name.isAbsolute)
    (hread : fs.read (dir.join name) = .ok content)
    (hread' : fs.read (dir'.join name) = .ok content') : content = content' := by
  obtain ⟨loc, hloc, hfile⟩ := read_eq_ok_iff.1 hread
  obtain ⟨loc', hloc', hfile'⟩ := read_eq_ok_iff.1 hread'
  obtain ⟨-, hcourse⟩ := h.resolve_eq_ok_iff.1 hloc
  obtain ⟨-, hcourse'⟩ := h.resolve_eq_ok_iff.1 hloc'
  rw [startOf_join _ hdir hname, Path.pieces_join hdir hname] at hcourse
  rw [startOf_join _ hdir' hname, Path.pieces_join hdir' hname] at hcourse'
  have hstart : startOf fs.workingDirectory dir = startOf fs.workingDirectory dir' := by
    rw [startOf, startOf, hsame.1]
  have hpieces : Path.counting (dir.stem ++ name.pieces) =
      Path.counting (dir'.stem ++ name.pieces) := by
    rw [Path.counting_append, Path.counting_append, Path.counting_stem, Path.counting_stem, hsame.2]
  have hcounting := hcourse.counting
  rw [hstart, hpieces] at hcounting
  have hloceq := hcounting.unique hcourse'.counting
  subst hloceq
  rw [h.offers_iff] at hfile hfile'
  rw [hfile] at hfile'
  exact Entry.file.inj (Option.some.inj hfile')

theorem Plain.readDirectory_of_course (h : fs.Plain) (hadmitted : Admitted dir)
    (hcourse : fs.Course (startOf fs.workingDirectory dir) dir.pieces place)
    (hentry : fs.entry? place = some .directory) :
    fs.readDirectory dir = .ok (fs.children place) := by
  have hresolve := h.resolve_eq_ok_iff.2 ⟨hadmitted, hcourse⟩
  exact readDirectory_eq_ok_iff.2 ⟨place, hresolve, hentry, h.unclosed place, rfl⟩

theorem Reaches.course (h : fs.Reaches dir place) (hentry : fs.entry? place = some .directory) :
    fs.Course (startOf fs.workingDirectory dir) dir.pieces place := by
  rcases Path.pieces_eq_stem dir with hp | hp
  · rw [hp]
    exact h
  · rw [hp, course_append]
    refine ⟨place, h, hentry, place, ?_, rfl⟩
    rw [Leads, if_pos (.inl rfl)]

end

end FileSystem
end SnippetCatalog
