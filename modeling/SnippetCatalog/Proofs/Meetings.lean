import SnippetCatalog.Proofs.JoinedPaths
import SnippetCatalog.Proofs.TrailNames

/-!
What a walk comes to, selected or not. A walk is told here without a bound on its depth: no
directory can be read at a path that is too long, and a trail has at least a byte of its path for
each name. Main statement: the walk below a root meets what the rules of walking say, all of it.
-/

namespace SnippetCatalog

/-- Whether an entry is taken in. Entries other than files, links and directories are, whatever
their names. -/
def Selection.takes (s : Selection) (name : String) : Entry → Bool
  | .file _ | .link _ => s.takesFile name
  | .directory => s.takesDirectory name
  | .special _ | .untold _ => true

structure Meeting where
  trail : Trail
  entry : Entry
  selected : Bool

/-- Going through the entries of the directory at a trail, and through a selected directory that can
be read before going on behind it, a walk has these meetings. -/
inductive Walks (fs : FileSystem) (root : Path) :
    Selection → Trail → List (Bytes × Entry) → List Meeting → Prop
  | nil {s : Selection} {trail : Trail} : Walks fs root s trail [] []
  | leaf {s : Selection} {trail : Trail} {name : Bytes} {entry : Entry}
      {rest : List (Bytes × Entry)} {later : List Meeting}
      (other : entry ≠ .directory) (go_on : Walks fs root s trail rest later) :
      Walks fs root s trail ((name, entry) :: rest)
        (⟨trail ++ [name], entry, s.takes (Trail.name (trail ++ [name])) entry⟩ :: later)
  | passed {s : Selection} {trail : Trail} {name : Bytes} {rest : List (Bytes × Entry)}
      {later : List Meeting} (unselected : s.takesDirectory (Trail.name (trail ++ [name])) = false)
      (go_on : Walks fs root s trail rest later) :
      Walks fs root s trail ((name, .directory) :: rest)
        (⟨trail ++ [name], .directory, false⟩ :: later)
  | closed {s : Selection} {trail : Trail} {name : Bytes} {rest : List (Bytes × Entry)}
      {later : List Meeting} {fault : Fault}
      (selected : s.takesDirectory (Trail.name (trail ++ [name])) = true)
      (unreadable : fs.readDirectory (Trail.path root (trail ++ [name])) = .error fault)
      (go_on : Walks fs root s trail rest later) :
      Walks fs root s trail ((name, .directory) :: rest)
        (⟨trail ++ [name], .directory, true⟩ :: later)
  | walked {s : Selection} {trail : Trail} {name : Bytes} {inner rest : List (Bytes × Entry)}
      {below later : List Meeting}
      (selected : s.takesDirectory (Trail.name (trail ++ [name])) = true)
      (readable : fs.readDirectory (Trail.path root (trail ++ [name])) = .ok inner)
      (go_down : Walks fs root (s.below (Trail.name (trail ++ [name]))) (trail ++ [name]) inner below)
      (go_on : Walks fs root s trail rest later) :
      Walks fs root s trail ((name, .directory) :: rest)
        (⟨trail ++ [name], .directory, true⟩ :: (below ++ later))

def Meeting.visits (fs : FileSystem) (root : Path) (m : Meeting) : List Visit :=
  if m.selected then
    match m.entry with
    | .file _ | .link _ => [.snippet m.trail]
    | .special kind => [.special m.trail kind]
    | .untold reason => [.untold m.trail reason.fault]
    | .directory =>
      match fs.readDirectory (m.trail.path root) with
      | .error fault => [.badSubdirectory m.trail fault]
      | .ok _ => []
  else []

namespace FileSystem

variable {fs : FileSystem}

theorem length_lt_of_readDirectory {p : Path} {entries : List (Bytes × Entry)}
    (h : fs.readDirectory p = .ok entries) : p.bytes.length < pathLimit := by
  obtain ⟨place, hresolve, -, -⟩ := readDirectory_eq_ok h
  apply Nat.lt_of_not_le
  intro hlong
  rw [resolve, if_pos hlong] at hresolve
  repeat' split at hresolve
  all_goals cases hresolve

theorem length_trail_lt {root : Path} {t : Trail} (ht : t.Valid) {entries : List (Bytes × Entry)}
    (h : fs.readDirectory (t.path root) = .ok entries) : t.length < pathLimit :=
  calc t.length ≤ (Path.ofText t.name).bytes.length := Trail.length_le_length_encode_name ht
    _ ≤ (t.path root).bytes.length := Path.length_le_length_join root _
    _ < pathLimit := length_lt_of_readDirectory h

end FileSystem

namespace Walks

variable {fs : FileSystem} {root : Path} {s : Selection} {trail : Trail}
  {entries : List (Bytes × Entry)} {ms : List Meeting}

theorem visits_leaf {entry : Entry} {name : Bytes} (other : entry ≠ .directory)
    (below : Selection → Trail → List (Bytes × Entry) → List Visit) :
    Visit.ofEntry fs root below s trail (name, entry) = Meeting.visits fs root
      ⟨trail ++ [name], entry, s.takes (Trail.name (trail ++ [name])) entry⟩ := by
  cases entry with
  | directory => exact absurd rfl other
  | _ => rfl

/-- The bound on the depth of a walk is never met. -/
theorem exists_of_depth {depth : Nat} (hentries : ∀ e ∈ entries, IsName e.1) (ht : trail.Valid)
    (hlength : trail.length < FileSystem.pathLimit)
    (hdepth : FileSystem.pathLimit ≤ trail.length + depth) : ∃ ms, Walks fs root s trail entries ms ∧
      Visit.ofEntries fs root depth s trail entries = ms.flatMap (Meeting.visits fs root) := by
  -- the depth counts down as the trail grows; within a directory the induction is on its entries
  induction depth generalizing s trail entries with
  | zero => exact absurd hdepth (Nat.not_le.2 hlength)
  | succ depth ih =>
    induction entries with
    | nil => exact ⟨[], .nil, rfl⟩
    | cons e rest ihrest =>
      obtain ⟨later, hlater, hvisits⟩ := ihrest fun e he => hentries e (List.mem_cons_of_mem _ he)
      obtain ⟨name, entry⟩ := e
      have hname : IsName name := hentries (name, entry) List.mem_cons_self
      have hsplit : Visit.ofEntries fs root (depth + 1) s trail ((name, entry) :: rest) =
          Visit.ofEntry fs root (Visit.ofEntries fs root depth) s trail (name, entry) ++
            later.flatMap (Meeting.visits fs root) := by
        rw [← hvisits]
        exact List.flatMap_cons
      rw [hsplit]
      by_cases other : entry = .directory
      · subst other
        by_cases selected : s.takesDirectory (Trail.name (trail ++ [name])) = true
        · cases hread : fs.readDirectory (Trail.path root (trail ++ [name])) with
          | error fault =>
            refine ⟨_, .closed selected hread hlater, ?_⟩
            simp only [Visit.ofEntry, selected, hread, Meeting.visits, List.flatMap_cons, if_true]
          | ok inner =>
            have hvalid : Trail.Valid (trail ++ [name]) :=
              ht.append fun b hb => List.mem_singleton.1 hb ▸ hname
            have hdeeper : (trail ++ [name]).length = trail.length + 1 := List.length_append
            obtain ⟨below, hbelow, hinner⟩ := ih (s := s.below (Trail.name (trail ++ [name])))
              (FileSystem.isName_of_readDirectory hread) hvalid
              (FileSystem.length_trail_lt hvalid hread) (by omega)
            refine ⟨_, .walked selected hread hbelow hlater, ?_⟩
            simp only [Visit.ofEntry, selected, hread, Meeting.visits, List.flatMap_cons, if_true,
              hinner, List.nil_append, List.flatMap_append]
        · refine ⟨_, .passed (Bool.eq_false_iff.2 selected) hlater, ?_⟩
          simp only [Visit.ofEntry, selected, Meeting.visits, List.flatMap_cons]
          rfl
      · refine ⟨_, .leaf other hlater, ?_⟩
        rw [visits_leaf other, List.flatMap_cons]

theorem exists_of_readDirectory (s : Selection) (h : fs.readDirectory root = .ok entries) :
    ∃ ms, Walks fs root s [] entries ms ∧
      Visit.below fs root s entries = ms.flatMap (Meeting.visits fs root) := by
  apply exists_of_depth (FileSystem.isName_of_readDirectory h)
  · intro b hb
    cases hb
  · decide
  · decide

theorem isTold (h : Walks fs root s trail entries ms) (told : fs.Told)
    (hentries : ∀ e ∈ entries, e.2.isTold = true) : ∀ m ∈ ms, m.entry.isTold = true := by
  induction h with
  | nil => exact List.forall_mem_nil _
  | leaf _ _ ih =>
    obtain ⟨hhead, hrest⟩ := List.forall_mem_cons.1 hentries
    exact List.forall_mem_cons.2 ⟨hhead, ih hrest⟩
  | passed _ _ ih | closed _ _ _ ih =>
    obtain ⟨-, hrest⟩ := List.forall_mem_cons.1 hentries
    exact List.forall_mem_cons.2 ⟨rfl, ih hrest⟩
  | walked _ readable _ _ ihdown ihon =>
    obtain ⟨-, hrest⟩ := List.forall_mem_cons.1 hentries
    obtain ⟨place, -, -, rfl⟩ := FileSystem.readDirectory_eq_ok readable
    exact List.forall_mem_cons.2 ⟨rfl, List.forall_mem_append.2
      ⟨ihdown fun _ => told.of_mem_children, ihon hrest⟩⟩

theorem unique {ms' : List Meeting} (h : Walks fs root s trail entries ms)
    (h' : Walks fs root s trail entries ms') : ms = ms' := by
  induction h generalizing ms' with
  | nil =>
    cases h'
    rfl
  | leaf other _ ih =>
    cases h' with
    | leaf _ go_on' => rw [ih go_on']
    | _ => exact absurd rfl other
  | passed unselected _ ih =>
    cases h' with
    | leaf other => exact absurd rfl other
    | passed _ go_on' => rw [ih go_on']
    | closed selected => simp [selected] at unselected
    | walked selected => simp [selected] at unselected
  | closed selected unreadable _ ih =>
    cases h' with
    | leaf other => exact absurd rfl other
    | passed unselected => simp [selected] at unselected
    | closed _ _ go_on' => rw [ih go_on']
    | walked _ readable => simp [unreadable] at readable
  | walked selected readable _ _ ihdown ihon =>
    cases h' with
    | leaf other => exact absurd rfl other
    | passed unselected => simp [selected] at unselected
    | closed _ unreadable => simp [readable] at unreadable
    | walked _ readable' go_down' go_on' =>
      rw [readable] at readable'
      cases readable'
      rw [ihdown go_down', ihon go_on']

end Walks
end SnippetCatalog
