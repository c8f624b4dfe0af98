import SnippetCatalog.Proofs.Routes

/-!
What is found under a name. A path holds a content if it leads to a file with that content, and it
lacks one however it fails to. Main statement: a relative name is found below the first directory
whose join with it holds a content, and if there is none it is told where the name was looked for;
an absolute name is found where it leads, whatever the directories.
-/

namespace SnippetCatalog.FileSystem

/-- The path leads to something that can be opened, and this is all that it gives. -/
def Holds (fs : FileSystem) (p : Path) (content : Bytes) : Prop :=
  Admitted p ∧ ∃ links ≤ linkLimit, ∃ loc,
    fs.Route links (startOf fs.workingDirectory p) p.pieces loc ∧ fs.Offers loc content

def Lacks (fs : FileSystem) (p : Path) : Prop := ∀ content, ¬ fs.Holds p content

variable {fs : FileSystem} {p name : Path} {dir : Path} {dirs : List Path} {content : Bytes}

theorem holds_iff : fs.Holds p content ↔ fs.read p = .ok content := by
  rw [read_eq_ok_iff]
  constructor
  · rintro ⟨hadmitted, links, hle, loc, hroute, hfile⟩
    exact ⟨loc, resolve_eq_ok_iff.2 ⟨hadmitted, links, hle, hroute⟩, hfile⟩
  · rintro ⟨loc, hresolve, hfile⟩
    obtain ⟨hadmitted, links, hle, hroute⟩ := resolve_eq_ok_iff.1 hresolve
    exact ⟨hadmitted, links, hle, loc, hroute, hfile⟩

theorem lacks_iff : fs.Lacks p ↔ ∃ fault, fs.read p = .error fault := by
  unfold Lacks
  simp only [holds_iff]
  cases fs.read p <;> simp

instance : Decidable (fs.Holds p content) :=
  decidable_of_iff ((fs.read p).toOption = some content) <| by
    rw [holds_iff]
    cases fs.read p <;> simp [Except.toOption]

instance : Decidable (fs.Lacks p) :=
  decidable_of_iff ((fs.read p).toOption = none) <| by
    rw [lacks_iff]
    cases fs.read p <;> simp [Except.toOption]

/-! ### One directory after the other -/

theorem firstReadable_of_holds (h : fs.Holds (dir.join name) content) :
    fs.firstReadable name (dir :: dirs) = some (content, dir.join name) := by
  rw [firstReadable, holds_iff.1 h]

theorem firstReadable_of_lacks (h : fs.Lacks (dir.join name)) :
    fs.firstReadable name (dir :: dirs) = fs.firstReadable name dirs := by
  obtain ⟨fault, hread⟩ := lacks_iff.1 h
  rw [firstReadable, hread]

theorem holds_or_lacks (fs : FileSystem) (p : Path) :
    (∃ content, fs.Holds p content) ∨ fs.Lacks p := by
  rw [lacks_iff]
  simp only [holds_iff]
  cases fs.read p <;> simp

theorem firstReadable_append (dirs more : List Path) :
    fs.firstReadable name (dirs ++ more) =
      (fs.firstReadable name dirs).or (fs.firstReadable name more) := by
  induction dirs with
  | nil => rfl
  | cons dir dirs ih =>
    rw [List.cons_append]
    rcases fs.holds_or_lacks (dir.join name) with ⟨content, h⟩ | h
    · rw [firstReadable_of_holds h, firstReadable_of_holds h, Option.some_or]
    · rw [firstReadable_of_lacks h, firstReadable_of_lacks h, ih]

theorem firstReadable_eq_none_iff :
    fs.firstReadable name dirs = none ↔ ∀ dir ∈ dirs, fs.Lacks (dir.join name) := by
  induction dirs with
  | nil => simp [firstReadable]
  | cons dir dirs ih =>
    rw [List.forall_mem_cons]
    rcases fs.holds_or_lacks (dir.join name) with ⟨content, h⟩ | h
    · rw [firstReadable_of_holds h]
      exact iff_of_false (Option.some_ne_none _) fun hnone => hnone.1 content h
    · rw [firstReadable_of_lacks h, ih]
      exact (and_iff_right h).symm

theorem firstReadable_eq_some_iff {found : Bytes × Path} :
    fs.firstReadable name dirs = some found ↔ ∃ before dir behind, dirs = before ++ dir :: behind ∧
      (∀ d ∈ before, fs.Lacks (d.join name)) ∧ fs.Holds (dir.join name) found.1 ∧
      found.2 = dir.join name := by
  constructor
  · intro h
    induction dirs with
    | nil => cases h
    | cons d ds ih =>
      rcases fs.holds_or_lacks (d.join name) with ⟨content, hd⟩ | hd
      · rw [firstReadable_of_holds hd] at h
        cases h
        exact ⟨[], d, ds, rfl, List.forall_mem_nil _, hd, rfl⟩
      · rw [firstReadable_of_lacks hd] at h
        obtain ⟨before, dir, behind, rfl, hbefore, hdir, hpath⟩ := ih h
        exact ⟨d :: before, dir, behind, rfl, List.forall_mem_cons.2 ⟨hd, hbefore⟩, hdir, hpath⟩
  · rintro ⟨before, dir, behind, rfl, hbefore, hdir, hpath⟩
    rw [firstReadable_append, firstReadable_eq_none_iff.2 hbefore, Option.none_or,
      firstReadable_of_holds hdir, ← hpath]

/-! ### Names -/

def notFound (name : String) : List Path → Problem
  | [] => .noDirectories
  | [dir] => .notInDirectory name [dir]
  | dirs => .notInAnyDirectory name dirs

theorem notFound_eq_noDirectories_iff {name : String} :
    notFound name dirs = .noDirectories ↔ dirs = [] := by
  match dirs with
  | [] => exact iff_of_true rfl rfl
  | [_] => simp [notFound]
  | _ :: _ :: _ => simp [notFound]

theorem notFound_ne_unreadable (name other : String) (dirs : List Path) (fault : Fault) :
    notFound name dirs ≠ .unreadable other fault := by
  unfold notFound
  split <;> exact nofun

theorem find_of_absolute {name : String} (h : (Path.ofText name).isAbsolute = true) :
    fs.find dirs name =
      match fs.read (.ofText name) with
      | .ok content => .ok (content, .ofText name)
      | .error fault => .error (.unreadable name fault) := if_pos h

theorem find_of_relative {name : String} (h : (Path.ofText name).isAbsolute = false) :
    fs.find dirs name =
      match fs.firstReadable (.ofText name) dirs with
      | some found => .ok found
      | none => .error (notFound name dirs) := by
  unfold find
  dsimp only
  rw [h, if_neg Bool.false_ne_true]
  match dirs with
  | [] => rfl
  | [dir] => cases fs.firstReadable (.ofText name) [dir] <;> rfl
  | first :: second :: rest =>
    cases fs.firstReadable (.ofText name) (first :: second :: rest) <;> rfl

section

variable {name : String}

theorem find_eq_ok_iff {found : Bytes × Path} (h : (Path.ofText name).isAbsolute = false) :
    fs.find dirs name = .ok found ↔ fs.firstReadable (.ofText name) dirs = some found := by
  rw [find_of_relative h]
  cases fs.firstReadable (.ofText name) dirs <;> simp

theorem find_eq_error_iff {problem : Problem} (h : (Path.ofText name).isAbsolute = false) :
    fs.find dirs name = .error problem ↔
      (∀ dir ∈ dirs, fs.Lacks (dir.join (.ofText name))) ∧ problem = notFound name dirs := by
  rw [find_of_relative h, ← firstReadable_eq_none_iff]
  cases fs.firstReadable (.ofText name) dirs <;> simp [eq_comm]

theorem find_of_lacks (h : (Path.ofText name).isAbsolute = false)
    (hlacks : ∀ dir ∈ dirs, fs.Lacks (dir.join (.ofText name))) :
    fs.find dirs name = .error (notFound name dirs) :=
  (find_eq_error_iff h).2 ⟨hlacks, rfl⟩

theorem find_eq_noDirectories_iff (h : (Path.ofText name).isAbsolute = false) :
    fs.find dirs name = .error .noDirectories ↔ dirs = [] := by
  rw [find_eq_error_iff h, eq_comm, notFound_eq_noDirectories_iff]
  constructor
  · exact fun hnone => hnone.2
  · rintro rfl
    exact ⟨List.forall_mem_nil _, rfl⟩

theorem exists_find_eq_ok_iff (h : (Path.ofText name).isAbsolute = false) :
    (∃ content p, fs.find dirs name = .ok (content, p)) ↔
      ∃ dir ∈ dirs, ∃ content, fs.Holds (dir.join (.ofText name)) content := by
  constructor
  · rintro ⟨content, p, hfind⟩
    obtain ⟨before, dir, behind, rfl, -, hdir, -⟩ :=
      firstReadable_eq_some_iff.1 ((find_eq_ok_iff h).1 hfind)
    exact ⟨dir, List.mem_append_right before List.mem_cons_self, content, hdir⟩
  · rintro ⟨dir, hmem, content, hdir⟩
    cases hfind : fs.find dirs name with
    | ok found => exact ⟨found.1, found.2, rfl⟩
    | error problem =>
      obtain ⟨hlacks, -⟩ := (find_eq_error_iff h).1 hfind
      exact absurd hdir (hlacks dir hmem content)

theorem holds_of_find (h : fs.find dirs name = .ok (content, p)) : fs.Holds p content := by
  cases habsolute : (Path.ofText name).isAbsolute with
  | true =>
    rw [find_of_absolute habsolute] at h
    cases hread : fs.read (.ofText name) with
    | error fault =>
      rw [hread] at h
      cases h
    | ok content' =>
      rw [hread] at h
      cases h
      exact holds_iff.2 hread
  | false =>
    -- the path is the join with the first directory that has a content
    obtain ⟨before, dir, behind, -, -, hdir, hpath⟩ :=
      firstReadable_eq_some_iff.1 ((find_eq_ok_iff habsolute).1 h)
    change p = _ at hpath
    exact hpath ▸ hdir

end

/-- What is found, for every file system, list of directories and name. An absolute name is found
where it leads, whatever the directories, or told to be unreadable. A relative one is found below
the first directory whose join with it holds a content, however those before fail to; if there is no
such directory, it is told whether there is none at all, one or several, with the name and all of
them in order. What is found is always the whole content of its path. -/
theorem name_is_found_in_first_directory (fs : FileSystem) (dirs : List Path) (name : String) :
    let path := Path.ofText name
    (path.isAbsolute = true →
      (∀ content, fs.Holds path content → fs.find dirs name = .ok (content, path)) ∧
      ∀ fault, fs.read path = .error fault →
        fs.find dirs name = .error (.unreadable name fault)) ∧
    (path.isAbsolute = false →
      (fs.find dirs name = .error .noDirectories ↔ dirs = []) ∧
      (∀ content p, fs.find dirs name = .ok (content, p) ↔
        ∃ before dir behind, dirs = before ++ dir :: behind ∧
          (∀ d ∈ before, fs.Lacks (d.join path)) ∧ fs.Holds (dir.join path) content ∧
          p = dir.join path) ∧
      ((∃ content p, fs.find dirs name = .ok (content, p)) ↔
        ∃ dir ∈ dirs, ∃ content, fs.Holds (dir.join path) content) ∧
      (dirs.length = 1 → (∀ d ∈ dirs, fs.Lacks (d.join path)) →
        fs.find dirs name = .error (.notInDirectory name dirs)) ∧
      (2 ≤ dirs.length → (∀ d ∈ dirs, fs.Lacks (d.join path)) →
        fs.find dirs name = .error (.notInAnyDirectory name dirs)) ∧
      ∀ other fault, fs.find dirs name ≠ .error (.unreadable other fault)) ∧
    ∀ content p, fs.find dirs name = .ok (content, p) → fs.Holds p content := by
  intro path
  refine ⟨fun absolute => ⟨?_, ?_⟩, fun relative => ⟨find_eq_noDirectories_iff relative, ?_,
    exists_find_eq_ok_iff relative, ?_, ?_, ?_⟩, fun content p => holds_of_find⟩
  · intro content hholds
    rw [find_of_absolute absolute, holds_iff.1 hholds]
  · intro fault hread
    rw [find_of_absolute absolute, hread]
  · intro content p
    rw [find_eq_ok_iff relative, firstReadable_eq_some_iff]
  · intro hone hlacks
    rw [find_of_lacks relative hlacks]
    obtain ⟨dir, rfl⟩ := List.length_eq_one_iff.1 hone
    rfl
  · intro htwo hlacks
    rw [find_of_lacks relative hlacks]
    match dirs, htwo with
    | _ :: _ :: _, _ => rfl
  · intro other fault hfind
    obtain ⟨-, hproblem⟩ := (find_eq_error_iff relative).1 hfind
    exact notFound_ne_unreadable name other dirs fault hproblem.symm

/-- A file `f`, a directory `d` with a directory `n`, a directory `l` with a link `n` to nothing, a
directory `s` with a socket `n`, a directory `b` that nothing may be looked up in, a directory `c`
with a file `n` that may not be opened, a directory `g` with a link `n` to the file `f`, a directory
`h` with a file `n`, and a directory `p` with a pipe `n` that someone writes to. -/
def stumblingBlocks : FileSystem where
  workingDirectory := []
  records := [([[0x66]], .file [0x46]), ([[0x64]], .directory), ([[0x64], [0x6E]], .directory),
    ([[0x6C]], .directory), ([[0x6C], [0x6E]], .link (.ofText "gone")), ([[0x73]], .directory),
    ([[0x73], [0x6E]], .special .socket), ([[0x62]], .directory), ([[0x62], [0x6E]], .file [0x42]),
    ([[0x63]], .directory), ([[0x63], [0x6E]], .file [0x43]), ([[0x67]], .directory),
    ([[0x67], [0x6E]], .link (.ofText "../f")), ([[0x68]], .directory),
    ([[0x68], [0x6E]], .file [0x48]), ([[0x70]], .directory), ([[0x70], [0x6E]], .special .namedPipe)]
  named := by decide
  barred place _ := if place = [[0x62]] then some .denied else none
  closed place := if place = [[0x63], [0x6E]] then some .denied else none
  answer _ := .ok [0x50]

/-- Before `g` there are a missing directory, a file, a directory where the name is that of a
directory, of a dangling link, of a socket and of a closed file, a directory that may not be
searched, a path with a NUL and a name that is too long. -/
theorem name_is_found_in_stumblingBlocks :
    let before : List Path := [.ofText "m", .ofText "f", .ofText "d", .ofText "l", .ofText "s",
      .ofText "c", .ofText "b", ⟨[0]⟩, ⟨List.replicate 256 0x6D⟩]
    let name := Path.ofText "n"
    (∀ d ∈ before, stumblingBlocks.Lacks (d.join name)) ∧
    stumblingBlocks.find (before ++ [.ofText "g", .ofText "h"]) "n" =
      .ok ([0x46], .ofText "g/n") ∧
    stumblingBlocks.find before "n" = .error (.notInAnyDirectory "n" before) ∧
    stumblingBlocks.find [.ofText "d"] "n" = .error (.notInDirectory "n" [.ofText "d"]) ∧
    stumblingBlocks.find [.ofText "p"] "n" = .ok ([0x50], .ofText "p/n") ∧
    stumblingBlocks.find [] "/h/n" = .ok ([0x48], .ofText "/h/n") := by
  intro before name
  have hlacks : ∀ d ∈ before, stumblingBlocks.Lacks (d.join name) := by decide +kernel
  have hholds : stumblingBlocks.Holds (Path.join (.ofText "g") name) [0x46] := by decide +kernel
  obtain ⟨-, hall, -⟩ := name_is_found_in_first_directory stumblingBlocks
    (before ++ [.ofText "g", .ofText "h"]) "n"
  obtain ⟨-, hfound, -⟩ := hall rfl
  obtain ⟨-, hfew, -⟩ := name_is_found_in_first_directory stumblingBlocks before "n"
  obtain ⟨-, -, -, -, hseveral, -⟩ := hfew rfl
  obtain ⟨-, hdir, -⟩ := name_is_found_in_first_directory stumblingBlocks [.ofText "d"] "n"
  obtain ⟨-, -, -, hone, -⟩ := hdir rfl
  obtain ⟨-, hpipe, -⟩ := name_is_found_in_first_directory stumblingBlocks [.ofText "p"] "n"
  obtain ⟨-, hanswered, -⟩ := hpipe rfl
  have hwritten : stumblingBlocks.Holds (Path.join (.ofText "p") name) [0x50] := by decide +kernel
  obtain ⟨habsolute, -⟩ := name_is_found_in_first_directory stumblingBlocks [] "/h/n"
  refine ⟨hlacks, ?_, hseveral (by decide) hlacks, hone rfl ?_, ?_, ?_⟩
  · exact (hfound _ _).2 ⟨before, .ofText "g", [.ofText "h"], rfl, hlacks, hholds, rfl⟩
  · decide +kernel
  · exact (hanswered _ _).2 ⟨[], .ofText "p", [], rfl, List.forall_mem_nil _, hwritten, rfl⟩
  · exact (habsolute rfl).1 _ (by decide +kernel)

end SnippetCatalog.FileSystem
