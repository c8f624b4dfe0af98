import SnippetCatalog.Proofs.Bystanders
import SnippetCatalog.Proofs.Finding
import SnippetCatalog.Proofs.PlainWalk
import SnippetCatalog.Shelf

/-!
Loading by name and listing pick the same file: the first directory that has a readable file of the
name. Main statement: for an ordinary name and where there are no links, the first block of a
listing is what loading gives, and the blocks after it are of the same root under other spellings.
-/

namespace SnippetCatalog

/-- A block, or the note that a file has nothing to show. -/
def Event.shows : Event → Bool
  | .block _ _ => true
  | .noted .badSnippet (.empty _ _) => true
  | _ => false

/-- What directories have to show under a name that was found before in the root `known`. -/
def showings (fs : FileSystem) (name : String) : Option Path → List Path → List Event
  | _, [] => []
  | known, dir :: dirs =>
    match fs.read (dir.join (.ofText name)) with
    | .error _ => showings fs name known dirs
    | .ok content =>
      match known.filter fun first => ¬ first.Same dir with
      | some _ => showings fs name known dirs
      | none =>
        showing (some dir) name (dir.join (.ofText name)) content ++
          showings fs name (some dir) dirs

variable {fs : FileSystem} {name : String} {content : Bytes} {known : Option Path}

theorem filter_shows_showing {root : Option Path} {path : Path} :
    (showing root name path content).filter Event.shows = showing root name path content := by
  rw [List.filter_eq_self]
  intro e he
  rcases mem_showing he with ⟨s, -, rfl⟩ | rfl <;> rfl

namespace Ledger

theorem filter_shows_chronicle_append {es rest : List Encounter}
    (h : ∀ e ∈ es, ∃ root trail fault, e = .entry root (.snippet trail) ∧
      fs.read (Trail.path root trail) = .error fault) :
    (chronicle fs known (es ++ rest)).filter Event.shows =
      (chronicle fs known rest).filter Event.shows := by
  induction es with
  | nil => rfl
  | cons e es ih =>
    obtain ⟨root, trail, fault, rfl, hread⟩ := h e List.mem_cons_self
    have htelling : (Encounter.entry root (.snippet trail)).telling fs known =
        [.noted .badSnippet (.unreadable trail.name fault)] := by
      show account fs known root trail.name (trail.path root) = _
      rw [account, hread]
    have hsettle : (Encounter.entry root (.snippet trail)).settle fs known = known := by
      show claim fs known root (trail.path root) = _
      rw [claim, hread]
    rw [List.cons_append, chronicle, htelling, hsettle, List.filter_append,
      ih fun e' he' => h e' (List.mem_cons_of_mem _ he')]
    rfl

end Ledger

namespace Stop

theorem about_name_atRoot (told : fs.Told) {dir : Path} {e : Encounter}
    (h : e ∈ (atRoot fs .everything dir).encounters.filter (Encounter.about (· = name))) :
    ∃ t : Trail, e = .entry dir (.snippet t) ∧ t.name = name := by
  obtain ⟨he, habout⟩ := List.mem_filter.1 h
  rcases mem_encounters_atRoot he with ⟨fault, rfl⟩ | ⟨entries, v, hread, hv, rfl⟩
  · cases habout
  · cases v with
    | snippet t => exact ⟨t, rfl, of_decide_eq_true habout⟩
    | untold t fault => exact absurd hv (Visit.untold_notMem_below told hread t fault)
    | _ => cases habout

theorem about_readable_atRoot {dir : Path} (h : fs.Plain) (hdir : dir.bytes ≠ [])
    (hname : Ordinary name) (hread : fs.read (dir.join (.ofText name)) = .ok content) :
    ∃ t : Trail, t.name = name ∧
      (atRoot fs .everything dir).encounters.filter (Encounter.about (· = name)) =
        [.entry dir (.snippet t)] := by
  obtain ⟨entries, t, hentries, ht, hfilter⟩ := Visit.snippets_named h hdir hname hread
  refine ⟨t, ht, ?_⟩
  unfold atRoot
  rw [hentries]
  show ((Visit.below fs dir .everything entries).map _).filter _ = _
  rw [Encounter.filter_about_entries _ _ (Visit.untold_notMem_below h.told hentries), hfilter]
  rfl

end Stop

theorem filter_shows_chronicle (h : fs.Plain) (hname : Ordinary name) {dirs : List Path}
    (hdirs : ∀ d ∈ dirs, d.bytes ≠ []) :
    (Ledger.chronicle fs known (dirs.flatMap fun d =>
      (Stop.atRoot fs .everything d).encounters.filter (Encounter.about (· = name)))).filter
        Event.shows = showings fs name known dirs := by
  induction dirs generalizing known with
  | nil => rfl
  | cons d ds ih =>
    have hds : ∀ d ∈ ds, d.bytes ≠ [] := fun d' hd' => hdirs d' (List.mem_cons_of_mem d hd')
    rw [List.flatMap_cons, showings]
    cases hread : fs.read (d.join (.ofText name)) with
    | error fault =>
      rw [Ledger.filter_shows_chronicle_append, ih hds]
      intro e he
      obtain ⟨t, rfl, ht⟩ := Stop.about_name_atRoot h.told he
      refine ⟨d, t, fault, rfl, ?_⟩
      rw [Trail.path, ht, hread]
    | ok content =>
      obtain ⟨t, rfl, ht⟩ := Stop.about_readable_atRoot h (hdirs d List.mem_cons_self) hname hread
      have hread' : fs.read (t.path d) = .ok content := hread
      have htelling : (Encounter.entry d (.snippet t)).telling fs known =
          account fs known d t.name (t.path d) := rfl
      have hsettle : (Encounter.entry d (.snippet t)).settle fs known =
          claim fs known d (t.path d) := rfl
      rw [ht, List.singleton_append, Ledger.chronicle, htelling, hsettle, List.filter_append,
        ih hds, account, claim, hread']
      dsimp only
      cases known.filter fun first => ¬ first.Same d with
      | some first => rfl
      | none =>
        dsimp only
        rw [filter_shows_showing]
        rfl

/-! ### The first readable directory -/

section

variable {dir first : Path} {dirs : List Path}

theorem showings_of_error {fault : Fault} (h : fs.read (dir.join (.ofText name)) = .error fault) :
    showings fs name known (dir :: dirs) = showings fs name known dirs := by
  rw [showings, h]

theorem showings_of_free (h : fs.read (dir.join (.ofText name)) = .ok content)
    (hfree : known.filter (fun first => ¬ first.Same dir) = none) :
    showings fs name known (dir :: dirs) =
      showing (some dir) name (dir.join (.ofText name)) content ++
        showings fs name (some dir) dirs := by
  rw [showings, h]
  dsimp only
  rw [hfree]

theorem showings_of_eclipsed (h : fs.read (dir.join (.ofText name)) = .ok content)
    (heclipsed : known.filter (fun first => ¬ first.Same dir) = some first) :
    showings fs name known (dir :: dirs) = showings fs name known dirs := by
  rw [showings, h]
  dsimp only
  rw [heclipsed]

theorem showings_of_firstReadable_none (h : fs.firstReadable (.ofText name) dirs = none) :
    showings fs name known dirs = [] := by
  induction dirs with
  | nil => rfl
  | cons d ds ih =>
    unfold FileSystem.firstReadable at h
    cases hread : fs.read (d.join (.ofText name)) with
    | error fault =>
      rw [hread] at h
      rw [showings_of_error hread]
      exact ih h
    | ok content =>
      rw [hread] at h
      cases h

theorem showings_of_firstReadable_some {path : Path}
    (h : fs.firstReadable (.ofText name) dirs = some (content, path)) :
    ∃ dir later, dir ∈ dirs ∧ later ⊆ dirs ∧ path = dir.join (.ofText name) ∧
      fs.read (dir.join (.ofText name)) = .ok content ∧
      showings fs name none dirs =
        showing (some dir) name path content ++ showings fs name (some dir) later := by
  induction dirs with
  | nil => cases h
  | cons d ds ih =>
    unfold FileSystem.firstReadable at h
    cases hread : fs.read (d.join (.ofText name)) with
    | error fault =>
      rw [hread] at h
      rw [showings_of_error hread]
      obtain ⟨dir, later, hdir, hlater, hpath, hdread, hshow⟩ := ih h
      exact ⟨dir, later, List.mem_cons_of_mem d hdir,
        fun _ hx => List.mem_cons_of_mem d (hlater hx), hpath, hdread, hshow⟩
    | ok content' =>
      rw [hread] at h
      cases h
      exact ⟨d, ds, List.mem_cons_self, List.subset_cons_self d ds, rfl, hread,
        showings_of_free hread rfl⟩

theorem mem_showings (h : fs.Plain) (hname : ¬ (Path.ofText name).isAbsolute)
    (hfirst : first.bytes ≠ []) (hdirs : ∀ d ∈ dirs, d.bytes ≠ [])
    (hread : fs.read (first.join (.ofText name)) = .ok content) {root : Path}
    (hroot : root.Same first) {e : Event} (he : e ∈ showings fs name (some root) dirs) :
    ∃ dir ∈ dirs, dir.Same first ∧ e ∈ showing (some dir) name (dir.join (.ofText name)) content := by
  induction dirs generalizing root with
  | nil => cases he
  | cons d ds ih =>
    have hds : ∀ d ∈ ds, d.bytes ≠ [] := fun d' hd' => hdirs d' (List.mem_cons_of_mem d hd')
    have hlater : ∀ root' : Path, root'.Same first → e ∈ showings fs name (some root') ds →
        ∃ dir ∈ d :: ds, dir.Same first ∧
          e ∈ showing (some dir) name (dir.join (.ofText name)) content := by
      intro root' hroot' he'
      obtain ⟨dir, hdir, hsame, hshow⟩ := ih hds hroot' he'
      exact ⟨dir, List.mem_cons_of_mem d hdir, hsame, hshow⟩
    cases hd : fs.read (d.join (.ofText name)) with
    | error fault =>
      rw [showings_of_error hd] at he
      exact hlater root hroot he
    | ok content' =>
      -- the root comes again, or the directory is another one and is eclipsed
      by_cases hsame : root.Same d
      · rw [showings_of_free hd (Option.filter_some_neg (by simpa using hsame)),
          List.mem_append] at he
        have hdfirst : d.Same first := hsame.symm.trans hroot
        have hcontent : content' = content := h.content_unique hdfirst
          (hdirs d List.mem_cons_self) hfirst hname hd hread
        rcases he with he | he
        · exact ⟨d, List.mem_cons_self, hdfirst, hcontent ▸ he⟩
        · exact hlater d hdfirst he
      · rw [showings_of_eclipsed hd (Option.filter_some_pos (by simpa using hsame))] at he
        exact hlater root hroot he

end

namespace Snippet

def Same (s t : Snippet) : Prop := s.path.Same t.path ∧ s = { t with path := s.path }

theorem ofContent_other_path {path path' : Path} {s : Snippet}
    (h : ofContent content path name = .ok s) :
    ofContent content path' name = .ok { s with path := path' } := by
  unfold ofContent at h ⊢
  dsimp only at h ⊢
  split at h
  · cases h
  · next hne =>
    rw [if_neg hne]
    cases h
    rfl

end Snippet

section

variable {dirs : List Path}

theorem FileSystem.notFound_ne_empty (name : String) (dirs : List Path) (path : Path) :
    notFound name dirs ≠ .empty name path := by
  unfold notFound
  split <;> exact nofun

theorem Shelf.load_of_not_found {problem : Problem} (h : fs.find dirs name = .error problem) :
    ({} : Shelf).load fs dirs name = .error problem := by
  unfold load
  rw [h]
  rfl

theorem Shelf.load_of_found {path : Path} (h : fs.find dirs name = .ok (content, path)) :
    ({} : Shelf).load fs dirs name =
      (Snippet.ofContent content path name).map fun s => (s, ⟨NameMap.insert .empty name s⟩) := by
  unfold load
  rw [h]
  dsimp only [bind, Except.bind]
  cases Snippet.ofContent content path name <;> rfl

theorem loading_cases (h : fs.Plain) (hname : ¬ (Path.ofText name).isAbsolute)
    (hdirs : ∀ d ∈ dirs, d.bytes ≠ []) :
    (∃ problem, ({} : Shelf).load fs dirs name = .error problem ∧
      (∀ path, problem ≠ .empty name path) ∧ showings fs name none dirs = []) ∨
    (∃ path, ({} : Shelf).load fs dirs name = .error (.empty name path) ∧
      .noted .badSnippet (.empty name path) ∈ showings fs name none dirs ∧
      (showings fs name none dirs).filterMap Event.block? = []) ∨
    ∃ s shelf dir rest, ({} : Shelf).load fs dirs name = .ok (s, shelf) ∧ s.name = name ∧
      dir ∈ dirs ∧ (showings fs name none dirs).filterMap Event.block? = (some dir, s) :: rest ∧
      ∀ b ∈ rest, ∃ again : Path, ∃ s' : Snippet,
        again.Same dir ∧ s'.Same s ∧ b = (some again, s') := by
  have relative := eq_false_of_ne_true hname
  cases hfirst : fs.firstReadable (.ofText name) dirs with
  | none =>
    have hfind := FileSystem.find_of_lacks relative
      (FileSystem.firstReadable_eq_none_iff.1 hfirst)
    exact .inl ⟨_, Shelf.load_of_not_found hfind, FileSystem.notFound_ne_empty name dirs,
      showings_of_firstReadable_none hfirst⟩
  | some found =>
    obtain ⟨content, path⟩ := found
    obtain ⟨dir, later, hdir, hlater, rfl, hread, hshow⟩ := showings_of_firstReadable_some hfirst
    have hload := Shelf.load_of_found ((FileSystem.find_eq_ok_iff relative).2 hfirst)
    have hagain : ∀ e ∈ showings fs name (some dir) later, ∃ again ∈ later, again.Same dir ∧
        e ∈ showing (some again) name (again.join (.ofText name)) content :=
      fun e he => mem_showings h hname (hdirs dir hdir) (fun d hd => hdirs d (hlater hd)) hread
        (Path.Same.refl dir) he
    cases hsnippet : Snippet.ofContent content (dir.join (.ofText name)) name with
    | error problem =>
      have hproblem := Snippet.problem_of_ofContent hsnippet
      have hself : showing (some dir) name (dir.join (.ofText name)) content =
          [.noted .badSnippet (.empty name (dir.join (.ofText name)))] := by
        rw [showing, hsnippet, hproblem]
      have hrest : (showings fs name (some dir) later).filterMap Event.block? = [] := by
        rw [List.filterMap_eq_nil_iff]
        intro e he
        obtain ⟨again, -, -, hmem⟩ := hagain e he
        unfold showing at hmem
        split at hmem
        · rw [List.mem_singleton.1 hmem]
          rfl
        · next s hs =>
          rw [Snippet.ofContent_other_path hs] at hsnippet
          cases hsnippet
      refine .inr (.inl ⟨dir.join (.ofText name), ?_, ?_, ?_⟩)
      · rw [hload, hsnippet, hproblem]
        rfl
      · rw [hshow, hself]
        exact List.mem_cons_self
      · rw [hshow, hself, List.filterMap_append, hrest]
        rfl
    | ok s =>
      have hself : showing (some dir) name (dir.join (.ofText name)) content =
          [.block (some dir) s] := by
        rw [showing, hsnippet]
      obtain ⟨hsname, hspath⟩ := Snippet.name_of_ofContent hsnippet
      refine .inr (.inr ⟨s, ⟨NameMap.insert .empty name s⟩, dir, (showings fs name (some dir) later).filterMap Event.block?,
        ?_, hsname, hdir, ?_, ?_⟩)
      · rw [hload, hsnippet]
        rfl
      · rw [hshow, hself]
        rfl
      · intro b hb
        obtain ⟨e, he, hblock⟩ := List.mem_filterMap.1 hb
        obtain ⟨again, hmem, hsame, hmem'⟩ := hagain e he
        rw [showing, Snippet.ofContent_other_path hsnippet, List.mem_singleton] at hmem'
        subst hmem'
        cases hblock
        refine ⟨again, _, hsame, ⟨?_, rfl⟩, rfl⟩
        rw [hspath]
        exact hsame.join (hdirs again (hlater hmem)) (hdirs dir hdir) hname

theorem filter_shows_events (h : fs.Plain) (hname : Ordinary name) (view : View)
    (hdirs : ∀ d ∈ dirs, d.bytes ≠ []) :
    (((Listing.mk dirs .everything view).events fs).filter (Event.about (· = name))).filter
      Event.shows = showings fs name none dirs := by
  rw [Listing.filter_about_name, Listing.encounters_everything, List.filter_flatMap]
  exact filter_shows_chronicle h hname hdirs

end

end SnippetCatalog
