import SnippetCatalog.Proofs.Expectations
import SnippetCatalog.Proofs.FirstReadable
import SnippetCatalog.Proofs.ShelfGaps

/-!
The two ways to find out what is missing. A listing knows who expects a name and whether some root
has it; a shelf knows what its snippets expect and what it holds. Main statement: where there are no
links and no bad snippets, the shelf that has all listed names loaded lacks what the listing notes
as missing, for the same snippets.
-/

namespace SnippetCatalog

variable {fs : FileSystem} {dirs : List Path} {view : View} {name : String}

/-! ### Names of entries -/

theorem Trail.Plain.ordinary {t : Trail} (hne : t ≠ []) (h : t.Plain) : Ordinary t.name := by
  intro w hw
  rw [parts_name hne h.valid] at hw
  obtain ⟨b, hb, rfl⟩ := List.mem_map.1 hw
  obtain ⟨hname, hself⟩ := h b hb
  have hbytes : ∀ s : String, (Utf8.decode b).toList = s.toList → b = Utf8.encode s := by
    intro s hs
    rw [← String.toList_inj.1 hs, hself]
  exact ⟨Utf8.decode_ne_nil hname.1, fun h => hname.2.1 (hbytes "." h),
    fun h => hname.2.2.1 (hbytes ".." h)⟩

theorem Stop.ordinary_of_mem_atRoot (h : fs.Plain) {dir : Path} {t : Trail}
    (ht : .entry dir (.snippet t) ∈ (atRoot fs .everything dir).encounters) : Ordinary t.name := by
  rcases mem_encounters_atRoot ht with ⟨fault, heq⟩ | ⟨entries, v, hread, hv, heq⟩
  · cases heq
  · obtain ⟨place, -, -, rfl⟩ := FileSystem.readDirectory_eq_ok hread
    cases heq
    obtain ⟨hne, hplain⟩ := Visit.plain_of_mem_below h (Visit.mem_filterMap_snippet?.2 hv)
    exact hplain.ordinary hne

theorem Listing.entry_of_subject (h : fs.Plain) {e : Encounter}
    (he : e ∈ (Listing.mk dirs .everything view).encounters fs) (hs : e.subject? = some name) :
    Ordinary name ∧ ∃ dir ∈ dirs, ∃ t : Trail, e = .entry dir (.snippet t) ∧ t.name = name := by
  rw [encounters_everything, List.mem_flatMap] at he
  obtain ⟨dir, hdir, he⟩ := he
  have habout : e.about (· = name) = true := by simp [Encounter.about, hs]
  obtain ⟨t, rfl, rfl⟩ := Stop.about_name_atRoot h.told (List.mem_filter.2 ⟨he, habout⟩)
  exact ⟨Stop.ordinary_of_mem_atRoot h he, dir, hdir, t, rfl, rfl⟩

/-! ### One name in a listing -/

namespace Listing

def Shows (l : Listing) (fs : FileSystem) (name : String) : Prop :=
  ∃ root? s, .block root? s ∈ l.events fs ∧ s.name = name

/-- The snippet that loading gives is shown, all blocks of its name expect the same, and the name
counts as found. -/
structure ShowsLoaded (l : Listing) (fs : FileSystem) (name : String) (s : Snippet) : Prop where
  loaded : fs.snippet l.dirs name = .ok s
  shown : ∃ root?, .block root? s ∈ l.events fs ∧ s.name = name
  same_expects : ∀ root? s', .block root? s' ∈ l.events fs → s'.name = name →
    s'.expects = s.expects
  found : firstRoot? fs (l.encounters fs) name ≠ none

theorem shows_iff {l : Listing} : l.Shows fs name ↔ ∃ b ∈ l.blocks fs, b.2.1 = name := by
  unfold Shows blocks
  simp only [List.mem_filterMap, Option.map_eq_some_iff, Event.block?_eq_some_iff]
  constructor
  · rintro ⟨root?, s, he, hname⟩
    exact ⟨_, ⟨_, he, (root?, s), rfl, rfl⟩, hname⟩
  · rintro ⟨_, ⟨_, he, ⟨root?, s⟩, rfl, rfl⟩, hname⟩
    exact ⟨root?, s, he, hname⟩

end Listing

theorem FileSystem.snippet_of_load {s : Snippet} {shelf : Shelf}
    (h : ({} : Shelf).load fs dirs name = .ok (s, shelf)) : fs.snippet dirs name = .ok s := by
  have hsnippet : ({} : Shelf).load fs dirs name =
      (fs.snippet dirs name).map fun s => (s, ⟨NameMap.insert .empty name s⟩) :=
    Shelf.load_of_not_held rfl
  rw [h] at hsnippet
  cases hs : fs.snippet dirs name with
  | error p =>
    rw [hs] at hsnippet
    cases hsnippet
  | ok t =>
    rw [hs] at hsnippet
    cases hsnippet
    rfl

theorem showings_ne_nil {dir : Path} {content : Bytes} (hdir : dir ∈ dirs)
    (hread : fs.read (dir.join (.ofText name)) = .ok content) :
    showings fs name none dirs ≠ [] := by
  induction dirs with
  | nil => cases hdir
  | cons d ds ih =>
    cases hd : fs.read (d.join (.ofText name)) with
    | error fault =>
      rw [showings_of_error hd]
      rcases List.mem_cons.1 hdir with rfl | hdir
      · rw [hd] at hread
        cases hread
      · exact ih hdir
    | ok content' =>
      rw [showings_of_free hd rfl]
      unfold showing
      split
      · exact List.cons_ne_nil _ _
      · exact List.cons_ne_nil _ _

section

variable (plain : fs.Plain) (no_empty_path : ∀ d ∈ dirs, d.bytes ≠ [])

include plain no_empty_path

theorem mem_showings_iff (ordinary : Ordinary name) (view : View) {event : Event} :
    event ∈ showings fs name none dirs ↔
      event ∈ (Listing.mk dirs .everything view).events fs ∧ event.subject? = some name ∧
        event.shows := by
  rw [← filter_shows_events plain ordinary view no_empty_path, List.mem_filter, List.mem_filter]
  have habout : event.about (· = name) = true ↔ event.subject? = some name := by
    simp [Event.about, Option.any_eq_true]
  rw [habout, and_assoc]

/-- In a run without bad snippets a name is that of a snippet that is shown and loaded alike, or
nothing is shown and no entry of the name can be read. -/
theorem loaded_or_absent
    (no_bad : ∀ p, .noted .badSnippet p ∉ (Listing.mk dirs .everything view).events fs)
    (name : String) :
    (∃ s, (Listing.mk dirs .everything view).ShowsLoaded fs name s) ∨
    (¬ (Listing.mk dirs .everything view).Shows fs name ∧
      firstRoot? fs ((Listing.mk dirs .everything view).encounters fs) name = none) := by
  by_cases ordinary : Ordinary name
  · have hshowings : ∀ event, event ∈ showings fs name none dirs ↔
        event ∈ (Listing.mk dirs .everything view).events fs ∧ event.subject? = some name ∧
          event.shows :=
      fun _ => mem_showings_iff plain no_empty_path ordinary view
    have hblock : ∀ root? s,
        .block root? s ∈ (Listing.mk dirs .everything view).events fs ∧ s.name = name ↔
          (root?, s) ∈ (showings fs name none dirs).filterMap Event.block? := by
      intro root? s
      simp [List.mem_filterMap, Event.block?_eq_some_iff, hshowings, Event.subject?, Event.shows]
    rcases loading_cases plain ordinary.not_isAbsolute no_empty_path with
      ⟨problem, -, -, hnone⟩ | ⟨path, -, hmem, -⟩ |
      ⟨s, shelf, dir, rest, hload, hname, -, hsome, hrest⟩
    · refine .inr ⟨?_, ?_⟩
      · rintro ⟨root?, s, hs, hname⟩
        have hmem := (hblock root? s).1 ⟨hs, hname⟩
        rw [hnone] at hmem
        cases hmem
      · refine Option.eq_none_iff_forall_ne_some.2 fun root hroot => ?_
        obtain ⟨t, content, he, rfl, hread⟩ := exists_entry_of_firstRoot? hroot
        obtain ⟨-, dir, hdir, t', heq, -⟩ := Listing.entry_of_subject plain he rfl
        cases heq
        exact showings_ne_nil hdir hread hnone
    · exact absurd ((hshowings _).1 hmem).1 (no_bad _)
    · have hfirst : (some dir, s) ∈ (showings fs name none dirs).filterMap Event.block? := by
        rw [hsome]
        exact List.mem_cons_self
      obtain ⟨hevent, -⟩ := (hblock _ _).2 hfirst
      refine .inl ⟨s, FileSystem.snippet_of_load hload, ⟨_, hevent, hname⟩, ?_, ?_⟩
      · intro root? s' hs' hname'
        have hmem := (hblock root? s').1 ⟨hs', hname'⟩
        rw [hsome] at hmem
        rcases List.mem_cons.1 hmem with heq | hmem
        · cases heq
          rfl
        · obtain ⟨again, s'', -, hsame, heq⟩ := hrest _ hmem
          cases heq
          rw [hsame.2]
      · obtain ⟨first, hfound, -⟩ := Listing.first_root_of_block hevent
        rw [← hname, hfound]
        exact Option.some_ne_none first
  · -- an entry of a walk has an ordinary name, so there is none of this one
    refine .inr ⟨?_, ?_⟩
    · rintro ⟨root?, s, hs, rfl⟩
      obtain ⟨e, he, hsubject, -⟩ := Listing.subject?_of_mem_events hs rfl
      exact ordinary (Listing.entry_of_subject plain he hsubject).1
    · refine Option.eq_none_iff_forall_ne_some.2 fun root hroot => ?_
      obtain ⟨t, content, he, rfl, -⟩ := exists_entry_of_firstRoot? hroot
      exact ordinary (Listing.entry_of_subject plain he rfl).1

theorem mem_expecters_iff_loaded
    (no_bad : ∀ p, .noted .badSnippet p ∉ (Listing.mk dirs .everything view).events fs)
    {x e : String} : e ∈ expecters ((Listing.mk dirs .everything view).events fs) x ↔
      (Listing.mk dirs .everything view).Shows fs e ∧
        ∃ s, fs.snippet dirs e = .ok s ∧ x ∈ s.expects := by
  rw [mem_expecters_iff]
  constructor
  · rintro ⟨root?, s', hs', hx, hname⟩
    rcases loaded_or_absent plain no_empty_path no_bad e with ⟨s, hs⟩ | ⟨habsent, -⟩
    · exact ⟨⟨root?, s', hs', hname⟩, s, hs.loaded, hs.same_expects root? s' hs' hname ▸ hx⟩
    · exact absurd ⟨root?, s', hs', hname⟩ habsent
  · rintro ⟨hshows, t, ht, hx⟩
    rcases loaded_or_absent plain no_empty_path no_bad e with ⟨s, hs⟩ | ⟨habsent, -⟩
    · obtain ⟨root?, hblock, hname⟩ := hs.shown
      have heq : t = s := Except.ok.inj (ht.symm.trans hs.loaded)
      exact ⟨root?, s, hblock, heq ▸ hx, hname⟩
    · exact absurd hshows habsent

theorem firstRoot?_eq_none_iff_not_loaded
    (no_bad : ∀ p, .noted .badSnippet p ∉ (Listing.mk dirs .everything view).events fs)
    {x : String} : firstRoot? fs ((Listing.mk dirs .everything view).encounters fs) x = none ↔
      ¬ ((Listing.mk dirs .everything view).Shows fs x ∧ ∃ t, fs.snippet dirs x = .ok t) := by
  rcases loaded_or_absent plain no_empty_path no_bad x with ⟨s, hs⟩ | ⟨habsent, hnone⟩
  · obtain ⟨root?, hblock, hname⟩ := hs.shown
    exact ⟨fun h => absurd h hs.found,
      fun h => absurd ⟨⟨root?, s, hblock, hname⟩, s, hs.loaded⟩ h⟩
  · exact ⟨fun _ h => habsent h.1, fun _ => hnone⟩

theorem mem_missing_iff_expected
    (no_bad : ∀ p, .noted .badSnippet p ∉ (Listing.mk dirs .everything view).events fs)
    {names : List String}
    (all_shown : ∀ n, (Listing.mk dirs .everything view).Shows fs n ↔ n ∈ names) {x e : String} :
    .missing x e ∈ (Shelf.after {} (names.map (.load fs dirs))).missing ↔
      e ∈ expecters ((Listing.mk dirs .everything view).events fs) x ∧
        firstRoot? fs ((Listing.mk dirs .everything view).encounters fs) x = none := by
  rw [Shelf.mem_missing_iff (Shelf.sound_after _), Shelf.mem_gaps_after_loads_iff, ← all_shown,
    ← all_shown, ← and_assoc, ← mem_expecters_iff_loaded plain no_empty_path no_bad,
    ← firstRoot?_eq_none_iff_not_loaded plain no_empty_path no_bad]

end

/-- Where there are no links and a listing of everything has no bad snippet: loading the names that
it shows, in any order and however often, goes well each time, and the shelf then lacks a name for
a snippet exactly if the listing notes the name as missing with that snippet among those that expect
it. What the listing shows is what it writes, with the introductions. -/
theorem shelf_lacks_what_listing_misses (fs : FileSystem) (plain : fs.Plain) (dirs : List Path)
    (no_empty_path : ∀ d ∈ dirs, d.bytes ≠ []) (view : View) (sink : Sink)
    (done : ((Listing.mk dirs .everything view).run fs sink).complete = true)
    (no_bad : (Journal.mk ((Listing.mk dirs .everything view).run fs sink).notes).problems
      .badSnippet = [])
    (names : List String)
    (all_shown : ∀ n, n ∈ names ↔ ∃ b ∈ (Listing.mk dirs .everything view).blocks fs, b.2.1 = n) :
    let missed := (Journal.mk ((Listing.mk dirs .everything view).run fs sink).notes).problems
      .missingExpectedSnippet
    let shelf := Shelf.after {} (names.map (.load fs dirs))
    ((Listing.mk dirs .everything view).run fs sink).output =
      ((Listing.mk dirs .everything view).events fs).flatMap
        (fun e => Utf8.encode (e.text view)) ∧
    (∀ past n future, names = past ++ n :: future →
      ∃ s, ((Shelf.after {} (past.map (.load fs dirs))).answer (.load fs dirs n)).1 =
        .snippet (.ok s)) ∧
    (∀ p ∈ missed, ∃ x expectedBy, p = .missingExpected x expectedBy) ∧
    (∀ p ∈ shelf.missing, ∃ x e, p = .missing x e) ∧
    (∀ x e, .missing x e ∈ shelf.missing ↔
      ∃ expectedBy, .missingExpected x expectedBy ∈ missed ∧ e ∈ expectedBy) ∧
    (missed = [] ↔ shelf.missing = []) := by
  intro missed shelf
  have hbad : ∀ p, .noted .badSnippet p ∉ (Listing.mk dirs .everything view).events fs := by
    intro p hp
    rw [Listing.problems_of_complete done, List.filterMap_eq_nil_iff] at no_bad
    cases no_bad _ hp
  have hshows : ∀ n, (Listing.mk dirs .everything view).Shows fs n ↔ n ∈ names :=
    fun n => Listing.shows_iff.trans (all_shown n).symm
  have hmissed : ∀ p, p ∈ missed ↔ _ := fun p =>
    Listing.mem_missing_iff (l := Listing.mk dirs .everything view) rfl done
  have hpairs : ∀ x e, .missing x e ∈ shelf.missing ↔
      ∃ expectedBy, .missingExpected x expectedBy ∈ missed ∧ e ∈ expectedBy := by
    intro x e
    rw [mem_missing_iff_expected plain no_empty_path hbad hshows]
    constructor
    · rintro ⟨he, hx⟩
      exact ⟨_, (hmissed _).2 ⟨x, rfl, List.ne_nil_of_mem he, hx⟩, he⟩
    · rintro ⟨expectedBy, hmem, he⟩
      obtain ⟨x', heq, -, hx⟩ := (hmissed _).1 hmem
      cases heq
      exact ⟨he, hx⟩
  have hform : ∀ p ∈ missed, ∃ x expectedBy, p = .missingExpected x expectedBy := by
    intro p hp
    obtain ⟨x, heq, -⟩ := (hmissed p).1 hp
    exact ⟨x, _, heq⟩
  have hform' : ∀ p ∈ shelf.missing, ∃ x e, p = .missing x e := by
    intro p hp
    rw [Shelf.missing_eq (Shelf.sound_after _)] at hp
    obtain ⟨gap, -, rfl⟩ := List.mem_map.1 hp
    exact ⟨gap.2, gap.1, rfl⟩
  refine ⟨Listing.output_of_complete done, ?_, hform, hform', hpairs, ?_⟩
  · rintro past n future rfl
    have hn := (hshows n).2 (by simp)
    rcases loaded_or_absent plain no_empty_path hbad n with ⟨s, hs⟩ | ⟨habsent, -⟩
    · refine ⟨s, ?_⟩
      rw [(Shelf.agrees_after_loads past).answer_load, hs.loaded]
    · exact absurd hn habsent
  · simp only [List.eq_nil_iff_forall_not_mem]
    constructor
    · intro hnone p hp
      obtain ⟨x, e, rfl⟩ := hform' p hp
      obtain ⟨expectedBy, hmem, -⟩ := (hpairs x e).1 hp
      exact hnone _ hmem
    · intro hnone p hp
      obtain ⟨x, rfl, hne, -⟩ := (hmissed p).1 hp
      obtain ⟨e, he⟩ := List.exists_mem_of_ne_nil _ hne
      exact hnone _ ((hpairs x e).2 ⟨_, hp, he⟩)

/-- A directory `a` where `x` expects `y` and `z` and there is a `y`, and a directory `b` with
another `x`. -/
def expectingRoots : FileSystem where
  workingDirectory := []
  records := [([[0x61]], .directory),
    ([[0x61], [0x78]], .file (Utf8.encode "//snippet:expects:y\n//snippet:expects:z\nX\n")),
    ([[0x61], [0x79]], .file (Utf8.encode "Y\n")), ([[0x62]], .directory),
    ([[0x62], [0x78]], .file (Utf8.encode "//snippet:expects:w\nX\n"))]
  named := by decide

theorem shelf_lacks_what_listing_misses_in_expectingRoots :
    let dirs : List Path := [.ofText "a", .ofText "b", .ofText "a/"]
    let run := (Listing.mk dirs .everything {}).run expectingRoots .unlimited
    let missed := (Journal.mk run.notes).problems .missingExpectedSnippet
    let shelf := Shelf.after {} (["y", "x", "y"].map (.load expectingRoots dirs))
    expectingRoots.Plain ∧ (∀ d ∈ dirs, d.bytes ≠ []) ∧ run.complete = true ∧
    (Journal.mk run.notes).problems .badSnippet = [] ∧
    (∀ n, n ∈ ["y", "x", "y"] ↔
      ∃ b ∈ (Listing.mk dirs .everything {}).blocks expectingRoots, b.2.1 = n) ∧
    missed = [.missingExpected "z" ["x", "x"]] ∧ .missing "z" "x" ∈ shelf.missing ∧
    ∀ x e, .missing x e ∈ shelf.missing ↔
      ∃ expectedBy, .missingExpected x expectedBy ∈ missed ∧ e ∈ expectedBy := by
  intro dirs run missed shelf
  have hplain : expectingRoots.Plain :=
    ⟨by decide +kernel, by decide +kernel, fun _ _ => rfl, fun _ => rfl⟩
  have hdirs : ∀ d ∈ dirs, d.bytes ≠ [] := by decide +kernel
  have done : run.complete = true := Listing.complete_unlimited _ _
  have hbad : (Journal.mk run.notes).problems .badSnippet = [] := by decide +kernel
  have hblocks : ((Listing.mk dirs .everything {}).blocks expectingRoots).map (·.2.1) =
      ["x", "y", "x", "y"] := by decide +kernel
  have hshown : ∀ n, n ∈ ["y", "x", "y"] ↔
      ∃ b ∈ (Listing.mk dirs .everything {}).blocks expectingRoots, b.2.1 = n := by
    intro n
    rw [← List.mem_map, hblocks]
    simp only [List.mem_cons, List.not_mem_nil, or_false]
    tauto
  have hmissed : missed = [.missingExpected "z" ["x", "x"]] := by decide +kernel
  obtain ⟨-, -, -, -, hpairs, -⟩ := shelf_lacks_what_listing_misses expectingRoots hplain dirs hdirs {}
    .unlimited done hbad ["y", "x", "y"] hshown
  refine ⟨hplain, hdirs, done, hbad, hshown, hmissed, (hpairs "z" "x").2 ⟨["x", "x"], ?_, ?_⟩, hpairs⟩
  · show _ ∈ missed
    rw [hmissed]
    exact List.mem_singleton.2 rfl
  · exact List.mem_cons_self

end SnippetCatalog
