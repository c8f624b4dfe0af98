import SnippetCatalog.Proofs.Bystanders
import SnippetCatalog.Proofs.Shadowing

/-!
Who expects what in a run. The ledger has for each name the snippets shown so far that expect it.
Main statement: a run over everything notes a name as missing exactly if a snippet that is shown
expects it and no entry of the name could be read, and with it all snippets shown that expect it, in
the order in which they were shown.
-/

namespace SnippetCatalog

def Event.expecter? (x : String) : Event → Option String
  | .block _ s => if x ∈ s.expects then some s.name else none
  | _ => none

def expecters (events : List Event) (x : String) : List String :=
  events.filterMap (Event.expecter? x)

theorem Event.expecter?_eq_some_iff {event : Event} {x name : String} :
    event.expecter? x = some name ↔
      ∃ root? s, event = .block root? s ∧ x ∈ s.expects ∧ s.name = name := by
  cases event with
  | block root? s => simp [expecter?]
  | _ => simp [expecter?]

theorem mem_expecters_iff {events : List Event} {x name : String} : name ∈ expecters events x ↔
    ∃ root? s, .block root? s ∈ events ∧ x ∈ s.expects ∧ s.name = name := by
  rw [expecters, List.mem_filterMap]
  simp only [Event.expecter?_eq_some_iff]
  constructor
  · rintro ⟨_, he, root?, s, rfl, hx, hname⟩
    exact ⟨root?, s, he, hx, hname⟩
  · rintro ⟨root?, s, he, hx, hname⟩
    exact ⟨_, he, root?, s, rfl, hx, hname⟩

theorem expecters_append (events later : List Event) (x : String) :
    expecters (events ++ later) x = expecters events x ++ expecters later x :=
  List.filterMap_append

theorem expecters_of_no_block {events : List Event} (h : events.filterMap Event.block? = [])
    (x : String) : expecters events x = [] := by
  rw [List.filterMap_eq_nil_iff] at h
  rw [expecters, List.filterMap_eq_nil_iff]
  intro e he
  cases e with
  | block root? s => cases h _ he
  | _ => rfl

namespace Ledger

def Records (ledger : Ledger) (events : List Event) : Prop :=
  ∀ x, ledger.expecting.get? x =
    if expecters events x = [] then none else some (expecters events x)

variable {fs : FileSystem} {ledger ledger' : Ledger} {events later : List Event}

theorem get?_expecting_expect {s : Snippet} (h : s.expects.Nodup) (x : String) :
    (ledger.expect s).expecting.get? x =
      if x ∈ s.expects then some ((ledger.expecting.get? x).getD [] ++ [s.name])
      else ledger.expecting.get? x := by
  have hvalues : Draft.valuesOf (s.expects.map (·, s.name)) x =
      if x ∈ s.expects then [s.name] else [] := by
    have hcount := h.count (a := x)
    have hfilter : s.expects.filter (· = x) = if x ∈ s.expects then [x] else [] := by
      rw [List.filter_eq, hcount]
      split <;> rfl
    rw [Draft.valuesOf, List.filter_map, List.map_map]
    show (s.expects.filter (· = x)).map _ = _
    rw [hfilter]
    split <;> rfl
  have hfold := Draft.get?_foldl_insert (s.expects.map (·, s.name)) ledger.expecting x
  rw [List.foldl_map, hvalues] at hfold
  rw [expect, hfold]
  by_cases hx : x ∈ s.expects
  · simp [hx]
  · simp [hx]

theorem Records.append_silent (h : ledger.Records events)
    (hexpecting : ledger'.expecting = ledger.expecting)
    (hsilent : later.filterMap Event.block? = []) : ledger'.Records (events ++ later) := by
  intro x
  rw [hexpecting, expecters_append, expecters_of_no_block hsilent, List.append_nil]
  exact h x

theorem Records.present (h : ledger.Records events) (root? : Option Path) (name : String)
    (path : Path) (content : Bytes) :
    (ledger.present root? name path content).1.Records
      (events ++ showing root? name path content) := by
  unfold Ledger.present showing
  cases hparse : Snippet.ofContent content path name with
  | error problem => exact h.append_silent rfl rfl
  | ok s =>
    have hnodup : s.expects.Nodup := (Snippet.pairwise_expects hparse).imp Std.ne_of_lt
    intro x
    have hlast : expecters [.block root? s] x = if x ∈ s.expects then [s.name] else [] := by
      by_cases hx : x ∈ s.expects <;> simp [expecters, Event.expecter?, hx]
    dsimp only
    rw [get?_expecting_expect hnodup, h x, expecters_append, hlast]
    by_cases hx : x ∈ s.expects
    · by_cases hnone : expecters events x = [] <;> simp [hx, hnone]
    · simp [hx]

theorem expecting_compare (path : Path) (content : Bytes) :
    (ledger.compare path content).1.expecting = ledger.expecting := by
  unfold compare
  split <;> rfl

theorem filterMap_block?_compare (path : Path) (content : Bytes) :
    (ledger.compare path content).2.filterMap Event.block? = [] := by
  rw [List.filterMap_eq_nil_iff]
  intro e he
  obtain ⟨p, rfl⟩ := duplicate_of_mem_compare he
  rfl

theorem Records.enter (h : ledger.Records events) (root : Path) (name : String) (path : Path) :
    (ledger.enter fs root name path).1.Records
      (events ++ (ledger.enter fs root name path).2) := by
  cases hread : fs.read path with
  | error fault =>
    rw [enter_of_unreadable hread]
    exact h.append_silent rfl rfl
  | ok content =>
    cases heclipsing : ledger.eclipsing? root name with
    | some first =>
      rw [enter_of_eclipsed hread heclipsing]
      exact h.append_silent rfl rfl
    | none =>
      rw [enter_of_free hread heclipsing, ← List.append_assoc]
      apply Records.present
      exact h.append_silent (expecting_compare path content)
        (filterMap_block?_compare path content)

theorem Records.enterNamed (h : ledger.Records events) (name : String) (path : Path) :
    (ledger.enterNamed fs name path).1.Records
      (events ++ (ledger.enterNamed fs name path).2) := by
  unfold Ledger.enterNamed
  cases fs.read path with
  | error fault => exact h.append_silent rfl rfl
  | ok content =>
    dsimp only
    rw [present_snd]
    exact h.present none name path content

theorem Records.meet (h : ledger.Records events) (e : Encounter) :
    (ledger.meet fs e).1.Records (events ++ (ledger.meet fs e).2) := by
  cases e with
  | entry root visit =>
    cases visit with
    | snippet trail => exact h.enter root trail.name (trail.path root)
    | _ => exact h.append_silent rfl rfl
  | named name path => exact h.enterNamed name path
  | _ => exact h.append_silent rfl rfl

theorem Records.after (h : ledger.Records events) (es : List Encounter) :
    (Ledger.after fs ledger es).Records (events ++ eventsOf fs ledger es) := by
  induction es generalizing ledger events with
  | nil =>
    show ledger.Records (events ++ [])
    rw [List.append_nil]
    exact h
  | cons e es ih =>
    have hstep : (ledger.meet fs e).1.Records (events ++ (ledger.meet fs e).2) := h.meet e
    have hrest := ih hstep
    rw [List.append_assoc] at hrest
    exact hrest

theorem stopAll_fst (ledger : Ledger) (stops : List Stop) :
    (ledger.stopAll fs stops).1 = Ledger.after fs ledger (stops.flatMap Stop.encounters) := by
  induction stops generalizing ledger with
  | nil => rfl
  | cons s ss ih =>
    show ((ledger.stop fs s).1.stopAll fs ss).1 = _
    rw [ih, stop_fst, List.flatMap_cons, after_append]

end Ledger

theorem exists_entry_of_firstRoot? {fs : FileSystem} {es : List Encounter} {name : String}
    {root : Path}
    (h : firstRoot? fs es name = some root) : ∃ (t : Trail) (content : Bytes),
      .entry root (.snippet t) ∈ es ∧ t.name = name ∧ fs.read (t.path root) = .ok content := by
  obtain ⟨before, behind, heq, -⟩ := List.lookup_eq_some_iff.1 h
  have hmem : (name, root) ∈ es.filterMap (Encounter.finding? fs) := by
    rw [heq]
    exact List.mem_append_right before List.mem_cons_self
  obtain ⟨e, he, hfinding⟩ := List.mem_filterMap.1 hmem
  cases e with
  | entry dir visit =>
    cases visit with
    | snippet t =>
      unfold Encounter.finding? at hfinding
      dsimp only at hfinding
      split at hfinding
      · next content hread =>
        cases hfinding
        exact ⟨t, content, he, rfl, hread⟩
      · cases hfinding
    | _ => cases hfinding
  | _ => cases hfinding

theorem firstRoot?_eq_none_iff {fs : FileSystem} {es : List Encounter} {name : String} :
    firstRoot? fs es name = none ↔ ¬ ∃ (root : Path) (t : Trail) (content : Bytes),
      .entry root (.snippet t) ∈ es ∧ t.name = name ∧ fs.read (t.path root) = .ok content := by
  constructor
  · rintro hnone ⟨root, t, content, hmem, rfl, hread⟩
    obtain ⟨before, behind, rfl⟩ := List.append_of_mem hmem
    rw [List.append_cons, firstRoot?_append, firstRoot?_append, firstRoot?_entry hread] at hnone
    cases hbefore : firstRoot? fs before t.name <;> rw [hbefore] at hnone <;> cases hnone
  · intro hno
    cases hfirst : firstRoot? fs es name with
    | none => rfl
    | some root => exact absurd ⟨root, exists_entry_of_firstRoot? hfirst⟩ hno

namespace Listing

variable {fs : FileSystem} {l : Listing}

def ledger (l : Listing) (fs : FileSystem) : Ledger := Ledger.after fs {} (l.encounters fs)

theorem records_ledger (l : Listing) (fs : FileSystem) : (l.ledger fs).Records (l.events fs) := by
  have hempty : ({} : Ledger).Records [] := fun _ => rfl
  have hrun : (l.ledger fs).Records ([] ++ Ledger.eventsOf fs {} (l.encounters fs)) :=
    hempty.after (l.encounters fs)
  intro x
  have hsteps : expecters (l.events fs) x =
      expecters (Ledger.eventsOf fs {} (l.encounters fs)) x := by
    have hevents : (l.events fs).filterMap (Event.expecter? x) =
        (l.steps fs).flatMap fun s => (s.events fs).filterMap (Event.expecter? x) :=
      l.filterMap_events (fun _ => rfl) fun _ => rfl
    rw [expecters, hevents, expecters, Ledger.eventsOf, List.filterMap_flatMap]
    rfl
  rw [hsteps]
  exact hrun x

theorem roots_ledger_eq_none_iff (x : String) :
    (l.ledger fs).roots.get? x = none ↔ firstRoot? fs (l.encounters fs) x = none := by
  have hrel := Ledger.follows_after_encounters fs (l.encounters fs) x
  rw [ledger]
  revert hrel
  generalize (Ledger.after fs {} (l.encounters fs)).roots.get? x = known
  generalize firstRoot? fs (l.encounters fs) x = first?
  intro hrel
  cases hrel with
  | none => exact ⟨fun _ => rfl, fun _ => rfl⟩
  | some hsame => exact ⟨nofun, nofun⟩

theorem missing_of_everything (h : l.selection.names = []) {sink : Sink}
    (done : (l.run fs sink).complete) :
    (Journal.mk (l.run fs sink).notes).problems .missingExpectedSnippet =
      ((l.ledger fs).expecting.entries.filter fun e => ¬ (l.ledger fs).roots.contains e.1).map
        fun e => .missingExpected e.1 e.2 := by
  have hledger : (Ledger.stopAll {} fs (itinerary fs l.selection l.dirs)).1 = l.ledger fs :=
    Ledger.stopAll_fst {} _
  rw [problems_of_complete done]
  show ((Ledger.stopAll {} fs (itinerary fs l.selection l.dirs)).2 ++ _).filterMap _ = _
  rw [List.filterMap_append, Ledger.filterMap_missing_stopAll, List.nil_append, if_pos h, hledger,
    Ledger.missing, List.filterMap_map, ← List.filterMap_eq_map]
  rfl

theorem mem_missing_iff (h : l.selection.names = []) {sink : Sink}
    (done : (l.run fs sink).complete) {p : Problem} :
    p ∈ (Journal.mk (l.run fs sink).notes).problems .missingExpectedSnippet ↔
      ∃ x, p = .missingExpected x (expecters (l.events fs) x) ∧ expecters (l.events fs) x ≠ [] ∧
        firstRoot? fs (l.encounters fs) x = none := by
  have hentry : ∀ x expectedBy, (x, expectedBy) ∈ (l.ledger fs).expecting.entries ↔
      expecters (l.events fs) x ≠ [] ∧ expectedBy = expecters (l.events fs) x := by
    intro x expectedBy
    rw [NameMap.mem_entries_iff, l.records_ledger fs x]
    split
    · next hnone => simp [hnone]
    · next hsome => simp [hsome, eq_comm]
  have hlacks : ∀ x, ¬ (l.ledger fs).roots.contains x ↔
      firstRoot? fs (l.encounters fs) x = none := by
    intro x
    rw [← roots_ledger_eq_none_iff, NameMap.not_contains_iff]
  rw [missing_of_everything h done, List.mem_map]
  constructor
  · rintro ⟨⟨x, expectedBy⟩, hmem, rfl⟩
    obtain ⟨hmem, hnot⟩ := List.mem_filter.1 hmem
    obtain ⟨hne, rfl⟩ := (hentry x expectedBy).1 hmem
    exact ⟨x, rfl, hne, (hlacks x).1 (of_decide_eq_true hnot)⟩
  · rintro ⟨x, rfl, hne, hnone⟩
    refine ⟨(x, expecters (l.events fs) x), List.mem_filter.2 ⟨?_, ?_⟩, rfl⟩
    · exact (hentry x _).2 ⟨hne, rfl⟩
    · exact decide_eq_true ((hlacks x).2 hnone)

theorem missing_of_names (h : l.selection.names ≠ []) {sink : Sink}
    (done : (l.run fs sink).complete) :
    (Journal.mk (l.run fs sink).notes).problems .missingExpectedSnippet = [] := by
  rw [problems_of_complete done]
  show ((Ledger.stopAll {} fs (itinerary fs l.selection l.dirs)).2 ++ _).filterMap _ = _
  rw [List.filterMap_append, Ledger.filterMap_missing_stopAll, List.nil_append, if_neg h]
  rfl

theorem missing_ascending (h : l.selection.names = []) {sink : Sink}
    (done : (l.run fs sink).complete) : ∃ names : List String, names.Pairwise (· < ·) ∧
      (Journal.mk (l.run fs sink).notes).problems .missingExpectedSnippet =
        names.map fun x => .missingExpected x (expecters (l.events fs) x) := by
  have hentry : ∀ e ∈ (l.ledger fs).expecting.entries, e.2 = expecters (l.events fs) e.1 := by
    intro e he
    have hget := NameMap.mem_entries_iff.1 he
    rw [l.records_ledger fs e.1] at hget
    split at hget
    · cases hget
    · exact (Option.some.inj hget).symm
  refine ⟨((l.ledger fs).expecting.entries.filter fun e => ¬ (l.ledger fs).roots.contains e.1).map
    (·.1), List.pairwise_map.2 ((l.ledger fs).expecting.ascending.filter _), ?_⟩
  rw [missing_of_everything h done, List.map_map]
  apply List.map_congr_left
  intro e he
  rw [hentry e (List.mem_filter.1 he).1]
  rfl

end Listing

theorem expecters_ne_nil_iff {events : List Event} {x : String} : expecters events x ≠ [] ↔
    ∃ root? s, .block root? s ∈ events ∧ x ∈ s.expects := by
  constructor
  · intro hne
    obtain ⟨name, hname⟩ := List.exists_mem_of_ne_nil _ hne
    obtain ⟨root?, s, hblock, hx, -⟩ := mem_expecters_iff.1 hname
    exact ⟨root?, s, hblock, hx⟩
  · rintro ⟨root?, s, hblock, hx⟩
    exact List.ne_nil_of_mem (mem_expecters_iff.2 ⟨root?, s, hblock, hx, rfl⟩)

/-- What a run to the end notes as missing: nothing if names were given; otherwise, in ascending
order, each name once that a snippet shown expects and no entry that could be read has, with the
snippets that expect it, one for each time that one was shown. -/
theorem missing_names_are_noted (l : Listing) (fs : FileSystem) (sink : Sink)
    (done : (l.run fs sink).complete = true) :
    (l.run fs sink).output = (l.events fs).flatMap (fun e => Utf8.encode (e.text l.view)) ∧
    (l.selection.names ≠ [] →
      (Journal.mk (l.run fs sink).notes).problems .missingExpectedSnippet = []) ∧
    (l.selection.names = [] → ∃ names : List String, names.Pairwise (· < ·) ∧
      (Journal.mk (l.run fs sink).notes).problems .missingExpectedSnippet =
        names.map (fun x => .missingExpected x (expecters (l.events fs) x)) ∧
      ∀ x, x ∈ names ↔ (∃ root? s, .block root? s ∈ l.events fs ∧ x ∈ s.expects) ∧
        ¬ ∃ (root : Path) (t : Trail) (content : Bytes),
          .entry root (.snippet t) ∈ l.encounters fs ∧ t.name = x ∧
            fs.read (t.path root) = .ok content) := by
  refine ⟨by rw [Listing.run_of_complete done], fun h => Listing.missing_of_names h done, fun h => ?_⟩
  obtain ⟨names, hascending, hproblems⟩ := Listing.missing_ascending h done
  refine ⟨names, hascending, hproblems, fun x => ?_⟩
  rw [← expecters_ne_nil_iff, ← firstRoot?_eq_none_iff]
  have hiff := Listing.mem_missing_iff h done
    (p := .missingExpected x (expecters (l.events fs) x))
  rw [hproblems, List.mem_map] at hiff
  constructor
  · intro hx
    obtain ⟨y, hy, hne, hnone⟩ := hiff.1 ⟨x, hx, rfl⟩
    cases hy
    exact ⟨hne, hnone⟩
  · intro hx
    obtain ⟨y, hmem, hy⟩ := hiff.2 ⟨x, rfl, hx⟩
    cases hy
    exact hmem

/-- A directory `a` where `u` and `x` expect `z`, and `x` also `w` and `y`; and a directory `b` with
a file `w` that has no code, another `x` and a `y`. -/
def sparseRoots : FileSystem where
  workingDirectory := []
  records := [([[0x61]], .directory), ([[0x61], [0x75]], .file (Utf8.encode "//snippet:expects:z\nU\n")),
    ([[0x61], [0x78]], .file
      (Utf8.encode "//snippet:expects:y\n//snippet:expects:z\n//snippet:expects:w\nX\n")),
    ([[0x62]], .directory), ([[0x62], [0x77]], .file (Utf8.encode "//snippet:note:n\n")),
    ([[0x62], [0x78]], .file (Utf8.encode "X\n")), ([[0x62], [0x79]], .file (Utf8.encode "Y\n"))]
  named := by decide

theorem missing_names_are_noted_in_sparseRoots :
    let l := Listing.mk [.ofText "a", .ofText "b", .ofText "a/"] .everything {}
    let problems := (Journal.mk (l.run sparseRoots .unlimited).notes).problems
    (l.run sparseRoots .unlimited).complete = true ∧
    problems .badSnippet = [.empty "w" (.ofText "b/w")] ∧
    problems .eclipsedSnippet = [.eclipsed "x" (.ofText "b") (.ofText "a")] ∧
    problems .missingExpectedSnippet = [.missingExpected "z" ["u", "x", "u", "x"]] ∧
    ∀ x, x = "z" ↔ (∃ root? s, .block root? s ∈ l.events sparseRoots ∧ x ∈ s.expects) ∧
      ¬ ∃ (root : Path) (t : Trail) (content : Bytes),
        .entry root (.snippet t) ∈ l.encounters sparseRoots ∧ t.name = x ∧
          sparseRoots.read (t.path root) = .ok content := by
  intro l problems
  have done : (l.run sparseRoots .unlimited).complete = true := Listing.complete_unlimited _ _
  have hmissing : problems .missingExpectedSnippet =
      [.missingExpected "z" ["u", "x", "u", "x"]] := by decide +kernel
  obtain ⟨-, -, hnames⟩ := missing_names_are_noted l sparseRoots .unlimited done
  obtain ⟨names, -, hproblems, hiff⟩ := hnames rfl
  refine ⟨done, by decide +kernel, by decide +kernel, hmissing, fun x => ?_⟩
  rw [← hiff x]
  have hnames : names = ["z"] := by
    have hshown := hmissing.symm.trans hproblems
    cases names with
    | nil => cases hshown
    | cons y ys =>
      obtain ⟨hy, hys⟩ := List.cons.inj hshown
      cases hy
      rw [List.map_eq_nil_iff.1 hys.symm]
  rw [hnames, List.mem_singleton]

end SnippetCatalog
