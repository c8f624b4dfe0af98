import Mathlib.Data.List.Forall2
import SnippetCatalog.Proofs.ByteOrder
import SnippetCatalog.Proofs.RunUnderWay

/-!
Where introductions stand. A run is sent to the absolute paths that are selected and then to its
directories, and what it writes falls into one segment for each of these. Main statement: the
segment of a walk that shows something is the introduction of its root and then its blocks, and
there are no other introductions.
-/

namespace SnippetCatalog

namespace Event

def isBlock (e : Event) : Bool := e.block?.isSome

def isWritten : Event → Bool
  | noted _ _ => false
  | _ => true

end Event

inductive Goal where
  | path (name : String)
  | root (dir : Path)

def Goal.place : Goal → Path
  | path name => .ofText name
  | root dir => dir

def Goal.stop (fs : FileSystem) (s : Selection) : Goal → Stop
  | path name => .atName fs name
  | root dir => .atRoot fs s dir

structure Leg where
  ledger : Ledger
  goal : Goal

namespace Ledger

def legs (fs : FileSystem) (s : Selection) : Ledger → List Goal → List Leg
  | _, [] => []
  | ledger, goal :: goals =>
    ⟨ledger, goal⟩ :: legs fs s (after fs ledger (goal.stop fs s).encounters) goals

def blocksBelow (fs : FileSystem) (s : Selection) (ledger : Ledger) (root : Path)
    (entries : List (Bytes × Entry)) : List Event :=
  (eventsOf fs ledger ((Visit.below fs root s entries).map (.entry root))).filter Event.isBlock

end Ledger

/-- What is written for a root: nothing if it cannot be read or if nothing is shown, and otherwise
its introduction and the blocks. -/
inductive RootSegment (fs : FileSystem) (s : Selection) (ledger : Ledger) (root : Path) :
    List Event → Prop
  | unread {fault : Fault} (unreadable : fs.readDirectory root = .error fault) :
      RootSegment fs s ledger root []
  | silent {entries : List (Bytes × Entry)} (readable : fs.readDirectory root = .ok entries)
      (nothing : ledger.blocksBelow fs s root entries = []) : RootSegment fs s ledger root []
  | introduced {entries : List (Bytes × Entry)} (readable : fs.readDirectory root = .ok entries)
      (something : ledger.blocksBelow fs s root entries ≠ []) :
      RootSegment fs s ledger root (.intro root :: ledger.blocksBelow fs s root entries)

/-- What is written for a goal. A path that leads to something other than a directory has no
introduction, and everything is selected below one that leads to a directory. -/
inductive Leg.Segment (fs : FileSystem) (s : Selection) : Leg → List Event → Prop
  | nowhere {ledger : Ledger} {name : String} {fault : Fault}
      (failed : fs.isDirectory (.ofText name) = .error fault) : Segment fs s ⟨ledger, .path name⟩ []
  | unshown {ledger : Ledger} {name : String} (other : fs.isDirectory (.ofText name) = .ok false)
      (nothing : ∀ content snippet, fs.read (.ofText name) = .ok content →
        Snippet.ofContent content (.ofText name) name ≠ .ok snippet) :
      Segment fs s ⟨ledger, .path name⟩ []
  | shown {ledger : Ledger} {name : String} {content : Bytes} {snippet : Snippet}
      (other : fs.isDirectory (.ofText name) = .ok false)
      (read : fs.read (.ofText name) = .ok content)
      (parsed : Snippet.ofContent content (.ofText name) name = .ok snippet) :
      Segment fs s ⟨ledger, .path name⟩ [.block none snippet]
  | directory {ledger : Ledger} {name : String} {written : List Event}
      (walked : fs.isDirectory (.ofText name) = .ok true)
      (walk : RootSegment fs .everything ledger (.ofText name) written) :
      Segment fs s ⟨ledger, .path name⟩ written
  | root {ledger : Ledger} {dir : Path} {written : List Event}
      (walk : RootSegment fs s ledger dir written) : Segment fs s ⟨ledger, .root dir⟩ written

namespace Ledger

variable {fs : FileSystem} {s : Selection} {ledger : Ledger} {root : Path}

/-! ### Encounters -/

theorem block_of_mem_telling {visit : Visit} {known : Option Path} {e : Event}
    (h : e ∈ (Encounter.entry root visit).telling fs known) (hblock : e.isBlock = true) :
    ∃ snippet, e = .block (some root) snippet := by
  cases visit with
  | snippet trail =>
    change e ∈ account fs known root trail.name (trail.path root) at h
    unfold account at h
    split at h
    · cases List.mem_singleton.1 h
      cases hblock
    · split at h
      · cases List.mem_singleton.1 h
        cases hblock
      · rcases mem_showing h with ⟨snippet, -, rfl⟩ | rfl
        · exact ⟨snippet, rfl⟩
        · cases hblock
  | untold trail fault =>
    cases List.mem_singleton.1 h
    cases hblock
  | _ => cases h

theorem mem_blocksBelow {entries : List (Bytes × Entry)} {e : Event}
    (h : e ∈ ledger.blocksBelow fs s root entries) : ∃ snippet, e = .block (some root) snippet := by
  obtain ⟨hmem, hblock⟩ := List.mem_filter.1 h
  obtain ⟨⟨found, encounter⟩, hstep, hevent⟩ := List.mem_flatMap.1 hmem
  have hencounter : encounter ∈ (Visit.below fs root s entries).map (Encounter.entry root) := by
    have hsteps : (steps fs ledger ((Visit.below fs root s entries).map _)).map (·.encounter) =
        (Visit.below fs root s entries).map (Encounter.entry root) := map_encounter_steps ledger _
    rw [← hsteps]
    exact List.mem_map_of_mem hstep
  obtain ⟨visit, -, rfl⟩ := List.mem_map.1 hencounter
  obtain ⟨asides, hasides, hmeet⟩ := meet_snd found fs (.entry root visit)
  change e ∈ (found.meet fs (.entry root visit)).2 at hevent
  rw [hmeet, List.mem_append] at hevent
  rcases hevent with hevent | hevent
  · obtain ⟨c, p, rfl, -⟩ := hasides e hevent
    cases hblock
  · exact block_of_mem_telling hevent hblock

theorem intro_notMem_meet (e : Encounter) : .intro root ∉ (ledger.meet fs e).2 := by
  obtain ⟨asides, hasides, hmeet⟩ := meet_snd ledger fs e
  rw [hmeet, List.mem_append]
  rintro (h | h)
  · obtain ⟨c, p, heq, -⟩ := hasides _ h
    cases heq
  · have hsubject : (Event.intro root).subject?.isSome := by
      rw [Event.subject?_telling h]
      exact Encounter.isSome_of_mem_telling h
    cases hsubject

theorem intro_notMem_eventsOf (es : List Encounter) : .intro root ∉ eventsOf fs ledger es := by
  intro h
  obtain ⟨step, -, hstep⟩ := List.mem_flatMap.1 h
  exact intro_notMem_meet step.encounter hstep

theorem filter_isWritten_eq {events : List Event} (h : ∀ root, .intro root ∉ events) :
    events.filter Event.isWritten = events.filter Event.isBlock := by
  apply List.filter_congr
  intro e he
  cases e with
  | intro root => exact absurd he (h root)
  | _ => rfl

theorem filter_isWritten_introduce {events : List Event} (h : ∀ r, .intro r ∉ events) :
    (introduce root events).filter Event.isWritten =
      if events.filter Event.isBlock = [] then []
      else .intro root :: events.filter Event.isBlock := by
  -- the introduction waits for the first block, and what comes before that is not written
  fun_induction introduce root events with
  | case1 => rfl
  | case2 from? snippet later =>
    have hblock : (Event.block from? snippet :: later).filter Event.isBlock =
        .block from? snippet :: later.filter Event.isBlock := rfl
    rw [hblock, if_neg (List.cons_ne_nil _ _), List.filter_cons_of_pos rfl, filter_isWritten_eq h]
    rfl
  | case3 event later hother ih =>
    have hlater := ih fun r hr => h r (List.mem_cons_of_mem event hr)
    cases event with
    | intro r => exact absurd List.mem_cons_self (h r)
    | block from? snippet => exact absurd rfl (hother from? snippet)
    | noted category problem => exact hlater

/-! ### One goal -/

theorem rootSegment_atRoot (ledger : Ledger) (root : Path) : RootSegment fs s ledger root
    ((ledger.stop fs (.atRoot fs s root)).2.filter Event.isWritten) := by
  unfold Stop.atRoot
  cases hread : fs.readDirectory root with
  | error fault => cases fault <;> exact .unread hread
  | ok entries =>
    have hwritten : (ledger.stop fs (.tree root (Visit.below fs root s entries))).2.filter
        Event.isWritten = if ledger.blocksBelow fs s root entries = [] then []
          else .intro root :: ledger.blocksBelow fs s root entries := by
      show (introduce root (ledger.visitAll fs root _).2).filter _ = _
      rw [visitAll_eq, filter_isWritten_introduce fun _ => intro_notMem_eventsOf _]
      rfl
    dsimp only
    rw [hwritten]
    by_cases hblocks : ledger.blocksBelow fs s root entries = []
    · rw [if_pos hblocks]
      exact .silent hread hblocks
    · rw [if_neg hblocks]
      exact .introduced hread hblocks

theorem segment_file {name : String} (other : fs.isDirectory (.ofText name) = .ok false) :
    Leg.Segment fs s ⟨ledger, .path name⟩
      ((ledger.enterNamed fs name (.ofText name)).2.filter Event.isWritten) := by
  unfold enterNamed
  cases hread : fs.read (.ofText name) with
  | error fault =>
    apply Leg.Segment.unshown other
    intro content snippet h
    rw [hread] at h
    cases h
  | ok content =>
    dsimp only
    rw [present_snd, showing]
    cases hparsed : Snippet.ofContent content (.ofText name) name with
    | error problem =>
      apply Leg.Segment.unshown other
      intro content' snippet h
      cases hread.symm.trans h
      rw [hparsed]
      exact nofun
    | ok snippet => exact .shown other hread hparsed

theorem segment_stop (ledger : Ledger) (goal : Goal) : Leg.Segment fs s ⟨ledger, goal⟩
    ((ledger.stop fs (goal.stop fs s)).2.filter Event.isWritten) := by
  cases goal with
  | root dir => exact .root (rootSegment_atRoot ledger dir)
  | path name =>
    show Leg.Segment fs s _ ((ledger.stop fs (Stop.atName fs name)).2.filter Event.isWritten)
    unfold Stop.atName
    cases hdirectory : fs.isDirectory (.ofText name) with
    | error fault => exact .nowhere hdirectory
    | ok directory =>
      cases directory with
      | true => exact .directory hdirectory (rootSegment_atRoot ledger _)
      | false => exact segment_file hdirectory

/-! ### All goals -/

theorem map_goal_legs (ledger : Ledger) (goals : List Goal) :
    (legs fs s ledger goals).map (·.goal) = goals := by
  induction goals generalizing ledger with
  | nil => rfl
  | cons goal goals ih => exact congrArg (goal :: ·) (ih _)

theorem exists_segments (fs : FileSystem) (s : Selection) (ledger : Ledger) (goals : List Goal) :
    ∃ segments, List.Forall₂ (Leg.Segment fs s) (legs fs s ledger goals) segments ∧
      (ledger.stopAll fs (goals.map (Goal.stop fs s))).2.filter Event.isWritten =
        segments.flatten := by
  -- a goal writes what it writes whatever ledger the goals before it have left
  induction goals generalizing ledger with
  | nil => exact ⟨[], .nil, rfl⟩
  | cons goal goals ih =>
    obtain ⟨segments, hsegments, hwritten⟩ := ih (after fs ledger (goal.stop fs s).encounters)
    refine ⟨_, .cons (segment_stop ledger goal) hsegments, ?_⟩
    rw [List.map_cons, stopAll]
    dsimp only
    rw [List.filter_append, stop_fst, hwritten, List.flatten_cons]

end Ledger

section

variable {fs : FileSystem} {s : Selection} {written : List Event} {r : Path}

theorem RootSegment.eq_of_intro_mem {ledger : Ledger} {root : Path}
    (h : RootSegment fs s ledger root written) (hr : .intro r ∈ written) :
    ∃ blocks, blocks ≠ [] ∧ written = .intro root :: blocks ∧
      ∀ e ∈ blocks, ∃ snippet, e = .block (some root) snippet := by
  cases h with
  | unread | silent => cases hr
  | introduced readable something =>
    exact ⟨_, something, rfl, fun _ => Ledger.mem_blocksBelow⟩

theorem Leg.Segment.eq_of_intro_mem {leg : Leg} (h : leg.Segment fs s written)
    (hr : .intro r ∈ written) : ∃ blocks, blocks ≠ [] ∧
      written = .intro leg.goal.place :: blocks ∧
      ∀ e ∈ blocks, ∃ snippet, e = .block (some leg.goal.place) snippet := by
  cases h with
  | nowhere | unshown => cases hr
  | shown => cases List.mem_singleton.1 hr
  | directory _ walk => exact walk.eq_of_intro_mem hr
  | root walk => exact walk.eq_of_intro_mem hr

end

namespace Listing

def goals (l : Listing) : List Goal :=
  (l.selection.names.filter fun n => (Path.ofText n).isAbsolute).map .path ++ l.dirs.map .root

def legs (l : Listing) (fs : FileSystem) : List Leg := Ledger.legs fs l.selection {} l.goals

variable {fs : FileSystem}

theorem itinerary_eq (l : Listing) (fs : FileSystem) :
    itinerary fs l.selection l.dirs = l.goals.map (Goal.stop fs l.selection) := by
  rw [goals, List.map_append, List.map_map, List.map_map]
  rfl

theorem filter_isWritten_events (l : Listing) (fs : FileSystem) :
    (l.events fs).filter Event.isWritten =
      (Ledger.stopAll {} fs (l.goals.map (Goal.stop fs l.selection))).2.filter
        Event.isWritten := by
  have hremarks : ∀ ledger : Ledger, (l.remarks ledger).filter Event.isWritten = [] := by
    intro ledger
    rw [List.filter_eq_nil_iff]
    intro event hevent
    obtain ⟨problem, rfl⟩ := l.noted_of_mem_remarks hevent
    exact Bool.false_ne_true
  show ((Ledger.stopAll {} fs (itinerary fs l.selection l.dirs)).2 ++ l.remarks _).filter _ = _
  rw [List.filter_append, hremarks, List.append_nil, itinerary_eq]

theorem flatMap_text_eq (view : View) (events : List Event) :
    events.flatMap (fun e => Utf8.encode (e.text view)) =
      (events.filter Event.isWritten).flatMap fun e => Utf8.encode (e.text view) := by
  induction events with
  | nil => rfl
  | cons e es ih =>
    cases e with
    | noted category problem => exact ih
    | _ => rw [List.filter_cons_of_pos rfl, List.flatMap_cons, List.flatMap_cons, ih]

end Listing

/-- Introductions are placed exactly. What a run to the end writes is one segment for each absolute
path that is selected, in ascending order of their bytes, and then one for each directory, in the
order given; a walk that shows something is introduced at the start of its segment, by a line that
is left out if introductions are hidden, and nothing else is. Writing as it goes, with an
introduction pending from the start of a walk on, a run comes to the same. -/
theorem introductions_start_segments (fs : FileSystem) (dirs : List Path) (names : List String)
    (view : View) (sink : Sink) (journal : Journal)
    (done : ((Listing.mk dirs (.ofList names) view).run fs sink).complete = true) :
    let l := Listing.mk dirs (.ofList names) view
    (∃ absolutes : List String, absolutes.Pairwise (fun a b => Utf8.encode a < Utf8.encode b) ∧
      (∀ n, n ∈ absolutes ↔ n ∈ names ∧ (Path.ofText n).isAbsolute = true) ∧
      (l.legs fs).map (·.goal) = absolutes.map .path ++ dirs.map .root) ∧
    (∃ segments : List (List Event),
      List.Forall₂ (Leg.Segment fs l.selection) (l.legs fs) segments ∧
      List.Forall₂ (fun leg segment => ∀ r, .intro r ∈ segment → ∃ blocks, blocks ≠ [] ∧
        segment = .intro leg.goal.place :: blocks ∧
        ∀ e ∈ blocks, ∃ snippet, e = .block (some leg.goal.place) snippet) (l.legs fs) segments ∧
      (l.events fs).filter Event.isWritten = segments.flatten ∧
      (l.run fs sink).output =
        segments.flatMap fun segment => segment.flatMap fun e => Utf8.encode (e.text view)) ∧
    (∀ root, Event.text view (.intro root) =
      if view.hideIntro = true then "" else "in: " ++ root.display ++ "\n") ∧
    (∀ root snippet, Event.text view (.block root snippet) = view.render snippet) ∧
    (l.perform fs sink journal).output = (l.run fs sink).output := by
  intro l
  obtain ⟨segments, hsegments, hwritten⟩ := Ledger.exists_segments fs l.selection {} l.goals
  rw [← l.filter_isWritten_events] at hwritten
  refine ⟨⟨l.selection.names.filter fun n => (Path.ofText n).isAbsolute, ?_, ?_, ?_⟩,
    ⟨segments, hsegments, hsegments.imp fun _ _ h _ => h.eq_of_intro_mem, hwritten, ?_⟩,
    fun _ => rfl, fun _ _ => rfl, ?_⟩
  · have hnames : l.selection.names.Pairwise (· < ·) := Ascending.pairwise_ofList names
    exact (hnames.filter _).imp Utf8.encode_lt_encode_iff.2
  · intro n
    rw [List.mem_filter]
    exact and_congr_left fun _ => Ascending.mem_ofList
  · exact Ledger.map_goal_legs {} l.goals
  · rw [Listing.run_of_complete done, Listing.flatMap_text_eq, hwritten, List.flatten_eq_flatMap,
      List.flatMap_assoc]
    rfl
  · rw [l.perform_eq]

/-- A directory `a` with a file `x`, a directory `b` with a file `e` that has no code, a file `c`
and a directory `d` with a file `y`. -/
def quietRoots : FileSystem where
  workingDirectory := []
  records := [([[0x61]], .directory), ([[0x61], [0x78]], .file [0x41, 0x0A]),
    ([[0x62]], .directory), ([[0x62], [0x65]], .file []), ([[0x63]], .file [0x43, 0x0A]),
    ([[0x64]], .directory), ([[0x64], [0x79]], .file [0x44, 0x0A])]
  named := by decide

/-- Of the paths that are named `/b` shows nothing and `/none` leads nowhere; of the directories `b`
and `a` show nothing, the one having nothing that is selected and `x` being eclipsed in the other,
`m` is missing, and `c` is no directory. -/
theorem introductions_start_segments_in_quietRoots :
    let dirs : List Path := [.ofText "b", .ofText "a", .ofText "d", .ofText "m", .ofText "c",
      .ofText "d/"]
    let l := Listing.mk dirs (.ofList ["x", "y", "/none", "/c", "/b", "/a"]) {}
    (l.run quietRoots .unlimited).complete = true ∧ (l.legs quietRoots).length = 10 ∧
    (∃ segments : List (List Event),
      List.Forall₂ (Leg.Segment quietRoots l.selection) (l.legs quietRoots) segments ∧
      (l.events quietRoots).filter Event.isWritten = segments.flatten) ∧
    (l.run quietRoots .unlimited).output =
      Utf8.encode "in: /a\n\n    x\n\n    /c\nin: d\n\n    y\nin: d/\n\n    y\n" ∧
    (l.perform quietRoots .unlimited ⟨[]⟩).output = (l.run quietRoots .unlimited).output := by
  intro dirs l
  have done : (l.run quietRoots .unlimited).complete = true := Listing.complete_unlimited _ _
  obtain ⟨-, ⟨segments, hsegments, -, hwritten, -⟩, -, -, hperform⟩ := introductions_start_segments
    quietRoots dirs ["x", "y", "/none", "/c", "/b", "/a"] {} .unlimited ⟨[]⟩ done
  exact ⟨done, by decide +kernel, ⟨segments, hsegments, hwritten⟩, by decide +kernel, hperform⟩

end SnippetCatalog
