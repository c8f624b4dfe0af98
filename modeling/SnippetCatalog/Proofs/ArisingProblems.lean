import SnippetCatalog.Proofs.Accounting
import SnippetCatalog.Proofs.Bystanders
import SnippetCatalog.Proofs.Delivery
import SnippetCatalog.Proofs.Duplicates
import SnippetCatalog.Proofs.Finding
import SnippetCatalog.Shelf

/-!
The problems that can arise. Reading, finding, loading, choosing and listing come to problems of
their own making: what such a problem repeats are names and paths, a fault that is told in one line
or one of the types of special entries. Main statement: that is so of every problem that arises.
-/

namespace SnippetCatalog

/-! ### Faults of the system -/

theorem error_of_bind {ε α β : Type} {first : Except ε α} {second : α → Except ε β} {e : ε}
    (h : first >>= second = .error e) :
    first = .error e ∨ ∃ a, first = .ok a ∧ second a = .error e := by
  cases first with
  | error e' =>
    have herror : Except.error e' = .error e := h
    cases herror
    exact .inl rfl
  | ok a => exact .inr ⟨a, rfl, h⟩

theorem SystemFault.inOneLine_of_error {α : Type} {reason : SystemFault} {fault : Fault}
    (h : (.error reason.fault : Except Fault α) = .error fault) : fault.InOneLine := by
  cases h
  exact reason.inOneLine

namespace FileSystem

variable {fs : FileSystem} {fault : Fault}

theorem inOneLine_of_walk {onLink : Location → Path → List Bytes → Except Fault Location}
    (honLink : ∀ place target rest, onLink place target rest = .error fault → fault.InOneLine)
    {place : Location} {pieces : List Bytes} (h : fs.walk onLink place pieces = .error fault) :
    fault.InOneLine := by
  induction pieces generalizing place with
  | nil => cases h
  | cons piece rest ih =>
    rw [walk] at h
    split at h
    · cases h
      decide
    split at h
    · exact SystemFault.inOneLine_of_error h
    split at h
    · exact ih h
    split at h
    · exact ih h
    split at h
    · cases h
      decide
    split at h
    · cases h
      decide
    · exact SystemFault.inOneLine_of_error h
    · exact honLink _ _ _ h
    · exact ih h

theorem inOneLine_of_walkLinks {links : Nat} {place : Location} {pieces : List Bytes}
    (h : fs.walkLinks links place pieces = .error fault) : fault.InOneLine := by
  induction links generalizing place pieces with
  | zero =>
    refine inOneLine_of_walk (fun _ _ _ hlink => ?_) h
    cases hlink
    decide
  | succ links ih =>
    refine inOneLine_of_walk (fun place target rest hlink => ?_) h
    split at hlink
    · cases hlink
      decide
    · exact ih hlink

theorem inOneLine_of_resolve {p : Path} (h : fs.resolve p = .error fault) : fault.InOneLine := by
  unfold resolve at h
  split at h
  · cases h
    decide
  split at h
  · cases h
    decide
  split at h
  · cases h
    decide
  · exact inOneLine_of_walkLinks h

theorem inOneLine_of_contentAt {place : Location} {entry : Entry}
    (h : fs.contentAt place entry = .error fault) : fault.InOneLine := by
  cases entry with
  | file content => cases h
  | directory | link target =>
    cases h
    decide
  | untold reason => exact SystemFault.inOneLine_of_error h
  | special kind =>
    rw [contentAt] at h
    split at h
    · cases hanswer : fs.answer place with
      | ok content =>
        rw [hanswer] at h
        cases h
      | error reason =>
        rw [hanswer] at h
        exact SystemFault.inOneLine_of_error h
    · cases h
      decide

theorem inOneLine_of_read {p : Path} (h : fs.read p = .error fault) : fault.InOneLine := by
  rcases error_of_bind h with hresolve | ⟨place, -, hplace⟩
  · exact inOneLine_of_resolve hresolve
  · split at hplace
    · exact SystemFault.inOneLine_of_error hplace
    · exact inOneLine_of_contentAt hplace
    · cases hplace
      decide

theorem inOneLine_of_readDirectory {p : Path} (h : fs.readDirectory p = .error fault) :
    fault.InOneLine := by
  rcases error_of_bind h with hresolve | ⟨place, -, hplace⟩
  · exact inOneLine_of_resolve hresolve
  · split at hplace
    · cases hplace
      decide
    split at hplace
    · exact SystemFault.inOneLine_of_error hplace
    · cases hplace

theorem inOneLine_of_isDirectory {p : Path} (h : fs.isDirectory p = .error fault) :
    fault.InOneLine := by
  rcases error_of_bind h with hresolve | ⟨place, -, hplace⟩
  · exact inOneLine_of_resolve hresolve
  · cases hplace

end FileSystem

/-! ### Where problems come from -/

namespace Problem

/-- The problem repeats no words but names, paths, those for a fault in one line and those for the
types of special entries. -/
def Plain : Problem → Prop
  | unreadable _ fault | badDirectory _ fault | badSubdirectory _ fault => fault.InOneLine
  | unexpectedType _ type => ∃ kind : Special, type = kind.describe
  | _ => True

inductive Arises : Problem → Prop
  | read {content : Bytes} {path : Path} {name : String} {p : Problem}
      (failed : Snippet.ofContent content path name = .error p) : Arises p
  | sought {fs : FileSystem} {dirs : List Path} {name : String} {p : Problem}
      (failed : fs.find dirs name = .error p) : Arises p
  | loaded {shelf : Shelf} {fs : FileSystem} {dirs : List Path} {name : String} {p : Problem}
      (failed : shelf.load fs dirs name = .error p) : Arises p
  | lookedUp {shelf : Shelf} {name : String} {p : Problem}
      (failed : shelf.get name = .error p) : Arises p
  | checked {shelf : Shelf} {p : Problem} (missing : p ∈ shelf.missing) : Arises p
  | chosen {view : View} {words : List String} {p : Problem}
      (failed : view.withWords words = .error p) : Arises p
  | listed {l : Listing} {fs : FileSystem} {sink : Sink} {c : Category} {p : Problem}
      (noted : (c, p) ∈ (l.run fs sink).notes) : Arises p

end Problem

open Problem (Plain)

section

variable {fs : FileSystem} {dirs : List Path} {name : String} {p : Problem}

theorem Snippet.plain_of_ofContent {content : Bytes} {path : Path}
    (h : Snippet.ofContent content path name = .error p) : p.Plain := by
  rw [Snippet.problem_of_ofContent h]
  exact True.intro

theorem FileSystem.plain_notFound (name : String) (dirs : List Path) :
    (notFound name dirs).Plain := by
  unfold notFound
  split <;> exact True.intro

theorem FileSystem.plain_of_find (h : fs.find dirs name = .error p) : p.Plain := by
  cases habsolute : (Path.ofText name).isAbsolute with
  | true =>
    rw [find_of_absolute habsolute] at h
    split at h
    · cases h
    · next fault hread =>
      cases h
      exact inOneLine_of_read hread
  | false =>
    rw [((find_eq_error_iff habsolute).1 h).2]
    exact plain_notFound name dirs

theorem Shelf.plain_of_load {shelf : Shelf} (h : shelf.load fs dirs name = .error p) : p.Plain := by
  unfold load at h
  split at h
  · cases h
  · rcases error_of_bind h with hfind | ⟨found, -, hread⟩
    · exact FileSystem.plain_of_find hfind
    · rcases error_of_bind hread with hcontent | ⟨s, -, hs⟩
      · exact Snippet.plain_of_ofContent hcontent
      · cases hs

theorem Shelf.plain_of_get {shelf : Shelf} (h : shelf.get name = .error p) : p.Plain := by
  unfold get at h
  split at h
  · cases h
  · cases h
    exact True.intro

theorem Shelf.plain_of_missing {shelf : Shelf} (h : p ∈ shelf.missing) : p.Plain := by
  obtain ⟨s, -, hs⟩ := List.mem_flatMap.1 h
  obtain ⟨e, -, rfl⟩ := List.mem_map.1 hs
  exact True.intro

theorem View.plain_of_withWords {view : View} {words : List String}
    (h : view.withWords words = .error p) : p.Plain := by
  induction words generalizing view with
  | nil => cases h
  | cons word words ih =>
    rw [withWords] at h
    split at h
    · exact ih h
    · next q hword =>
      unfold Part.ofWord at hword
      split at hword
      · cases hword
      · cases hword
        cases h
        exact True.intro

end

/-! ### Listings -/

section

variable {fs : FileSystem} {c : Category} {p : Problem}

theorem Fate.plain {root? : Option Path} {name : String} {path : Path}
    (h : Fate fs root? name path (.noted c p)) : p.Plain := by
  cases h with
  | unparsable => exact True.intro
  | unreadable failed => exact FileSystem.inOneLine_of_read failed
  | eclipsed => exact True.intro

theorem Item.Due.plain {item : Item} {events : List Event} (h : item.Due fs events)
    (hp : .noted c p ∈ events) : p.Plain := by
  cases h with
  | file fate | link fate | namedFile _ fate =>
    rw [← List.mem_singleton.1 hp] at fate
    exact fate.plain
  | special =>
    cases List.mem_singleton.1 hp
    exact ⟨_, rfl⟩
  | @untold _ _ reason =>
    cases List.mem_singleton.1 hp
    exact reason.inOneLine
  | closed unreadable | closedRoot unreadable _ =>
    cases List.mem_singleton.1 hp
    exact FileSystem.inOneLine_of_readDirectory unreadable
  | nowhere failed =>
    cases List.mem_singleton.1 hp
    exact FileSystem.inOneLine_of_isDirectory failed
  | unselected | walked | namedDirectory | walkedRoot | absentRoot => cases hp

theorem plain_of_mem_duplicates {before files : List (Path × Bytes)}
    (h : p ∈ duplicates before files) : p.Plain := by
  induction files generalizing before with
  | nil => cases h
  | cons file files ih =>
    rcases List.mem_append.1 h with hfirst | hrest
    · have hfile := Option.mem_toList.1 hfirst
      unfold duplicate? at hfile
      split at hfile
      · split at hfile
        · cases hfile
        · cases hfile
          exact True.intro
      · cases hfile
    · exact ih hrest

namespace Listing

variable {l : Listing}

theorem exists_due_of_mem_events {event : Event} (h : event ∈ l.events fs)
    (hdue : event.isDue = true) : ∃ item events, Item.Due fs item events ∧ event ∈ events := by
  obtain ⟨items, htour⟩ := l.exists_tour fs
  obtain ⟨accounts, hall, htold⟩ := Ledger.exists_due_told fs {} items
  have hmem : event ∈ (l.events fs).filter Event.isDue := List.mem_filter.2 ⟨h, hdue⟩
  rw [filter_isDue_events, ← htour.flatMap_encounters, htold] at hmem
  obtain ⟨events, hevents, hevent⟩ := List.mem_flatten.1 hmem
  obtain ⟨i, hi, rfl⟩ := List.mem_iff_getElem.1 hevents
  exact ⟨_, _, (List.forall₂_iff_get.1 hall).2 i (hall.length_eq ▸ hi) hi, hevent⟩

theorem mem_duplicates_of_mem_events (h : .noted .duplicateSnippet p ∈ l.events fs) :
    p ∈ duplicates [] (Ledger.taken fs {} (l.encounters fs)) := by
  rw [← Ledger.keeps_empty.noted, Ledger.eventsOf, List.filterMap_flatMap]
  have hmem : p ∈ (l.events fs).filterMap (Event.problem? .duplicateSnippet) :=
    List.mem_filterMap.2 ⟨_, h, rfl⟩
  rwa [l.filterMap_events (fun _ => rfl) fun _ => rfl] at hmem

theorem mem_missing_of_mem_events (h : .noted .missingExpectedSnippet p ∈ l.events fs) :
    ∃ ledger : Ledger, .noted .missingExpectedSnippet p ∈ ledger.missing := by
  rcases List.mem_append.1 h with hstops | hmissing
  · have hnone := List.filterMap_eq_nil_iff.1
      (Ledger.filterMap_missing_stopAll {} (itinerary fs l.selection l.dirs)) _ hstops
    cases hnone
  · split at hmissing
    · exact ⟨_, hmissing⟩
    · cases hmissing

theorem plain_of_mem_events (h : .noted c p ∈ l.events fs) : p.Plain := by
  by_cases hdue : (Event.noted c p).isDue = true
  · obtain ⟨item, events, hitem, hp⟩ := exists_due_of_mem_events h hdue
    exact hitem.plain hp
  -- duplicates and missing names are due to no one thing that the run comes to
  cases c with
  | duplicateSnippet => exact plain_of_mem_duplicates (mem_duplicates_of_mem_events h)
  | missingExpectedSnippet =>
    obtain ⟨ledger, hmissing⟩ := mem_missing_of_mem_events h
    obtain ⟨e, -, he⟩ := List.mem_map.1 hmissing
    cases he
    exact True.intro
  | _ => exact absurd rfl hdue

theorem plain_of_mem_notes {sink : Sink} (h : (c, p) ∈ (l.run fs sink).notes) : p.Plain := by
  obtain ⟨event, hevent, hnote⟩ := List.mem_filterMap.1 (notes_deliver_isPrefix.subset h)
  cases event with
  | noted category problem =>
    cases hnote
    exact plain_of_mem_events hevent
  | _ => cases hnote

end Listing

end

theorem Problem.Arises.plain {p : Problem} (h : p.Arises) : p.Plain := by
  cases h with
  | read failed => exact Snippet.plain_of_ofContent failed
  | sought failed => exact FileSystem.plain_of_find failed
  | loaded failed => exact Shelf.plain_of_load failed
  | lookedUp failed => exact Shelf.plain_of_get failed
  | checked missing => exact Shelf.plain_of_missing missing
  | chosen failed => exact View.plain_of_withWords failed
  | listed noted => exact Listing.plain_of_mem_notes noted

end SnippetCatalog
