import Mathlib.Data.List.Forall2
import SnippetCatalog.Proofs.Entering
import SnippetCatalog.Proofs.Meetings

/-!
The account of a run. A run comes to the absolute paths that are selected and to the roots, and in
each walk to the entries that it meets. Main statement: whatever happens on the way, each of these
is told of once, by the block or the note that is due to it, and but for duplicates and missing
names nothing else is told.
-/

namespace SnippetCatalog

inductive Item where
  /-- An entry below a root that is walked. -/
  | met (root : Path) (meeting : Meeting)
  /-- An absolute path that is selected. -/
  | named (name : String)
  | start (root : Path)

def RootTour (fs : FileSystem) (s : Selection) (root : Path) (items : List Item) : Prop :=
  match fs.readDirectory root with
  | .error _ => items = [.start root]
  | .ok entries => ∃ ms, Walks fs root s [] entries ms ∧ items = .start root :: ms.map (.met root)

def NameTour (fs : FileSystem) (name : String) (items : List Item) : Prop :=
  match fs.isDirectory (.ofText name) with
  | .ok true => ∃ below, RootTour fs .everything (.ofText name) below ∧ items = .named name :: below
  | _ => items = [.named name]

def Listing.Tour (l : Listing) (fs : FileSystem) (items : List Item) : Prop :=
  ∃ byName byRoot,
    List.Forall₂ (NameTour fs) (l.selection.names.filter fun n => (Path.ofText n).isAbsolute)
      byName ∧
    List.Forall₂ (RootTour fs l.selection) l.dirs byRoot ∧
    items = byName.flatten ++ byRoot.flatten

/-- What becomes of a file that is looked at. One that was named itself has no root and cannot be
eclipsed. -/
inductive Fate (fs : FileSystem) (root? : Option Path) (name : String) (path : Path) : Event → Prop
  | shown {content : Bytes} {s : Snippet} (read : fs.read path = .ok content)
      (parsed : Snippet.ofContent content path name = .ok s) :
      Fate fs root? name path (.block root? s)
  | unparsable {content : Bytes} (read : fs.read path = .ok content)
      (empty : Snippet.ofContent content path name = .error (.empty name path)) :
      Fate fs root? name path (.noted .badSnippet (.empty name path))
  | unreadable {fault : Fault} (failed : fs.read path = .error fault) :
      Fate fs root? name path (.noted .badSnippet (.unreadable name fault))
  | eclipsed {content : Bytes} {root first : Path} (below : root? = some root)
      (read : fs.read path = .ok content) (other : ¬ first.Same root) :
      Fate fs root? name path (.noted .eclipsedSnippet (.eclipsed name root first))

inductive Item.Due (fs : FileSystem) : Item → List Event → Prop
  | unselected {root : Path} {trail : Trail} {entry : Entry} :
      Due fs (.met root ⟨trail, entry, false⟩) []
  | file {root : Path} {trail : Trail} {content : Bytes} {e : Event}
      (fate : Fate fs (some root) trail.name (trail.path root) e) :
      Due fs (.met root ⟨trail, .file content, true⟩) [e]
  | link {root : Path} {trail : Trail} {target : Path} {e : Event}
      (fate : Fate fs (some root) trail.name (trail.path root) e) :
      Due fs (.met root ⟨trail, .link target, true⟩) [e]
  | special {root : Path} {trail : Trail} {kind : Special} :
      Due fs (.met root ⟨trail, .special kind, true⟩)
        [.noted .unexpectedFileType (.unexpectedType (trail.path root) kind.describe)]
  | untold {root : Path} {trail : Trail} {reason : SystemFault} :
      Due fs (.met root ⟨trail, .untold reason, true⟩)
        [.noted .badSnippet (.unreadable trail.name reason.fault)]
  | walked {root : Path} {trail : Trail} {entries : List (Bytes × Entry)}
      (readable : fs.readDirectory (trail.path root) = .ok entries) :
      Due fs (.met root ⟨trail, .directory, true⟩) []
  | closed {root : Path} {trail : Trail} {fault : Fault}
      (unreadable : fs.readDirectory (trail.path root) = .error fault) :
      Due fs (.met root ⟨trail, .directory, true⟩)
        [.noted .badSubdirectory (.badSubdirectory trail.name fault)]
  | nowhere {name : String} {fault : Fault}
      (failed : fs.isDirectory (.ofText name) = .error fault) :
      Due fs (.named name) [.noted .badSpecificSnippet (.unreadable name fault)]
  | namedDirectory {name : String} (directory : fs.isDirectory (.ofText name) = .ok true) :
      Due fs (.named name) []
  | namedFile {name : String} {e : Event} (other : fs.isDirectory (.ofText name) = .ok false)
      (fate : Fate fs none name (.ofText name) e) : Due fs (.named name) [e]
  | walkedRoot {root : Path} {entries : List (Bytes × Entry)}
      (readable : fs.readDirectory root = .ok entries) : Due fs (.start root) []
  | absentRoot {root : Path} (absent : fs.readDirectory root = .error .notFound) :
      Due fs (.start root) []
  | closedRoot {root : Path} {fault : Fault} (unreadable : fs.readDirectory root = .error fault)
      (other : fault ≠ .notFound) :
      Due fs (.start root) [.noted .badSnippetsDirectory (.badDirectory root fault)]

namespace Event

/-- An introduction belongs to the block behind it; a duplicate is shown as well, and a missing name
is nothing that a run comes to. -/
def isDue : Event → Bool
  | .intro _ | .noted .duplicateSnippet _ | .noted .missingExpectedSnippet _ => false
  | _ => true

def isFate : Event → Bool
  | .block _ _ | .noted .eclipsedSnippet _ | .noted .badSnippet _ => true
  | _ => false

theorem isDue_of_isFate {e : Event} (h : e.isFate = true) : e.isDue = true := by
  cases e with
  | intro root => cases h
  | block root? s => rfl
  | noted c p =>
    cases c with
    | duplicateSnippet | missingExpectedSnippet => cases h
    | _ => rfl

end Event

section

variable {fs : FileSystem} {root? : Option Path} {name : String} {path : Path} {e : Event}

theorem Fate.isFate (h : Fate fs root? name path e) : e.isFate = true := by
  cases h <;> rfl

theorem Fate.isDue (h : Fate fs root? name path e) : e.isDue = true := Event.isDue_of_isFate h.isFate

theorem exists_fate_showing {content : Bytes} (read : fs.read path = .ok content) :
    ∃ e, Fate fs root? name path e ∧ showing root? name path content = [e] := by
  unfold showing
  cases parsed : Snippet.ofContent content path name with
  | error problem =>
    have hproblem := Snippet.problem_of_ofContent parsed
    subst hproblem
    exact ⟨_, .unparsable read parsed, rfl⟩
  | ok s => exact ⟨_, .shown read parsed, rfl⟩

theorem exists_fate_account (fs : FileSystem) (known : Option Path) (root : Path) (name : String)
    (path : Path) :
    ∃ e, Fate fs (some root) name path e ∧ account fs known root name path = [e] := by
  unfold account
  cases read : fs.read path with
  | error fault => exact ⟨_, .unreadable read, rfl⟩
  | ok content =>
    dsimp only
    cases eclipsing : known.filter fun first => ¬ first.Same root with
    | some first =>
      have other : ¬ first.Same root := by simpa using (Option.filter_eq_some_iff.1 eclipsing).2
      exact ⟨_, .eclipsed rfl read other, rfl⟩
    | none => exact exists_fate_showing read

end

namespace Item

variable {fs : FileSystem}

def encounters (fs : FileSystem) : Item → List Encounter
  | .met root m => (m.visits fs root).map (.entry root)
  | .named name =>
    match fs.isDirectory (.ofText name) with
    | .error fault => [.nowhere name fault]
    | .ok true => []
    | .ok false => [.named name (.ofText name)]
  | .start root =>
    match fs.readDirectory root with
    | .ok _ => []
    | .error .notFound => []
    | .error fault => [.badRoot root fault]

end Item

namespace Ledger

variable {fs : FileSystem}

def told (fs : FileSystem) (ledger : Ledger) (es : List Encounter) : List Event :=
  (eventsOf fs ledger es).filter Event.isDue

theorem told_append (ledger : Ledger) (es es' : List Encounter) :
    told fs ledger (es ++ es') = told fs ledger es ++ told fs (after fs ledger es) es' := by
  unfold told
  rw [eventsOf_append, List.filter_append]

theorem told_singleton (ledger : Ledger) (e : Encounter) :
    told fs ledger [e] = (ledger.meet fs e).2.filter Event.isDue := by
  unfold told
  rw [eventsOf_singleton]

theorem exists_told_snippet (fs : FileSystem) (ledger : Ledger) (root : Path) (trail : Trail) :
    ∃ e, Fate fs (some root) trail.name (trail.path root) e ∧
      told fs ledger [.entry root (.snippet trail)] = [e] := by
  obtain ⟨duplicates, hduplicates, henter⟩ :=
    enter_snd ledger fs root trail.name (trail.path root)
  obtain ⟨e, hfate, haccount⟩ := exists_fate_account fs (ledger.roots.get? trail.name) root
    trail.name (trail.path root)
  -- a duplicate is noted before the file itself is told of, and is not due to it
  have hnone : duplicates.filter Event.isDue = [] := by
    rw [List.filter_eq_nil_iff]
    intro d hd
    obtain ⟨p, rfl⟩ := hduplicates d hd
    exact Bool.false_ne_true
  have hmeet : (ledger.meet fs (.entry root (.snippet trail))).2 = duplicates ++ [e] := by
    rw [← haccount]
    exact henter
  refine ⟨e, hfate, ?_⟩
  rw [told_singleton, hmeet, List.filter_append, hnone, List.nil_append, List.filter_singleton,
    hfate.isDue]
  rfl

theorem exists_told_named (fs : FileSystem) (ledger : Ledger) (name : String) (path : Path) :
    ∃ e, Fate fs none name path e ∧ told fs ledger [.named name path] = [e] := by
  have hshown : ∃ e, Fate fs none name path e ∧ (ledger.enterNamed fs name path).2 = [e] := by
    unfold enterNamed
    cases read : fs.read path with
    | error fault => exact ⟨_, .unreadable read, rfl⟩
    | ok content =>
      obtain ⟨e, hfate, hshowing⟩ : ∃ e, Fate fs none name path e ∧
          showing none name path content = [e] := exists_fate_showing read
      exact ⟨e, hfate, (present_snd none).trans hshowing⟩
  obtain ⟨e, hfate, henter⟩ := hshown
  have hmeet : (ledger.meet fs (.named name path)).2 = [e] := henter
  refine ⟨e, hfate, ?_⟩
  rw [told_singleton, hmeet, List.filter_singleton, hfate.isDue]
  rfl

theorem due_told_met (ledger : Ledger) (root : Path) (m : Meeting) :
    Item.Due fs (.met root m) (told fs ledger (Item.encounters fs (.met root m))) := by
  obtain ⟨trail, entry, selected⟩ := m
  cases selected with
  | false => exact .unselected
  | true =>
    cases entry with
    | file content =>
      obtain ⟨e, hfate, htold⟩ := exists_told_snippet fs ledger root trail
      have hdue : Item.Due fs (.met root ⟨trail, .file content, true⟩) [e] := .file hfate
      rwa [← htold] at hdue
    | link target =>
      obtain ⟨e, hfate, htold⟩ := exists_told_snippet fs ledger root trail
      have hdue : Item.Due fs (.met root ⟨trail, .link target, true⟩) [e] := .link hfate
      rwa [← htold] at hdue
    | special kind => exact .special
    | untold reason => exact .untold
    | directory =>
      cases hread : fs.readDirectory (trail.path root) with
      | error fault =>
        have hencounters : Item.encounters fs (.met root ⟨trail, .directory, true⟩) =
            [.entry root (.badSubdirectory trail fault)] := by
          simp [Item.encounters, Meeting.visits, hread]
        rw [hencounters]
        exact .closed hread
      | ok entries =>
        have hencounters : Item.encounters fs (.met root ⟨trail, .directory, true⟩) = [] := by
          simp [Item.encounters, Meeting.visits, hread]
        rw [hencounters]
        exact .walked hread

theorem due_told_named (ledger : Ledger) (name : String) :
    Item.Due fs (.named name) (told fs ledger (Item.encounters fs (.named name))) := by
  rw [Item.encounters]
  cases hdirectory : fs.isDirectory (.ofText name) with
  | error fault => exact .nowhere hdirectory
  | ok directory =>
    cases directory with
    | true => exact .namedDirectory hdirectory
    | false =>
      obtain ⟨e, hfate, htold⟩ := exists_told_named fs ledger name (.ofText name)
      have hdue : Item.Due fs (.named name) [e] := .namedFile hdirectory hfate
      rwa [← htold] at hdue

theorem due_told_start (ledger : Ledger) (root : Path) :
    Item.Due fs (.start root) (told fs ledger (Item.encounters fs (.start root))) := by
  rw [Item.encounters]
  cases hread : fs.readDirectory root with
  | ok entries => exact .walkedRoot hread
  | error fault =>
    cases fault with
    | notFound => exact .absentRoot hread
    | _ => exact .closedRoot hread nofun

theorem due_told (ledger : Ledger) (item : Item) :
    item.Due fs (told fs ledger (item.encounters fs)) := by
  cases item with
  | met root m => exact due_told_met ledger root m
  | named name => exact due_told_named ledger name
  | start root => exact due_told_start ledger root

theorem exists_due_told (fs : FileSystem) (ledger : Ledger) (items : List Item) :
    ∃ accounts, List.Forall₂ (Item.Due fs) items accounts ∧
      told fs ledger (items.flatMap (Item.encounters fs)) = accounts.flatten := by
  induction items generalizing ledger with
  | nil => exact ⟨[], .nil, rfl⟩
  | cons item items ih =>
    obtain ⟨accounts, hdue, htold⟩ := ih (after fs ledger (item.encounters fs))
    refine ⟨_, .cons (due_told ledger item) hdue, ?_⟩
    rw [List.flatMap_cons, told_append, htold, List.flatten_cons]

end Ledger

section

variable {fs : FileSystem}

theorem exists_rootTour (fs : FileSystem) (s : Selection) (root : Path) :
    ∃ items, RootTour fs s root items := by
  unfold RootTour
  cases hread : fs.readDirectory root with
  | error fault => exact ⟨_, rfl⟩
  | ok entries =>
    obtain ⟨ms, hwalks, -⟩ := Walks.exists_of_readDirectory s hread
    exact ⟨_, ms, hwalks, rfl⟩

theorem exists_nameTour (fs : FileSystem) (name : String) : ∃ items, NameTour fs name items := by
  unfold NameTour
  obtain ⟨below, hbelow⟩ := exists_rootTour fs .everything (.ofText name)
  split
  · exact ⟨_, below, hbelow, rfl⟩
  · exact ⟨_, rfl⟩

theorem flatMap_encounters_rootTour {s : Selection} {root : Path} {items : List Item}
    (h : RootTour fs s root items) :
    items.flatMap (Item.encounters fs) = (Stop.atRoot fs s root).encounters := by
  unfold RootTour at h
  unfold Stop.atRoot
  cases hread : fs.readDirectory root with
  | error fault =>
    rw [hread] at h
    rw [h, List.flatMap_singleton, Item.encounters, hread]
    cases fault <;> rfl
  | ok entries =>
    rw [hread] at h
    obtain ⟨ms, hwalks, rfl⟩ := h
    -- the rules of walking allow one list of meetings, so these are what the run goes by
    obtain ⟨ms', hwalks', hvisits⟩ := Walks.exists_of_readDirectory s hread
    have hsame : ms = ms' := hwalks.unique hwalks'
    have hstart : Item.encounters fs (.start root) = [] := by
      rw [Item.encounters, hread]
    rw [List.flatMap_cons, hstart, List.nil_append, List.flatMap_map]
    show _ = (Visit.below fs root s entries).map (Encounter.entry root)
    rw [hvisits, hsame, List.map_flatMap]
    rfl

theorem flatMap_encounters_nameTour {name : String} {items : List Item}
    (h : NameTour fs name items) :
    items.flatMap (Item.encounters fs) = (Stop.atName fs name).encounters := by
  unfold NameTour at h
  unfold Stop.atName
  cases hdirectory : fs.isDirectory (.ofText name) with
  | error fault =>
    rw [hdirectory] at h
    rw [h, List.flatMap_singleton, Item.encounters, hdirectory]
    rfl
  | ok directory =>
    rw [hdirectory] at h
    cases directory with
    | false =>
      rw [h, List.flatMap_singleton, Item.encounters, hdirectory]
      rfl
    | true =>
      obtain ⟨below, hbelow, rfl⟩ := h
      rw [List.flatMap_cons, Item.encounters, hdirectory]
      exact flatMap_encounters_rootTour hbelow

theorem flatMap_encounters_of_forall₂ {α : Type} {as : List α} {tours : List (List Item)}
    {Tour : α → List Item → Prop} (stop : α → Stop)
    (htour : ∀ a items, Tour a items → items.flatMap (Item.encounters fs) = (stop a).encounters)
    (h : List.Forall₂ Tour as tours) :
    tours.flatten.flatMap (Item.encounters fs) = (as.map stop).flatMap Stop.encounters := by
  induction h with
  | nil => rfl
  | cons ha _ ih =>
    rw [List.flatten_cons, List.flatMap_append, htour _ _ ha, ih, List.map_cons, List.flatMap_cons]

end

namespace Listing

variable {fs : FileSystem}

theorem exists_tour (l : Listing) (fs : FileSystem) : ∃ items, l.Tour fs items := by
  choose nameTour hname using exists_nameTour fs
  choose rootTour hroot using exists_rootTour fs l.selection
  refine ⟨_, (l.selection.names.filter fun n => (Path.ofText n).isAbsolute).map nameTour,
    l.dirs.map rootTour, ?_, ?_, rfl⟩
  · exact List.forall₂_map_right_iff.2 (List.forall₂_same.2 fun n _ => hname n)
  · exact List.forall₂_map_right_iff.2 (List.forall₂_same.2 fun d _ => hroot d)

theorem Tour.flatMap_encounters {l : Listing} {items : List Item} (h : l.Tour fs items) :
    items.flatMap (Item.encounters fs) = l.encounters fs := by
  obtain ⟨byName, byRoot, hname, hroot, rfl⟩ := h
  have hnames := flatMap_encounters_of_forall₂ (Stop.atName fs)
    (fun _ _ => flatMap_encounters_nameTour) hname
  have hroots := flatMap_encounters_of_forall₂ (Stop.atRoot fs l.selection)
    (fun _ _ => flatMap_encounters_rootTour) hroot
  rw [List.flatMap_append, hnames, hroots, encounters, itinerary, List.flatMap_append]

theorem filter_isDue_events (l : Listing) (fs : FileSystem) :
    (l.events fs).filter Event.isDue = Ledger.told fs {} (l.encounters fs) := by
  have hguard : List.filter Event.isDue = List.filterMap (Option.guard Event.isDue) :=
    List.filterMap_eq_filter.symm
  rw [Ledger.told, Ledger.eventsOf, List.filter_flatMap, hguard]
  exact l.filterMap_events (fun _ => rfl) fun _ => rfl

end Listing

end SnippetCatalog
