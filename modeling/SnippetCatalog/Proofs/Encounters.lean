import SnippetCatalog.Listing.Run

/-!
A run taken apart into what it comes by, one thing at a time, with the ledger that each finds. Main
statements: what a run shows and notes, introductions apart, is what its steps show and note, and a
sink that takes everything gets all of it.
-/

namespace SnippetCatalog

namespace Event

def block? : Event → Option (Option Path × Snippet)
  | block root s => some (root, s)
  | _ => none

def problem? (c : Category) : Event → Option Problem
  | noted category problem => if category = c then some problem else none
  | _ => none

theorem block?_eq_some_iff {event : Event} {b : Option Path × Snippet} :
    event.block? = some b ↔ event = .block b.1 b.2 := by
  cases event with
  | block root s =>
    constructor
    · intro h
      cases h
      rfl
    · intro h
      cases h
      rfl
  | _ => simp [block?]

theorem problems_filterMap_note? (events : List Event) (c : Category) :
    (Journal.mk (events.filterMap note?)).problems c = events.filterMap (problem? c) := by
  rw [Journal.problems]
  induction events with
  | nil => rfl
  | cons e es ih =>
    cases e with
    | noted category problem =>
      by_cases hc : category = c <;> simp_all [note?, problem?]
    | _ => exact ih

end Event

inductive Encounter where
  | entry (root : Path) (visit : Visit)
  /-- A path that was named and leads to no directory. -/
  | named (name : String) (path : Path)
  | nowhere (name : String) (fault : Fault)
  | badRoot (root : Path) (fault : Fault)

def Stop.encounters : Stop → List Encounter
  | .nowhere name fault => [.nowhere name fault]
  | .file name path => [.named name path]
  | .absent => []
  | .badRoot root fault => [.badRoot root fault]
  | .tree root visits => visits.map (.entry root)

theorem Stop.mem_encounters_atRoot {fs : FileSystem} {s : Selection} {root : Path} {e : Encounter}
    (h : e ∈ (atRoot fs s root).encounters) : (∃ fault, e = .badRoot root fault) ∨
      ∃ entries v, fs.readDirectory root = .ok entries ∧ v ∈ Visit.below fs root s entries ∧
        e = .entry root v := by
  unfold atRoot at h
  split at h
  · cases h
  · exact .inl ⟨_, List.mem_singleton.1 h⟩
  · next entries hread =>
    obtain ⟨v, hv, rfl⟩ := List.mem_map.1 h
    exact .inr ⟨entries, v, hread, hv, rfl⟩

structure Step where
  ledger : Ledger
  encounter : Encounter

namespace Ledger

def meet (ledger : Ledger) (fs : FileSystem) : Encounter → Ledger × List Event
  | .entry root visit => ledger.visit fs root visit
  | .named name path => ledger.enterNamed fs name path
  | .nowhere name fault => ledger.stop fs (.nowhere name fault)
  | .badRoot root fault => ledger.stop fs (.badRoot root fault)

def after (fs : FileSystem) : Ledger → List Encounter → Ledger
  | ledger, [] => ledger
  | ledger, e :: es => after fs (ledger.meet fs e).1 es

def steps (fs : FileSystem) : Ledger → List Encounter → List Step
  | _, [] => []
  | ledger, e :: es => ⟨ledger, e⟩ :: steps fs (ledger.meet fs e).1 es

variable {fs : FileSystem}

theorem steps_append (ledger : Ledger) (es es' : List Encounter) :
    steps fs ledger (es ++ es') = steps fs ledger es ++ steps fs (after fs ledger es) es' := by
  induction es generalizing ledger with
  | nil => rfl
  | cons e es ih => exact congrArg (_ :: ·) (ih _)

theorem after_append (ledger : Ledger) (es es' : List Encounter) :
    after fs ledger (es ++ es') = after fs (after fs ledger es) es' := by
  induction es generalizing ledger with
  | nil => rfl
  | cons e es ih => exact ih _

theorem map_encounter_steps (ledger : Ledger) (es : List Encounter) :
    (steps fs ledger es).map (·.encounter) = es := by
  induction es generalizing ledger with
  | nil => rfl
  | cons e es ih => exact congrArg (e :: ·) (ih _)

theorem ledger_of_steps_eq {ledger : Ledger} {es : List Encounter} {past future : List Step}
    {step : Step} (h : steps fs ledger es = past ++ step :: future) :
    step.ledger = after fs ledger (past.map (·.encounter)) := by
  induction past generalizing ledger es with
  | nil =>
    cases es with
    | nil => cases h
    | cons e es => exact congrArg Step.ledger (List.cons.inj h).1.symm
  | cons s past ih =>
    cases es with
    | nil => cases h
    | cons e es =>
      obtain ⟨hs, ht⟩ := List.cons.inj h
      rw [ih ht, ← hs]
      rfl

end Ledger

namespace Step

def outcome (fs : FileSystem) (s : Step) : Ledger × List Event := s.ledger.meet fs s.encounter

def events (fs : FileSystem) (s : Step) : List Event := (s.outcome fs).2

end Step

namespace Ledger

variable {fs : FileSystem}

def eventsOf (fs : FileSystem) (ledger : Ledger) (es : List Encounter) : List Event :=
  (steps fs ledger es).flatMap (Step.events fs)

theorem eventsOf_append (ledger : Ledger) (es es' : List Encounter) :
    eventsOf fs ledger (es ++ es') = eventsOf fs ledger es ++ eventsOf fs (after fs ledger es) es' := by
  unfold eventsOf
  rw [steps_append, List.flatMap_append]

theorem eventsOf_singleton (ledger : Ledger) (e : Encounter) :
    eventsOf fs ledger [e] = (ledger.meet fs e).2 := List.flatMap_singleton _ _

end Ledger

namespace Ledger

variable {fs : FileSystem} {α : Type} {pick : Event → Option α}

theorem filterMap_introduce (hpick : ∀ root, pick (.intro root) = none) (root : Path)
    (events : List Event) : (introduce root events).filterMap pick = events.filterMap pick := by
  fun_induction introduce root events with
  | case1 => rfl
  | case2 => rw [List.filterMap_cons_none (hpick root)]
  | case3 event events _ ih => rw [List.filterMap_cons, List.filterMap_cons, ih]

theorem visitAll_eq (ledger : Ledger) (root : Path) (visits : List Visit) :
    ledger.visitAll fs root visits = (after fs ledger (visits.map (.entry root)),
      eventsOf fs ledger (visits.map (.entry root))) := by
  induction visits generalizing ledger with
  | nil => rfl
  | cons v vs ih =>
    rw [visitAll]
    dsimp only
    rw [ih]
    rfl

theorem stop_fst (ledger : Ledger) (stop : Stop) :
    (ledger.stop fs stop).1 = after fs ledger stop.encounters := by
  cases stop with
  | tree root visits =>
    show (ledger.visitAll fs root visits).1 = _
    rw [visitAll_eq]
    rfl
  | _ => rfl

theorem filterMap_stop (hpick : ∀ root, pick (.intro root) = none) (ledger : Ledger)
    (stop : Stop) : (ledger.stop fs stop).2.filterMap pick =
      (steps fs ledger stop.encounters).flatMap fun s => (s.events fs).filterMap pick := by
  cases stop with
  | tree root visits =>
    show (introduce root (ledger.visitAll fs root visits).2).filterMap pick = _
    rw [filterMap_introduce hpick, visitAll_eq, eventsOf, List.filterMap_flatMap]
    rfl
  | absent => rfl
  | _ => exact (List.append_nil _).symm

theorem stopAll_append (ledger : Ledger) (stops later : List Stop) :
    ledger.stopAll fs (stops ++ later) = (((ledger.stopAll fs stops).1.stopAll fs later).1,
      (ledger.stopAll fs stops).2 ++ ((ledger.stopAll fs stops).1.stopAll fs later).2) := by
  induction stops generalizing ledger with
  | nil => rfl
  | cons s ss ih =>
    rw [List.cons_append, stopAll, stopAll]
    dsimp only
    rw [ih, List.append_assoc]

theorem stopAll_singleton (ledger : Ledger) (s : Stop) :
    ledger.stopAll fs [s] = ledger.stop fs s := by
  rw [stopAll]
  dsimp only
  rw [stopAll, List.append_nil]

theorem filterMap_stopAll (hpick : ∀ root, pick (.intro root) = none) (ledger : Ledger)
    (stops : List Stop) : (ledger.stopAll fs stops).2.filterMap pick =
      (steps fs ledger (stops.flatMap Stop.encounters)).flatMap fun s =>
        (s.events fs).filterMap pick := by
  induction stops generalizing ledger with
  | nil => rfl
  | cons s ss ih =>
    show ((ledger.stop fs s).2 ++ ((ledger.stop fs s).1.stopAll fs ss).2).filterMap pick = _
    rw [List.filterMap_append, filterMap_stop hpick, ih, stop_fst, List.flatMap_cons,
      steps_append, List.flatMap_append]

end Ledger

namespace Listing

def encounters (l : Listing) (fs : FileSystem) : List Encounter :=
  (itinerary fs l.selection l.dirs).flatMap Stop.encounters

def blocks (l : Listing) (fs : FileSystem) : List (Option Path × String × String) :=
  (l.events fs).filterMap fun event =>
    event.block?.map fun b => (b.1, b.2.name, l.view.render b.2)

def steps (l : Listing) (fs : FileSystem) : List Step := Ledger.steps fs {} (l.encounters fs)

variable {fs : FileSystem} {α : Type} {pick : Event → Option α}

/-- What a run shows and notes, introductions and missing names apart, its steps do. -/
theorem filterMap_events (hintro : ∀ root, pick (.intro root) = none)
    (hmissing : ∀ p, pick (.noted .missingExpectedSnippet p) = none) (l : Listing) :
    (l.events fs).filterMap pick = (l.steps fs).flatMap fun s => (s.events fs).filterMap pick := by
  have hlast : ∀ ledger : Ledger, ledger.missing.filterMap pick = [] := by
    intro ledger
    rw [Ledger.missing, List.filterMap_map, List.filterMap_eq_nil_iff]
    exact fun _ _ => hmissing _
  show ((Ledger.stopAll {} fs (itinerary fs l.selection l.dirs)).2 ++ _).filterMap pick = _
  rw [List.filterMap_append, Ledger.filterMap_stopAll hintro]
  have hnil : (if l.selection.names = [] then
      (Ledger.stopAll {} fs (itinerary fs l.selection l.dirs)).1.missing else []).filterMap pick =
        [] := by
    split
    · exact hlast _
    · rfl
  rw [hnil, List.append_nil]
  rfl

theorem encounters_of_relative (l : Listing) (fs : FileSystem)
    (h : ∀ n ∈ l.selection.names, ¬ (Path.ofText n).isAbsolute) :
    l.encounters fs = l.dirs.flatMap fun d => (Stop.atRoot fs l.selection d).encounters := by
  have hnone : l.selection.names.filter (fun n => (Path.ofText n).isAbsolute) = [] :=
    List.filter_eq_nil_iff.2 h
  rw [encounters, itinerary, hnone, List.map_nil, List.nil_append, List.flatMap_map]

theorem encounters_everything (dirs : List Path) (view : View) (fs : FileSystem) :
    (Listing.mk dirs .everything view).encounters fs =
      dirs.flatMap fun d => (Stop.atRoot fs .everything d).encounters := by
  have hnone : ∀ n ∈ Selection.everything.names, ¬ (Path.ofText n).isAbsolute := by
    intro n hn
    cases hn
  exact encounters_of_relative ⟨dirs, .everything, view⟩ fs hnone

theorem deliver_of_complete {view : View} {sink : Sink} {events : List Event}
    (h : (deliver view sink events).complete) : deliver view sink events =
      ⟨events.flatMap fun e => Utf8.encode (e.text view), true, events.filterMap Event.note?⟩ := by
  induction events generalizing sink with
  | nil => rfl
  | cons e es ih =>
    rw [deliver] at h ⊢
    dsimp only at h ⊢
    split at h
    · next hfits =>
      rw [if_pos hfits, ih h, List.flatMap_cons, List.filterMap_cons]
      cases e.note? <;> rfl
    · cases h

theorem run_of_complete {l : Listing} {sink : Sink} (h : (l.run fs sink).complete) :
    l.run fs sink = ⟨(l.events fs).flatMap fun e => Utf8.encode (e.text l.view), true,
      (l.events fs).filterMap Event.note?⟩ :=
  deliver_of_complete h

theorem output_of_complete {l : Listing} {sink : Sink} (h : (l.run fs sink).complete) :
    (l.run fs sink).output = (l.events fs).flatMap fun e => Utf8.encode (e.text l.view) := by
  rw [run_of_complete h]

theorem problems_of_complete {l : Listing} {sink : Sink} (h : (l.run fs sink).complete)
    (c : Category) : (Journal.mk (l.run fs sink).notes).problems c =
      (l.events fs).filterMap (Event.problem? c) := by
  rw [run_of_complete h]
  exact Event.problems_filterMap_note? (l.events fs) c

theorem complete_unlimited (view : View) (events : List Event) :
    (deliver view .unlimited events).complete := by
  induction events with
  | nil => rfl
  | cons e es ih => exact ih

end Listing
end SnippetCatalog
