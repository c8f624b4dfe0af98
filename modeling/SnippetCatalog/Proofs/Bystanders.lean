import Mathlib.Data.List.Basic
import SnippetCatalog.Proofs.Entering
import SnippetCatalog.Proofs.TrailNames

/-!
A run seen through some names only. What becomes of a snippet is up to the ledger's root for its
name, and that is up to the entries of the name. Main statement: what a run shows and notes of some
names is what it would if it came by nothing else.
-/

namespace SnippetCatalog

namespace Encounter

def subject? : Encounter → Option String
  | .entry _ visit => visit.subject?.map Trail.name
  | .named name _ => some name
  | _ => none

def about (p : String → Bool) (e : Encounter) : Bool := e.subject?.any p

/-- What is told of the snippet if its name was found before in the root `known`. -/
def telling (fs : FileSystem) (known : Option Path) : Encounter → List Event
  | .entry root (.snippet trail) => account fs known root trail.name (trail.path root)
  | .entry _ (.untold trail fault) => [.noted .badSnippet (.unreadable trail.name fault)]
  | .named name path =>
    match fs.read path with
    | .error fault => [.noted .badSnippet (.unreadable name fault)]
    | .ok content => showing none name path content
  | _ => []

def settle (fs : FileSystem) (known : Option Path) : Encounter → Option Path
  | .entry root (.snippet trail) => claim fs known root (trail.path root)
  | _ => known

theorem filter_about_entries (p : String → Bool) (root : Path) {visits : List Visit}
    (told : ∀ t fault, .untold t fault ∉ visits) : (visits.map (entry root)).filter (about p) =
      ((visits.filterMap Visit.snippet?).filter fun t => p t.name).map
        fun t => .entry root (.snippet t) := by
  induction visits with
  | nil => rfl
  | cons v vs ih =>
    have ih := ih fun t fault h => told t fault (List.mem_cons_of_mem v h)
    cases v with
    | snippet trail =>
      have habout : (Encounter.entry root (.snippet trail)).about p = p trail.name := rfl
      rw [List.map_cons, List.filter_cons, habout, ih,
        List.filterMap_cons_some (show Visit.snippet? _ = some trail from rfl), List.filter_cons]
      split <;> rfl
    | untold trail fault => exact absurd List.mem_cons_self (told trail fault)
    | _ => exact ih

theorem isSome_of_mem_telling {fs : FileSystem} {known : Option Path} {e : Encounter}
    {event : Event} (h : event ∈ e.telling fs known) : e.subject?.isSome := by
  cases e with
  | entry root visit =>
    cases visit with
    | snippet trail | untold trail fault => rfl
    | _ => cases h
  | named name path => rfl
  | _ => cases h

end Encounter

namespace Event

def about (p : String → Bool) (e : Event) : Bool := e.subject?.any p

theorem subject?_telling {fs : FileSystem} {known : Option Path} {e : Encounter} {event : Event}
    (h : event ∈ e.telling fs known) : event.subject? = e.subject? := by
  cases e with
  | entry root visit =>
    cases visit with
    | snippet trail => exact subject?_account h
    | untold trail fault =>
      rw [List.mem_singleton.1 h]
      rfl
    | _ => cases h
  | named name path =>
    unfold Encounter.telling at h
    dsimp only at h
    split at h
    · rw [List.mem_singleton.1 h]
      rfl
    · exact subject?_showing h
  | _ => cases h

end Event

namespace Ledger

variable {fs : FileSystem} {ledger ledger' : Ledger} {p : String → Bool}

theorem enterNamed_snd {name : String} {path : Path} (known : Option Path) :
    (ledger.enterNamed fs name path).2 = Encounter.telling fs known (.named name path) := by
  dsimp only [enterNamed, Encounter.telling]
  cases fs.read path with
  | error fault => rfl
  | ok content => exact present_snd none

theorem meet_snd (ledger : Ledger) (fs : FileSystem) (e : Encounter) : ∃ asides,
    (∀ event ∈ asides, ∃ c p, event = .noted c p ∧
      c ≠ .eclipsedSnippet ∧ c ≠ .badSnippet ∧ c ≠ .missingExpectedSnippet) ∧
    (ledger.meet fs e).2 = asides ++ e.telling fs (e.subject?.bind ledger.roots.get?) := by
  cases e with
  | entry root visit =>
    cases visit with
    | snippet trail =>
      obtain ⟨duplicates, hdup, henter⟩ := enter_snd ledger fs root trail.name (trail.path root)
      refine ⟨duplicates, ?_, henter⟩
      intro event hevent
      obtain ⟨p, rfl⟩ := hdup event hevent
      exact ⟨_, p, rfl, by decide, by decide, by decide⟩
    | badSubdirectory trail fault =>
      refine ⟨[_], ?_, rfl⟩
      simp
    | special trail kind =>
      refine ⟨[_], ?_, rfl⟩
      simp
    | untold trail fault => exact ⟨[], by simp, rfl⟩
  | named name path => exact ⟨[], by simp, enterNamed_snd (ledger.roots.get? name)⟩
  | nowhere name fault =>
    refine ⟨[_], ?_, rfl⟩
    simp
  | badRoot root fault =>
    refine ⟨[_], ?_, rfl⟩
    simp

theorem not_missing_of_mem_meet {e : Encounter} {event : Event}
    (h : event ∈ (ledger.meet fs e).2) : event.problem? .missingExpectedSnippet = none := by
  obtain ⟨asides, hasides, hmeet⟩ := meet_snd ledger fs e
  rw [hmeet, List.mem_append] at h
  rcases h with h | h
  · obtain ⟨c, p, rfl, -, -, hne⟩ := hasides event h
    exact if_neg hne
  · have hsubject : event.subject?.isSome := by
      rw [Event.subject?_telling h]
      exact Encounter.isSome_of_mem_telling h
    cases event with
    | noted c p =>
      cases c with
      | missingExpectedSnippet => cases hsubject
      | _ => rfl
    | _ => rfl

theorem filterMap_missing_stopAll (ledger : Ledger) (stops : List Stop) :
    (ledger.stopAll fs stops).2.filterMap (Event.problem? .missingExpectedSnippet) = [] := by
  rw [filterMap_stopAll fun _ => rfl, List.flatMap_eq_nil_iff]
  intro s _
  rw [List.filterMap_eq_nil_iff]
  intro event hevent
  exact not_missing_of_mem_meet hevent

theorem filter_about_meet (e : Encounter) : (ledger.meet fs e).2.filter (Event.about p) =
    if e.about p then e.telling fs (e.subject?.bind ledger.roots.get?) else [] := by
  obtain ⟨asides, hasides, hmeet⟩ := meet_snd ledger fs e
  have hnone : asides.filter (Event.about p) = [] := by
    rw [List.filter_eq_nil_iff]
    intro event hevent
    obtain ⟨c, problem, rfl, hc, hc', -⟩ := hasides event hevent
    cases c <;> simp_all [Event.about, Event.subject?]
  have hsame : ∀ event ∈ e.telling fs (e.subject?.bind ledger.roots.get?),
      event.about p = e.about p := by
    intro event h
    rw [Event.about, Event.subject?_telling h]
    rfl
  rw [hmeet, List.filter_append, hnone, List.nil_append]
  split
  · next h =>
    rw [List.filter_eq_self]
    intro event hevent
    rw [hsame event hevent, h]
  · next h =>
    rw [List.filter_eq_nil_iff]
    intro event hevent
    rwa [hsame event hevent]

theorem get?_roots_meet (e : Encounter) (name : String) :
    (ledger.meet fs e).1.roots.get? name =
      if e.subject? = some name then e.settle fs (ledger.roots.get? name)
      else ledger.roots.get? name := by
  cases e with
  | entry root visit =>
    cases visit with
    | snippet trail =>
      show (ledger.enter fs root trail.name (trail.path root)).1.roots.get? name = _
      rw [get?_roots_enter]
      by_cases h : name = trail.name
      · subst h
        have hs : (Encounter.entry root (.snippet trail)).subject? = some trail.name := rfl
        rw [if_pos rfl, if_pos hs]
        rfl
      · have hne : (Encounter.entry root (.snippet trail)).subject? ≠ some name :=
          fun hs => h (Option.some.inj hs).symm
        rw [if_neg h, if_neg hne]
    | _ => exact (ite_self _).symm
  | named other path =>
    show (ledger.enterNamed fs other path).1.roots.get? name = _
    rw [roots_enterNamed]
    exact (ite_self _).symm
  | _ => rfl

theorem filter_about_steps (h : ∀ name, p name → ledger.roots.get? name = ledger'.roots.get? name)
    (es : List Encounter) :
    (steps fs ledger es).flatMap (fun s => (s.events fs).filter (Event.about p)) =
      (steps fs ledger' (es.filter (Encounter.about p))).flatMap
        fun s => (s.events fs).filter (Event.about p) := by
  induction es generalizing ledger ledger' with
  | nil => rfl
  | cons e es ih =>
    have hhead : ∀ l : Ledger, (Step.mk l e).events fs = (l.meet fs e).2 := fun _ => rfl
    rw [steps, List.flatMap_cons, hhead, filter_about_meet]
    by_cases hp : e.about p
    · have hnext : ∀ name, p name →
          (ledger.meet fs e).1.roots.get? name = (ledger'.meet fs e).1.roots.get? name := by
        intro name hname
        rw [get?_roots_meet, get?_roots_meet, h name hname]
      have hknown : e.subject?.bind ledger.roots.get? = e.subject?.bind ledger'.roots.get? := by
        unfold Encounter.about at hp
        cases hs : e.subject? with
        | none => rfl
        | some name =>
          rw [hs] at hp
          exact h name hp
      rw [List.filter_cons_of_pos hp, steps, List.flatMap_cons, hhead, filter_about_meet,
        if_pos hp, if_pos hp, hknown, ih hnext]
    · -- an encounter with another snippet leaves the roots of these names as they are
      have hnext : ∀ name, p name →
          (ledger.meet fs e).1.roots.get? name = ledger'.roots.get? name := by
        intro name hname
        have hne : e.subject? ≠ some name := by
          intro hs
          rw [Encounter.about, hs] at hp
          exact hp hname
        rw [get?_roots_meet, if_neg hne, h name hname]
      rw [List.filter_cons_of_neg hp, if_neg hp, List.nil_append, ih hnext]

def chronicle (fs : FileSystem) : Option Path → List Encounter → List Event
  | _, [] => []
  | known, e :: es => e.telling fs known ++ chronicle fs (e.settle fs known) es

theorem exists_telling_of_mem_chronicle {known : Option Path} {es : List Encounter} {event : Event}
    (h : event ∈ chronicle fs known es) : ∃ e ∈ es, ∃ known', event ∈ e.telling fs known' := by
  induction es generalizing known with
  | nil => cases h
  | cons e es ih =>
    rcases List.mem_append.1 h with h | h
    · exact ⟨e, List.mem_cons_self, known, h⟩
    · obtain ⟨e', he', htelling⟩ := ih h
      exact ⟨e', List.mem_cons_of_mem e he', htelling⟩

theorem filter_about_steps_eq_chronicle {name : String} {es : List Encounter}
    (h : ∀ e ∈ es, e.subject? = some name) :
    (steps fs ledger es).flatMap (fun s => (s.events fs).filter (Event.about (· = name))) =
      chronicle fs (ledger.roots.get? name) es := by
  induction es generalizing ledger with
  | nil => rfl
  | cons e es ih =>
    have hs : e.subject? = some name := h e List.mem_cons_self
    have habout : e.about (· = name) = true := by
      rw [Encounter.about, hs]
      exact decide_eq_true rfl
    have hhead : (Step.mk ledger e).events fs = (ledger.meet fs e).2 := rfl
    rw [steps, List.flatMap_cons, hhead, filter_about_meet, if_pos habout, hs, chronicle,
      ih fun e' he' => h e' (List.mem_cons_of_mem e he'), get?_roots_meet, if_pos hs]
    rfl

end Ledger

namespace Listing

/-- What a run shows and notes of some names, it would if it came by nothing else. -/
theorem filter_about_events (l : Listing) (fs : FileSystem) (p : String → Bool) :
    (l.events fs).filter (Event.about p) =
      (Ledger.steps fs {} ((l.encounters fs).filter (Encounter.about p))).flatMap
        fun s => (s.events fs).filter (Event.about p) := by
  have hpick : List.filter (Event.about p) = List.filterMap (Option.guard (Event.about p)) :=
    List.filterMap_eq_filter.symm
  rw [← Ledger.filter_about_steps (fun _ _ => rfl), hpick]
  exact l.filterMap_events (fun _ => rfl) fun _ => rfl

theorem filter_about_name (l : Listing) (fs : FileSystem) (name : String) :
    (l.events fs).filter (Event.about (· = name)) =
      Ledger.chronicle fs none ((l.encounters fs).filter (Encounter.about (· = name))) := by
  have hsubject : ∀ e ∈ (l.encounters fs).filter (Encounter.about (· = name)),
      e.subject? = some name := by
    intro e he
    simpa [Encounter.about, Option.any_eq_true] using (List.mem_filter.1 he).2
  rw [filter_about_events, Ledger.filter_about_steps_eq_chronicle hsubject]
  rfl

theorem subject?_of_mem_events {l : Listing} {fs : FileSystem} {event : Event} {name : String}
    (h : event ∈ l.events fs) (hs : event.subject? = some name) :
    ∃ e ∈ l.encounters fs, e.subject? = some name ∧ ∃ known, event ∈ e.telling fs known := by
  have hmem : event ∈ (l.events fs).filter (Event.about (· = name)) := by
    rw [List.mem_filter]
    exact ⟨h, by simp [Event.about, hs]⟩
  rw [filter_about_name] at hmem
  obtain ⟨e, he, known, htelling⟩ := Ledger.exists_telling_of_mem_chronicle hmem
  refine ⟨e, (List.mem_filter.1 he).1, ?_, known, htelling⟩
  rw [← Event.subject?_telling htelling, hs]

end Listing
end SnippetCatalog
