import SnippetCatalog.Proofs.Entering

/-!
Shadowing. Among the entries of one name that can be read, those below the root of the first one are
shown and those below other roots are eclipsed by it. The ledger knows that root up to its spelling,
whatever comes in between. Main statement: the law for every entry of every run to the end.
-/

namespace SnippetCatalog

def Encounter.finding? (fs : FileSystem) : Encounter → Option (String × Path)
  | .entry root (.snippet trail) =>
    match fs.read (trail.path root) with
    | .ok _ => some (trail.name, root)
    | .error _ => none
  | _ => none

def firstRoot? (fs : FileSystem) (es : List Encounter) (name : String) : Option Path :=
  (es.filterMap (Encounter.finding? fs)).lookup name

namespace Ledger

def Follows (ledger : Ledger) (findings : List (String × Path)) : Prop :=
  ∀ name, Option.Rel Path.Same (ledger.roots.get? name) (findings.lookup name)

variable {fs : FileSystem} {ledger : Ledger} {findings : List (String × Path)}

theorem lookup_snoc (findings : List (String × Path)) (name other : String) (root : Path) :
    (findings ++ [(name, root)]).lookup other =
      (findings.lookup other).or (if other = name then some root else none) := by
  rw [List.lookup_append, NameMap.lookup_cons]
  rfl

theorem Follows.enter {root : Path} {trail : Trail} (h : ledger.Follows findings) :
    (ledger.enter fs root trail.name (trail.path root)).1.Follows
      (findings ++ ((Encounter.entry root (.snippet trail)).finding? fs).toList) := by
  intro other
  have hother := h other
  rw [get?_roots_enter, Encounter.finding?]
  unfold claim
  cases hr : fs.read (trail.path root) with
  | error fault =>
    dsimp only
    rw [Option.toList_none, List.append_nil]
    grind
  | ok content =>
    dsimp only
    rw [Option.toList_some, lookup_snoc]
    by_cases ho : other = trail.name
    · subst ho
      rw [if_pos rfl, if_pos rfl]
      revert hother
      generalize ledger.roots.get? trail.name = known
      generalize findings.lookup trail.name = first?
      intro hrel
      cases hrel with
      | none => exact .some (Path.Same.refl root)
      | @some r first hsame =>
        -- the ledger keeps the root that it has or takes another spelling of it
        by_cases hr : r.Same root
        · rw [Option.filter_some_neg (by simpa using hr)]
          exact .some (hr.symm.trans hsame)
        · rw [Option.filter_some_pos (by simpa using hr)]
          exact .some hsame
    · rw [if_neg ho, if_neg ho, Option.or_none]
      exact hother

theorem Follows.meet (h : ledger.Follows findings) (e : Encounter) :
    (ledger.meet fs e).1.Follows (findings ++ (e.finding? fs).toList) := by
  have hsame : ∀ {ledger' : Ledger}, ledger'.roots = ledger.roots →
      ledger'.Follows (findings ++ []) := by
    intro ledger' hroots name
    rw [hroots, List.append_nil]
    exact h name
  cases e with
  | entry root visit =>
    cases visit with
    | snippet trail => exact h.enter
    | _ => exact hsame rfl
  | named name path => exact hsame roots_enterNamed
  | _ => exact hsame rfl

theorem Follows.after (h : ledger.Follows findings) (es : List Encounter) :
    (Ledger.after fs ledger es).Follows (findings ++ es.filterMap (Encounter.finding? fs)) := by
  induction es generalizing ledger findings with
  | nil =>
    rw [List.filterMap_nil, List.append_nil]
    exact h
  | cons e es ih =>
    have hnext : (ledger.meet fs e).1.Follows (findings ++ (e.finding? fs).toList) := h.meet e
    have hrest := ih hnext
    rw [List.append_assoc] at hrest
    rw [List.filterMap_cons]
    cases hf : e.finding? fs <;> rw [hf] at hrest <;> exact hrest

theorem follows_after_encounters (fs : FileSystem) (es : List Encounter) (name : String) :
    Option.Rel Path.Same ((Ledger.after fs {} es).roots.get? name) (firstRoot? fs es name) := by
  have hempty : ({} : Ledger).Follows [] := fun _ => .none
  exact hempty.after es name

end Ledger

variable {fs : FileSystem}

theorem firstRoot?_append (es es' : List Encounter) (name : String) :
    firstRoot? fs (es ++ es') name = (firstRoot? fs es name).or (firstRoot? fs es' name) := by
  rw [firstRoot?, List.filterMap_append, List.lookup_append]
  rfl

theorem firstRoot?_entry {root : Path} {trail : Trail} {content : Bytes}
    (h : fs.read (trail.path root) = .ok content) :
    firstRoot? fs [.entry root (.snippet trail)] trail.name = some root := by
  simp [firstRoot?, Encounter.finding?, h]

namespace Step

variable {past : List Encounter} {root : Path} {trail : Trail} {content : Bytes}

theorem free_of_same {ledger : Ledger} {first : Path} (hl : ledger = Ledger.after fs {} past)
    (hf : (firstRoot? fs past trail.name).getD root = first) (hsame : first.Same root) :
    ledger.eclipsing? root trail.name = none := by
  have hrel := Ledger.follows_after_encounters fs past trail.name
  rw [← hl] at hrel
  rw [Ledger.eclipsing?]
  revert hrel hf
  generalize ledger.roots.get? trail.name = known
  generalize firstRoot? fs past trail.name = first?
  intro hf hrel
  cases hrel with
  | none => rfl
  | @some known _ hk =>
    have hroot : known.Same root := (hk.trans (hf ▸ Path.Same.refl _)).trans hsame
    rw [Option.filter_some_neg (by simpa using hroot)]

theorem eclipsed_of_not_same {ledger : Ledger} {first : Path}
    (hl : ledger = Ledger.after fs {} past) (hf : firstRoot? fs past trail.name = some first)
    (hne : ¬ first.Same root) :
    ∃ known : Path, known.Same first ∧ ledger.eclipsing? root trail.name = some known := by
  have hrel := Ledger.follows_after_encounters fs past trail.name
  rw [← hl, hf] at hrel
  cases hk : ledger.roots.get? trail.name with
  | none =>
    rw [hk] at hrel
    cases hrel
  | some known =>
    rw [hk] at hrel
    cases hrel with
    | some hsame =>
      exact ⟨known, hsame, Ledger.eclipsing?_eq_some_iff.2
        ⟨hk, fun h => hne (hsame.symm.trans h)⟩⟩

theorem not_eclipsed_of_free {ledger : Ledger} (hr : fs.read (trail.path root) = .ok content)
    (he : ledger.eclipsing? root trail.name = none) (p : Problem) :
    .noted .eclipsedSnippet p ∉ (ledger.enter fs root trail.name (trail.path root)).2 := by
  rw [Ledger.enter_of_free hr he, List.mem_append]
  rintro (h | h)
  · obtain ⟨q, hq⟩ := Ledger.duplicate_of_mem_compare h
    cases hq
  · rcases mem_showing h with ⟨s, -, hs⟩ | hs <;> cases hs

theorem shadow_law {ledger : Ledger} (hl : ledger = Ledger.after fs {} past)
    (hr : fs.read (trail.path root) = .ok content) :
    ∃ first, firstRoot? fs (past ++ [.entry root (.snippet trail)]) trail.name = some first ∧
      if first.Same root then
        ∀ p, .noted .eclipsedSnippet p ∉ (ledger.enter fs root trail.name (trail.path root)).2
      else ∃ known : Path, known.Same first ∧ ledger.enter fs root trail.name (trail.path root) =
        (ledger, [.noted .eclipsedSnippet (.eclipsed trail.name root known)]) := by
  refine ⟨(firstRoot? fs past trail.name).getD root, ?_, ?_⟩
  · rw [firstRoot?_append, firstRoot?_entry hr]
    cases firstRoot? fs past trail.name <;> rfl
  · split
    · next hsame => exact not_eclipsed_of_free hr (free_of_same hl rfl hsame)
    · next hne =>
      have hf : firstRoot? fs past trail.name =
          some ((firstRoot? fs past trail.name).getD root) := by
        cases h : firstRoot? fs past trail.name with
        | none =>
          rw [h] at hne
          exact absurd (Path.Same.refl root) hne
        | some first => rfl
      obtain ⟨known, hk, he⟩ := eclipsed_of_not_same hl hf hne
      exact ⟨known, hk, Ledger.enter_of_eclipsed hr he⟩

theorem entry_of_block {step : Step} {s : Snippet}
    (h : .block (some root) s ∈ step.events fs) : ∃ trail content,
      step.encounter = .entry root (.snippet trail) ∧ s.name = trail.name ∧
      fs.read (trail.path root) = .ok content ∧
      step.ledger.eclipsing? root trail.name = none := by
  obtain ⟨ledger, e⟩ := step
  cases e with
  | entry root' visit =>
    cases visit with
    | snippet trail =>
      change _ ∈ (ledger.enter fs root' trail.name (trail.path root')).2 at h
      cases hr : fs.read (trail.path root') with
      | error fault =>
        rw [Ledger.enter_of_unreadable hr] at h
        simp at h
      | ok content =>
        cases he : ledger.eclipsing? root' trail.name with
        | some first =>
          rw [Ledger.enter_of_eclipsed hr he] at h
          simp at h
        | none =>
          rw [Ledger.enter_of_free hr he, List.mem_append] at h
          rcases h with h | h
          · obtain ⟨p, hp⟩ := Ledger.duplicate_of_mem_compare h
            cases hp
          · rcases mem_showing h with ⟨s', hs', heq⟩ | heq
            · cases heq
              exact ⟨trail, content, rfl, hs', hr, he⟩
            · cases heq
    | _ => simp [events, outcome, Ledger.meet, Ledger.visit] at h
  | named name path =>
    change _ ∈ (ledger.enterNamed fs name path).2 at h
    unfold Ledger.enterNamed at h
    split at h
    · simp at h
    · rw [Ledger.present_snd] at h
      rcases mem_showing h with ⟨s', -, heq⟩ | heq <;> cases heq
  | _ => simp [events, outcome, Ledger.meet, Ledger.stop] at h

def Lawful (fs : FileSystem) (past : List Step) (step : Step) : Prop :=
  match step.encounter with
  | .entry root (.snippet trail) =>
    match fs.read (trail.path root) with
    | .error fault =>
      step.outcome fs = (step.ledger, [.noted .badSnippet (.unreadable trail.name fault)])
    | .ok _ =>
      ∃ first, firstRoot? fs ((past ++ [step]).map (·.encounter)) trail.name = some first ∧
        if first.Same root then ∀ p, .noted .eclipsedSnippet p ∉ step.events fs
        else ∃ known : Path, known.Same first ∧ step.outcome fs =
          (step.ledger, [.noted .eclipsedSnippet (.eclipsed trail.name root known)])
  | _ => ∀ p, .noted .eclipsedSnippet p ∉ step.events fs

theorem lawful_of_ledger {past : List Step} {step : Step}
    (hl : step.ledger = Ledger.after fs {} (past.map (·.encounter))) : step.Lawful fs past := by
  obtain ⟨ledger, e⟩ := step
  cases e with
  | entry root visit =>
    cases visit with
    | snippet trail =>
      simp only [Lawful, List.map_append, List.map_cons, List.map_nil]
      cases hr : fs.read (trail.path root) with
      | error fault => exact Ledger.enter_of_unreadable hr
      | ok content => exact shadow_law hl hr
    | _ => simp [Lawful, events, outcome, Ledger.meet, Ledger.visit]
  | named name path =>
    intro p h
    change _ ∈ (ledger.enterNamed fs name path).2 at h
    unfold Ledger.enterNamed at h
    split at h
    · simp at h
    · rw [Ledger.present_snd] at h
      rcases mem_showing h with ⟨s', -, heq⟩ | heq <;> cases heq
  | _ => simp [Lawful, events, outcome, Ledger.meet, Ledger.stop]

end Step

theorem Listing.first_root_of_block {l : Listing} {root : Path} {s : Snippet}
    (h : .block (some root) s ∈ l.events fs) :
    ∃ first, firstRoot? fs (l.encounters fs) s.name = some first ∧ first.Same root := by
  have hb : (some root, s) ∈ (l.events fs).filterMap Event.block? :=
    List.mem_filterMap.2 ⟨_, h, rfl⟩
  rw [l.filterMap_events (fun _ => rfl) fun _ => rfl] at hb
  obtain ⟨step, hstep, hb⟩ := List.mem_flatMap.1 hb
  obtain ⟨e, he, heq⟩ := List.mem_filterMap.1 hb
  obtain ⟨past, future, hsteps⟩ := List.append_of_mem hstep
  have hl := Ledger.ledger_of_steps_eq hsteps
  have hes : l.encounters fs = past.map (·.encounter) ++ [step.encounter] ++
      future.map (·.encounter) := by
    have hmap : (l.steps fs).map (·.encounter) = l.encounters fs :=
      Ledger.map_encounter_steps {} (l.encounters fs)
    rw [← hmap, hsteps]
    simp
  have hblock : e = .block (some root) s := Event.block?_eq_some_iff.1 heq
  obtain ⟨trail, content, henc, hname, hr, hfree⟩ := Step.entry_of_block (hblock ▸ he)
  obtain ⟨first, hfirst, hlaw⟩ := Step.shadow_law hl hr
  refine ⟨first, ?_, ?_⟩
  · rw [hes, henc, firstRoot?_append, hname, hfirst]
    rfl
  · refine Classical.byContradiction fun hne => ?_
    rw [if_neg hne] at hlaw
    obtain ⟨known, -, hlaw⟩ := hlaw
    have hmem := hblock ▸ he
    rw [Step.events, Step.outcome, henc] at hmem
    change _ ∈ (step.ledger.enter fs root trail.name (trail.path root)).2 at hmem
    rw [hlaw] at hmem
    simp at hmem

/-- Shadowing, for every run to the end: each entry that a walk meets goes by the first root that
its name was found below, nothing else is noted as eclipsed, and so all blocks of a name below
roots come from that one root. -/
theorem first_root_shadows_later_ones (l : Listing) (fs : FileSystem) (sink : Sink)
    (done : (l.run fs sink).complete = true) :
    (l.run fs sink).output = (l.events fs).flatMap (fun e => Utf8.encode (e.text l.view)) ∧
    (l.events fs).filterMap Event.block? =
      (l.steps fs).flatMap (fun s => (s.events fs).filterMap Event.block?) ∧
    (Journal.mk (l.run fs sink).notes).problems .eclipsedSnippet =
      (l.steps fs).flatMap (fun s => (s.events fs).filterMap (Event.problem? .eclipsedSnippet)) ∧
    (∀ past step future, l.steps fs = past ++ step :: future → step.Lawful fs past) ∧
    ∀ root s, .block (some root) s ∈ l.events fs →
      ∃ first, firstRoot? fs (l.encounters fs) s.name = some first ∧ first.Same root := by
  refine ⟨?_, ?_, ?_, ?_, ?_⟩
  · rw [Listing.run_of_complete done]
  · exact l.filterMap_events (fun _ => rfl) fun _ => rfl
  · rw [Listing.problems_of_complete done]
    exact l.filterMap_events (fun _ => rfl) fun _ => rfl
  · intro past step future h
    exact Step.lawful_of_ledger (Ledger.ledger_of_steps_eq h)
  · intro root s h
    exact Listing.first_root_of_block h

def twoRoots : FileSystem where
  workingDirectory := []
  records := [([[0x61]], .directory), ([[0x61], [0x78]], .file [0x41, 0x0A]),
    ([[0x62]], .directory), ([[0x62], [0x78]], .file [0x42, 0x0A])]
  named := by decide

def twoRootsListing : Listing := { dirs := [.ofText "a", .ofText "b"] }

theorem first_root_shadows_in_twoRoots :
    (twoRootsListing.run twoRoots .unlimited).complete = true ∧
    (twoRootsListing.steps twoRoots).length = 2 ∧
    (Journal.mk (twoRootsListing.run twoRoots .unlimited).notes).problems .eclipsedSnippet =
      [.eclipsed "x" (.ofText "b") (.ofText "a")] ∧
    (∀ past step future, twoRootsListing.steps twoRoots = past ++ step :: future →
      step.Lawful twoRoots past) ∧
    ∀ root s, .block (some root) s ∈ twoRootsListing.events twoRoots →
      ∃ first, firstRoot? twoRoots (twoRootsListing.encounters twoRoots) s.name = some first ∧
        first.Same root := by
  have done : (twoRootsListing.run twoRoots .unlimited).complete = true := by decide +kernel
  obtain ⟨-, -, -, hlaw, hblocks⟩ :=
    first_root_shadows_later_ones twoRootsListing twoRoots .unlimited done
  exact ⟨done, rfl, by decide +kernel, hlaw, hblocks⟩

end SnippetCatalog
