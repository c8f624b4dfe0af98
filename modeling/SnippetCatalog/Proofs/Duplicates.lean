import SnippetCatalog.Proofs.Shadowing

/-!
Files with the same content. The ledger has for each content the first file taken that has it, and
every later one is told against that file. Main statement: what a run notes as duplicates, in order,
whatever else becomes of the files; and a ledger that keeps digests of contents instead notes the
same, as long as no two of the contents have one digest.
-/

namespace SnippetCatalog

/-- The path and the content of a file that a step takes: it can be read and is not eclipsed. -/
def Step.taken? (fs : FileSystem) (step : Step) : Option (Path × Bytes) :=
  match step.encounter with
  | .entry root (.snippet trail) =>
    match fs.read (trail.path root) with
    | .ok content =>
      if (step.events fs).filterMap (Event.problem? .eclipsedSnippet) = [] then
        some (trail.path root, content)
      else none
    | .error _ => none
  | _ => none

/-- What is told of a file that comes after others: the first of them with its content, if that has
another path. -/
def duplicate? (before : List (Path × Bytes)) (file : Path × Bytes) : Option Problem :=
  match before.find? (·.2 = file.2) with
  | some first => if first.1.Same file.1 then none else some (.duplicate file.1 first.1)
  | none => none

def duplicates : List (Path × Bytes) → List (Path × Bytes) → List Problem
  | _, [] => []
  | before, file :: files => (duplicate? before file).toList ++ duplicates (before ++ [file]) files

/-- A taken file is shown, whether or not it is told to be a duplicate, and of others no duplicate is
told. -/
def Step.Compared (fs : FileSystem) (before : List (Path × Bytes)) (step : Step) : Prop :=
  match step.taken? fs with
  | none => (step.events fs).filterMap (Event.problem? .duplicateSnippet) = []
  | some file => ∃ root trail, step.encounter = .entry root (.snippet trail) ∧
      file.1 = trail.path root ∧ step.events fs =
        (duplicate? before file).toList.map (.noted .duplicateSnippet) ++
          showing (some root) trail.name file.1 file.2

variable {fs : FileSystem} {ledger : Ledger} {before : List (Path × Bytes)} {step : Step}

theorem problem?_showing (c : Category) (hc : c ≠ .badSnippet) (root? : Option Path) (name : String)
    (path : Path) (content : Bytes) :
    (showing root? name path content).filterMap (Event.problem? c) = [] := by
  rw [List.filterMap_eq_nil_iff]
  intro e he
  rcases mem_showing he with ⟨s, -, rfl⟩ | rfl
  · rfl
  · exact if_neg (Ne.symm hc)

theorem Ledger.no_eclipse_iff {root path : Path} {name : String} {content : Bytes}
    (hread : fs.read path = .ok content) :
    (ledger.enter fs root name path).2.filterMap (Event.problem? .eclipsedSnippet) = [] ↔
      ledger.eclipsing? root name = none := by
  cases heclipsing : ledger.eclipsing? root name with
  | some first =>
    rw [enter_of_eclipsed hread heclipsing]
    simp [Event.problem?]
  | none =>
    rw [enter_of_free hread heclipsing, List.filterMap_append,
      problem?_showing .eclipsedSnippet (by decide), List.append_nil]
    refine iff_of_true (List.filterMap_eq_nil_iff.2 fun e he => ?_) rfl
    obtain ⟨p, rfl⟩ := duplicate_of_mem_compare he
    rfl

theorem Step.taken?_eq_some_iff {file : Path × Bytes} : step.taken? fs = some file ↔
    ∃ root trail content, step.encounter = .entry root (.snippet trail) ∧
      fs.read (trail.path root) = .ok content ∧
      step.ledger.eclipsing? root trail.name = none ∧ file = (trail.path root, content) := by
  obtain ⟨ledger, e⟩ := step
  cases e with
  | entry root visit =>
    cases visit with
    | snippet trail =>
      unfold taken?
      dsimp only
      cases hread : fs.read (trail.path root) with
      | error fault => simp [hread]
      | ok content =>
        have hiff : (Step.events fs ⟨ledger, .entry root (.snippet trail)⟩).filterMap
            (Event.problem? .eclipsedSnippet) = [] ↔ ledger.eclipsing? root trail.name = none :=
          Ledger.no_eclipse_iff hread
        simp only [hiff]
        constructor
        · intro h
          split at h
          · next hfree => exact ⟨root, trail, content, rfl, hread, hfree, (Option.some.inj h).symm⟩
          · cases h
        · rintro ⟨root', trail', content', hentry, hread', hfree, rfl⟩
          cases hentry
          rw [hread] at hread'
          cases hread'
          exact if_pos hfree
    | _ => simp [taken?]
  | _ => simp [taken?]

namespace Ledger

/-- The ledger has for each content the first of the files that has it. -/
def Keeps (ledger : Ledger) (files : List (Path × Bytes)) : Prop :=
  ∀ c, ledger.contents.lookup c = (files.find? (·.2 = c)).map (·.1)

theorem first?_concat (before : List (Path × Bytes)) (path : Path) (content c : Bytes) :
    ((before ++ [(path, content)]).find? (·.2 = c)).map (·.1) =
      ((before.find? (·.2 = c)).map (·.1)).or (if c = content then some path else none) := by
  rw [List.find?_append, Option.map_or]
  congr 1
  by_cases h : c = content
  · simp [h]
  · simp [h, Ne.symm h]

theorem Keeps.compare (h : ledger.Keeps before) (path : Path) (content : Bytes) :
    (ledger.compare path content).1.Keeps (before ++ [(path, content)]) ∧
      (ledger.compare path content).2 =
        (duplicate? before (path, content)).toList.map (.noted .duplicateSnippet) := by
  have hcontent := h content
  unfold Ledger.compare duplicate?
  cases hfind : before.find? (·.2 = content) with
  | none =>
    rw [hfind, Option.map_none] at hcontent
    rw [hcontent]
    refine ⟨fun c => ?_, rfl⟩
    dsimp only
    rw [NameMap.lookup_cons, first?_concat, h c]
    by_cases hc : c = content
    · rw [hc, hfind, if_pos rfl, if_pos rfl]
      rfl
    · rw [if_neg hc, if_neg hc, Option.or_none]
  | some first =>
    rw [hfind, Option.map_some] at hcontent
    rw [hcontent]
    refine ⟨fun c => ?_, ?_⟩
    · dsimp only
      rw [first?_concat, h c]
      by_cases hc : c = content
      · rw [hc, hfind]
        rfl
      · rw [if_neg hc, Option.or_none]
    · dsimp only
      split <;> rfl

theorem contents_present (root? : Option Path) (name : String) (path : Path) (content : Bytes) :
    (ledger.present root? name path content).1.contents = ledger.contents := by
  unfold present
  split <;> rfl

theorem Keeps.of_contents_eq {ledger' : Ledger} (h : ledger.Keeps before)
    (heq : ledger'.contents = ledger.contents) : ledger'.Keeps before := by
  intro c
  rw [heq]
  exact h c

theorem meet_of_not_taken {e : Encounter} (h : Step.taken? fs ⟨ledger, e⟩ = none) :
    (ledger.meet fs e).1.contents = ledger.contents ∧
      (ledger.meet fs e).2.filterMap (Event.problem? .duplicateSnippet) = [] := by
  cases e with
  | entry root visit =>
    cases visit with
    | snippet trail =>
      show (ledger.enter fs root trail.name (trail.path root)).1.contents = _ ∧
        (ledger.enter fs root trail.name (trail.path root)).2.filterMap _ = []
      cases hread : fs.read (trail.path root) with
      | error fault =>
        rw [enter_of_unreadable hread]
        exact ⟨rfl, rfl⟩
      | ok content =>
        cases heclipsing : ledger.eclipsing? root trail.name with
        | some first =>
          rw [enter_of_eclipsed hread heclipsing]
          exact ⟨rfl, rfl⟩
        | none =>
          have htaken : Step.taken? fs ⟨ledger, .entry root (.snippet trail)⟩ =
              some (trail.path root, content) :=
            Step.taken?_eq_some_iff.2 ⟨root, trail, content, rfl, hread, heclipsing, rfl⟩
          rw [htaken] at h
          cases h
    | _ => exact ⟨rfl, rfl⟩
  | named name path =>
    show (ledger.enterNamed fs name path).1.contents = _ ∧
      (ledger.enterNamed fs name path).2.filterMap _ = []
    unfold enterNamed
    cases fs.read path with
    | error fault => exact ⟨rfl, rfl⟩
    | ok content =>
      dsimp only
      rw [present_snd]
      exact ⟨contents_present none name path content,
        problem?_showing .duplicateSnippet (by decide) none name path content⟩
  | _ => exact ⟨rfl, rfl⟩

theorem Keeps.meet (h : ledger.Keeps before) (fs : FileSystem) (e : Encounter) :
    (ledger.meet fs e).1.Keeps (before ++ (Step.taken? fs ⟨ledger, e⟩).toList) ∧
      Step.Compared fs before ⟨ledger, e⟩ := by
  unfold Step.Compared
  cases htaken : Step.taken? fs ⟨ledger, e⟩ with
  | some file =>
    obtain ⟨root, trail, content, hentry, hread, hfree, rfl⟩ := Step.taken?_eq_some_iff.1 htaken
    obtain rfl : e = .entry root (.snippet trail) := hentry
    have hkeeps : ({ ledger with roots := ledger.roots.insert trail.name root } : Ledger).Keeps
      before := h.of_contents_eq rfl
    obtain ⟨hnext, hnotes⟩ := hkeeps.compare (trail.path root) content
    have hmeet := Ledger.enter_of_free hread hfree
    refine ⟨?_, root, trail, rfl, rfl, ?_⟩
    · show (ledger.enter fs root trail.name (trail.path root)).1.Keeps _
      rw [hmeet]
      exact hnext.of_contents_eq (contents_present _ _ _ _)
    · show (ledger.enter fs root trail.name (trail.path root)).2 = _
      rw [hmeet]
      exact congrArg (· ++ _) hnotes
  | none =>
    obtain ⟨hcontents, hsilent⟩ := meet_of_not_taken htaken
    refine ⟨?_, hsilent⟩
    rw [Option.toList_none, List.append_nil]
    exact h.of_contents_eq hcontents

def taken (fs : FileSystem) (ledger : Ledger) (es : List Encounter) : List (Path × Bytes) :=
  (steps fs ledger es).filterMap (Step.taken? fs)

theorem taken_cons (ledger : Ledger) (e : Encounter) (es : List Encounter) :
    taken fs ledger (e :: es) =
      (Step.taken? fs ⟨ledger, e⟩).toList ++ taken fs (ledger.meet fs e).1 es := by
  unfold taken
  rw [steps, List.filterMap_cons]
  cases Step.taken? fs ⟨ledger, e⟩ <;> rfl

theorem Keeps.after (h : ledger.Keeps before) (fs : FileSystem) (es : List Encounter) :
    (Ledger.after fs ledger es).Keeps (before ++ taken fs ledger es) := by
  induction es generalizing ledger before with
  | nil =>
    show ledger.Keeps (before ++ [])
    rw [List.append_nil]
    exact h
  | cons e es ih =>
    obtain ⟨hnext, -⟩ := h.meet fs e
    rw [taken_cons, ← List.append_assoc]
    exact ih hnext

theorem keeps_empty : ({} : Ledger).Keeps [] := fun _ => rfl

end Ledger

theorem Step.Compared.noted (h : step.Compared fs before) :
    (step.events fs).filterMap (Event.problem? .duplicateSnippet) =
      duplicates before (step.taken? fs).toList := by
  unfold Compared at h
  cases htaken : step.taken? fs with
  | none =>
    rw [htaken] at h
    exact h
  | some file =>
    rw [htaken] at h
    obtain ⟨root, trail, -, -, hevents⟩ := h
    have hnotes : ∀ problems : List Problem, (problems.map (Event.noted .duplicateSnippet)).filterMap
        (Event.problem? .duplicateSnippet) = problems := by
      intro problems
      rw [List.filterMap_map]
      exact List.filterMap_some
    rw [hevents, List.filterMap_append, hnotes, problem?_showing .duplicateSnippet (by decide),
      Option.toList_some, duplicates, duplicates]

theorem duplicates_append (before files later : List (Path × Bytes)) :
    duplicates before (files ++ later) = duplicates before files ++ duplicates (before ++ files) later := by
  induction files generalizing before with
  | nil => rw [List.append_nil, List.nil_append, duplicates, List.nil_append]
  | cons file files ih =>
    rw [List.cons_append, duplicates, duplicates, ih, List.append_assoc, List.append_assoc]
    rfl

theorem Ledger.Keeps.noted (h : ledger.Keeps before) (fs : FileSystem) (es : List Encounter) :
    (eventsOf fs ledger es).filterMap (Event.problem? .duplicateSnippet) =
      duplicates before (taken fs ledger es) := by
  induction es generalizing ledger before with
  | nil => rfl
  | cons e es ih =>
    obtain ⟨hnext, hcompared⟩ := h.meet fs e
    have hevents : eventsOf fs ledger (e :: es) =
        Step.events fs ⟨ledger, e⟩ ++ eventsOf fs (ledger.meet fs e).1 es := List.flatMap_cons
    rw [hevents, List.filterMap_append, hcompared.noted, ih hnext, taken_cons,
      duplicates_append]

/-! ### Digests of contents -/

namespace Ledger

def digested (digest : Bytes → Bytes) (ledger : Ledger) : Ledger :=
  { ledger with contents := ledger.contents.map fun e => (digest e.1, e.2) }

def enterBy (digest : Bytes → Bytes) (ledger : Ledger) (fs : FileSystem) (root : Path)
    (name : String) (path : Path) : Ledger × List Event :=
  match fs.read path with
  | .error fault => (ledger, [.noted .badSnippet (.unreadable name fault)])
  | .ok content =>
    match ledger.eclipsing? root name with
    | some first => (ledger, [.noted .eclipsedSnippet (.eclipsed name root first)])
    | none =>
      let ledger := { ledger with roots := ledger.roots.insert name root }
      let (ledger, duplicates) := ledger.compare path (digest content)
      let (ledger, shown) := ledger.present (some root) name path content
      (ledger, duplicates ++ shown)

def meetBy (digest : Bytes → Bytes) (ledger : Ledger) (fs : FileSystem) :
    Encounter → Ledger × List Event
  | .entry root (.snippet trail) => ledger.enterBy digest fs root trail.name (trail.path root)
  | e => ledger.meet fs e

def runBy (digest : Bytes → Bytes) (fs : FileSystem) :
    Ledger → List Encounter → Ledger × List Event
  | ledger, [] => (ledger, [])
  | ledger, e :: es =>
    let (ledger, events) := ledger.meetBy digest fs e
    let (ledger, later) := runBy digest fs ledger es
    (ledger, events ++ later)

variable {digest : Bytes → Bytes} {path : Path} {content : Bytes}

theorem present_digested (root? : Option Path) (name : String) :
    (ledger.digested digest).present root? name path content =
      ((ledger.present root? name path content).1.digested digest,
        (ledger.present root? name path content).2) := by
  unfold present
  split <;> rfl

theorem lookup_digested {contents : List (Bytes × Path)}
    (h : ∀ e ∈ contents, digest e.1 = digest content → e.1 = content) :
    (contents.map fun e => (digest e.1, e.2)).lookup (digest content) = contents.lookup content := by
  induction contents with
  | nil => rfl
  | cons e contents ih =>
    obtain ⟨c, first⟩ := e
    obtain ⟨hhead, hrest⟩ := List.forall_mem_cons.1 h
    rw [List.map_cons, NameMap.lookup_cons, NameMap.lookup_cons, ih hrest]
    by_cases hc : content = c
    · rw [hc, if_pos rfl, if_pos rfl]
    · rw [if_neg hc, if_neg fun hd => hc (hhead hd.symm).symm]

theorem compare_digested (h : ∀ e ∈ ledger.contents, digest e.1 = digest content → e.1 = content) :
    (ledger.digested digest).compare path (digest content) =
      ((ledger.compare path content).1.digested digest, (ledger.compare path content).2) := by
  have hlookup : (ledger.digested digest).contents.lookup (digest content) =
      ledger.contents.lookup content := lookup_digested h
  unfold compare
  rw [hlookup]
  split <;> rfl

theorem Keeps.exists_file (h : ledger.Keeps before) {e : Bytes × Path} (he : e ∈ ledger.contents) :
    ∃ file ∈ before, file.2 = e.1 := by
  have hlookup : ledger.contents.lookup e.1 ≠ none := by
    rw [Ne, List.lookup_eq_none_iff]
    intro hnone
    exact absurd (hnone e he) (by simp)
  rw [h e.1, Ne, Option.map_eq_none_iff] at hlookup
  obtain ⟨file, hfind⟩ := Option.ne_none_iff_exists'.1 hlookup
  exact ⟨file, List.mem_of_find?_eq_some hfind, by simpa using List.find?_some hfind⟩

theorem enterBy_digested {root : Path} {name : String} (hread : fs.read path = .ok content)
    (hfree : ledger.eclipsing? root name = none)
    (h : ∀ e ∈ ledger.contents, digest e.1 = digest content → e.1 = content) :
    (ledger.digested digest).enterBy digest fs root name path =
      ((ledger.enter fs root name path).1.digested digest, (ledger.enter fs root name path).2) := by
  let taken : Ledger := { ledger with roots := ledger.roots.insert name root }
  have hcompare : (taken.digested digest).compare path (digest content) =
      ((taken.compare path content).1.digested digest, (taken.compare path content).2) :=
    compare_digested h
  have henter : (ledger.digested digest).enterBy digest fs root name path =
      ((((taken.digested digest).compare path (digest content)).1.present (some root) name path
          content).1,
        ((taken.digested digest).compare path (digest content)).2 ++
          (((taken.digested digest).compare path (digest content)).1.present (some root) name path
            content).2) := by
    have hroots : (ledger.digested digest).eclipsing? root name = none := hfree
    rw [enterBy, hread]
    dsimp only
    rw [hroots]
    rfl
  rw [henter, hcompare, present_digested, enter_of_free hread hfree, present_snd]

/-- Where the content of a file that is taken has a digest of its own among those before, keeping
digests makes no difference. -/
theorem Keeps.meetBy (h : ledger.Keeps before) (e : Encounter)
    (separate : ∀ file ∈ Step.taken? fs ⟨ledger, e⟩, ∀ file' ∈ before,
      digest file'.2 = digest file.2 → file'.2 = file.2) :
    (ledger.digested digest).meetBy digest fs e =
      ((ledger.meet fs e).1.digested digest, (ledger.meet fs e).2) := by
  cases e with
  | entry root visit =>
    cases visit with
    | snippet trail =>
      show (ledger.digested digest).enterBy digest fs root trail.name (trail.path root) =
        ((ledger.enter fs root trail.name (trail.path root)).1.digested digest,
          (ledger.enter fs root trail.name (trail.path root)).2)
      cases hread : fs.read (trail.path root) with
      | error fault =>
        rw [enter_of_unreadable hread, enterBy, hread]
      | ok content =>
        cases heclipsing : ledger.eclipsing? root trail.name with
        | some first =>
          have hroots : (ledger.digested digest).eclipsing? root trail.name = some first := heclipsing
          rw [enter_of_eclipsed hread heclipsing, enterBy, hread]
          dsimp only
          rw [hroots]
        | none =>
          have htaken : Step.taken? fs ⟨ledger, .entry root (.snippet trail)⟩ =
              some (trail.path root, content) :=
            Step.taken?_eq_some_iff.2 ⟨root, trail, content, rfl, hread, heclipsing, rfl⟩
          apply enterBy_digested hread heclipsing
          intro e he hdigest
          obtain ⟨file, hfile, hcontent⟩ := h.exists_file he
          rw [← hcontent] at hdigest ⊢
          exact separate _ htaken file hfile hdigest
    | _ => rfl
  | named name path =>
    show (ledger.digested digest).enterNamed fs name path =
      ((ledger.enterNamed fs name path).1.digested digest, (ledger.enterNamed fs name path).2)
    unfold enterNamed
    cases fs.read path with
    | error fault => rfl
    | ok content => exact present_digested none name
  | _ => rfl

theorem Keeps.runBy (h : ledger.Keeps before) (es : List Encounter)
    (separate : ∀ file ∈ before ++ taken fs ledger es, ∀ file' ∈ before ++ taken fs ledger es,
      digest file'.2 = digest file.2 → file'.2 = file.2) :
    Ledger.runBy digest fs (ledger.digested digest) es =
      ((Ledger.after fs ledger es).digested digest, eventsOf fs ledger es) := by
  -- what is taken in a step goes over from the files to come to those before
  induction es generalizing ledger before with
  | nil => rfl
  | cons e es ih =>
    rw [taken_cons, ← List.append_assoc] at separate
    obtain ⟨hnext, -⟩ := h.meet fs e
    have hstep : (ledger.digested digest).meetBy digest fs e =
        ((ledger.meet fs e).1.digested digest, (ledger.meet fs e).2) := by
      apply h.meetBy
      intro file hfile file' hfile'
      refine separate file ?_ file' ?_
      · exact List.mem_append_left _ (List.mem_append_right _ (Option.mem_toList.2 hfile))
      · exact List.mem_append_left _ (List.mem_append_left _ hfile')
    rw [Ledger.runBy, hstep]
    dsimp only
    rw [ih hnext separate]
    rfl

end Ledger

theorem Ledger.eq_steps_of_append {es : List Encounter} {past future : List Step}
    (h : steps fs ledger es = past ++ future) :
    past = steps fs ledger (past.map (·.encounter)) := by
  induction past generalizing ledger es with
  | nil => rfl
  | cons s past ih =>
    cases es with
    | nil => cases h
    | cons e es =>
      obtain ⟨rfl, hrest⟩ := List.cons.inj h
      exact congrArg (_ :: ·) (ih hrest)

namespace Listing

def taken (l : Listing) (fs : FileSystem) : List (Path × Bytes) :=
  (l.steps fs).filterMap (Step.taken? fs)

theorem compared_of_steps_eq {l : Listing} {past future : List Step}
    (h : l.steps fs = past ++ step :: future) :
    step.Compared fs (past.filterMap (Step.taken? fs)) := by
  have hledger := Ledger.ledger_of_steps_eq h
  have hkeeps := Ledger.keeps_empty.after fs (past.map (·.encounter))
  rw [List.nil_append, Ledger.taken, ← Ledger.eq_steps_of_append h, ← hledger] at hkeeps
  exact (hkeeps.meet fs step.encounter).2

end Listing

/-- What a run to the end notes as duplicates: of the files that it takes, in order, each that has
the content of an earlier one and another path than the first of these, with the path of that first
one. Taken files are shown all the same, and other files count for nothing in this. It is so with a
ledger of digests as well, if the contents of the files have digests of their own. -/
theorem duplicates_name_the_first_file (l : Listing) (fs : FileSystem) (sink : Sink)
    (done : (l.run fs sink).complete = true) (digest : Bytes → Bytes)
    (no_collision : ∀ file ∈ l.taken fs, ∀ file' ∈ l.taken fs,
      digest file'.2 = digest file.2 → file'.2 = file.2) :
    Ledger.runBy digest fs {} (l.encounters fs) =
      ((Ledger.after fs {} (l.encounters fs)).digested digest,
        Ledger.eventsOf fs {} (l.encounters fs)) ∧
    (l.run fs sink).output = (l.events fs).flatMap (fun e => Utf8.encode (e.text l.view)) ∧
    (l.events fs).filterMap Event.block? =
      (Ledger.eventsOf fs {} (l.encounters fs)).filterMap Event.block? ∧
    (Journal.mk (l.run fs sink).notes).problems .duplicateSnippet = duplicates [] (l.taken fs) ∧
    ∀ past step future, l.steps fs = past ++ step :: future →
      step.Compared fs (past.filterMap (Step.taken? fs)) := by
  refine ⟨Ledger.keeps_empty.runBy _ no_collision, by rw [Listing.run_of_complete done], ?_, ?_,
    fun past step future h => Listing.compared_of_steps_eq h⟩
  · rw [l.filterMap_events (fun _ => rfl) fun _ => rfl, Ledger.eventsOf, List.filterMap_flatMap]
    rfl
  · have hnoted := Ledger.keeps_empty.noted fs (l.encounters fs)
    rw [Ledger.eventsOf, List.filterMap_flatMap] at hnoted
    rw [Listing.problems_of_complete done, l.filterMap_events (fun _ => rfl) fun _ => rfl]
    exact hnoted

/-- A directory `a` where `one` and `two` are the same and `v` has no code, and a directory `b` where
`one` and `three` are the same as these and `w` the same as `v`. -/
def copies : FileSystem where
  workingDirectory := []
  records := [([[0x61]], .directory), ([[0x61], Utf8.encode "one"], .file (Utf8.encode "same\n")),
    ([[0x61], Utf8.encode "two"], .file (Utf8.encode "same\n")),
    ([[0x61], [0x76]], .file (Utf8.encode "//snippet:note:n\n")), ([[0x62]], .directory),
    ([[0x62], Utf8.encode "one"], .file (Utf8.encode "same\n")),
    ([[0x62], Utf8.encode "three"], .file (Utf8.encode "same\n")),
    ([[0x62], [0x77]], .file (Utf8.encode "//snippet:note:n\n"))]
  named := by decide

/-- The SHA-256 digests of the contents in `copies`. -/
def copiesDigest (content : Bytes) : Bytes :=
  if content = Utf8.encode "same\n" then
    [0xA6, 0x32, 0x8A, 0xFC, 0x76, 0xE9, 0xDB, 0x71, 0xDA, 0x29, 0x7E, 0xBF, 0xF4, 0xB0,
      0xD3, 0xE7, 0xA7, 0xEB, 0x3B, 0x01, 0xD9, 0x17, 0xC0, 0x5A, 0x65, 0x73, 0xFE, 0xF1, 0x21,
      0xB6, 0xEC, 0xB6]
  else if content = Utf8.encode "//snippet:note:n\n" then
    [0x3E, 0x69, 0xF7, 0xF7, 0x3E, 0x68, 0x4C, 0x54, 0x75, 0xDA, 0x96, 0xDD, 0x73, 0x3B,
      0x40, 0x09, 0xC2, 0x95, 0x00, 0x66, 0x6A, 0x53, 0xD6, 0xC2, 0x96, 0xF3, 0xD1, 0x94, 0x04,
      0x49, 0xC5, 0x89]
  else []

/-- The second root has `one` eclipsed, and the first comes again under another spelling. -/
theorem duplicates_in_copies :
    let l := Listing.mk [.ofText "a", .ofText "b", .ofText "a/"]
      (.ofList ["/b/one", "one", "two", "three", "v", "w"]) {}
    (l.run copies .unlimited).complete = true ∧
    (∀ file ∈ l.taken copies, ∀ file' ∈ l.taken copies,
      copiesDigest file'.2 = copiesDigest file.2 → file'.2 = file.2) ∧
    (Ledger.runBy copiesDigest copies {} (l.encounters copies)).2 =
      Ledger.eventsOf copies {} (l.encounters copies) ∧
    (Journal.mk (l.run copies .unlimited).notes).problems .duplicateSnippet =
      duplicates [] (l.taken copies) ∧
    duplicates [] (l.taken copies) = [.duplicate (.ofText "a/two") (.ofText "a/one"),
      .duplicate (.ofText "b/three") (.ofText "a/one"), .duplicate (.ofText "b/w") (.ofText "a/v"),
      .duplicate (.ofText "a/two") (.ofText "a/one")] ∧
    (l.events copies).filterMap (fun event => event.block?.map fun b => b.2.name) =
      ["/b/one", "one", "two", "three", "one", "two"] := by
  intro l
  have done : (l.run copies .unlimited).complete = true := Listing.complete_unlimited _ _
  have no_collision : ∀ file ∈ l.taken copies, ∀ file' ∈ l.taken copies,
      copiesDigest file'.2 = copiesDigest file.2 → file'.2 = file.2 := by decide +kernel
  obtain ⟨hdigest, -, -, hproblems, -⟩ :=
    duplicates_name_the_first_file l copies .unlimited done copiesDigest no_collision
  exact ⟨done, no_collision, by rw [hdigest], hproblems, by decide +kernel, by decide +kernel⟩

end SnippetCatalog
