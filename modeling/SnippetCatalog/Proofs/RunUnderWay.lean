import SnippetCatalog.Proofs.Bystanders
import SnippetCatalog.Proofs.Delivery

/-!
A run under way, which reads, writes and notes in turn and is over as soon as a text does not fit
the sink, in whatever directory it is. Main statements: it comes to what the run by its list of
events comes to; and a sink that fails cuts the run, and nothing else does.
-/

namespace SnippetCatalog

structure Progress where
  ledger : Ledger := {}
  /-- The root that is to be introduced before the next block. -/
  pending : Option Path := none
  delivery : Delivery

namespace Progress

variable (fs : FileSystem) (view : View)

def tell (p : Progress) (event : Event) : Except Ending Progress := do
  let delivery ← p.delivery.tell view event
  .ok { p with delivery }

def tellOf (p : Progress) : Event → Except Ending Progress
  | .block from? s =>
    match p.pending with
    | some root => do
      let p ← { p with pending := none }.tell view (.intro root)
      p.tell view (.block from? s)
    | none => p.tell view (.block from? s)
  | event => p.tell view event

def meet (p : Progress) (e : Encounter) : Except Ending Progress :=
  (p.ledger.meet fs e).2.foldlM (tellOf view) { p with ledger := (p.ledger.meet fs e).1 }

/-- One entry of a directory, where `below` goes through the entries of a sub-directory. -/
def visit (root : Path)
    (below : Selection → Trail → List (Bytes × Entry) → Progress → Except Ending Progress)
    (selection : Selection) (trail : Trail) (p : Progress) (entry : Bytes × Entry) :
    Except Ending Progress :=
  let trail := trail ++ [entry.1]
  match entry.2 with
  | .file _ | .link _ =>
    if selection.takesFile trail.name then p.meet fs view (.entry root (.snippet trail)) else .ok p
  | .special kind => p.meet fs view (.entry root (.special trail kind))
  | .untold reason => p.meet fs view (.entry root (.untold trail reason.fault))
  | .directory =>
    if selection.takesDirectory trail.name then
      match fs.readDirectory (trail.path root) with
      | .error fault => p.meet fs view (.entry root (.badSubdirectory trail fault))
      | .ok entries => below (selection.below trail.name) trail entries p
    else .ok p

def descend (root : Path) :
    Nat → Selection → Trail → List (Bytes × Entry) → Progress → Except Ending Progress
  | 0, _, _, _, p => .ok p
  | depth + 1, selection, trail, entries, p =>
    entries.foldlM (visit fs view root (descend root depth) selection trail) p

def listRoot (selection : Selection) (p : Progress) (root : Path) : Except Ending Progress :=
  match fs.readDirectory root with
  | .error .notFound => .ok p
  | .error fault => p.meet fs view (.badRoot root fault)
  | .ok entries =>
    descend fs view root FileSystem.pathLimit selection [] entries
      { p with pending := if view.hideIntro then none else some root }

def listName (p : Progress) (name : String) : Except Ending Progress :=
  match fs.isDirectory (.ofText name) with
  | .error fault => p.meet fs view (.nowhere name fault)
  | .ok true => p.listRoot fs view .everything (.ofText name)
  | .ok false => { p with pending := none }.meet fs view (.named name (.ofText name))

end Progress

def Listing.remarks (l : Listing) (ledger : Ledger) : List Event :=
  if l.selection.names = [] then ledger.missing else []

def Listing.perform (l : Listing) (fs : FileSystem) (sink : Sink) (journal : Journal) : Ending :=
  .ofDelivery do
    let p ← (l.selection.names.filter fun n => (Path.ofText n).isAbsolute).foldlM
      (Progress.listName fs l.view) { delivery := { sink, journal } }
    let p ← l.dirs.foldlM (Progress.listRoot fs l.view l.selection) p
    p.delivery.tellAll l.view (l.remarks p.ledger)

/-! ### Introductions -/

def introduced (pending : Option Path) (events : List Event) : List Event :=
  match pending with
  | some root => introduce root events
  | none => events

def pendingAfter (pending : Option Path) (events : List Event) : Option Path :=
  if events.any fun e => e.block?.isSome then none else pending

theorem introduced_append (pending : Option Path) (events later : List Event) :
    introduced pending (events ++ later) =
      introduced pending events ++ introduced (pendingAfter pending events) later := by
  cases pending with
  | none =>
    unfold pendingAfter
    rw [ite_self]
    rfl
  | some root =>
    show introduce root (events ++ later) = introduce root events ++ _
    unfold pendingAfter
    -- the induction stops at the first block, where the introduction is made and nothing is pending
    fun_induction introduce root events with
    | case1 => rfl
    | case2 => rfl
    | case3 e es hother ih =>
      cases e with
      | block from? s => exact absurd rfl (hother from? s)
      | _ => exact congrArg _ ih

theorem pendingAfter_append (pending : Option Path) (events later : List Event) :
    pendingAfter pending (events ++ later) = pendingAfter (pendingAfter pending events) later := by
  unfold pendingAfter
  rw [List.any_append]
  cases events.any fun e => e.block?.isSome <;> simp

theorem Delivery.tellAll_introduced {view : View} (root : Path) (events : List Event) (d : Delivery) :
    d.tellAll view (introduced (if view.hideIntro then none else some root) events) =
      d.tellAll view (introduce root events) := by
  by_cases hidden : view.hideIntro = true
  · rw [if_pos hidden]
    show d.tellAll view events = _
    fun_induction introduce root events generalizing d with
    | case1 => rfl
    | case2 from? s events =>
      unfold tellAll
      rw [List.foldlM_cons (f := tell view) (a := .intro root), Delivery.tell_hidden_intro hidden]
      rfl
    | case3 event events _ ih =>
      unfold tellAll at ih ⊢
      rw [List.foldlM_cons, List.foldlM_cons]
      exact congrArg _ (funext ih)
  · rw [if_neg hidden]
    rfl

namespace Progress

variable {fs : FileSystem} {view : View}

def telling (view : View) (p : Progress) (ledger : Ledger) (pending : Option Path)
    (events : List Event) : Except Ending Progress :=
  (p.delivery.tellAll view events).map fun delivery => { ledger, pending, delivery }

theorem telling_bind {p : Progress} {ledger ledger' : Ledger} {pending pending' : Option Path}
    {events later : List Event} {next : Progress → Except Ending Progress}
    (hnext : ∀ delivery, next { ledger, pending, delivery } =
      telling view { ledger, pending, delivery } ledger' pending' later) :
    p.telling view ledger pending events >>= next =
      p.telling view ledger' pending' (events ++ later) := by
  unfold telling Delivery.tellAll at hnext ⊢
  rw [List.foldlM_append]
  -- a run that is over stays as it is, whatever was to be next
  cases events.foldlM (Delivery.tell view) p.delivery with
  | error ending => rfl
  | ok delivery => exact hnext delivery

theorem tell_eq_telling (p : Progress) (event : Event) :
    p.tell view event = p.telling view p.ledger p.pending [event] := by
  have hone : p.delivery.tellAll view [event] = p.delivery.tell view event := by
    unfold Delivery.tellAll
    rw [List.foldlM_cons]
    cases p.delivery.tell view event <;> rfl
  rw [telling, hone, tell]
  cases p.delivery.tell view event <;> rfl

theorem tellOf_eq_telling (p : Progress) (event : Event) : p.tellOf view event =
    p.telling view p.ledger (pendingAfter p.pending [event]) (introduced p.pending [event]) := by
  obtain ⟨ledger, pending, delivery⟩ := p
  cases event with
  | block from? s =>
    cases pending with
    | none => exact tell_eq_telling _ _
    | some root =>
      show (tell view ⟨ledger, none, delivery⟩ (.intro root) >>= fun p =>
        p.tell view (.block from? s)) = _
      rw [tell_eq_telling]
      exact telling_bind fun _ => tell_eq_telling _ _
  | intro root =>
    cases pending <;> exact tell_eq_telling _ _
  | noted c problem =>
    cases pending <;> exact tell_eq_telling _ _

theorem foldlM_tellOf (p : Progress) (events : List Event) : events.foldlM (tellOf view) p =
    p.telling view p.ledger (pendingAfter p.pending events) (introduced p.pending events) := by
  induction events generalizing p with
  | nil =>
    obtain ⟨ledger, pending, delivery⟩ := p
    cases pending <;> rfl
  | cons event events ih =>
    -- the first event settles what is pending for the others
    have hsplit : event :: events = [event] ++ events := rfl
    rw [List.foldlM_cons, tellOf_eq_telling, hsplit, introduced_append, pendingAfter_append]
    exact telling_bind fun _ => ih _

/-- Wherever it stands, `f` comes by the encounters and nothing else. -/
def Performs (fs : FileSystem) (view : View) (f : Progress → Except Ending Progress)
    (es : List Encounter) : Prop :=
  ∀ p : Progress,
    f p = p.telling view (Ledger.after fs p.ledger es)
      (pendingAfter p.pending (Ledger.eventsOf fs p.ledger es))
      (introduced p.pending (Ledger.eventsOf fs p.ledger es))

theorem Performs.nil : Performs fs view .ok [] := by
  intro p
  obtain ⟨ledger, pending, delivery⟩ := p
  cases pending <;> rfl

theorem performs_meet (e : Encounter) : Performs fs view (meet fs view · e) [e] := by
  intro p
  show (p.ledger.meet fs e).2.foldlM (tellOf view) _ = _
  rw [foldlM_tellOf, Ledger.eventsOf_singleton]
  rfl

theorem Performs.append {f g : Progress → Except Ending Progress} {es es' : List Encounter}
    (hf : Performs fs view f es) (hg : Performs fs view g es') :
    Performs fs view (fun p => f p >>= g) (es ++ es') := by
  intro p
  dsimp only
  rw [hf, Ledger.eventsOf_append, introduced_append, pendingAfter_append, Ledger.after_append]
  exact telling_bind fun _ => hg _

theorem Performs.foldlM {α : Type} {f : Progress → α → Except Ending Progress}
    {encounters : α → List Encounter} (as : List α)
    (h : ∀ a, Performs fs view (f · a) (encounters a)) :
    Performs fs view (fun p => as.foldlM f p) (as.flatMap encounters) := by
  induction as with
  | nil => exact .nil
  | cons a as ih => exact (h a).append ih

theorem performs_visit {root : Path}
    {below : Selection → Trail → List (Bytes × Entry) → Progress → Except Ending Progress}
    {visits : Selection → Trail → List (Bytes × Entry) → List Visit}
    (hbelow : ∀ selection trail entries, Performs fs view (below selection trail entries)
      ((visits selection trail entries).map (.entry root)))
    (selection : Selection) (trail : Trail) (entry : Bytes × Entry) :
    Performs fs view (visit fs view root below selection trail · entry)
      ((Visit.ofEntry fs root visits selection trail entry).map (.entry root)) := by
  obtain ⟨name, entry⟩ := entry
  unfold visit Visit.ofEntry
  -- both go by the type of the entry and then by the same questions
  cases entry with
  | file content | link target =>
    by_cases hselected : selection.takesFile (Trail.name (trail ++ [name])) = true
    · simp only [hselected, if_true]
      exact performs_meet _
    · simp only [hselected]
      exact .nil
  | special kind | untold reason => exact performs_meet _
  | directory =>
    by_cases hselected : selection.takesDirectory (Trail.name (trail ++ [name])) = true
    · simp only [hselected, if_true]
      cases fs.readDirectory (Trail.path root (trail ++ [name])) with
      | error fault => exact performs_meet _
      | ok entries => exact hbelow _ _ _
    · simp only [hselected]
      exact .nil

theorem performs_descend (root : Path) (depth : Nat) (selection : Selection) (trail : Trail)
    (entries : List (Bytes × Entry)) :
    Performs fs view (descend fs view root depth selection trail entries)
      ((Visit.ofEntries fs root depth selection trail entries).map (.entry root)) := by
  induction depth generalizing selection trail entries with
  | zero => exact .nil
  | succ depth ih =>
    rw [Visit.ofEntries, List.map_flatMap]
    exact Performs.foldlM entries (performs_visit ih selection trail)

/-- Wherever it stands, `f` makes the stops and nothing else. What is pending then is never told of,
since each stop that has a block settles first what is pending. -/
def Makes (fs : FileSystem) (view : View) (f : Progress → Except Ending Progress)
    (stops : List Stop) : Prop :=
  ∀ ledger pending, ∃ pending', ∀ delivery,
    f { ledger, pending, delivery } = telling view { ledger, pending, delivery }
      (ledger.stopAll fs stops).1 pending' (ledger.stopAll fs stops).2

theorem Makes.nil : Makes fs view .ok [] := fun _ pending => ⟨pending, fun _ => rfl⟩

theorem Makes.append {f g : Progress → Except Ending Progress} {stops stops' : List Stop}
    (hf : Makes fs view f stops) (hg : Makes fs view g stops') :
    Makes fs view (fun p => f p >>= g) (stops ++ stops') := by
  intro ledger pending
  obtain ⟨middle, hfirst⟩ := hf ledger pending
  obtain ⟨pending', hsecond⟩ := hg (ledger.stopAll fs stops).1 middle
  refine ⟨pending', fun delivery => ?_⟩
  dsimp only
  rw [hfirst, Ledger.stopAll_append]
  exact telling_bind hsecond

theorem Makes.foldlM {α : Type} {f : Progress → α → Except Ending Progress} {stop : α → Stop}
    (as : List α) (h : ∀ a, Makes fs view (f · a) [stop a]) :
    Makes fs view (fun p => as.foldlM f p) (as.map stop) := by
  induction as with
  | nil => exact .nil
  | cons a as ih => exact (h a).append ih

/-- Coming by the encounters of a stop is making the stop, if what is told of them with the root that
is pending by then is what is told at the stop. -/
theorem Performs.makes {f : Progress → Except Ending Progress} {stop : Stop}
    (hf : Performs fs view f stop.encounters) (settle : Option Path → Option Path)
    (htell : ∀ (ledger : Ledger) pending (d : Delivery),
      d.tellAll view (introduced (settle pending) (Ledger.eventsOf fs ledger stop.encounters)) =
        d.tellAll view (ledger.stop fs stop).2) :
    Makes fs view (fun p => f { p with pending := settle p.pending }) [stop] := by
  intro ledger pending
  refine ⟨pendingAfter (settle pending) (Ledger.eventsOf fs ledger stop.encounters),
    fun delivery => ?_⟩
  dsimp only
  rw [hf, Ledger.stopAll_singleton, Ledger.stop_fst, telling, telling, htell]

theorem makes_meet {e : Encounter} {stop : Stop} (he : stop.encounters = [e])
    (settle : Option Path → Option Path)
    (htell : ∀ (ledger : Ledger) pending,
      introduced (settle pending) (ledger.meet fs e).2 = (ledger.stop fs stop).2) :
    Makes fs view (fun p => meet fs view { p with pending := settle p.pending } e) [stop] := by
  have hmeet : Performs fs view (meet fs view · e) stop.encounters := by
    rw [he]
    exact performs_meet e
  apply hmeet.makes settle
  intro ledger pending d
  rw [he, Ledger.eventsOf_singleton, htell]

theorem makes_badRoot (root : Path) (fault : Fault) :
    Makes fs view (meet fs view · (.badRoot root fault)) [.badRoot root fault] := by
  apply makes_meet rfl id
  intro ledger pending
  cases pending <;> rfl

theorem makes_nowhere (name : String) (fault : Fault) :
    Makes fs view (meet fs view · (.nowhere name fault)) [.nowhere name fault] := by
  apply makes_meet rfl id
  intro ledger pending
  cases pending <;> rfl

theorem makes_tree (root : Path) (selection : Selection) (entries : List (Bytes × Entry)) :
    Makes fs view (fun p => descend fs view root FileSystem.pathLimit selection [] entries
      { p with pending := if view.hideIntro then none else some root })
        [.tree root (Visit.below fs root selection entries)] := by
  have hwalk : Performs fs view (descend fs view root FileSystem.pathLimit selection [] entries)
      (Stop.tree root (Visit.below fs root selection entries)).encounters :=
    performs_descend root FileSystem.pathLimit selection [] entries
  apply hwalk.makes fun _ => if view.hideIntro then none else some root
  intro ledger pending d
  have hstop : (ledger.stop fs (.tree root (Visit.below fs root selection entries))).2 =
      introduce root (Ledger.eventsOf fs ledger ((Visit.below fs root selection entries).map
        (Encounter.entry root))) := by
    show introduce root (ledger.visitAll fs root _).2 = _
    rw [Ledger.visitAll_eq]
  rw [hstop]
  exact d.tellAll_introduced root _

theorem makes_listRoot (selection : Selection) (root : Path) :
    Makes fs view (listRoot fs view selection · root) [.atRoot fs selection root] := by
  unfold listRoot Stop.atRoot
  cases fs.readDirectory root with
  | error fault =>
    cases fault with
    | notFound => exact fun ledger pending => ⟨pending, fun _ => rfl⟩
    | _ => exact makes_badRoot root _
  | ok entries => exact makes_tree root selection entries

theorem makes_listName (name : String) :
    Makes fs view (listName fs view · name) [.atName fs name] := by
  unfold listName Stop.atName
  cases fs.isDirectory (.ofText name) with
  | error fault => exact makes_nowhere name fault
  | ok directory =>
    cases directory with
    | true => exact makes_listRoot .everything (.ofText name)
    | false => exact makes_meet rfl (fun _ => none) fun _ _ => rfl

end Progress

namespace Listing

variable (l : Listing) (fs : FileSystem)

theorem makes_itinerary : Progress.Makes fs l.view
    (fun p => (l.selection.names.filter fun n => (Path.ofText n).isAbsolute).foldlM
      (Progress.listName fs l.view) p >>= l.dirs.foldlM (Progress.listRoot fs l.view l.selection))
    (itinerary fs l.selection l.dirs) :=
  Progress.Makes.append (.foldlM _ Progress.makes_listName)
    (.foldlM _ (Progress.makes_listRoot l.selection))

theorem perform_eq_tellAll (sink : Sink) (journal : Journal) : l.perform fs sink journal =
    .ofDelivery (Delivery.tellAll l.view { sink, journal } (l.events fs)) := by
  obtain ⟨pending, hstops⟩ := l.makes_itinerary fs {} none
  have hperform : l.perform fs sink journal = .ofDelivery
      ((Progress.telling l.view { delivery := { sink, journal } }
        (Ledger.stopAll {} fs (itinerary fs l.selection l.dirs)).1 pending
        (Ledger.stopAll {} fs (itinerary fs l.selection l.dirs)).2) >>=
          fun p => p.delivery.tellAll l.view (l.remarks p.ledger)) := by
    rw [← hstops, bind_assoc]
    rfl
  have hevents : l.events fs = (Ledger.stopAll {} fs (itinerary fs l.selection l.dirs)).2 ++
      l.remarks (Ledger.stopAll {} fs (itinerary fs l.selection l.dirs)).1 := rfl
  rw [hperform, hevents, Progress.telling]
  unfold Delivery.tellAll
  rw [List.foldlM_append]
  cases List.foldlM (Delivery.tell l.view) _ _ <;> rfl

theorem perform_eq (sink : Sink) (journal : Journal) :
    l.perform fs sink journal = ⟨(l.run fs sink).output, (l.run fs sink).complete,
      journal.addAll (l.run fs sink).notes⟩ := by
  rw [perform_eq_tellAll, Delivery.ofDelivery_tellAll]
  rfl

theorem noted_of_mem_remarks {ledger : Ledger} {event : Event} (h : event ∈ l.remarks ledger) :
    ∃ problem, event = .noted .missingExpectedSnippet problem := by
  unfold remarks at h
  split at h
  · obtain ⟨entry, -, rfl⟩ := List.mem_map.1 h
    exact ⟨_, rfl⟩
  · cases h

theorem text_of_mem_remarks {ledger : Ledger} {event : Event} (h : event ∈ l.remarks ledger) :
    event.text l.view = "" := by
  obtain ⟨problem, rfl⟩ := l.noted_of_mem_remarks h
  rfl

theorem problems_missing_of_cut {sink : Sink} (h : (l.run fs sink).complete = false) :
    (Journal.mk (l.run fs sink).notes).problems .missingExpectedSnippet = [] := by
  have hcut : l.run fs sink =
      deliver l.view sink (Ledger.stopAll {} fs (itinerary fs l.selection l.dirs)).2 :=
    deliver_append_of_cut (fun _ => l.text_of_mem_remarks) h
  have hprefix : (Journal.mk (l.run fs sink).notes).problems .missingExpectedSnippet <+:
      (Ledger.stopAll {} fs (itinerary fs l.selection l.dirs)).2.filterMap
        (Event.problem? .missingExpectedSnippet) := by
    rw [hcut, ← Event.problems_filterMap_note?]
    exact Journal.problems_isPrefix notes_deliver_isPrefix _
  rw [Ledger.filterMap_missing_stopAll] at hprefix
  exact List.prefix_nil.1 hprefix

end Listing

/-- A sink that fails cuts a run, and nothing else does. Writing as it goes or by its list of
events, a run that has a sink with room for `limit` bytes writes that much of what the run with all
the room writes, fails only if that is more, and has noted until then what the other one notes. -/
theorem failing_sink_cuts_run (l : Listing) (fs : FileSystem) (journal : Journal) (limit : Nat) :
    let free := l.perform fs .unlimited journal
    let cut := l.perform fs ⟨some limit⟩ journal
    (∀ sink, l.perform fs sink journal = ⟨(l.run fs sink).output, (l.run fs sink).complete,
      journal.addAll (l.run fs sink).notes⟩) ∧
    free.complete = true ∧
    cut.output = free.output.take limit ∧
    (cut.complete = false ↔ limit < free.output.length) ∧
    (cut.complete = true → cut.journal = free.journal) ∧
    (∀ c, journal.problems c <+: cut.journal.problems c ∧
      cut.journal.problems c <+: free.journal.problems c) ∧
    (cut.complete = false → cut.journal.problems .missingExpectedSnippet =
      journal.problems .missingExpectedSnippet) := by
  intro free cut
  have hfree : free = ⟨(l.events fs).flatMap fun e => Utf8.encode (e.text l.view), true,
      journal.addAll ((l.events fs).filterMap Event.note?)⟩ := by
    show l.perform fs .unlimited journal = _
    rw [l.perform_eq, Listing.run, Listing.deliver_unlimited]
  have hcut : cut = ⟨(l.run fs ⟨some limit⟩).output, (l.run fs ⟨some limit⟩).complete,
      journal.addAll (l.run fs ⟨some limit⟩).notes⟩ := l.perform_eq fs ⟨some limit⟩ journal
  have hcomplete : (l.run fs ⟨some limit⟩).complete = true ↔
      ((l.events fs).flatMap fun e => Utf8.encode (e.text l.view)).length ≤ limit :=
    Listing.complete_deliver_iff
  rw [hfree, hcut]
  refine ⟨fun sink => l.perform_eq fs sink journal, rfl, Listing.output_deliver, ?_, ?_, ?_, ?_⟩
  · dsimp only
    rw [← Nat.not_le, ← hcomplete, Bool.not_eq_true]
  · intro done
    dsimp only at done ⊢
    rw [Listing.run_of_complete done]
  · intro c
    dsimp only
    rw [Journal.problems_addAll, Journal.problems_addAll]
    refine ⟨List.prefix_append _ _, (List.prefix_append_right_inj _).2 ?_⟩
    exact Journal.problems_isPrefix Listing.notes_deliver_isPrefix c
  · intro hincomplete
    dsimp only at hincomplete ⊢
    rw [Journal.problems_addAll, l.problems_missing_of_cut fs hincomplete, List.append_nil]

end SnippetCatalog
