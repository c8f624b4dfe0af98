import SnippetCatalog.Proofs.Encounters

/-!
What a sink makes of events. A sink that fails takes the beginning of what would be written, and
nothing is written or noted after the event that did not fit. Main statements: what is written,
whether it is all, and which notes are made before; and telling of events one at a time, until one
does not fit, comes to the same.
-/

namespace SnippetCatalog

namespace Journal

theorem addAll_nil (j : Journal) : j.addAll [] = j := congrArg mk (List.append_nil j.notes)

theorem addAll_append (j : Journal) (notes later : List (Category × Problem)) :
    j.addAll (notes ++ later) = (j.addAll notes).addAll later :=
  congrArg mk (List.append_assoc j.notes notes later).symm

theorem problems_addAll (j : Journal) (notes : List (Category × Problem)) (c : Category) :
    (j.addAll notes).problems c = j.problems c ++ (Journal.mk notes).problems c := by
  unfold addAll problems
  rw [List.filter_append, List.map_append]

theorem problems_isPrefix {notes notes' : List (Category × Problem)} (h : notes <+: notes')
    (c : Category) : (Journal.mk notes).problems c <+: (Journal.mk notes').problems c :=
  (h.filter _).map _

end Journal

namespace Sink

theorem fits_nil (sink : Sink) : sink.fits [] = true := by
  cases sink with
  | mk room => cases room <;> rfl

theorem after_nil (sink : Sink) : sink.after [] = sink := by
  cases sink with
  | mk room => cases room <;> rfl

end Sink

namespace Listing

variable {view : View} {n : Nat} {sink : Sink} {events : List Event}

theorem deliver_unlimited (view : View) (events : List Event) : deliver view .unlimited events =
    ⟨events.flatMap fun e => Utf8.encode (e.text view), true, events.filterMap Event.note?⟩ :=
  deliver_of_complete (complete_unlimited view events)

theorem deliver_cons_of_fits {e : Event} (h : sink.fits (Utf8.encode (e.text view)) = true) :
    deliver view sink (e :: events) =
      { deliver view (sink.after (Utf8.encode (e.text view))) events with
        output := Utf8.encode (e.text view) ++
          (deliver view (sink.after (Utf8.encode (e.text view))) events).output
        notes := e.note?.toList ++
          (deliver view (sink.after (Utf8.encode (e.text view))) events).notes } := by
  rw [deliver]
  exact if_pos h

theorem deliver_cons_of_not_fits {e : Event}
    (h : ¬ sink.fits (Utf8.encode (e.text view)) = true) :
    deliver view sink (e :: events) = ⟨sink.cut (Utf8.encode (e.text view)), false, []⟩ := by
  rw [deliver]
  exact if_neg h

theorem output_deliver : (deliver view ⟨some n⟩ events).output =
    (events.flatMap fun e => Utf8.encode (e.text view)).take n := by
  induction events generalizing n with
  | nil => exact List.take_nil.symm
  | cons e es ih =>
    rw [List.flatMap_cons]
    by_cases h : (Utf8.encode (e.text view)).length ≤ n
    · have hfits : Sink.fits ⟨some n⟩ (Utf8.encode (e.text view)) = true := decide_eq_true h
      have hrest := ih (n := n - (Utf8.encode (e.text view)).length)
      rw [deliver_cons_of_fits hfits, List.take_append, List.take_of_length_le h, ← hrest]
      rfl
    · have hfits : ¬ Sink.fits ⟨some n⟩ (Utf8.encode (e.text view)) = true := by
        rwa [Sink.fits, decide_eq_true_iff]
      rw [deliver_cons_of_not_fits hfits,
        List.take_append_of_le_length (Nat.le_of_lt (Nat.lt_of_not_le h))]
      rfl

theorem complete_deliver_iff : (deliver view ⟨some n⟩ events).complete = true ↔
    (events.flatMap fun e => Utf8.encode (e.text view)).length ≤ n := by
  induction events generalizing n with
  | nil => simp [deliver]
  | cons e es ih =>
    rw [List.flatMap_cons, List.length_append]
    by_cases h : (Utf8.encode (e.text view)).length ≤ n
    · have hfits : Sink.fits ⟨some n⟩ (Utf8.encode (e.text view)) = true := decide_eq_true h
      have hrest := ih (n := n - (Utf8.encode (e.text view)).length)
      rw [deliver_cons_of_fits hfits]
      exact hrest.trans (by omega)
    · have hfits : ¬ Sink.fits ⟨some n⟩ (Utf8.encode (e.text view)) = true := by
        rwa [Sink.fits, decide_eq_true_iff]
      rw [deliver_cons_of_not_fits hfits]
      simp only [Bool.false_eq_true, false_iff]
      omega

theorem notes_deliver_isPrefix :
    (deliver view sink events).notes <+: events.filterMap Event.note? := by
  induction events generalizing sink with
  | nil => exact List.prefix_rfl
  | cons e es ih =>
    by_cases hfits : sink.fits (Utf8.encode (e.text view)) = true
    · have hsplit : (e :: es).filterMap Event.note? =
          e.note?.toList ++ es.filterMap Event.note? := by
        rw [List.filterMap_cons]
        cases e.note? <;> rfl
      rw [deliver_cons_of_fits hfits, hsplit]
      exact (List.prefix_append_right_inj _).2 ih
    · rw [deliver_cons_of_not_fits hfits]
      exact List.nil_prefix

theorem complete_of_silent (hsilent : ∀ e ∈ events, e.text view = "") :
    (deliver view sink events).complete = true := by
  induction events generalizing sink with
  | nil => rfl
  | cons e es ih =>
    have hnothing : Utf8.encode (e.text view) = [] := by
      rw [hsilent e List.mem_cons_self]
      rfl
    have hfits : sink.fits (Utf8.encode (e.text view)) = true := by
      rw [hnothing]
      exact sink.fits_nil
    rw [deliver_cons_of_fits hfits]
    exact ih fun e' he' => hsilent e' (List.mem_cons_of_mem e he')

/-- Events without a text cannot fail, so a run that is cut is cut before them. -/
theorem deliver_append_of_cut {silent : List Event} (hsilent : ∀ e ∈ silent, e.text view = "")
    (h : (deliver view sink (events ++ silent)).complete = false) :
    deliver view sink (events ++ silent) = deliver view sink events := by
  induction events generalizing sink with
  | nil =>
    rw [List.nil_append, complete_of_silent hsilent] at h
    cases h
  | cons e es ih =>
    rw [List.cons_append] at h ⊢
    by_cases hfits : sink.fits (Utf8.encode (e.text view)) = true
    · rw [deliver_cons_of_fits hfits] at h
      rw [deliver_cons_of_fits hfits, deliver_cons_of_fits hfits, ih h]
    · rw [deliver_cons_of_not_fits hfits, deliver_cons_of_not_fits hfits]

end Listing

/-! ### One event at a time -/

structure Ending where
  output : Bytes
  complete : Bool
  journal : Journal

structure Delivery where
  sink : Sink
  output : Bytes := []
  journal : Journal

namespace Delivery

def write (d : Delivery) (bytes : Bytes) : Except Ending Delivery :=
  if d.sink.fits bytes then .ok { d with sink := d.sink.after bytes, output := d.output ++ bytes }
  else .error ⟨d.output ++ d.sink.cut bytes, false, d.journal⟩

def tell (view : View) (d : Delivery) : Event → Except Ending Delivery
  | .noted category problem => .ok { d with journal := d.journal.add category problem }
  | event => d.write (Utf8.encode (event.text view))

def tellAll (view : View) (d : Delivery) (events : List Event) : Except Ending Delivery :=
  events.foldlM (tell view) d

end Delivery

def Ending.ofDelivery : Except Ending Delivery → Ending
  | .ok d => ⟨d.output, true, d.journal⟩
  | .error ending => ending

namespace Delivery

variable {view : View} {d : Delivery} {e : Event}

theorem tell_of_fits (h : d.sink.fits (Utf8.encode (e.text view)) = true) :
    d.tell view e = .ok {
      sink := d.sink.after (Utf8.encode (e.text view))
      output := d.output ++ Utf8.encode (e.text view)
      journal := d.journal.addAll e.note?.toList } := by
  cases e with
  | noted category problem =>
    have hnothing : Utf8.encode (Event.text view (.noted category problem)) = [] := rfl
    rw [hnothing, Sink.after_nil, List.append_nil]
    rfl
  | intro root | block from? s =>
    show d.write _ = .ok ⟨_, _, d.journal.addAll []⟩
    rw [write, if_pos h, Journal.addAll_nil]

theorem tell_of_not_fits (h : ¬ d.sink.fits (Utf8.encode (e.text view)) = true) :
    d.tell view e =
      .error ⟨d.output ++ d.sink.cut (Utf8.encode (e.text view)), false, d.journal⟩ := by
  cases e with
  | noted category problem => exact absurd d.sink.fits_nil h
  | _ => exact if_neg h

theorem tell_hidden_intro (hidden : view.hideIntro = true) (d : Delivery) (root : Path) :
    d.tell view (.intro root) = .ok d := by
  have hnothing : Utf8.encode (Event.text view (.intro root)) = [] := by
    rw [Event.text, if_pos hidden]
    rfl
  have hfits : d.sink.fits (Utf8.encode (Event.text view (.intro root))) = true := by
    rw [hnothing]
    exact d.sink.fits_nil
  rw [tell_of_fits hfits, hnothing, Sink.after_nil, List.append_nil]
  exact congrArg (fun journal => Except.ok { d with journal }) (d.journal.addAll_nil)

theorem ofDelivery_tellAll (view : View) (d : Delivery) (events : List Event) :
    Ending.ofDelivery (d.tellAll view events) =
      ⟨d.output ++ (Listing.deliver view d.sink events).output,
        (Listing.deliver view d.sink events).complete,
        d.journal.addAll (Listing.deliver view d.sink events).notes⟩ := by
  induction events generalizing d with
  | nil =>
    show Ending.mk d.output true d.journal = ⟨d.output ++ [], true, d.journal.addAll []⟩
    rw [List.append_nil, Journal.addAll_nil]
  | cons e es ih =>
    have hcons : d.tellAll view (e :: es) = d.tell view e >>= fun d' => d'.tellAll view es :=
      List.foldlM_cons
    rw [hcons]
    by_cases h : d.sink.fits (Utf8.encode (e.text view)) = true
    · rw [tell_of_fits h, Listing.deliver_cons_of_fits h]
      dsimp only
      rw [← List.append_assoc, Journal.addAll_append]
      exact ih _
    · rw [tell_of_not_fits h, Listing.deliver_cons_of_not_fits h, Journal.addAll_nil]
      rfl

end Delivery

end SnippetCatalog
