import SnippetCatalog.Listing.Ledger
import SnippetCatalog.Sink

/-!
Listing snippet directories: the events of the whole run, delivered to a sink and a journal. Only
a sink that fails cuts the run short.
-/

namespace SnippetCatalog

structure Listing where
  dirs : List Path
  selection : Selection := .everything
  view : View := {}

namespace Listing

/-- All that is written and noted. Missing names are only known if everything has been seen. -/
def events (l : Listing) (fs : FileSystem) : List Event :=
  let (ledger, events) := Ledger.stopAll {} fs (itinerary fs l.selection l.dirs)
  events ++ if l.selection.names = [] then ledger.missing else []

structure Outcome where
  output : Bytes
  complete : Bool
  notes : List (Category × Problem)
  deriving DecidableEq, Repr

def deliver (view : View) : Sink → List Event → Outcome
  | _, [] => ⟨[], true, []⟩
  | sink, event :: events =>
    let bytes := Utf8.encode (event.text view)
    if sink.fits bytes then
      let rest := deliver view (sink.after bytes) events
      { rest with output := bytes ++ rest.output, notes := event.note?.toList ++ rest.notes }
    else ⟨sink.cut bytes, false, []⟩

def run (l : Listing) (fs : FileSystem) (sink : Sink) : Outcome :=
  deliver l.view sink (l.events fs)

end Listing
end SnippetCatalog
