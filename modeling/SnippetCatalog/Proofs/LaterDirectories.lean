import SnippetCatalog.Proofs.Finding
import SnippetCatalog.Proofs.RunUnderWay

/-!
Directories behind others. A run comes to them with the ledger that the others have left, when all
that these show has been shown. Main statement: with more directories behind those that there were,
a run writes what it wrote and then more, it notes what it noted and then more, but for missing
names, and what was found under a name still is.
-/

namespace SnippetCatalog

theorem itinerary_append (fs : FileSystem) (s : Selection) (dirs more : List Path) :
    itinerary fs s (dirs ++ more) = itinerary fs s dirs ++ more.map (Stop.atRoot fs s) := by
  unfold itinerary
  rw [List.map_append, List.append_assoc]

namespace Listing

variable {fs : FileSystem} {s : Selection} {view : View}

def journey (l : Listing) (fs : FileSystem) : Ledger × List Event :=
  Ledger.stopAll {} fs (itinerary fs l.selection l.dirs)

theorem events_eq (l : Listing) (fs : FileSystem) :
    l.events fs = (l.journey fs).2 ++ l.remarks (l.journey fs).1 := rfl

theorem journey_append (dirs more : List Path) :
    let before := (Listing.mk dirs s view).journey fs
    let behind := before.1.stopAll fs (more.map (Stop.atRoot fs s))
    (Listing.mk (dirs ++ more) s view).journey fs = (behind.1, before.2 ++ behind.2) := by
  dsimp only [journey]
  rw [itinerary_append, Ledger.stopAll_append]

theorem journey_isPrefix (fs : FileSystem) (s : Selection) (view : View) (dirs more : List Path) :
    ((Listing.mk dirs s view).journey fs).2 <+:
      ((Listing.mk (dirs ++ more) s view).journey fs).2 := by
  rw [journey_append]
  exact List.prefix_append _ _

theorem output_of_journey {l : Listing} {sink : Sink} (done : (l.run fs sink).complete = true) :
    (l.run fs sink).output = (l.journey fs).2.flatMap fun e => Utf8.encode (e.text l.view) := by
  have hsilent : (l.remarks (l.journey fs).1).flatMap (fun e => Utf8.encode (e.text l.view)) =
      [] := by
    rw [List.flatMap_eq_nil_iff]
    intro event hevent
    rw [l.text_of_mem_remarks hevent]
    rfl
  rw [run_of_complete done, events_eq, List.flatMap_append, hsilent, List.append_nil]

theorem problems_journey_of_complete {l : Listing} {sink : Sink}
    (done : (l.run fs sink).complete = true) {c : Category} (hc : c ≠ .missingExpectedSnippet) :
    (Journal.mk (l.run fs sink).notes).problems c =
      (l.journey fs).2.filterMap (Event.problem? c) := by
  have hother : (l.remarks (l.journey fs).1).filterMap (Event.problem? c) = [] := by
    rw [List.filterMap_eq_nil_iff]
    intro event hevent
    obtain ⟨problem, rfl⟩ := l.noted_of_mem_remarks hevent
    exact if_neg hc.symm
  rw [problems_of_complete done, events_eq, List.filterMap_append, hother, List.append_nil]

end Listing

theorem FileSystem.find_append {fs : FileSystem} {dirs : List Path} {name : String}
    {found : Bytes × Path} (h : fs.find dirs name = .ok found) (more : List Path) :
    fs.find (dirs ++ more) name = .ok found := by
  cases habsolute : (Path.ofText name).isAbsolute with
  | true =>
    rw [find_of_absolute habsolute] at h ⊢
    exact h
  | false =>
    rw [find_eq_ok_iff habsolute] at h ⊢
    rw [firstReadable_append, h, Option.some_or]

/-- More directories behind those that there were change nothing of what these give: where neither
sink fails, the output goes on from what it was, and so do the problems of every category but that
of missing names; and a name that was found is found in the same file. -/
theorem later_directories_only_add (fs : FileSystem) (dirs more : List Path) (s : Selection)
    (view : View) (sink sink' : Sink)
    (done : ((Listing.mk dirs s view).run fs sink).complete = true)
    (done' : ((Listing.mk (dirs ++ more) s view).run fs sink').complete = true) :
    let run := (Listing.mk dirs s view).run fs sink
    let longer := (Listing.mk (dirs ++ more) s view).run fs sink'
    run.output <+: longer.output ∧
    (∀ c, c ≠ .missingExpectedSnippet →
      (Journal.mk run.notes).problems c <+: (Journal.mk longer.notes).problems c) ∧
    ∀ name content path, fs.find dirs name = .ok (content, path) →
      fs.find (dirs ++ more) name = .ok (content, path) := by
  intro run longer
  have hprefix := Listing.journey_isPrefix fs s view dirs more
  refine ⟨?_, ?_, fun name content path h => FileSystem.find_append h more⟩
  · rw [Listing.output_of_journey done, Listing.output_of_journey done']
    obtain ⟨behind, hbehind⟩ := hprefix
    rw [← hbehind, List.flatMap_append]
    exact List.prefix_append _ _
  · intro c hc
    rw [Listing.problems_journey_of_complete done hc, Listing.problems_journey_of_complete done' hc]
    exact hprefix.filterMap _

/-- A directory `a` with a file `x` that expects `y`, and a directory `b` with files `x` and `y` and
a file `z` that is the same as the first. -/
def overlappingRoots : FileSystem where
  workingDirectory := []
  records := [([[0x61]], .directory),
    ([[0x61], [0x78]], .file (Utf8.encode "//snippet:expects:y\nA\n")), ([[0x62]], .directory),
    ([[0x62], [0x78]], .file [0x42, 0x0A]), ([[0x62], [0x79]], .file [0x43, 0x0A]),
    ([[0x62], [0x7A]], .file (Utf8.encode "//snippet:expects:y\nA\n"))]
  named := by decide

theorem later_directories_only_add_in_overlappingRoots :
    let dirs : List Path := [.ofText "a"]
    let more : List Path := [.ofText "b"]
    let run := (Listing.mk dirs .everything {}).run overlappingRoots .unlimited
    let longer := (Listing.mk (dirs ++ more) .everything {}).run overlappingRoots .unlimited
    run.complete = true ∧ longer.complete = true ∧
    run.output = Utf8.encode "in: a\n\n    x\n        Expects: y\n" ∧ run.output <+: longer.output ∧
    run.notes = [(.missingExpectedSnippet, .missingExpected "y" ["x"])] ∧
    longer.notes = [(.eclipsedSnippet, .eclipsed "x" (.ofText "b") (.ofText "a")),
      (.duplicateSnippet, .duplicate (.ofText "b/z") (.ofText "a/x"))] ∧
    overlappingRoots.find (dirs ++ more) "x" =
      .ok (Utf8.encode "//snippet:expects:y\nA\n", .ofText "a/x") := by
  intro dirs more run longer
  have done : run.complete = true := Listing.complete_unlimited _ _
  have done' : longer.complete = true := Listing.complete_unlimited _ _
  obtain ⟨houtput, -, hfind⟩ := later_directories_only_add overlappingRoots dirs more .everything {}
    .unlimited .unlimited done done'
  exact ⟨done, done', by decide +kernel, houtput, by decide +kernel, by decide +kernel,
    hfind _ _ _ rfl⟩

end SnippetCatalog
