import SnippetCatalog.Proofs.Delivery
import SnippetCatalog.Proofs.ReportLines

/-!
Problems filed by category as they come. Each category that has a problem has a folder, and the
folders stand in the order of the report, so that the folders tell what the notes of a journal tell.
Written piece by piece, folder by folder, a report comes to one text. Main statement: nothing that is
noted is lost, put out of order or counted wrong, and a sink that fails cuts the report and changes
nothing else.
-/

namespace SnippetCatalog

namespace Category

def rank (c : Category) : Nat := all.idxOf c

theorem rank_injective {c d : Category} (h : c.rank = d.rank) : c = d := by
  have hget : ∀ c : Category, all[c.rank]? = some c := by
    intro c
    cases c <;> rfl
  have hd := hget d
  rw [← h, hget c] at hd
  exact Option.some.inj hd

theorem pairwise_rank_all : all.Pairwise (·.rank < ·.rank) := by decide

end Category

/-! ### Folders -/

structure Cabinet where
  folders : List (Category × List Problem)
  ascending : folders.Pairwise (·.1.rank < ·.1.rank)

namespace Cabinet

def empty : Cabinet := ⟨[], .nil⟩

def put (c : Category) (p : Problem) : List (Category × List Problem) → List (Category × List Problem)
  | [] => [(c, [p])]
  | f :: r =>
    if c.rank < f.1.rank then (c, [p]) :: f :: r
    else if c = f.1 then (c, f.2 ++ [p]) :: r
    else f :: put c p r

theorem mem_put {c : Category} {p : Problem} {l : List (Category × List Problem)}
    {f : Category × List Problem} (h : f ∈ put c p l) : f.1 = c ∨ f ∈ l := by
  induction l with
  | nil => simp_all [put]
  | cons g r ih => grind [put]

theorem pairwise_put {c : Category} {p : Problem} {l : List (Category × List Problem)}
    (h : l.Pairwise (·.1.rank < ·.1.rank)) : (put c p l).Pairwise (·.1.rank < ·.1.rank) := by
  induction l with
  | nil => simp [put]
  | cons g r ih =>
    obtain ⟨hg, hr⟩ := List.pairwise_cons.1 h
    rw [put]
    split
    · next hlt =>
      refine List.pairwise_cons.2 ⟨fun f hf => ?_, h⟩
      rcases List.mem_cons.1 hf with rfl | hf
      · exact hlt
      · exact Nat.lt_trans hlt (hg f hf)
    · next hle =>
      split
      · next heq => exact List.pairwise_cons.2 ⟨fun f hf => heq ▸ hg f hf, hr⟩
      · next hne =>
        refine List.pairwise_cons.2 ⟨fun f hf => ?_, ih hr⟩
        rcases mem_put hf with hf | hf
        · have hrank : g.1.rank ≠ c.rank := fun heq => hne (Category.rank_injective heq.symm)
          rw [hf]
          omega
        · exact hg f hf

def file (cabinet : Cabinet) (c : Category) (p : Problem) : Cabinet :=
  ⟨put c p cabinet.folders, pairwise_put cabinet.ascending⟩

def problems (cabinet : Cabinet) (c : Category) : List Problem :=
  (cabinet.folders.lookup c).getD []

def size (cabinet : Cabinet) : Nat := (cabinet.folders.map (·.2.length)).sum

def isEmpty (cabinet : Cabinet) : Bool := cabinet.folders.isEmpty

theorem put_of_lt {c : Category} {p : Problem} {l : List (Category × List Problem)}
    (h : ∀ f ∈ l, c.rank < f.1.rank) : put c p l = (c, [p]) :: l := by
  cases l with
  | nil => rfl
  | cons f r => exact if_pos (h f List.mem_cons_self)

theorem put_folders {c : Category} (p : Problem) {cs : List Category}
    (hcs : cs.Pairwise (·.rank < ·.rank)) (hc : c ∈ cs) (f : Category → List Problem) :
    put c p ((cs.map fun d => (d, f d)).filter (·.2 ≠ [])) =
      (cs.map fun d => (d, if d = c then f d ++ [p] else f d)).filter (·.2 ≠ []) := by
  induction cs with
  | nil => cases hc
  | cons d cs ih =>
    obtain ⟨hd, hrest⟩ := List.pairwise_cons.1 hcs
    rw [List.map_cons, List.map_cons]
    by_cases hdc : d = c
    · subst hdc
      have hothers : (cs.map fun e => (e, if e = d then f e ++ [p] else f e)) =
          cs.map fun e => (e, f e) := by
        apply List.map_congr_left
        intro e he
        rw [if_neg]
        rintro rfl
        exact absurd (hd e he) (Nat.lt_irrefl _)
      rw [hothers, if_pos rfl]
      by_cases hnone : f d = []
      · rw [List.filter_cons_of_neg (by simpa using hnone), List.filter_cons_of_pos (by simp), hnone,
          List.nil_append]
        apply put_of_lt
        intro g hg
        obtain ⟨e, he, rfl⟩ := List.mem_map.1 (List.mem_of_mem_filter hg)
        exact hd e he
      · rw [List.filter_cons_of_pos (by simpa using hnone), List.filter_cons_of_pos (by simp), put,
          if_neg (Nat.lt_irrefl _), if_pos rfl]
    · have hmem : c ∈ cs := (List.mem_cons.1 hc).resolve_left (Ne.symm hdc)
      rw [if_neg hdc]
      by_cases hnone : f d = []
      · rw [List.filter_cons_of_neg (by simpa using hnone),
          List.filter_cons_of_neg (by simpa using hnone), ih hrest hmem]
      · rw [List.filter_cons_of_pos (by simpa using hnone),
          List.filter_cons_of_pos (by simpa using hnone), put,
          if_neg (Nat.lt_asymm (hd c hmem)), if_neg (Ne.symm hdc), ih hrest hmem]

end Cabinet

theorem Journal.problems_add (j : Journal) (c d : Category) (p : Problem) :
    (j.add c p).problems d = if d = c then j.problems d ++ [p] else j.problems d := by
  have happend : (j.add c p).problems d = j.problems d ++ (Journal.mk [(c, p)]).problems d :=
    Journal.problems_append j.notes [(c, p)] d
  have hone : (Journal.mk [(c, p)]).problems d = if c = d then [p] else [] :=
    Journal.problems_map [p] c d
  rw [happend, hone]
  by_cases hdc : d = c
  · rw [if_pos hdc, if_pos hdc.symm]
  · rw [if_neg hdc, if_neg (Ne.symm hdc), List.append_nil]

namespace Cabinet

variable {cabinet : Cabinet} {j : Journal}

theorem folders_file (h : cabinet.folders = j.sorted) (c : Category) (p : Problem) :
    (cabinet.file c p).folders = (j.add c p).sorted := by
  have hput := put_folders p Category.pairwise_rank_all (Category.mem_all c) j.problems
  have hproblems : ∀ d, (j.add c p).problems d =
      if d = c then j.problems d ++ [p] else j.problems d := fun d => j.problems_add c d p
  show put c p cabinet.folders = _
  rw [h, Journal.sorted, hput, Journal.sorted]
  simp only [hproblems]

theorem folders_foldl (h : cabinet.folders = j.sorted) (notes : List (Category × Problem)) :
    (notes.foldl (fun cabinet n => cabinet.file n.1 n.2) cabinet).folders =
      (notes.foldl (fun j n => j.add n.1 n.2) j).sorted := by
  induction notes generalizing cabinet j with
  | nil => exact h
  | cons n notes ih => exact ih (folders_file h n.1 n.2)

theorem lookup_folders (cs : List Category) (c : Category) (f : Category → List Problem) :
    (cs.map fun d => (d, f d)).lookup c = if c ∈ cs then some (f c) else none := by
  induction cs with
  | nil => rfl
  | cons d cs ih =>
    rw [List.map_cons, NameMap.lookup_cons, ih]
    by_cases hdc : c = d
    · simp [hdc]
    · simp [hdc]

theorem problems_eq (h : cabinet.folders = j.sorted) (c : Category) :
    cabinet.problems c = j.problems c := by
  rw [problems, h, Journal.sorted_eq, lookup_folders]
  split
  · rfl
  · next hnone =>
    have hproblems : j.problems c = [] :=
      Classical.byContradiction fun hsome => hnone (Journal.mem_categories_iff.2 hsome)
    rw [hproblems]
    rfl

end Cabinet

/-! ### Writing piece by piece -/

namespace Sink

variable {sink : Sink} {a b : Bytes}

theorem fits_append (sink : Sink) (a b : Bytes) :
    sink.fits (a ++ b) = (sink.fits a && (sink.after a).fits b) := by
  obtain ⟨_ | n⟩ := sink
  · rfl
  · show decide ((a ++ b).length ≤ n) = (decide (a.length ≤ n) && decide (b.length ≤ n - a.length))
    rw [List.length_append, ← Bool.decide_and, decide_eq_decide]
    omega

theorem after_append (sink : Sink) (a b : Bytes) :
    sink.after (a ++ b) = (sink.after a).after b := by
  obtain ⟨_ | n⟩ := sink
  · rfl
  · show Sink.mk (some (n - (a ++ b).length)) = ⟨some (n - a.length - b.length)⟩
    rw [List.length_append, Nat.sub_add_eq]

theorem cut_of_fits (h : sink.fits a = true) : sink.cut a = a := by
  obtain ⟨_ | n⟩ := sink
  · rfl
  · exact List.take_of_length_le (of_decide_eq_true h)

theorem cut_append_of_fits (h : sink.fits a = true) (b : Bytes) :
    sink.cut (a ++ b) = a ++ (sink.after a).cut b := by
  obtain ⟨_ | n⟩ := sink
  · rfl
  · show (a ++ b).take n = a ++ b.take (n - a.length)
    rw [List.take_append, List.take_of_length_le (of_decide_eq_true h)]

theorem cut_append_of_not_fits (h : ¬ sink.fits a = true) (b : Bytes) :
    sink.cut (a ++ b) = sink.cut a := by
  obtain ⟨_ | n⟩ := sink
  · exact absurd rfl h
  · have hlong : ¬ a.length ≤ n := fun hle => h (decide_eq_true hle)
    exact List.take_append_of_le_length (by omega)

end Sink

namespace Delivery

def say (d : Delivery) (text : String) : Except Ending Delivery := d.write (Utf8.encode text)

def sayAll (d : Delivery) (texts : List String) : Except Ending Delivery := texts.foldlM say d

/-- Writing that comes to one text, in whatever pieces it is done. -/
def Says (action : Delivery → Except Ending Delivery) (text : String) : Prop :=
  ∀ d : Delivery, action d = d.say text

theorem write_append (d : Delivery) (a b : Bytes) :
    d.write (a ++ b) = d.write a >>= fun d => d.write b := by
  by_cases ha : d.sink.fits a = true
  · have hfirst : d.write a =
        .ok { d with sink := d.sink.after a, output := d.output ++ a } := if_pos ha
    rw [hfirst]
    show _ = Delivery.write _ b
    rw [write, write, Sink.fits_append, ha, Bool.true_and, Sink.after_append,
      Sink.cut_append_of_fits ha, List.append_assoc, List.append_assoc]
  · have hfirst : d.write a = .error ⟨d.output ++ d.sink.cut a, false, d.journal⟩ := if_neg ha
    rw [hfirst, write, Sink.fits_append, Bool.eq_false_iff.2 ha, Bool.false_and,
      if_neg Bool.false_ne_true, Sink.cut_append_of_not_fits ha]
    rfl

theorem Says.nothing : Says .ok "" := by
  intro d
  show _ = d.write []
  rw [write, if_pos d.sink.fits_nil, Sink.after_nil, List.append_nil]

variable {action next : Delivery → Except Ending Delivery} {text more : String} {α : Type}

theorem Says.append (h : Says action text) (k : Says next more) :
    Says (fun d => action d >>= next) (text ++ more) := by
  intro d
  have hnext : next = fun d => d.write (Utf8.encode more) := funext k
  show action d >>= next = d.write (Utf8.encode (text ++ more))
  rw [h, hnext, Utf8.encode_append, write_append]
  rfl

theorem Says.foldlM {act : Delivery → α → Except Ending Delivery} {told : α → String}
    (xs : List α) (h : ∀ x ∈ xs, Says (act · x) (told x)) :
    Says (xs.foldlM act) (String.join (xs.map told)) := by
  induction xs with
  | nil => exact nothing
  | cons x xs ih =>
    intro d
    show List.foldlM act d (x :: xs) = _
    rw [List.map_cons, String.join_cons, List.foldlM_cons]
    exact (h x List.mem_cons_self).append (ih fun y hy => h y (List.mem_cons_of_mem x hy)) d

theorem says_sayAll (texts : List String) : Says (·.sayAll texts) (String.join texts) := by
  have heach : Says (·.sayAll texts) (String.join (texts.map id)) :=
    Says.foldlM texts fun _ _ _ => rfl
  rwa [List.map_id] at heach

theorem ofDelivery_say (d : Delivery) (text : String) : Ending.ofDelivery (d.say text) =
    ⟨d.output ++ (d.sink.write text).1, (d.sink.write text).2, d.journal⟩ := by
  rw [say, write, Sink.write]
  split
  · next h => rw [Sink.cut_of_fits h, h]; rfl
  · next h => rw [Bool.eq_false_iff.2 h]; rfl

end Delivery

/-! ### The report -/

namespace Delivery

def tellFolder (d : Delivery) (folder : Category × List Problem) : Except Ending Delivery := do
  let d ← d.sayAll [folder.1.title, " (", toString folder.2.length, " error",
    if folder.2.length = 1 then "" else "s", "):", "\n"]
  folder.2.foldlM (fun d p => d.sayAll ["    ", p.message, "\n"]) d

end Delivery

def Cabinet.report (cabinet : Cabinet) (title : String) (d : Delivery) : Except Ending Delivery :=
  if cabinet.isEmpty then .ok d
  else do
    let d ← d.sayAll [title, ":", "\n"]
    cabinet.folders.foldlM Delivery.tellFolder d

theorem Journal.heading_eq (c : Category) (n : Nat) : heading c n =
    c.title ++ " (" ++ toString n ++ " error" ++ (if n = 1 then "" else "s") ++ "):" := by
  show c.title ++ " (" ++ toString n ++ " " ++ (if n = 1 then "error" else "errors") ++ "):" = _
  apply String.toList_inj.1
  by_cases h : n = 1 <;> simp [h]

theorem Delivery.says_tellFolder (c : Category) (ps : List Problem) :
    Says (·.tellFolder (c, ps)) (String.join
      ((Journal.heading c ps.length :: ps.map fun p => "    " ++ p.message).map (· ++ "\n"))) := by
  have hheading : String.join [c.title, " (", toString ps.length, " error",
      if ps.length = 1 then "" else "s", "):", "\n"] = Journal.heading c ps.length ++ "\n" := by
    rw [Journal.heading_eq]
    simp only [String.join_cons, String.join_nil, String.append_empty, String.append_assoc]
  have hproblem : ∀ p : Problem,
      String.join ["    ", p.message, "\n"] = "    " ++ p.message ++ "\n" := by
    intro p
    simp only [String.join_cons, String.join_nil, String.append_empty, String.append_assoc]
  have hproblems := Says.foldlM ps fun p _ => says_sayAll ["    ", p.message, "\n"]
  simp only [hproblem] at hproblems
  rw [List.map_cons, String.join_cons, List.map_map, ← hheading]
  exact (says_sayAll _).append hproblems

theorem Text.join_flatMap {α : Type} (xs : List α) (g : α → List String) :
    String.join (xs.flatMap g) = String.join (xs.map fun x => String.join (g x)) := by
  induction xs with
  | nil => rfl
  | cons x xs ih => rw [List.flatMap_cons, String.join_append, ih, List.map_cons, String.join_cons]

theorem Cabinet.says_report {cabinet : Cabinet} {j : Journal} (h : cabinet.folders = j.sorted)
    (hempty : cabinet.isEmpty = j.isEmpty) (title : String) :
    Delivery.Says (cabinet.report title) (j.report title) := by
  by_cases hnone : j.isEmpty = true
  · have htext : j.report title = "" := by
      rw [Journal.report, Journal.reportLines, if_pos hnone]
      rfl
    have hnothing : cabinet.report title = .ok := by
      funext d
      rw [Cabinet.report, if_pos (hempty.trans hnone)]
    rw [htext, hnothing]
    exact .nothing
  · have htitle : String.join [title, ":", "\n"] = s!"{title}:" ++ "\n" := by
      show _ = title ++ ":" ++ "\n"
      simp only [String.join_cons, String.join_nil, String.append_empty, String.append_assoc]
    have htext : j.report title = String.join [title, ":", "\n"] ++
        String.join (j.sorted.map fun f => String.join
          ((Journal.heading f.1 f.2.length :: f.2.map fun p => "    " ++ p.message).map
            (· ++ "\n"))) := by
      rw [Journal.report, Journal.reportLines, if_neg hnone, List.map_cons, String.join_cons,
        htitle, List.map_flatMap, Text.join_flatMap]
    have hwritten : cabinet.report title = fun d => d.sayAll [title, ":", "\n"] >>=
        j.sorted.foldlM Delivery.tellFolder := by
      funext d
      rw [Cabinet.report, hempty, if_neg hnone, h]
    rw [htext, hwritten]
    exact (Delivery.says_sayAll _).append
      (Delivery.Says.foldlM _ fun f _ => Delivery.says_tellFolder f.1 f.2)

theorem Journal.foldl_add (j : Journal) (notes : List (Category × Problem)) :
    notes.foldl (fun j n => j.add n.1 n.2) j = j.addAll notes := by
  induction notes generalizing j with
  | nil => exact j.addAll_nil.symm
  | cons n notes ih => exact (ih _).trans (j.addAll_append [n] notes).symm

theorem Journal.report_eq_empty_iff {j : Journal} {title : String} :
    j.report title = "" ↔ j.notes = [] := by
  constructor
  · intro h
    by_contra hnotes
    rw [report, reportLines_cons hnotes, List.map_cons, String.join_cons] at h
    simp at h
  · intro h
    rw [report, reportLines, isEmpty, if_pos (List.isEmpty_iff.2 h)]
    rfl

/-- The notes of a journal and the folders of a cabinet, filled note by note, tell the same: of each
category all that was noted in it and in that order, and no folder is empty. Their report, written
piece by piece until the sink fails, is what the sink takes of one text: the title, then for each
category with problems, in order, a heading with their number and a line for each. -/
theorem problems_are_filed_and_reported (notes : List (Category × Problem)) :
    let journal : Journal := notes.foldl (fun j n => j.add n.1 n.2) {}
    let cabinet : Cabinet := notes.foldl (fun k n => k.file n.1 n.2) .empty
    (∀ c, journal.problems c = (notes.filter (·.1 = c)).map (·.2) ∧
      cabinet.problems c = journal.problems c) ∧
    (journal.size = notes.length ∧ cabinet.size = notes.length) ∧
    ((journal.isEmpty ↔ notes = []) ∧ (cabinet.isEmpty ↔ notes = [])) ∧
    (cabinet.folders = journal.sorted ∧ ∀ f ∈ cabinet.folders, f.2 ≠ []) ∧
    ∀ title, let text := journal.report title
      (∀ sink, Ending.ofDelivery (cabinet.report title { sink, journal }) =
        ⟨(sink.write text).1, (sink.write text).2, journal⟩) ∧
      (∀ limit, (Sink.write ⟨some limit⟩ text).1 = (Utf8.encode text).take limit ∧
        ((Sink.write ⟨some limit⟩ text).2 = false ↔ limit < (Utf8.encode text).length)) ∧
      (text = "" ↔ notes = []) ∧
      (notes ≠ [] → ∃ told : List Category, told.Pairwise (·.rank < ·.rank) ∧
        (∀ c, c ∈ told ↔ journal.problems c ≠ []) ∧
        (told.map fun c => (journal.problems c).length).sum = journal.size ∧
        text = String.join (((title ++ ":") :: told.flatMap fun c =>
          (c.title ++ " (" ++ toString (journal.problems c).length ++ " error" ++
            (if (journal.problems c).length = 1 then "" else "s") ++ "):") ::
          (journal.problems c).map fun p => "    " ++ p.message).map (· ++ "\n"))) := by
  intro journal cabinet
  have hjournal : journal.notes = notes := congrArg Journal.notes (Journal.foldl_add {} notes)
  have hsize : journal.size = notes.length := congrArg List.length hjournal
  have hfolders : cabinet.folders = journal.sorted := Cabinet.folders_foldl rfl notes
  have hlisted : cabinet.folders = journal.categories.map fun c => (c, journal.problems c) :=
    hfolders.trans journal.sorted_eq
  have hempty : journal.isEmpty ↔ notes = [] := by
    rw [Journal.isEmpty, List.isEmpty_iff, hjournal]
  have hnoFolder : cabinet.isEmpty ↔ notes = [] := by
    rw [Cabinet.isEmpty, List.isEmpty_iff, hlisted, List.map_eq_nil_iff,
      Journal.categories_eq_nil_iff, hjournal]
  have hsame : cabinet.isEmpty = journal.isEmpty :=
    Bool.eq_iff_iff.2 (hnoFolder.trans hempty.symm)
  refine ⟨fun c => ⟨?_, Cabinet.problems_eq hfolders c⟩, ⟨hsize, ?_⟩, ⟨hempty, hnoFolder⟩,
    ⟨hfolders, ?_⟩, ?_⟩
  · rw [Journal.problems, hjournal]
  · rw [Cabinet.size, hlisted, List.map_map]
    exact journal.sum_lengths.trans hsize
  · rw [hlisted, List.forall_mem_map]
    exact fun c hc => Journal.mem_categories_iff.1 hc
  intro title text
  refine ⟨fun sink => ?_, fun limit => ⟨rfl, ?_⟩, ?_, fun hnotes => ?_⟩
  · rw [Cabinet.says_report hfolders hsame, Delivery.ofDelivery_say]
    rfl
  · rw [Sink.write, Sink.fits, decide_eq_false_iff_not, Nat.not_le]
  · rw [← hjournal]
    exact Journal.report_eq_empty_iff
  · have htold : journal.categories.Pairwise (·.rank < ·.rank) :=
      Category.pairwise_rank_all.filter _
    refine ⟨journal.categories, htold, fun c => Journal.mem_categories_iff, journal.sum_lengths, ?_⟩
    rw [← hjournal] at hnotes
    show journal.report title = _
    rw [Journal.report, Journal.reportLines_cons hnotes]
    simp only [Journal.heading_eq]
    rfl

end SnippetCatalog
