import Mathlib.Logic.Relation
import SnippetCatalog.Proofs.FileGrammar
import SnippetCatalog.Proofs.JoinedFiles

/-!
Which orders of the lines of a file matter. Two drafts make the same snippet if they agree on the
code, the notes and the values of each tag, and have the same names. Main statement: lines may change
places as long as the code, the notes and the tags of each name keep theirs, and a line that lists
names may be repeated anywhere.
-/

namespace SnippetCatalog

open Line (Marks Gives Directs ofChars)
open Text (AllBlank trim)

/-! ### Drafts of one snippet -/

namespace Draft

theorem gather_congr {tags tags' : List (String × String)}
    (h : ∀ name, valuesOf tags name = valuesOf tags' name) : gather tags = gather tags' := by
  apply NameMap.ext_get?
  intro name
  rw [get?_gather, get?_gather, h]

structure Alike (d e : Draft) : Prop where
  text : d.text = e.text
  docs : d.docs = e.docs
  imports : ∀ x, x ∈ d.imports ↔ x ∈ e.imports
  expects : ∀ x, x ∈ d.expects ↔ x ∈ e.expects
  follows : ∀ x, x ∈ d.follows ↔ x ∈ e.follows
  tags : ∀ name, valuesOf d.tags name = valuesOf e.tags name

theorem Alike.ofContent_eq {a b : Bytes} (h : Alike (ofContent a) (ofContent b)) (path : Path)
    (name : String) : Snippet.ofContent a path name = Snippet.ofContent b path name := by
  have hnil : (ofContent a).imports = [] ↔ (ofContent b).imports = [] := by
    simp only [List.eq_nil_iff_forall_not_mem, h.imports]
  dsimp only [Snippet.ofContent]
  rw [h.text, h.docs, tidy_congr h.imports, tidy_congr h.expects, tidy_congr h.follows,
    gather_congr h.tags]
  simp only [hnil]

end Draft

/-! ### Lines in another order -/

theorem flatMap_filter_of_nil {α β : Type} {p : α → Bool} {f : α → List β}
    (h : ∀ a, p a = false → f a = []) (l : List α) : (l.filter p).flatMap f = l.flatMap f := by
  induction l with
  | nil => rfl
  | cons a l ih =>
    cases hp : p a with
    | true => rw [List.filter_cons_of_pos hp, List.flatMap_cons, List.flatMap_cons, ih]
    | false =>
      rw [List.filter_cons_of_neg (by simp [hp]), List.flatMap_cons, h a hp, ih]
      rfl

namespace Line

def isCode : Line → Bool
  | code _ => true
  | _ => false

def isNote : Line → Bool
  | directive .note _ => true
  | _ => false

def isTagOf (name : String) : Line → Bool
  | directive .tag payload => (Draft.tagged payload).1 = name
  | _ => false

def listsNames : Line → Bool
  | directive .imports _ => true
  | directive .expects _ => true
  | directive .follows _ => true
  | _ => false

/-- The same lines, those of one sort in the same order: code, notes, and the tags of each name. -/
structure Reordered (ls ms : List Line) : Prop where
  perm : ls.Perm ms
  code : ls.filter isCode = ms.filter isCode
  notes : ls.filter isNote = ms.filter isNote
  tags : ∀ name, ls.filter (isTagOf name) = ms.filter (isTagOf name)

theorem text_of_not_code {l : Line} (h : l.isCode = false) : (Draft.ofLine l).text = [] := by
  cases l with
  | code text => cases h
  | directive kind payload => cases kind <;> rfl
  | other => rfl

theorem docs_of_not_note {l : Line} (h : l.isNote = false) : (Draft.ofLine l).docs = [] := by
  cases l with
  | directive kind payload =>
    cases kind with
    | note => cases h
    | _ => rfl
  | _ => rfl

theorem values_of_not_tag {l : Line} {name : String} (h : l.isTagOf name = false) :
    Draft.valuesOf (Draft.ofLine l).tags name = [] := by
  cases l with
  | directive kind payload =>
    cases kind with
    | tag =>
      have hne : (Draft.tagged payload).1 ≠ name := of_decide_eq_false h
      simp [Draft.ofLine, Draft.valuesOf, hne]
    | _ => rfl
  | _ => rfl

theorem collected_of_filter {α : Type} (place : Draft → List α) (hempty : place {} = [])
    (happend : ∀ a b : Draft, place (a ++ b) = place a ++ place b) {p : Line → Bool}
    (hp : ∀ l, p l = false → place (Draft.ofLine l) = []) {ls ms : List Line}
    (h : ls.filter p = ms.filter p) : place (Draft.ofLines ls) = place (Draft.ofLines ms) := by
  rw [Draft.collected_ofLines place hempty happend, Draft.collected_ofLines place hempty happend,
    ← flatMap_filter_of_nil hp ls, h, flatMap_filter_of_nil hp ms]

theorem mem_collected_of_perm {α : Type} (place : Draft → List α) (hempty : place {} = [])
    (happend : ∀ a b : Draft, place (a ++ b) = place a ++ place b) {ls ms : List Line}
    (h : ls.Perm ms) (x : α) :
    x ∈ place (Draft.ofLines ls) ↔ x ∈ place (Draft.ofLines ms) := by
  rw [Draft.collected_ofLines place hempty happend, Draft.collected_ofLines place hempty happend]
  exact (h.flatMap_right _).mem_iff

theorem Reordered.alike {ls ms : List Line} (h : Reordered ls ms) :
    (Draft.ofLines ls).Alike (Draft.ofLines ms) where
  text := collected_of_filter (·.text) rfl (fun _ _ => rfl)
    (fun _ => text_of_not_code) h.code
  docs := collected_of_filter (·.docs) rfl (fun _ _ => rfl)
    (fun _ => docs_of_not_note) h.notes
  imports := mem_collected_of_perm (·.imports) rfl (fun _ _ => rfl) h.perm
  expects := mem_collected_of_perm (·.expects) rfl (fun _ _ => rfl) h.perm
  follows := mem_collected_of_perm (·.follows) rfl (fun _ _ => rfl) h.perm
  tags := fun name => collected_of_filter (fun d => Draft.valuesOf d.tags name) rfl
    (fun a b => Draft.valuesOf_append a.tags b.tags name) (fun _ => values_of_not_tag) (h.tags name)

end Line

/-! ### Lines as bytes -/

def ended (rows : List Bytes) : Bytes := rows.flatMap fun row => row ++ [0x0A]

/-- What a line says whose bytes these are, a line feed behind them. -/
def Line.ofBytes (row : Bytes) : Line := ofChars (Text.dropReturn (Utf8.decode row).toList)

theorem feed_notMem_decode {row : Bytes} (h : 0x0A ∉ row) : '\n' ∉ (Utf8.decode row).toList :=
  fun hfeed => h (Utf8.mem_of_mem_decode hfeed (by decide))

namespace Draft

theorem ofContent_of_row {row : Bytes} (h : 0x0A ∉ row) (rest : Bytes) :
    ofContent (row ++ 0x0A :: rest) = ofLine (.ofBytes row) ++ ofContent rest := by
  have hchars : (Utf8.decode row).toList = Utf8.decodeFrom .between row := String.toList_ofList
  have hfeed := feed_notMem_decode h
  rw [hchars] at hfeed
  rw [ofContent, Utf8.decodeFrom_append_feed, Text.lines_ended _ hfeed, Line.ofBytes, hchars]
  rfl

theorem ofContent_ended {rows : List Bytes} (h : ∀ row ∈ rows, 0x0A ∉ row) (rest : Bytes) :
    ofContent (ended rows ++ rest) = ofLines (rows.map Line.ofBytes) ++ ofContent rest := by
  induction rows with
  | nil => rfl
  | cons row rows ih =>
    obtain ⟨hrow, hrows⟩ := List.forall_mem_cons.1 h
    have hcons : ended (row :: rows) ++ rest = row ++ 0x0A :: (ended rows ++ rest) := by
      simp [ended]
    rw [hcons, ofContent_of_row hrow, ih hrows]
    exact (append_assoc _ _ _).symm

theorem ofContent_of_rows {rows : List Bytes} (h : ∀ row ∈ rows, 0x0A ∉ row) :
    ofContent (ended rows) = ofLines (rows.map Line.ofBytes) := by
  have hrows := ofContent_ended h []
  have hnone : ofContent [] = {} := rfl
  rwa [List.append_nil, hnone, append_empty] at hrows

end Draft

/-! ### Lines told again -/

namespace Line

theorem Directs.append_blank {line payload w : List Char} {kind : Directive}
    (h : Directs line kind payload) (hw : AllBlank w) :
    ∃ payload', Directs (line ++ w) kind payload' ∧ trim payload' = trim payload := by
  obtain ⟨rest, ⟨w₁, w₂, m, rfl, hw₁, hw₂, hm⟩, w₃, k, w₄, keyword, hkeyword, rfl, hw₃, hw₄, hk,
    hpayload⟩ := h
  have hmarks : ∀ tail, Marks (w₁ ++ '/' :: '/' :: (w₂ ++ (m ++ tail))) tail :=
    fun tail => ⟨w₁, w₂, m, rfl, hw₁, hw₂, hm⟩
  by_cases hnil : payload = []
  · -- nothing is there to keep the white space out of what stands before the payload
    subst hnil
    have hw₄' : AllBlank (w₄ ++ w) := fun c hc => (List.mem_append.1 hc).elim (hw₄ c) (hw c)
    refine ⟨[], ⟨w₃ ++ (k ++ ':' :: (w₄ ++ w)), ?_, w₃, k, w₄ ++ w, keyword, hkeyword, ?_, hw₃, hw₄',
      hk, hpayload⟩, rfl⟩
    · simpa using hmarks (w₃ ++ (k ++ ':' :: (w₄ ++ w)))
    · simp
  · refine ⟨payload ++ w, ⟨w₃ ++ (k ++ ':' :: (w₄ ++ (payload ++ w))), ?_, w₃, k, w₄, keyword,
      hkeyword, rfl, hw₃, hw₄, hk, hpayload.append hnil w⟩, Text.trim_append_blank hpayload hnil hw⟩
    simpa using hmarks (w₃ ++ (k ++ ':' :: (w₄ ++ (payload ++ w))))

theorem ofLine_of_trim_eq {kind : Directive} {payload payload' : List Char}
    (h : (directive kind payload).listsNames) (htrim : trim payload' = trim payload) :
    Draft.ofLine (.directive kind payload') = Draft.ofLine (.directive kind payload) := by
  have hnamed : Draft.named payload' = Draft.named payload := by
    rw [Draft.named, Draft.named, htrim]
  cases kind with
  | note => cases h
  | tag => cases h
  | _ => simp only [Draft.ofLine, hnamed]

theorem ofLine_ofBytes {row : Bytes} (h : (ofBytes row).listsNames) :
    Draft.ofLine (ofBytes row) = Draft.ofLine (ofChars (Utf8.decode row).toList) := by
  cases hread : ofBytes row with
  | code text =>
    rw [hread] at h
    cases h
  | other =>
    rw [hread] at h
    cases h
  | directive kind payload =>
    rw [hread] at h
    have hdirects := ofChars_eq_directive_iff.1 hread
    rw [Text.dropReturn] at hdirects
    split at hdirects
    · next hlast =>
      have hblank : AllBlank ['\r'] := fun c hc => List.mem_singleton.1 hc ▸ rfl
      obtain ⟨front, hfront⟩ := List.getLast?_eq_some_iff.1 hlast
      rw [hfront, List.dropLast_concat] at hdirects
      obtain ⟨payload', hdirects', htrim⟩ := hdirects.append_blank hblank
      rw [hfront, ofChars_eq_directive_iff.2 hdirects', ofLine_of_trim_eq h htrim]
    · rw [ofChars_eq_directive_iff.2 hdirects]

end Line

namespace Draft

structure ToldBy (e g : Draft) : Prop where
  text : e.text = []
  docs : e.docs = []
  tags : e.tags = []
  imports : e.imports ⊆ g.imports
  expects : e.expects ⊆ g.expects
  follows : e.follows ⊆ g.follows

variable {d e f g : Draft}

theorem ToldBy.self {l : Line} (h : l.listsNames) : (ofLine l).ToldBy (ofLine l) := by
  have hself := fun names : List String => List.Subset.refl names
  cases l with
  | directive kind payload =>
    cases kind with
    | note => cases h
    | tag => cases h
    | _ => exact ⟨rfl, rfl, rfl, hself _, hself _, hself _⟩
  | code text => cases h
  | other => cases h

theorem ToldBy.behind (h : e.ToldBy g) (d : Draft) : e.ToldBy (d ++ g) where
  text := h.text
  docs := h.docs
  tags := h.tags
  imports := List.subset_append_of_subset_right d.imports h.imports
  expects := List.subset_append_of_subset_right d.expects h.expects
  follows := List.subset_append_of_subset_right d.follows h.follows

theorem ToldBy.before (h : e.ToldBy d) (g : Draft) : e.ToldBy (d ++ g) where
  text := h.text
  docs := h.docs
  tags := h.tags
  imports := List.subset_append_of_subset_left g.imports h.imports
  expects := List.subset_append_of_subset_left g.expects h.expects
  follows := List.subset_append_of_subset_left g.follows h.follows

/-- What is told anyway may be told once more in any place. -/
theorem ToldBy.alike (h : e.ToldBy (d ++ f)) : (d ++ (e ++ f)).Alike (d ++ f) := by
  have hnames : ∀ {xs ys zs : List String}, ys ⊆ xs ++ zs →
      ∀ x, x ∈ xs ++ (ys ++ zs) ↔ x ∈ xs ++ zs := by
    intro xs ys zs hsub x
    have hx : x ∈ ys → x ∈ xs ++ zs := fun hy => hsub hy
    simp only [List.mem_append] at hx ⊢
    exact ⟨fun h => h.elim .inl fun h => h.elim hx .inr, fun h => h.imp_right .inr⟩
  constructor
  · show d.text ++ (e.text ++ f.text) = d.text ++ f.text
    rw [h.text, List.nil_append]
  · show d.docs ++ (e.docs ++ f.docs) = d.docs ++ f.docs
    rw [h.docs, List.nil_append]
  · exact hnames h.imports
  · exact hnames h.expects
  · exact hnames h.follows
  · intro name
    show valuesOf (d.tags ++ (e.tags ++ f.tags)) name = valuesOf (d.tags ++ f.tags) name
    rw [h.tags, List.nil_append]

theorem toldBy_of_mem_pieces {row content : Bytes} (hrow : row ∈ Text.pieces 0x0A content)
    (h : (Line.ofBytes row).listsNames) :
    (ofLine (.ofBytes row)).ToldBy (ofContent content) := by
  obtain ⟨before, behind, rfl, hbefore, hbehind⟩ := Text.exists_of_mem_pieces hrow
  have hfeed : 0x0A ∉ row := Text.notMem_of_mem_pieces hrow
  have hended := ofContent_ended hbefore (row ++ behind)
  rw [ended] at hended
  rw [hended]
  apply ToldBy.behind
  rcases hbehind with rfl | ⟨rest, rfl⟩
  · -- nothing ends the last line, so a carriage return at its end belongs to it
    have hne : row ≠ [] := by
      rintro rfl
      cases h
    have hlines := Text.lines_unended (Utf8.decode_ne_nil hne) (feed_notMem_decode hfeed)
    have hlast : ofContent row = ofLine (.ofBytes row) ++ {} := by
      rw [Snippet.draft_ofContent, Snippet.linesOf, hlines, Line.ofLine_ofBytes h]
      rfl
    rw [List.append_nil, hlast]
    exact (ToldBy.self h).before {}
  · rw [ofContent_of_row hfeed]
    exact (ToldBy.self h).before _

end Draft

/-- One of the lines of a file that list names is told once more, between any two lines. -/
inductive Restated : Bytes → Bytes → Prop
  | again {before after row : Bytes} : EndsLine before →
      row ∈ Text.pieces 0x0A (before ++ after) → (Line.ofBytes row).listsNames →
      Restated (before ++ after) (before ++ (row ++ 0x0A :: after))

theorem Restated.alike {content content' : Bytes} (h : Restated content content') :
    (Draft.ofContent content').Alike (Draft.ofContent content) := by
  obtain ⟨hbefore, hrow, hlists⟩ := h
  have htold := Draft.toldBy_of_mem_pieces hrow hlists
  rw [hbefore.draft_append] at htold
  rw [hbefore.draft_append, hbefore.draft_append,
    Draft.ofContent_of_row (Text.notMem_of_mem_pieces hrow)]
  exact htold.alike

/-- Two files with the same lines hold the same snippet, or none, as long as the code, the notes and
the tags of each name are in the same order in both; and so does a file in which lines that list
names are repeated anywhere, any number of times. -/
theorem only_kept_orders_matter (path : Path) (name : String) :
    (∀ rows rows' : List Bytes, (∀ row ∈ rows ++ rows', 0x0A ∉ row) →
      Line.Reordered (rows.map Line.ofBytes) (rows'.map Line.ofBytes) →
      Snippet.ofContent (ended rows) path name = Snippet.ofContent (ended rows') path name) ∧
    ∀ content content' : Bytes, Relation.ReflTransGen Restated content content' →
      Snippet.ofContent content' path name = Snippet.ofContent content path name := by
  constructor
  · intro rows rows' hfeed hreordered
    rw [List.forall_mem_append] at hfeed
    apply Draft.Alike.ofContent_eq
    rw [Draft.ofContent_of_rows hfeed.1, Draft.ofContent_of_rows hfeed.2]
    exact hreordered.alike
  · intro content content' hrestated
    induction hrestated with
    | refl => rfl
    | tail _ hstep ih => exact (hstep.alike.ofContent_eq path name).trans ih

def orderedRows : List Bytes :=
  ["// snippet: imports: b", "x", "// snippet: tag: A: 1", "// snippet: tag: B: 2"].map Utf8.encode

def shuffledRows : List Bytes :=
  ["// snippet: tag: B: 2", "x", "// snippet: tag: A: 1", "// snippet: imports: b"].map Utf8.encode

def unendedRow : Bytes := Utf8.encode "// snippet: follows: y\r"

theorem only_kept_orders_matter_in_shuffledRows :
    Line.Reordered (orderedRows.map Line.ofBytes) (shuffledRows.map Line.ofBytes) ∧
    Snippet.ofContent (ended orderedRows) (.ofText "d/f") "f" =
      Snippet.ofContent (ended shuffledRows) (.ofText "d/f") "f" ∧
    Restated (Utf8.encode "x\n" ++ unendedRow)
      (Utf8.encode "x\n" ++ (unendedRow ++ 0x0A :: unendedRow)) ∧
    Snippet.ofContent (Utf8.encode "x\n" ++ (unendedRow ++ 0x0A :: unendedRow)) (.ofText "d/f") "f" =
      Snippet.ofContent (Utf8.encode "x\n" ++ unendedRow) (.ofText "d/f") "f" := by
  have hordered : orderedRows.map Line.ofBytes = [.directive .imports ['b'], .code ['x'],
      .directive .tag ['A', ':', ' ', '1'], .directive .tag ['B', ':', ' ', '2']] := by
    decide +kernel
  have hshuffled : shuffledRows.map Line.ofBytes = [.directive .tag ['B', ':', ' ', '2'],
      .code ['x'], .directive .tag ['A', ':', ' ', '1'], .directive .imports ['b']] := by
    decide +kernel
  have hA : (Draft.tagged ['A', ':', ' ', '1']).1 = "A" := by decide +kernel
  have hB : (Draft.tagged ['B', ':', ' ', '2']).1 = "B" := by decide +kernel
  have hreordered : Line.Reordered (orderedRows.map Line.ofBytes)
      (shuffledRows.map Line.ofBytes) := by
    rw [hordered, hshuffled]
    refine ⟨by decide, rfl, rfl, fun name => ?_⟩
    by_cases ha : "A" = name
    · subst ha
      simp [Line.isTagOf, hA, hB]
    · simp [List.filter_cons, Line.isTagOf, hA, ha]
  have hrestated : Restated (Utf8.encode "x\n" ++ unendedRow)
      (Utf8.encode "x\n" ++ (unendedRow ++ 0x0A :: unendedRow)) :=
    .again (by decide +kernel) (by decide +kernel) (by decide +kernel)
  obtain ⟨hreorder, hrestate⟩ := only_kept_orders_matter (.ofText "d/f") "f"
  exact ⟨hreordered, hreorder _ _ (by decide +kernel) hreordered, hrestated,
    hrestate _ _ (.single hrestated)⟩

end SnippetCatalog
