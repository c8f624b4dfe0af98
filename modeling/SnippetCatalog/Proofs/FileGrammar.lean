import SnippetCatalog.Proofs.LineGrammar

/-!
What the lines of a file dictate. The classification of lines alone says what the snippet in a file
is: its code, its notes and its tags in the order of the lines, and its names as ascending sets.
Main statement: every file holds exactly the snippet that its lines dictate, or none if they dictate
neither code nor imports.
-/

namespace SnippetCatalog

open Line (Marked Directs ofChars)
open Text (trim IsLines)

/-- What `R` makes of those members of a list that it makes something of, in order. -/
inductive Collects {α β : Type} (R : α → β → Prop) : List α → List β → Prop
  | nil : Collects R [] []
  | take {a : α} {b : β} {as : List α} {bs : List β} : R a b → Collects R as bs →
      Collects R (a :: as) (b :: bs)
  | skip {a : α} {as : List α} {bs : List β} : (∀ b, ¬ R a b) → Collects R as bs →
      Collects R (a :: as) bs

theorem collects_iff {α β : Type} {R : α → β → Prop} {f : α → List β}
    (hf : ∀ a, f a = [] ∨ ∃ b, f a = [b]) (hR : ∀ a b, R a b ↔ f a = [b]) {as : List α}
    {bs : List β} : Collects R as bs ↔ bs = as.flatMap f := by
  constructor
  · intro h
    induction h with
    | nil => rfl
    | take hab _ ih => rw [List.flatMap_cons, (hR _ _).1 hab, ih]; rfl
    | @skip a _ _ hab _ ih =>
      have ha : f a = [] := (hf a).resolve_right fun ⟨b, hb⟩ => hab b ((hR a b).2 hb)
      rw [List.flatMap_cons, ha, ih]
      rfl
  · rintro rfl
    induction as with
    | nil => exact .nil
    | cons a as ih =>
      rw [List.flatMap_cons]
      rcases hf a with ha | ⟨b, hb⟩
      · rw [ha]
        exact .skip (fun b hb => by simp [(hR a b).1 hb] at ha) ih
      · rw [hb]
        exact .take ((hR a b).2 hb) ih

theorem Collects.exists_of_mem {α β : Type} {R : α → β → Prop} {as : List α} {bs : List β}
    (h : Collects R as bs) {b : β} (hb : b ∈ bs) : ∃ a ∈ as, R a b := by
  induction h with
  | nil => cases hb
  | take hab _ ih =>
    rcases List.mem_cons.1 hb with rfl | hb
    · exact ⟨_, List.mem_cons_self, hab⟩
    · obtain ⟨a, ha, hR⟩ := ih hb
      exact ⟨a, List.mem_cons_of_mem _ ha, hR⟩
  | skip _ _ ih =>
    obtain ⟨a, ha, hR⟩ := ih hb
    exact ⟨a, List.mem_cons_of_mem _ ha, hR⟩

/-- The payload names something: itself without the white space around it. -/
def Names (payload : List Char) (name : String) : Prop :=
  name ≠ "" ∧ name = .ofList (trim payload)

/-- The trimmed payload has a tag's name before its first colon and its value behind it, or is a
name without a value. -/
def IsTag (payload : List Char) (name value : String) : Prop :=
  (':' ∉ trim payload ∧ name = .ofList (trim payload) ∧ value = "") ∨
    ∃ a b, trim payload = a ++ ':' :: b ∧ ':' ∉ a ∧ name = .ofList (trim a) ∧
      value = .ofList (trim b)

/-- The names that directives of certain kinds give, as an ascending set. -/
def IsSetOf (names : List String) (lines : List (List Char)) (kinds : List Directive) : Prop :=
  names.Pairwise (· < ·) ∧ ∀ x, x ∈ names ↔
    ∃ line ∈ lines, ∃ kind ∈ kinds, ∃ payload, Directs line kind payload ∧ Names payload x

/-- What a snippet has to hold if a file has these lines. -/
structure Dictates (lines : List (List Char)) (s : Snippet) : Prop where
  text : Collects (fun line t => ¬ Marked line ∧ t = .ofList line) lines s.text
  docs : Collects (fun line t => ∃ payload, Directs line .note payload ∧ t = .ofList payload)
    lines s.docs
  imports : IsSetOf s.imports lines [.imports]
  expects : IsSetOf s.expects lines [.expects, .follows]
  follows : IsSetOf s.follows lines [.follows]
  tags : ∀ name values, s.tags.get? name = some values ↔ values ≠ [] ∧
    Collects (fun line v => ∃ payload, Directs line .tag payload ∧ IsTag payload name v)
      lines values

namespace Draft

theorem tagged_of_colon {payload a b : List Char} (h : trim payload = a ++ ':' :: b)
    (ha : ':' ∉ a) : tagged payload = (.ofList (trim a), .ofList (trim b)) := by
  dsimp only [tagged]
  rw [h, Line.takeWhile_colon ha, Line.dropWhile_colon ha]
  rfl

theorem tagged_of_notMem {payload : List Char} (h : ':' ∉ trim payload) :
    tagged payload = (.ofList (trim payload), "") := by
  have hall := Line.ne_colon_of_notMem h
  have htake : (trim payload).takeWhile (· ≠ ':') = trim payload := by
    rw [← List.append_nil (trim payload), List.takeWhile_append_of_pos hall, List.takeWhile_nil]
  have hdrop : (trim payload).dropWhile (· ≠ ':') = [] := by
    rw [← List.append_nil (trim payload), List.dropWhile_append_of_pos hall, List.dropWhile_nil]
  dsimp only [tagged]
  rw [htake, hdrop, Text.trim_trim]
  rfl

theorem tagged_eq_iff {payload : List Char} {name value : String} :
    tagged payload = (name, value) ↔ IsTag payload name value := by
  by_cases h : ':' ∈ trim payload
  · obtain ⟨a, b, hab, ha⟩ := List.eq_append_cons_of_mem h
    constructor
    · intro ht
      rw [tagged_of_colon hab ha, Prod.mk.injEq] at ht
      exact .inr ⟨a, b, hab, ha, ht.1.symm, ht.2.symm⟩
    · rintro (⟨hn, -⟩ | ⟨a', b', hab', ha', rfl, rfl⟩)
      · exact absurd h hn
      · exact tagged_of_colon hab' ha'
  · rw [tagged_of_notMem h, Prod.mk.injEq]
    constructor
    · rintro ⟨rfl, rfl⟩
      exact .inl ⟨h, rfl, rfl⟩
    · rintro (⟨-, rfl, rfl⟩ | ⟨a, b, hab, -⟩)
      · exact ⟨rfl, rfl⟩
      · exact absurd (hab ▸ List.mem_append_cons_self) h

theorem mem_named_iff {payload : List Char} {x : String} : x ∈ named payload ↔ Names payload x := by
  rw [named, Names]
  split
  · next h => simp [h]
  · next h =>
    have hne : String.ofList (trim payload) ≠ "" := fun he => h (by simpa using he)
    rw [List.mem_singleton]
    constructor
    · rintro rfl
      exact ⟨hne, rfl⟩
    · exact And.right

theorem text_ofLine_iff (line : List Char) (t : String) :
    (¬ Marked line ∧ t = .ofList line) ↔ (ofLine (ofChars line)).text = [t] := by
  cases h : ofChars line with
  | code text =>
    obtain ⟨hm, rfl⟩ := Line.ofChars_eq_code_iff.1 h
    simp [ofLine, hm, eq_comm]
  | directive kind p =>
    have hm := (Line.ofChars_eq_directive_iff.1 h).marked
    cases kind <;> simp [ofLine, hm]
  | other =>
    have hm := (Line.ofChars_eq_other_iff.1 h).1
    simp [ofLine, hm]

theorem directs_iff {line p : List Char} {kind : Directive} :
    Directs line kind p ↔ ofChars line = .directive kind p := Line.ofChars_eq_directive_iff.symm

theorem docs_ofLine_iff (line : List Char) (t : String) :
    (∃ p, Directs line .note p ∧ t = .ofList p) ↔ (ofLine (ofChars line)).docs = [t] := by
  simp only [directs_iff]
  cases h : ofChars line with
  | code text => simp [ofLine]
  | directive kind p => cases kind <;> simp [ofLine, eq_comm]
  | other => simp [ofLine]

theorem mem_place_ofLine_iff (place : Draft → List String) {kinds : List Directive}
    (hcode : ∀ t, place (ofLine (.code t)) = []) (hother : place (ofLine .other) = [])
    (hkind : ∀ kind p, place (ofLine (.directive kind p)) = if kind ∈ kinds then named p else [])
    {line : List Char} {x : String} :
    x ∈ place (ofLine (ofChars line)) ↔
      ∃ kind ∈ kinds, ∃ p, Directs line kind p ∧ Names p x := by
  simp only [directs_iff]
  cases h : ofChars line with
  | code text => simp [hcode]
  | directive kind p =>
    rw [hkind]
    by_cases hk : kind ∈ kinds
    · rw [if_pos hk, mem_named_iff]
      constructor
      · intro hx
        exact ⟨kind, hk, p, rfl, hx⟩
      · rintro ⟨_, _, _, ⟨⟩, hx⟩
        exact hx
    · rw [if_neg hk]
      refine ⟨nofun, ?_⟩
      rintro ⟨_, hk', _, ⟨⟩, -⟩
      exact absurd hk' hk
  | other => simp [hother]

theorem valuesOf_ofLine_iff (name : String) (line : List Char) (v : String) :
    (∃ p, Directs line .tag p ∧ IsTag p name v) ↔
      valuesOf (ofLine (ofChars line)).tags name = [v] := by
  simp only [directs_iff, ← tagged_eq_iff]
  cases h : ofChars line with
  | code text => simp [ofLine, valuesOf]
  | directive kind p =>
    cases kind with
    | tag =>
      by_cases hn : (tagged p).1 = name <;> simp [ofLine, valuesOf, hn, Prod.ext_iff]
    | _ => simp [ofLine, valuesOf]
  | other => simp [ofLine, valuesOf]

theorem place_ofLines {α : Type} (place : Draft → List α) (hempty : place {} = [])
    (happend : ∀ a b : Draft, place (a ++ b) = place a ++ place b) (ls : List (List Char)) :
    place (ofLines (ls.map ofChars)) = ls.flatMap fun l => place (ofLine (ofChars l)) := by
  rw [collected_ofLines place hempty happend, List.flatMap_map]

theorem text_iff {ls : List (List Char)} {text : List String} :
    Collects (fun line t => ¬ Marked line ∧ t = .ofList line) ls text ↔
      text = (ofLines (ls.map ofChars)).text := by
  rw [place_ofLines (·.text) rfl fun _ _ => rfl]
  refine collects_iff (fun l => ?_) text_ofLine_iff
  cases ofChars l with
  | code t => exact .inr ⟨_, rfl⟩
  | directive kind p => cases kind <;> exact .inl rfl
  | other => exact .inl rfl

theorem docs_iff {ls : List (List Char)} {docs : List String} :
    Collects (fun line t => ∃ p, Directs line .note p ∧ t = .ofList p) ls docs ↔
      docs = (ofLines (ls.map ofChars)).docs := by
  rw [place_ofLines (·.docs) rfl fun _ _ => rfl]
  refine collects_iff (fun l => ?_) docs_ofLine_iff
  cases ofChars l with
  | code t => exact .inl rfl
  | directive kind p =>
    cases kind with
    | note => exact .inr ⟨_, rfl⟩
    | _ => exact .inl rfl
  | other => exact .inl rfl

theorem values_iff {ls : List (List Char)} {name : String} {values : List String} :
    Collects (fun line v => ∃ p, Directs line .tag p ∧ IsTag p name v) ls values ↔
      values = valuesOf (ofLines (ls.map ofChars)).tags name := by
  have happend : ∀ a b : Draft, valuesOf (a ++ b).tags name =
      valuesOf a.tags name ++ valuesOf b.tags name := fun a b => valuesOf_append a.tags b.tags name
  rw [place_ofLines (fun d => valuesOf d.tags name) rfl happend]
  refine collects_iff (fun l => ?_) (valuesOf_ofLine_iff name)
  cases ofChars l with
  | code t => exact .inl rfl
  | directive kind p =>
    cases kind with
    | tag =>
      by_cases hn : (tagged p).1 = name
      · exact .inr ⟨(tagged p).2, by simp [ofLine, valuesOf, hn]⟩
      · exact .inl (by simp [ofLine, valuesOf, hn])
    | _ => exact .inl rfl
  | other => exact .inl rfl

theorem isSetOf_iff (place : Draft → List String) {ls : List (List Char)} {names : List String}
    {kinds : List Directive} (hempty : place {} = [])
    (happend : ∀ a b : Draft, place (a ++ b) = place a ++ place b)
    (hcode : ∀ t, place (ofLine (.code t)) = []) (hother : place (ofLine .other) = [])
    (hkind : ∀ kind p, place (ofLine (.directive kind p)) = if kind ∈ kinds then named p else []) :
    IsSetOf names ls kinds ↔ names = tidy (place (ofLines (ls.map ofChars))) := by
  have hmem : ∀ x, x ∈ tidy (place (ofLines (ls.map ofChars))) ↔
      ∃ line ∈ ls, ∃ kind ∈ kinds, ∃ payload, Directs line kind payload ∧ Names payload x := by
    intro x
    rw [tidy, Ascending.mem_ofList, List.mem_filter, place_ofLines place hempty happend,
      List.mem_flatMap]
    simp only [mem_place_ofLine_iff place hcode hother hkind]
    constructor
    · exact And.left
    · intro h
      have hx : x ≠ "" := by
        obtain ⟨-, -, -, -, -, -, hx, -⟩ := h
        exact hx
      exact ⟨h, decide_eq_true hx⟩
  have hasc := Ascending.pairwise_ofList
    ((place (ofLines (ls.map ofChars))).filter (· ≠ ""))
  constructor
  · rintro ⟨hn, hmem'⟩
    exact Ascending.eq_of_mem_iff hn hasc fun x => (hmem' x).trans (hmem x).symm
  · rintro rfl
    exact ⟨hasc, hmem⟩

end Draft

namespace Snippet

theorem dictates_iff {ls : List (List Char)} {s : Snippet} {d : Draft}
    (hd : d = Draft.ofLines (ls.map ofChars)) : Dictates ls s ↔
      s.text = d.text ∧ s.docs = d.docs ∧ s.imports = tidy d.imports ∧
        s.expects = tidy d.expects ∧ s.follows = tidy d.follows ∧ s.tags = Draft.gather d.tags := by
  subst hd
  have himports : IsSetOf s.imports ls [.imports] ↔ _ :=
    Draft.isSetOf_iff (·.imports) rfl (fun _ _ => rfl) (fun _ => rfl) rfl
      fun kind _ => by cases kind <;> rfl
  have hexpects : IsSetOf s.expects ls [.expects, .follows] ↔ _ :=
    Draft.isSetOf_iff (·.expects) rfl (fun _ _ => rfl) (fun _ => rfl) rfl
      fun kind _ => by cases kind <;> rfl
  have hfollows : IsSetOf s.follows ls [.follows] ↔ _ :=
    Draft.isSetOf_iff (·.follows) rfl (fun _ _ => rfl) (fun _ => rfl) rfl
      fun kind _ => by cases kind <;> rfl
  constructor
  · intro h
    refine ⟨Draft.text_iff.1 h.text, Draft.docs_iff.1 h.docs, himports.1 h.imports,
      hexpects.1 h.expects, hfollows.1 h.follows, NameMap.ext_get? fun name => ?_⟩
    ext values
    rw [h.tags, Draft.values_iff, Draft.get?_gather_eq_some_iff]
  · rintro ⟨htext, hdocs, himp, hexp, hfol, htags⟩
    refine ⟨Draft.text_iff.2 htext, Draft.docs_iff.2 hdocs, himports.2 himp, hexpects.2 hexp,
      hfollows.2 hfol, fun name values => ?_⟩
    rw [htags, Draft.values_iff, Draft.get?_gather_eq_some_iff]

abbrev linesOf (content : Bytes) : List (List Char) := Text.lines (Utf8.decode content).toList

theorem draft_ofContent (content : Bytes) :
    Draft.ofContent content = Draft.ofLines ((linesOf content).map ofChars) := by
  rw [Draft.ofContent, linesOf, Utf8.decode, String.toList_ofList]

theorem text_eq_nil_iff {ls : List (List Char)} :
    (Draft.ofLines (ls.map ofChars)).text = [] ↔ ∀ line ∈ ls, Marked line := by
  rw [Draft.place_ofLines (·.text) rfl fun _ _ => rfl, List.flatMap_eq_nil_iff]
  refine forall₂_congr fun line _ => ?_
  constructor
  · intro h
    refine Classical.byContradiction fun hm => ?_
    rw [(Draft.text_ofLine_iff line _).1 ⟨hm, rfl⟩] at h
    cases h
  · intro hm
    cases h : ofChars line with
    | code t => exact absurd hm (Line.ofChars_eq_code_iff.1 h).1
    | directive kind p => cases kind <;> rfl
    | other => rfl

theorem mem_imports_iff {ls : List (List Char)} {x : String} :
    x ∈ (Draft.ofLines (ls.map ofChars)).imports ↔
      ∃ line ∈ ls, ∃ payload, Directs line .imports payload ∧ Names payload x := by
  have hline : ∀ line, x ∈ (Draft.ofLine (ofChars line)).imports ↔
      ∃ kind ∈ [Directive.imports], ∃ p, Directs line kind p ∧ Names p x := fun _ =>
    Draft.mem_place_ofLine_iff (·.imports) (fun _ => rfl) rfl fun kind _ => by cases kind <;> rfl
  rw [Draft.place_ofLines (·.imports) rfl fun _ _ => rfl, List.mem_flatMap]
  simp only [hline, List.mem_singleton, exists_eq_left]

theorem tidy_imports_eq_nil_iff {ls : List (List Char)} :
    tidy (Draft.ofLines (ls.map ofChars)).imports = [] ↔
      (Draft.ofLines (ls.map ofChars)).imports = [] := by
  simp only [List.eq_nil_iff_forall_not_mem, tidy, Ascending.mem_ofList, List.mem_filter]
  refine forall_congr' fun x => not_congr ⟨And.left, fun h => ⟨h, ?_⟩⟩
  obtain ⟨-, -, -, -, hx, -⟩ := mem_imports_iff.1 h
  exact decide_eq_true hx

theorem ofContent_eq_ok_iff {content : Bytes} {path : Path} {name : String} {s : Snippet} :
    ofContent content path name = .ok s ↔ s.name = name ∧ s.path = path ∧
      Dictates (linesOf content) s ∧ (s.text ≠ [] ∨ s.imports ≠ []) := by
  rw [dictates_iff (draft_ofContent content)]
  have hnil : tidy (Draft.ofContent content).imports = [] ↔
      (Draft.ofContent content).imports = [] := by
    rw [draft_ofContent]
    exact tidy_imports_eq_nil_iff
  dsimp only [ofContent]
  split
  · next h =>
    refine ⟨nofun, ?_⟩
    rintro ⟨-, -, ⟨htext, -, himports, -⟩, hne⟩
    rw [htext, himports, Ne, Ne, hnil] at hne
    exact absurd h (by rwa [Decidable.not_and_iff_not_or_not])
  · next h =>
    constructor
    · rintro ⟨⟩
      refine ⟨rfl, rfl, ⟨rfl, rfl, rfl, rfl, rfl, rfl⟩, ?_⟩
      rw [Ne, Ne, hnil]
      exact Decidable.not_and_iff_not_or_not.1 h
    · rintro ⟨rfl, rfl, ⟨h₁, h₂, h₃, h₄, h₅, h₆⟩, -⟩
      rw [← h₁, ← h₂, ← h₃, ← h₄, ← h₅, ← h₆]

theorem ofContent_eq_error_iff {content : Bytes} {path : Path} {name : String} {p : Problem} :
    ofContent content path name = .error p ↔ p = .empty name path ∧
      ∀ line ∈ linesOf content, Marked line ∧
        ∀ payload x, Directs line .imports payload → ¬ Names payload x := by
  have hempty : ((Draft.ofContent content).text = [] ∧ (Draft.ofContent content).imports = []) ↔
      ∀ line ∈ linesOf content, Marked line ∧
        ∀ payload x, Directs line .imports payload → ¬ Names payload x := by
    rw [draft_ofContent, text_eq_nil_iff, List.eq_nil_iff_forall_not_mem]
    simp only [mem_imports_iff]
    constructor
    · rintro ⟨hm, hi⟩ line hl
      exact ⟨hm line hl, fun payload x hd hx => hi x ⟨line, hl, payload, hd, hx⟩⟩
    · intro h
      refine ⟨fun line hl => (h line hl).1, ?_⟩
      rintro x ⟨line, hl, payload, hd, hx⟩
      exact (h line hl).2 payload x hd hx
  rw [← hempty]
  dsimp only [ofContent]
  split
  · next h => simp [h, eq_comm]
  · next h => simp [h]

end Snippet

/-- A line is read as the grammar has it, in one way only, and a file holds exactly the snippet
that its lines dictate; it holds none if every line is marked and none names an import. -/
theorem reading_follows_the_grammar (content : Bytes) (path : Path) (name : String) :
    (∀ line, (∀ kind payload, ofChars line = .directive kind payload ↔ Directs line kind payload) ∧
      (∀ text, ofChars line = .code text ↔ ¬ Marked line ∧ text = line) ∧
      (ofChars line = .other ↔ Marked line ∧ ∀ kind payload, ¬ Directs line kind payload) ∧
      ∀ kind kind' payload payload', Directs line kind payload → Directs line kind' payload' →
        kind = kind' ∧ payload = payload') ∧
    ∃ ls, (∀ ms, IsLines (Utf8.decode content).toList ms ↔ ms = ls) ∧
      (∀ s, Snippet.ofContent content path name = .ok s ↔
        s.name = name ∧ s.path = path ∧ Dictates ls s ∧ (s.text ≠ [] ∨ s.imports ≠ [])) ∧
      ∀ p, Snippet.ofContent content path name = .error p ↔ p = .empty name path ∧
        ∀ line ∈ ls, Marked line ∧
          ∀ payload x, Directs line .imports payload → ¬ Names payload x := by
  refine ⟨fun line => ⟨fun _ _ => Line.ofChars_eq_directive_iff,
    fun _ => Line.ofChars_eq_code_iff, Line.ofChars_eq_other_iff,
    fun _ _ _ _ h h' => h.unique h'⟩, Snippet.linesOf content, fun _ => Text.isLines_iff,
    fun _ => Snippet.ofContent_eq_ok_iff, fun _ => Snippet.ofContent_eq_error_iff⟩

end SnippetCatalog
