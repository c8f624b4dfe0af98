import SnippetCatalog.Snippet.Draft

/-!
Files one behind the other. A line feed ends whatever character was under way, so that bytes which
end with one are decoded on their own, well-formed or not. Main statement: reading two files that
are joined at a line feed is reading each of them and putting together what they contribute.
-/

namespace SnippetCatalog

namespace Utf8

variable {s : State} {a b : Bytes} {c : UInt8}

/-- An ASCII byte goes on with no character, so it ends what is unfinished and is read as itself. -/
theorem step_of_ascii (hs : s.Beyond) (hc : c.toNat < 0x80) :
    s.step c = (s.flush ++ [.ofNat c.toNat], .between) := by
  have hstart : start c.toNat = ([.ofNat c.toNat], .between) := if_pos hc
  cases s with
  | between => exact hstart
  | inside low high more value =>
    have hlow : 0x80 ≤ low := hs.1
    rw [State.step, if_neg (by omega), hstart]
    rfl

theorem decodeFrom_cons_of_ascii (hs : s.Beyond) (hc : c.toNat < 0x80) (b : Bytes) :
    decodeFrom s (c :: b) = s.flush ++ .ofNat c.toNat :: decodeFrom .between b := by
  rw [decodeFrom, step_of_ascii hs hc]
  exact List.append_assoc _ _ _

theorem decodeFrom_append_of_ascii (hs : s.Beyond) (hc : c.toNat < 0x80) (a b : Bytes) :
    decodeFrom s (a ++ c :: b) = decodeFrom s a ++ .ofNat c.toNat :: decodeFrom .between b := by
  induction a generalizing s with
  | nil => exact decodeFrom_cons_of_ascii hs hc b
  | cons d a ih =>
    rw [List.cons_append, decodeFrom, ih (beyond_step hs d), decodeFrom, List.append_assoc]

theorem decodeFrom_append_feed (a b : Bytes) : decodeFrom .between (a ++ 0x0A :: b) =
    decodeFrom .between a ++ '\n' :: decodeFrom .between b :=
  decodeFrom_append_of_ascii (s := .between) trivial (by decide) a b

end Utf8

open Utf8 (decodeFrom)

def EndsLine (a : Bytes) : Prop := a = [] ∨ a.getLast? = some 0x0A

instance (a : Bytes) : Decidable (EndsLine a) := inferInstanceAs (Decidable (_ ∨ _))

namespace EndsLine

variable {a : Bytes}

theorem decodeFrom_append (h : EndsLine a) (b : Bytes) :
    decodeFrom .between (a ++ b) = decodeFrom .between a ++ decodeFrom .between b := by
  rcases h with rfl | h
  · rfl
  · obtain ⟨before, rfl⟩ := List.getLast?_eq_some_iff.1 h
    rw [List.append_assoc, List.singleton_append, Utf8.decodeFrom_append_feed,
      Utf8.decodeFrom_append_feed, List.append_assoc]
    rfl

theorem getLast?_decodeFrom (h : EndsLine a) :
    ∀ c ∈ (decodeFrom .between a).getLast?, c = '\n' := by
  rcases h with rfl | h
  · simp [decodeFrom, Utf8.State.flush]
  · obtain ⟨before, rfl⟩ := List.getLast?_eq_some_iff.1 h
    rw [Utf8.decodeFrom_append_feed]
    simp [decodeFrom, Utf8.State.flush]

theorem draft_append (h : EndsLine a) (b : Bytes) :
    Draft.ofContent (a ++ b) = Draft.ofContent a ++ Draft.ofContent b := by
  unfold Draft.ofContent
  rw [h.decodeFrom_append, Text.lines_append h.getLast?_decodeFrom, List.map_append,
    Draft.ofLines_append]

end EndsLine

theorem tidy_tidy_append (names names' : List String) :
    tidy (tidy names ++ tidy names') = tidy (names ++ names') := by
  apply Ascending.eq_of_mem_iff (pairwise_tidy _) (pairwise_tidy _)
  intro x
  simp only [mem_tidy, List.mem_append]
  constructor
  · rintro ⟨h | h, hx⟩
    · exact ⟨.inl h.1, hx⟩
    · exact ⟨.inr h.1, hx⟩
  · rintro ⟨h | h, hx⟩
    · exact ⟨.inl ⟨h, hx⟩, hx⟩
    · exact ⟨.inr ⟨h, hx⟩, hx⟩

theorem Draft.get?_gather_append (tags tags' : List (String × String)) (name : String) :
    (gather (tags ++ tags')).get? name =
      Option.merge (· ++ ·) ((gather tags).get? name) ((gather tags').get? name) := by
  rw [get?_gather, get?_gather, get?_gather, valuesOf_append]
  by_cases h : valuesOf tags name = []
  · by_cases h' : valuesOf tags' name = []
    · simp [h, h']
    · simp [h, h']
  · by_cases h' : valuesOf tags' name = []
    · simp [h, h']
    · simp [h, h']

/-- Bytes that end where a line does, and any bytes behind them: what the whole contributes is what
the two contribute, place by place and tag by tag; so the whole has a snippet if one of them has,
and if both have it is theirs put together. -/
theorem reading_joined_files (a b : Bytes) (path : Path) (name : String) (ends_line : EndsLine a) :
    let first := Draft.ofContent a
    let second := Draft.ofContent b
    let whole := Draft.ofContent (a ++ b)
    let reading (content : Bytes) := Snippet.ofContent content path name
    (whole.text = first.text ++ second.text ∧ whole.docs = first.docs ++ second.docs ∧
      whole.imports = first.imports ++ second.imports ∧
      whole.expects = first.expects ++ second.expects ∧
      whole.follows = first.follows ++ second.follows ∧
      ∀ tag, (Draft.gather whole.tags).get? tag = Option.merge (· ++ ·)
        ((Draft.gather first.tags).get? tag) ((Draft.gather second.tags).get? tag)) ∧
    ((∃ p, reading (a ++ b) = .error p) ↔ (∃ p, reading a = .error p) ∧ ∃ p, reading b = .error p) ∧
    ∀ s t, reading a = .ok s → reading b = .ok t → ∃ u, reading (a ++ b) = .ok u ∧
      u.name = name ∧ u.path = path ∧ u.text = s.text ++ t.text ∧ u.docs = s.docs ++ t.docs ∧
      u.imports = tidy (s.imports ++ t.imports) ∧ u.expects = tidy (s.expects ++ t.expects) ∧
      u.follows = tidy (s.follows ++ t.follows) ∧
      ∀ tag, u.tags.get? tag =
        Option.merge (· ++ ·) (s.tags.get? tag) (t.tags.get? tag) := by
  intro first second whole reading
  have hwhole : whole = first ++ second := ends_line.draft_append b
  have htext : whole.text = first.text ++ second.text := by rw [hwhole]; rfl
  have hdocs : whole.docs = first.docs ++ second.docs := by rw [hwhole]; rfl
  have himports : whole.imports = first.imports ++ second.imports := by rw [hwhole]; rfl
  have hexpects : whole.expects = first.expects ++ second.expects := by rw [hwhole]; rfl
  have hfollows : whole.follows = first.follows ++ second.follows := by rw [hwhole]; rfl
  have htags : ∀ tag, (Draft.gather whole.tags).get? tag = Option.merge (· ++ ·)
      ((Draft.gather first.tags).get? tag) ((Draft.gather second.tags).get? tag) := by
    intro tag
    rw [hwhole]
    exact Draft.get?_gather_append first.tags second.tags tag
  have hfails : (∃ p, reading (a ++ b) = .error p) ↔
      (∃ p, reading a = .error p) ∧ ∃ p, reading b = .error p := by
    rw [Snippet.exists_error_iff, Snippet.exists_error_iff, Snippet.exists_error_iff]
    change whole.text = [] ∧ whole.imports = [] ↔ _
    rw [htext, himports, List.append_eq_nil_iff, List.append_eq_nil_iff]
    exact and_and_and_comm
  refine ⟨⟨htext, hdocs, himports, hexpects, hfollows, htags⟩, hfails, ?_⟩
  intro s t hs ht
  cases hu : reading (a ++ b) with
  | error p =>
    obtain ⟨⟨q, hq⟩, -⟩ := hfails.1 ⟨p, hu⟩
    rw [hs] at hq
    cases hq
  | ok u =>
    refine ⟨u, rfl, ?_⟩
    rw [Snippet.ofContent_of_ok hs, Snippet.ofContent_of_ok ht, Snippet.ofContent_of_ok hu]
    refine ⟨rfl, rfl, htext, hdocs, ?_, ?_, ?_, htags⟩
    · rw [tidy_tidy_append, ← himports]
    · rw [tidy_tidy_append, ← hexpects]
    · rw [tidy_tidy_append, ← hfollows]

/-- A character that is broken off by a line feed and its last byte behind it. -/
theorem reading_joined_broken_character :
    EndsLine [0xE2, 0x82, 0x0A] ∧
    ∃ u, Snippet.ofContent ([0xE2, 0x82, 0x0A] ++ [0xAC, 0x0D, 0x0A]) (.ofText "d/x") "x" = .ok u ∧
      u.text = ["\ufffd"] ++ ["\ufffd"] := by
  have hends : EndsLine [0xE2, 0x82, 0x0A] := by decide
  obtain ⟨-, -, hjoin⟩ := reading_joined_files [0xE2, 0x82, 0x0A] [0xAC, 0x0D, 0x0A] (.ofText "d/x")
    "x" hends
  have hs : ∃ s, Snippet.ofContent [0xE2, 0x82, 0x0A] (.ofText "d/x") "x" = .ok s ∧
      s.text = ["\ufffd"] := ⟨_, rfl, by decide⟩
  have ht : ∃ t, Snippet.ofContent [0xAC, 0x0D, 0x0A] (.ofText "d/x") "x" = .ok t ∧
      t.text = ["\ufffd"] := ⟨_, rfl, by decide⟩
  obtain ⟨s, hs, hstext⟩ := hs
  obtain ⟨t, ht, httext⟩ := ht
  obtain ⟨u, hu, -, -, htext, -⟩ := hjoin s t hs ht
  exact ⟨hends, u, hu, by rw [htext, hstext, httext]⟩

end SnippetCatalog
