import Mathlib.Data.List.Nodup
import SnippetCatalog.Proofs.BlockLines
import SnippetCatalog.Proofs.ByteOrder
import SnippetCatalog.Proofs.ListDifferences
import SnippetCatalog.Proofs.QuotedText

/-!
What is told of two tag maps. The names that only one of them has come first, a line for each, in the
order of the names as they are quoted; only where there are none are values compared. Main statements:
what is told says exactly what differs, and the other way round it is the same with the sides
exchanged; the names stand in their own order exactly if no two of them are crossed.
-/

namespace SnippetCatalog

namespace Difference

open Text (quote feedPieces Crossed)

/-! ### The names that only one map has -/

inductive Side where
  | this
  | other
  deriving DecidableEq, Repr

namespace Side

def exchange : Side → Side
  | this => other
  | other => this

def place : Side → String
  | this => " in this, not in other"
  | other => " in other, not in this"

theorem place_injective {a b : Side} (h : a.place = b.place) : a = b := by
  cases a <;> cases b <;> first | rfl | exact absurd h (by decide)

end Side

def nameLine (e : String × Side) : String := quote e.1 ++ e.2.place

def swap (e : String × Side) : String × Side := (e.1, e.2.exchange)

def HasAlone (m n : NameMap (List String)) (t : String) : Side → Prop
  | .this => m.contains t ∧ ¬ n.contains t
  | .other => n.contains t ∧ ¬ m.contains t

def alone (m n : NameMap (List String)) : List (String × Side) :=
  (unshared m n).map (·, .this) ++ (unshared n m).map (·, .other)

section

variable {m n : NameMap (List String)}

theorem mem_unshared_iff {t : String} : t ∈ unshared m n ↔ m.contains t ∧ ¬ n.contains t := by
  rw [unshared, List.mem_filter, NameMap.mem_keys_iff_contains, decide_eq_true_iff]

theorem mem_alone_iff {t : String} {side : Side} : (t, side) ∈ alone m n ↔ HasAlone m n t side := by
  rw [alone, List.mem_append]
  cases side <;> simp [HasAlone, mem_unshared_iff]

theorem nodup_unshared (m n : NameMap (List String)) : (unshared m n).Nodup :=
  m.nodup_keys.filter _

theorem nodup_names_alone (m n : NameMap (List String)) : ((alone m n).map (·.1)).Nodup := by
  have hnames : (alone m n).map (·.1) = unshared m n ++ unshared n m := by
    simp [alone, Function.comp_def]
  rw [hnames]
  refine List.nodup_append.2 ⟨nodup_unshared m n, nodup_unshared n m, ?_⟩
  rintro t ht s hs rfl
  exact (mem_unshared_iff.1 hs).2 (mem_unshared_iff.1 ht).1

theorem names_differ_iff :
    (∃ t, m.contains t ≠ n.contains t) ↔ ¬ (unshared m n = [] ∧ unshared n m = []) := by
  rw [List.eq_nil_iff_forall_not_mem, List.eq_nil_iff_forall_not_mem, ← forall_and, not_forall]
  refine exists_congr fun t => ?_
  rw [mem_unshared_iff, mem_unshared_iff]
  cases m.contains t <;> cases n.contains t <;> decide

theorem ofTags?_of_names_differ (h : ∃ t, m.contains t ≠ n.contains t) :
    ofTags? m n = some (.tagNames (unshared m n) (unshared n m)) :=
  dif_neg (names_differ_iff.1 h)

/-! ### The lines for the names -/

theorem nameLine_injective : Function.Injective nameLine := by
  rintro ⟨s, a⟩ ⟨t, b⟩ h
  obtain ⟨hname, hplace⟩ := Text.quote_append_injective h
  exact Prod.ext hname (Side.place_injective hplace)

theorem quote_lt_of_nameLine_lt {e f : String × Side} (hne : e.1 ≠ f.1)
    (h : nameLine e < nameLine f) : quote e.1 < quote f.1 := by
  rcases Std.lt_trichotomy (quote e.1) (quote f.1) with hlt | heq | hgt
  · exact hlt
  · exact absurd (Text.quote_injective heq) hne
  · exact absurd (Std.lt_trans h (Text.quote_append_lt hgt _ _)) Std.lt_irrefl

theorem lines_tagNames (m n : NameMap (List String)) :
    (tagNames (unshared m n) (unshared n m)).lines =
      "the tag names differ:" :: Ascending.ofList ((alone m n).map nameLine) := by
  rw [alone, List.map_append, List.map_map, List.map_map]
  rfl

theorem feedPieces_join {first : String} {more : List String} (hfirst : '\n' ∉ first.toList)
    (hmore : ∀ l ∈ more, '\n' ∉ l.toList) :
    feedPieces (first ++ String.join (more.map ("\n\t" ++ ·))) = first :: more.map ("\t" ++ ·) := by
  induction more generalizing first with
  | nil => simpa using Text.feedPieces_of_notMem hfirst
  | cons l more ih =>
    obtain ⟨hl, hrest⟩ := List.forall_mem_cons.1 hmore
    have hnext : first ++ String.join ((l :: more).map ("\n\t" ++ ·)) =
        first ++ "\n" ++ (("\t" ++ l) ++ String.join (more.map ("\n\t" ++ ·))) := by
      apply String.toList_inj.1
      simp
    have htab : '\n' ∉ ("\t" ++ l).toList := by simpa using hl
    rw [hnext, Text.feedPieces_append_feed, Text.feedPieces_of_notMem hfirst, ih htab hrest]
    rfl

structure Told (m n : NameMap (List String)) (told : List (String × Side)) : Prop where
  perm : told.Perm (alone m n)
  quoted : told.Pairwise fun e f => quote e.1 < quote f.1

namespace Told

variable {told : List (String × Side)}

theorem mem_iff (h : Told m n told) {t : String} {side : Side} :
    (t, side) ∈ told ↔ HasAlone m n t side :=
  h.perm.mem_iff.trans mem_alone_iff

theorem nodup_names (h : Told m n told) : (told.map (·.1)).Nodup :=
  (h.perm.map _).nodup_iff.2 (nodup_names_alone m n)

theorem lines_eq (h : Told m n told) : (tagNames (unshared m n) (unshared n m)).lines =
    "the tag names differ:" :: told.map nameLine := by
  have hsorted : (told.map nameLine).Pairwise (· < ·) :=
    List.pairwise_map.2 (h.quoted.imp fun hlt => Text.quote_append_lt hlt _ _)
  have hlines : Ascending.ofList ((alone m n).map nameLine) = told.map nameLine := by
    refine Ascending.eq_of_mem_iff (Ascending.pairwise_ofList _) hsorted fun l => ?_
    rw [Ascending.mem_ofList]
    exact (h.perm.map nameLine).mem_iff.symm
  rw [lines_tagNames, hlines]

theorem swapped (h : Told m n told) : Told n m (told.map swap) := by
  constructor
  · have hswap : (alone m n).map swap =
        (unshared m n).map (·, .other) ++ (unshared n m).map (·, .this) := by
      rw [alone, List.map_append, List.map_map, List.map_map]
      rfl
    exact (h.perm.map swap).trans (hswap ▸ List.perm_append_comm)
  · exact List.pairwise_map.2 h.quoted

theorem feedPieces_message (h : Told m n told) :
    feedPieces (tagNames (unshared m n) (unshared n m)).message =
      "the tag names differ:" :: told.map fun e => "\t" ++ nameLine e := by
  have hlines : ∀ l ∈ told.map nameLine, '\n' ∉ l.toList := by
    intro l hl
    obtain ⟨e, -, rfl⟩ := List.mem_map.1 hl
    have hplace : ∀ side : Side, '\n' ∉ side.place.toList := by
      intro side
      cases side <;> decide
    simp [nameLine, Text.feed_notMem_quote, hplace]
  rw [message_of_lines h.lines_eq, feedPieces_join (by decide) hlines, List.map_map]
  rfl

theorem ascending_iff (h : Told m n told) : (told.Pairwise fun e f => e.1 < f.1) ↔
    ∀ e ∈ told, ∀ f ∈ told, ¬ Crossed e.1.toList f.1.toList := by
  constructor
  · intro hascending
    have hapart : told.Pairwise fun e f =>
        ¬ Crossed e.1.toList f.1.toList ∧ ¬ Crossed f.1.toList e.1.toList := by
      refine (hascending.and h.quoted).imp fun ⟨hlt, hquoted⟩ => ?_
      exact ⟨(Text.quote_lt_quote_iff hlt).1 hquoted,
        fun hcrossed => absurd (Std.lt_trans hlt hcrossed.lt) Std.lt_irrefl⟩
    have hself : ∀ e ∈ told, ¬ Crossed e.1.toList e.1.toList ∧ ¬ Crossed e.1.toList e.1.toList :=
      fun e _ => ⟨fun hc => absurd hc.lt Std.lt_irrefl, fun hc => absurd hc.lt Std.lt_irrefl⟩
    have hsymm : Std.Symm fun e f : String × Side =>
        ¬ Crossed e.1.toList f.1.toList ∧ ¬ Crossed f.1.toList e.1.toList :=
      ⟨fun _ _ hef => hef.symm⟩
    intro e he f hf
    exact (hapart.forall_of_forall hself he hf).1
  · intro hnot
    refine h.quoted.imp_of_mem fun {e f} he hf hquoted => ?_
    rcases Std.lt_trichotomy e.1 f.1 with hlt | heq | hgt
    · exact hlt
    · exact absurd (heq ▸ hquoted) Std.lt_irrefl
    · have hback : quote f.1 < quote e.1 := (Text.quote_lt_quote_iff hgt).2 (hnot f hf e he)
      exact absurd (Std.lt_trans hquoted hback) Std.lt_irrefl

end Told

theorem exists_told (m n : NameMap (List String)) : ∃ told, Told m n told := by
  have hnodup : ((alone m n).map nameLine).Nodup :=
    (List.Nodup.of_map _ (nodup_names_alone m n)).map nameLine_injective
  obtain ⟨told, htold, hperm⟩ := Ascending.exists_map_ofList hnodup
  have hlines : told.Pairwise fun e f => nameLine e < nameLine f :=
    List.pairwise_map.1 (htold ▸ Ascending.pairwise_ofList _)
  have hnames : told.Pairwise fun e f => e.1 ≠ f.1 :=
    List.pairwise_map.1 ((hperm.map _).nodup_iff.2 (nodup_names_alone m n))
  exact ⟨told, hperm, (hnames.and hlines).imp fun ⟨hne, hlt⟩ => quote_lt_of_nameLine_lt hne hlt⟩

/-! ### Values -/

theorem get?_eq_of_shared {t : String} (hshared : m.contains t = n.contains t)
    (h : ∀ values, m.get? t = some values → n.get? t = some values) : m.get? t = n.get? t := by
  cases hm : m.get? t with
  | some values => exact (h values hm).symm
  | none =>
    have hlacks : ¬ n.contains t := by
      rw [← hshared]
      exact NameMap.not_contains_iff.2 hm
    exact (NameMap.not_contains_iff.1 hlacks).symm

theorem ofTags?_cases_of_names_shared (h : ∀ t, m.contains t = n.contains t) :
    (ofTags? m n = none ∧ m = n) ∨
    ∃ t values others, m.get? t = some values ∧ n.get? t = some others ∧ values ≠ others ∧
      (∀ s, s < t → m.get? s = n.get? s) ∧
      ofTags? m n = some (.lists ("Tag:" ++ t) values others) := by
  have hshared : unshared m n = [] ∧ unshared n m = [] := by
    by_contra hnot
    obtain ⟨t, ht⟩ := names_differ_iff.2 hnot
    exact ht (h t)
  have hagrees : ∀ e : { t // t ∈ m.entries },
      ofLists? ("Tag:" ++ e.1.1) e.1.2 (n.get e.1.1 (contains_of_unshared_eq_nil hshared.1 e.2)) =
        none → n.get? e.1.1 = some e.1.2 := by
    intro e he
    rw [NameMap.get?_eq_some_get (contains_of_unshared_eq_nil hshared.1 e.2),
      ← ofLists?_eq_none_iff.1 he]
  rw [ofTags?, dif_pos hshared]
  cases hfound : m.entries.attach.findSome? fun e =>
      ofLists? ("Tag:" ++ e.1.1) e.1.2 (n.get e.1.1 (contains_of_unshared_eq_nil hshared.1 e.2)) with
  | none =>
    refine .inl ⟨rfl, NameMap.ext_get? fun t => get?_eq_of_shared (h t) fun values hvalues => ?_⟩
    have hmem := NameMap.mem_entries_iff.2 hvalues
    exact hagrees ⟨_, hmem⟩ (List.findSome?_eq_none_iff.1 hfound _ (List.mem_attach _ ⟨_, hmem⟩))
  | some d =>
    obtain ⟨before, e, after, hentries, hd, hbefore⟩ := List.findSome?_eq_some_iff.1 hfound
    obtain ⟨⟨t, values⟩, hmem⟩ := e
    have hne : values ≠ n.get t (contains_of_unshared_eq_nil hshared.1 hmem) := by
      intro heq
      rw [ofLists?_eq_none_iff.2 heq] at hd
      cases hd
    rw [ofLists?_of_ne hne] at hd
    refine .inr ⟨t, values, _, NameMap.mem_entries_iff.1 hmem, NameMap.get?_eq_some_get _, hne,
      fun s hs => get?_eq_of_shared (h s) fun others hothers => ?_, hd.symm⟩
    have hsorted := m.ascending
    rw [← List.attach_map_subtype_val m.entries, hentries, List.map_append, List.map_cons,
      List.pairwise_append, List.pairwise_cons] at hsorted
    have hsmem := List.mem_attach m.entries ⟨_, NameMap.mem_entries_iff.2 hothers⟩
    rw [hentries] at hsmem
    -- the entries behind the one that is found have greater names
    rcases List.mem_append.1 hsmem with hearlier | hlater
    · exact hagrees _ (hbefore _ hearlier)
    · rcases List.mem_cons.1 hlater with heq | hlater
      · have hst : s = t := congrArg (fun e => e.1.1) heq
        exact absurd (hst ▸ hs) Std.lt_irrefl
      · have hgreater : t < s := hsorted.2.1.1 _ (List.mem_map_of_mem hlater)
        exact absurd (Std.lt_trans hs hgreater) Std.lt_irrefl

theorem ofTags?_of_names_shared (h : ∀ t, m.contains t = n.contains t) :
    (ofTags? m n = none ∧ m = n) ∨
    ∃ t values others, m.get? t = some values ∧ n.get? t = some others ∧ values ≠ others ∧
      (∀ s, s < t → m.get? s = n.get? s) ∧
      ofTags? m n = some (.lists ("Tag:" ++ t) values others) ∧
      ofTags? n m = some (.lists ("Tag:" ++ t) others values) := by
  rcases ofTags?_cases_of_names_shared h with
    hsame | ⟨t, values, others, hm, hn, hne, hleast, htold⟩
  · exact .inl hsame
  · refine .inr ⟨t, values, others, hm, hn, hne, hleast, htold, ?_⟩
    have hdiffers : m.get? t ≠ n.get? t := by simpa [hm, hn] using hne
    rcases ofTags?_cases_of_names_shared fun s => (h s).symm with
      ⟨-, heq⟩ | ⟨s, others', values', hn', hm', hne', hleast', hback⟩
    · exact absurd (heq ▸ rfl) hdiffers
    · have hdiffers' : n.get? s ≠ m.get? s := by simpa [hm', hn'] using hne'
      have hst : s = t := by
        rcases Std.lt_trichotomy s t with hlt | heq | hgt
        · exact absurd (hleast s hlt).symm hdiffers'
        · exact heq
        · exact absurd (hleast' t hgt).symm hdiffers
      subst hst
      rw [hback, Option.some.inj (hm'.symm.trans hm), Option.some.inj (hn'.symm.trans hn)]

theorem ofTags?_eq_none_iff : ofTags? m n = none ↔ m = n := by
  by_cases h : ∃ t, m.contains t ≠ n.contains t
  · rw [ofTags?_of_names_differ h]
    obtain ⟨t, ht⟩ := h
    refine ⟨nofun, ?_⟩
    rintro rfl
    exact absurd rfl ht
  · have hshared : ∀ t, m.contains t = n.contains t := by simpa using h
    rcases ofTags?_of_names_shared hshared with
      ⟨hnone, heq⟩ | ⟨t, values, others, hm, hn, hne, -, hsome, -⟩
    · exact iff_of_true hnone heq
    · rw [hsome]
      refine ⟨nofun, ?_⟩
      rintro rfl
      exact absurd (Option.some.inj (hm.symm.trans hn)) hne

end

/-- Nothing is told of two tag maps exactly if they are equal. If their names differ, it is told, a
line for each, which names only one of them has and which one, and nothing of values; the other way
round it is the same names with the sides exchanged. Every name of a map none of whose names is told
can be looked up in the other one; and if the names are the same, what is told of different maps is
what is told of the values of the least name that has different ones. -/
theorem tags_are_told_apart (m n : NameMap (List String)) :
    (ofTags? m n = none ↔ m = n) ∧
    ((∃ t, m.contains t ≠ n.contains t) → ∃ (told : List (String × Side)) (d back : Difference),
      (told.map (·.1)).Nodup ∧ (∀ t side, (t, side) ∈ told ↔ HasAlone m n t side) ∧
      ofTags? m n = some d ∧ feedPieces d.message =
        "the tag names differ:" :: told.map (fun e => "\t" ++ nameLine e) ∧
      ofTags? n m = some back ∧ feedPieces back.message =
        "the tag names differ:" :: told.map (fun e => "\t" ++ nameLine (e.1, e.2.exchange))) ∧
    (unshared m n = [] → ∀ t ∈ m.keys, ∃ others, n.get? t = some others) ∧
    ((∀ t, m.contains t = n.contains t) → m ≠ n → ∃ t values others d,
      m.get? t = some values ∧ n.get? t = some others ∧ values ≠ others ∧
      (∀ s, Utf8.encode s < Utf8.encode t → m.get? s = n.get? s) ∧
      ofTags? m n = some d ∧ ofLists? ("Tag:" ++ t) values others = some d) := by
  refine ⟨ofTags?_eq_none_iff, fun hdiffer => ?_, fun hnil t ht => ?_, fun hshared hne => ?_⟩
  · obtain ⟨told, htold⟩ := exists_told m n
    have hback : ∃ t, n.contains t ≠ m.contains t := hdiffer.imp fun t ht => Ne.symm ht
    refine ⟨told, _, _, htold.nodup_names, fun t side => htold.mem_iff,
      ofTags?_of_names_differ hdiffer, htold.feedPieces_message, ofTags?_of_names_differ hback, ?_⟩
    rw [htold.swapped.feedPieces_message, List.map_map]
    rfl
  · obtain ⟨e, he, rfl⟩ := List.mem_map.1 ht
    exact ⟨_, NameMap.get?_eq_some_get (contains_of_unshared_eq_nil hnil he)⟩
  · rcases ofTags?_of_names_shared hshared with
      ⟨-, heq⟩ | ⟨t, values, others, hm, hn, hvalues, hleast, hsome, -⟩
    · exact absurd heq hne
    · exact ⟨t, values, others, _, hm, hn, hvalues,
        fun s hs => hleast s (Utf8.encode_lt_encode_iff.1 hs), hsome, ofLists?_of_ne hvalues⟩

/-- The names that only one of two maps has are told in the order in which they stand as quoted, which
is the same for both ways round; that is the order of the names themselves exactly if no two of them
are crossed. -/
theorem names_are_told_in_order_unless_crossed (m n : NameMap (List String))
    (differ : ∃ t, m.contains t ≠ n.contains t) :
    ∃ (told : List (String × Side)) (d back : Difference),
      (∀ t side, (t, side) ∈ told ↔ HasAlone m n t side) ∧
      ofTags? m n = some d ∧ feedPieces d.message =
        "the tag names differ:" :: told.map (fun e => "\t" ++ nameLine e) ∧
      ofTags? n m = some back ∧ feedPieces back.message =
        "the tag names differ:" :: told.map (fun e => "\t" ++ nameLine (e.1, e.2.exchange)) ∧
      (told.Pairwise fun e f => Utf8.encode (quote e.1) < Utf8.encode (quote f.1)) ∧
      ((told.Pairwise fun e f => Utf8.encode e.1 < Utf8.encode f.1) ↔
        ∀ e ∈ told, ∀ f ∈ told, ¬ Crossed e.1.toList f.1.toList) := by
  obtain ⟨told, htold⟩ := exists_told m n
  have hback : ∃ t, n.contains t ≠ m.contains t := differ.imp fun t ht => Ne.symm ht
  refine ⟨told, _, _, fun t side => htold.mem_iff, ofTags?_of_names_differ differ,
    htold.feedPieces_message, ofTags?_of_names_differ hback, ?_, ?_, ?_⟩
  · rw [htold.swapped.feedPieces_message, List.map_map]
    rfl
  · exact htold.quoted.imp fun hlt => Utf8.encode_lt_encode_iff.2 hlt
  · simp only [Utf8.encode_lt_encode_iff]
    exact htold.ascending_iff

def spacedTags : NameMap (List String) := .ofList [("A", ["x"]), ("A b", ["y"])]

theorem names_are_told_in_order_unless_crossed_in_spacedTags :
    (∃ t, spacedTags.contains t ≠ (NameMap.empty : NameMap (List String)).contains t) ∧
    ∃ (told : List (String × Side)) (d : Difference),
      (∀ t side, (t, side) ∈ told ↔ HasAlone spacedTags .empty t side) ∧
      ofTags? spacedTags .empty = some d ∧ feedPieces d.message =
        "the tag names differ:" :: told.map (fun e => "\t" ++ nameLine e) ∧
      ((told.Pairwise fun e f => Utf8.encode e.1 < Utf8.encode f.1) ↔
        ∀ e ∈ told, ∀ f ∈ told, ¬ Crossed e.1.toList f.1.toList) := by
  have hdiffer : ∃ t, spacedTags.contains t ≠
      (NameMap.empty : NameMap (List String)).contains t := ⟨"A", by decide +kernel⟩
  obtain ⟨told, d, -, hmem, hd, hpieces, -, -, -, hiff⟩ :=
    names_are_told_in_order_unless_crossed spacedTags .empty hdiffer
  exact ⟨hdiffer, told, d, hmem, hd, hpieces, hiff⟩

theorem spaced_tag_is_told_before_its_beginning :
    ∃ d, ofTags? spacedTags .empty = some d ∧ feedPieces d.message =
      "the tag names differ:" ::
        [("A b", Side.this), ("A", Side.this)].map (fun e => "\t" ++ nameLine e) ∧
    ¬ ["A b", "A"].Pairwise (fun s t => Utf8.encode s < Utf8.encode t) :=
  ⟨.tagNames ["A", "A b"] [], by decide +kernel, by decide +kernel, by decide +kernel⟩

end Difference
end SnippetCatalog
