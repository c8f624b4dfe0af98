import SnippetCatalog.Ascending
import SnippetCatalog.Problem
import SnippetCatalog.Snippet.Basic
import SnippetCatalog.Snippet.Line
import SnippetCatalog.Text.Lines
import SnippetCatalog.Text.Utf8

/-!
From the content of a file to a snippet. A draft is what some lines contribute; the draft of a
file is the drafts of its lines, one after the other, and tidying it gives the snippet. Main
statement: the draft of more lines is the draft of the first ones and then that of the others.
-/

namespace SnippetCatalog

def tidy (names : List String) : List String := Ascending.ofList (names.filter (· ≠ ""))

theorem mem_tidy {name : String} {names : List String} :
    name ∈ tidy names ↔ name ∈ names ∧ name ≠ "" := by
  rw [tidy, Ascending.mem_ofList, List.mem_filter, decide_eq_true_iff]

theorem pairwise_tidy (names : List String) : (tidy names).Pairwise (· < ·) :=
  Ascending.pairwise_ofList _

theorem tidy_congr {names names' : List String} (h : ∀ x, x ∈ names ↔ x ∈ names') :
    tidy names = tidy names' := by
  apply Ascending.eq_of_mem_iff (pairwise_tidy _) (pairwise_tidy _)
  intro x
  rw [mem_tidy, mem_tidy, h]

structure Draft where
  text : List String := []
  docs : List String := []
  imports : List String := []
  expects : List String := []
  follows : List String := []
  tags : List (String × String) := []
  deriving DecidableEq, Repr

namespace Draft

open Text (trim)

protected def append (a b : Draft) : Draft where
  text := a.text ++ b.text
  docs := a.docs ++ b.docs
  imports := a.imports ++ b.imports
  expects := a.expects ++ b.expects
  follows := a.follows ++ b.follows
  tags := a.tags ++ b.tags

instance : Append Draft := ⟨Draft.append⟩

theorem empty_append (a : Draft) : {} ++ a = a := rfl

theorem append_empty (d : Draft) : d ++ {} = d := by
  show Draft.append d {} = d
  simp only [Draft.append, List.append_nil]

theorem append_assoc (a b c : Draft) : a ++ b ++ c = a ++ (b ++ c) := by
  show Draft.append (Draft.append a b) c = Draft.append a (Draft.append b c)
  simp only [Draft.append, List.append_assoc]

def named (payload : List Char) : List String :=
  if trim payload = [] then [] else [.ofList (trim payload)]

/-- A payload that is a tag: its name before the first colon and its value behind it, which is
empty if there is no colon. -/
def tagged (payload : List Char) : String × String :=
  let payload := trim payload
  (.ofList (trim (payload.takeWhile (· ≠ ':'))),
    .ofList (trim ((payload.dropWhile (· ≠ ':')).drop 1)))

def ofLine : Line → Draft
  | .code text => { text := [.ofList text] }
  | .directive .imports payload => { imports := named payload }
  | .directive .expects payload => { expects := named payload }
  | .directive .follows payload => { expects := named payload, follows := named payload }
  | .directive .note payload => { docs := [.ofList payload] }
  | .directive .tag payload => { tags := [tagged payload] }
  | .other => {}

def ofLines (lines : List Line) : Draft := lines.foldr (fun l d => ofLine l ++ d) {}

theorem ofLines_append (ls ms : List Line) : ofLines (ls ++ ms) = ofLines ls ++ ofLines ms := by
  induction ls with
  | nil => exact (empty_append (ofLines ms)).symm
  | cons l ls ih =>
    show ofLine l ++ ofLines (ls ++ ms) = ofLine l ++ ofLines ls ++ ofLines ms
    rw [ih, append_assoc]

theorem collected_ofLines {α : Type} (place : Draft → List α) (hempty : place {} = [])
    (happend : ∀ a b : Draft, place (a ++ b) = place a ++ place b) (lines : List Line) :
    place (ofLines lines) = lines.flatMap fun l => place (ofLine l) := by
  induction lines with
  | nil => exact hempty
  | cons l ls ih =>
    show place (ofLine l ++ ofLines ls) = _
    rw [happend, ih, List.flatMap_cons]

def ofContent (content : Bytes) : Draft :=
  ofLines ((Text.lines (Utf8.decodeFrom .between content)).map Line.ofChars)

def gather (tags : List (String × String)) : NameMap (List String) :=
  tags.foldl (fun m t => m.insert t.1 ((m.get? t.1).getD [] ++ [t.2])) .empty

def valuesOf (tags : List (String × String)) (name : String) : List String :=
  (tags.filter (·.1 = name)).map (·.2)

theorem valuesOf_append (tags tags' : List (String × String)) (name : String) :
    valuesOf (tags ++ tags') name = valuesOf tags name ++ valuesOf tags' name := by
  rw [valuesOf, List.filter_append, List.map_append]
  rfl

theorem get?_foldl_insert (tags : List (String × String)) (m : NameMap (List String))
    (name : String) :
    (tags.foldl (fun m t => m.insert t.1 ((m.get? t.1).getD [] ++ [t.2])) m).get? name =
      if valuesOf tags name = [] then m.get? name
      else some ((m.get? name).getD [] ++ valuesOf tags name) := by
  induction tags generalizing m with
  | nil => rfl
  | cons t ts ih =>
    rw [List.foldl_cons, ih, NameMap.get?_insert]
    by_cases ht : t.1 = name
    · have hv : valuesOf (t :: ts) name = t.2 :: valuesOf ts name := by simp [valuesOf, ht]
      rw [hv, if_pos ht.symm, ht]
      split
      · next hn => simp [hn]
      · simp
    · have hv : valuesOf (t :: ts) name = valuesOf ts name := by simp [valuesOf, ht]
      rw [hv, if_neg (Ne.symm ht)]

theorem get?_gather (tags : List (String × String)) (name : String) :
    (gather tags).get? name =
      if valuesOf tags name = [] then none else some (valuesOf tags name) :=
  get?_foldl_insert tags .empty name

theorem get?_gather_eq_some_iff {tags : List (String × String)} {name : String}
    {values : List String} :
    (gather tags).get? name = some values ↔ values ≠ [] ∧ values = valuesOf tags name := by
  rw [get?_gather]
  split
  · next h => grind
  · next h => grind

end Draft

namespace Snippet

/-- The snippet in a file. There is none without code and without imports. -/
def ofContent (content : Bytes) (path : Path) (name : String) : Except Problem Snippet :=
  let draft := Draft.ofContent content
  if draft.text = [] ∧ draft.imports = [] then .error (.empty name path)
  else .ok {
    name, path
    text := draft.text
    docs := draft.docs
    imports := tidy draft.imports
    expects := tidy draft.expects
    follows := tidy draft.follows
    tags := Draft.gather draft.tags }

variable {content : Bytes} {path : Path} {name : String} {s : Snippet}

theorem exists_error_iff : (∃ p, ofContent content path name = .error p) ↔
    (Draft.ofContent content).text = [] ∧ (Draft.ofContent content).imports = [] := by
  dsimp only [ofContent]
  split
  · next h => simp [h]
  · next h => simp [h]

theorem ofContent_of_ok (h : ofContent content path name = .ok s) :
    s = {
      name, path
      text := (Draft.ofContent content).text
      docs := (Draft.ofContent content).docs
      imports := tidy (Draft.ofContent content).imports
      expects := tidy (Draft.ofContent content).expects
      follows := tidy (Draft.ofContent content).follows
      tags := Draft.gather (Draft.ofContent content).tags } := by
  dsimp only [ofContent] at h
  split at h
  · cases h
  · exact (Except.ok.inj h).symm

theorem pairwise_expects (h : ofContent content path name = .ok s) :
    s.expects.Pairwise (· < ·) := by
  rw [ofContent_of_ok h]
  exact pairwise_tidy _

end Snippet
end SnippetCatalog
