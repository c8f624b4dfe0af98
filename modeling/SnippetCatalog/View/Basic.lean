import SnippetCatalog.Snippet.Part

/-!
Which parts and tags of a snippet are to be shown, and whether with their labels.
-/

namespace SnippetCatalog

structure View where
  parts : List Part := []
  tags : List String := []
  hideIntro : Bool := false
  deriving DecidableEq, Repr

namespace View

def withPart (v : View) (p : Part) : View := { v with parts := v.parts ++ [p] }

def withWords (v : View) : List String → Except Problem View
  | [] => .ok v
  | w :: ws =>
    match Part.ofWord w with
    | .ok p => (v.withPart p).withWords ws
    | .error e => .error e

theorem withWords_eq_ok_iff {v w : View} {words : List String} : v.withWords words = .ok w ↔
    (∀ word ∈ words, ∃ p, Part.ofWord word = .ok p) ∧
      w = { v with parts := v.parts ++ words.filterMap fun word => (Part.ofWord word).toOption } := by
  induction words generalizing v with
  | nil => simp [withWords, eq_comm]
  | cons word words ih =>
    rw [withWords, List.forall_mem_cons]
    cases h : Part.ofWord word with
    | error p => simp
    | ok p =>
      have hparts : p :: words.filterMap (fun word => (Part.ofWord word).toOption) =
          (word :: words).filterMap fun word => (Part.ofWord word).toOption := by
        simp [h, Except.toOption]
      dsimp only
      rw [ih, ← hparts]
      simp [withPart]

def withTags (v : View) (tags : List String) : View := { v with tags := v.tags ++ tags }

def withHiddenIntro (v : View) (hide : Bool) : View := { v with hideIntro := hide }

/-- With nothing chosen, the usual parts and all tags are shown. -/
def isDefault (v : View) : Prop := v.parts = [] ∧ v.tags = []

instance (v : View) : Decidable v.isDefault := inferInstanceAs (Decidable (_ ∧ _))

/-- Parts that are among the usual ones. -/
def showsUsual (v : View) (p : Part) : Bool := v.isDefault || v.parts.contains p

/-- Parts that have to be asked for. -/
def showsChosen (v : View) (p : Part) : Bool := v.parts.contains p

def showsTag (v : View) (tag : String) : Bool := v.isDefault || v.tags.contains tag

end View
end SnippetCatalog
