import SnippetCatalog.Proofs.Encounters

/-!
What an entry comes to. Of all that a ledger holds, only the root that the name was found in before
decides whether the entry is shown. Main statements: the three ways an entry can go, and the ledger's
roots after each.
-/

namespace SnippetCatalog

def Problem.snippet? : Problem → Option String
  | .unreadable name _ | .empty name _ | .eclipsed name _ _ => some name
  | _ => none

def Event.subject? : Event → Option String
  | .block _ s => some s.name
  | .noted .eclipsedSnippet problem | .noted .badSnippet problem => problem.snippet?
  | _ => none

def showing (root : Option Path) (name : String) (path : Path) (content : Bytes) : List Event :=
  match Snippet.ofContent content path name with
  | .error problem => [.noted .badSnippet problem]
  | .ok s => [.block root s]

def account (fs : FileSystem) (known : Option Path) (root : Path) (name : String) (path : Path) :
    List Event :=
  match fs.read path with
  | .error fault => [.noted .badSnippet (.unreadable name fault)]
  | .ok content =>
    match known.filter fun first => ¬ first.Same root with
    | some first => [.noted .eclipsedSnippet (.eclipsed name root first)]
    | none => showing (some root) name path content

def claim (fs : FileSystem) (known : Option Path) (root : Path) (path : Path) : Option Path :=
  match fs.read path with
  | .error _ => known
  | .ok _ =>
    match known.filter fun first => ¬ first.Same root with
    | some _ => known
    | none => some root

theorem Snippet.name_of_ofContent {content : Bytes} {path : Path} {name : String} {s : Snippet}
    (h : Snippet.ofContent content path name = .ok s) : s.name = name ∧ s.path = path := by
  dsimp only [Snippet.ofContent] at h
  split at h
  · cases h
  · cases h
    exact ⟨rfl, rfl⟩

theorem Snippet.problem_of_ofContent {content : Bytes} {path : Path} {name : String} {p : Problem}
    (h : Snippet.ofContent content path name = .error p) : p = .empty name path := by
  dsimp only [Snippet.ofContent] at h
  split at h
  · cases h
    rfl
  · cases h

theorem mem_showing {root : Option Path} {name : String} {path : Path} {content : Bytes}
    {e : Event} (h : e ∈ showing root name path content) :
    (∃ s, s.name = name ∧ e = .block root s) ∨ e = .noted .badSnippet (.empty name path) := by
  unfold showing at h
  split at h
  · next p hp => exact .inr (by rw [List.mem_singleton.1 h, Snippet.problem_of_ofContent hp])
  · next s hs => exact .inl ⟨s, (Snippet.name_of_ofContent hs).1, List.mem_singleton.1 h⟩

theorem subject?_showing {root : Option Path} {name : String} {path : Path} {content : Bytes}
    {e : Event} (h : e ∈ showing root name path content) : e.subject? = some name := by
  rcases mem_showing h with ⟨s, hs, rfl⟩ | rfl
  · exact congrArg some hs
  · rfl

theorem subject?_account {fs : FileSystem} {known : Option Path} {root path : Path} {name : String}
    {e : Event} (h : e ∈ account fs known root name path) : e.subject? = some name := by
  unfold account at h
  split at h
  · rw [List.mem_singleton.1 h]
    rfl
  · split at h
    · rw [List.mem_singleton.1 h]
      rfl
    · exact subject?_showing h

namespace Ledger

variable {ledger : Ledger} {fs : FileSystem} {root path first : Path} {name : String}
  {content : Bytes} {fault : Fault}

theorem eclipsing?_eq_some_iff : ledger.eclipsing? root name = some first ↔
    ledger.roots.get? name = some first ∧ ¬ first.Same root := by
  rw [eclipsing?, Option.filter_eq_some_iff, decide_eq_true_iff]

theorem present_snd (from? : Option Path) :
    (ledger.present from? name path content).2 = showing from? name path content := by
  unfold present showing
  cases Snippet.ofContent content path name <;> rfl

theorem roots_present (from? : Option Path) :
    (ledger.present from? name path content).1.roots = ledger.roots := by
  unfold present
  split <;> rfl

theorem roots_enterNamed : (ledger.enterNamed fs name path).1.roots = ledger.roots := by
  unfold enterNamed
  split
  · rfl
  · exact roots_present none

theorem roots_compare : (ledger.compare path content).1.roots = ledger.roots := by
  unfold compare
  split <;> rfl

theorem duplicate_of_mem_compare {e : Event} (h : e ∈ (ledger.compare path content).2) :
    ∃ p, e = .noted .duplicateSnippet p := by
  unfold compare at h
  split at h
  · cases h
  · next original _ =>
    dsimp only at h
    split at h
    · cases h
    · exact ⟨_, List.mem_singleton.1 h⟩

theorem enter_of_unreadable (h : fs.read path = .error fault) :
    ledger.enter fs root name path =
      (ledger, [.noted .badSnippet (.unreadable name fault)]) := by
  rw [enter, h]

theorem enter_of_eclipsed (h : fs.read path = .ok content)
    (he : ledger.eclipsing? root name = some first) : ledger.enter fs root name path =
      (ledger, [.noted .eclipsedSnippet (.eclipsed name root first)]) := by
  rw [enter, h]
  dsimp only
  rw [he]

theorem enter_of_free (h : fs.read path = .ok content)
    (he : ledger.eclipsing? root name = none) : ledger.enter fs root name path =
      let taken := { ledger with roots := ledger.roots.insert name root }
      (((taken.compare path content).1.present (some root) name path content).1,
        (taken.compare path content).2 ++ showing (some root) name path content) := by
  rw [enter, h]
  dsimp only
  rw [he]
  dsimp only
  rw [present_snd]

theorem enter_snd (ledger : Ledger) (fs : FileSystem) (root : Path) (name : String) (path : Path) :
    ∃ duplicates, (∀ e ∈ duplicates, ∃ p, e = .noted .duplicateSnippet p) ∧
    (ledger.enter fs root name path).2 =
      duplicates ++ account fs (ledger.roots.get? name) root name path := by
  unfold account
  cases h : fs.read path with
  | error fault =>
    rw [enter_of_unreadable h]
    exact ⟨[], by simp, rfl⟩
  | ok content =>
    dsimp only
    cases he : ledger.eclipsing? root name with
    | some first =>
      rw [enter_of_eclipsed h he]
      rw [eclipsing?] at he
      rw [he]
      exact ⟨[], by simp, rfl⟩
    | none =>
      rw [enter_of_free h he]
      rw [eclipsing?] at he
      rw [he]
      exact ⟨_, fun _ => duplicate_of_mem_compare, rfl⟩

theorem get?_roots_enter (other : String) :
    (ledger.enter fs root name path).1.roots.get? other =
      if other = name then claim fs (ledger.roots.get? name) root path
      else ledger.roots.get? other := by
  unfold claim
  cases h : fs.read path with
  | error fault =>
    rw [enter_of_unreadable h]
    grind
  | ok content =>
    dsimp only
    cases he : ledger.eclipsing? root name with
    | some first =>
      rw [enter_of_eclipsed h he]
      rw [eclipsing?] at he
      rw [he]
      grind
    | none =>
      rw [enter_of_free h he]
      rw [eclipsing?] at he
      rw [he]
      dsimp only
      rw [roots_present, roots_compare, NameMap.get?_insert]

end Ledger
end SnippetCatalog
