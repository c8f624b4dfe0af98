import SnippetCatalog.Proofs.Entering
import SnippetCatalog.Shelf

/-!
A shelf over time. Requests come one after the other, and every load is made with the files as they
are by then. Main statements: what a request leaves of a name, what a whole history leaves of it,
and from these the law of histories: the shelf holds what the first load that went well has found.
-/

namespace SnippetCatalog

inductive Request where
  | load (fs : FileSystem) (dirs : List Path) (name : String)
  | get (name : String)
  | size
  | missing

inductive Answer where
  | snippet (result : Except Problem Snippet)
  | size (n : Nat)
  | problems (problems : List Problem)

def FileSystem.snippet (fs : FileSystem) (dirs : List Path) (name : String) :
    Except Problem Snippet := do
  let (content, path) ← fs.find dirs name
  Snippet.ofContent content path name

theorem FileSystem.snippet_eq_ok_iff {fs : FileSystem} {dirs : List Path} {name : String}
    {s : Snippet} : fs.snippet dirs name = .ok s ↔ ∃ content path,
      fs.find dirs name = .ok (content, path) ∧ Snippet.ofContent content path name = .ok s := by
  unfold snippet
  cases h : fs.find dirs name with
  | error p =>
    constructor
    · intro hs
      cases hs
    · rintro ⟨content, path, hfind, -⟩
      cases hfind
  | ok found =>
    obtain ⟨content, path⟩ := found
    constructor
    · intro hs
      exact ⟨content, path, rfl, hs⟩
    · rintro ⟨content', path', hfind, hs⟩
      obtain ⟨rfl, rfl⟩ := Prod.mk.inj (Except.ok.inj hfind)
      exact hs

def Request.found? : Request → Option (String × Snippet)
  | .load fs dirs name => (fs.snippet dirs name).toOption.map (name, ·)
  | _ => none

def firstFound? (rs : List Request) (name : String) : Option Snippet :=
  (rs.filterMap Request.found?).lookup name

theorem Request.found?_eq_some_iff {r : Request} {name : String} {s : Snippet} :
    r.found? = some (name, s) ↔
      ∃ fs dirs, r = .load fs dirs name ∧ FileSystem.snippet fs dirs name = .ok s := by
  cases r with
  | load fs dirs other =>
    cases h : fs.snippet dirs other with
    | error p =>
      have hnone : found? (.load fs dirs other) = none := by simp [found?, h, Except.toOption]
      constructor
      · intro hs
        rw [hnone] at hs
        cases hs
      · rintro ⟨fs', dirs', hload, hs⟩
        cases hload
        rw [h] at hs
        cases hs
    | ok t =>
      have hsome : found? (.load fs dirs other) = some (other, t) := by
        simp [found?, h, Except.toOption]
      rw [hsome]
      constructor
      · intro hs
        cases hs
        exact ⟨fs, dirs, rfl, h⟩
      · rintro ⟨fs', dirs', hload, hs⟩
        cases hload
        rw [h] at hs
        cases hs
        rfl
  | _ => simp [found?]

theorem firstFound?_append (rs rs' : List Request) (name : String) :
    firstFound? (rs ++ rs') name = (firstFound? rs name).or (firstFound? rs' name) := by
  rw [firstFound?, List.filterMap_append, List.lookup_append]
  rfl

theorem firstFound?_singleton (r : Request) (name : String) : firstFound? [r] name =
    match r.found? with
    | some (found, s) => if name = found then some s else none
    | none => none := by
  unfold firstFound?
  cases h : r.found? with
  | none => simp [h]
  | some found =>
    rw [List.filterMap_cons_some h, NameMap.lookup_cons]
    rfl

theorem exists_of_firstFound? {rs : List Request} {name : String} {s : Snippet}
    (h : firstFound? rs name = some s) : ∃ past fs dirs future,
      rs = past ++ .load fs dirs name :: future ∧ firstFound? past name = none ∧
        FileSystem.snippet fs dirs name = .ok s := by
  induction rs with
  | nil => cases h
  | cons r rs ih =>
    have hsplit := firstFound?_append [r] rs name
    rw [List.singleton_append, h] at hsplit
    cases hr : firstFound? [r] name with
    | some t =>
      rw [hr, Option.some_or] at hsplit
      rw [← hsplit, firstFound?_singleton] at hr
      cases hf : r.found? with
      | none =>
        rw [hf] at hr
        cases hr
      | some found =>
        obtain ⟨other, t⟩ := found
        simp only [hf, Option.ite_none_right_eq_some, Option.some.injEq] at hr
        obtain ⟨rfl, rfl⟩ := hr
        obtain ⟨fs, dirs, rfl, hs⟩ := Request.found?_eq_some_iff.1 hf
        exact ⟨[], fs, dirs, rs, rfl, rfl, hs⟩
    | none =>
      rw [hr, Option.none_or] at hsplit
      obtain ⟨past, fs, dirs, future, hrs, hpast, hs⟩ := ih hsplit.symm
      refine ⟨r :: past, fs, dirs, future, congrArg (r :: ·) hrs, ?_, hs⟩
      have hcons := firstFound?_append [r] past name
      rw [hr, hpast] at hcons
      exact hcons

namespace Shelf

/-- Answers a request. A load that fails leaves the shelf that it was made on. -/
def answer (shelf : Shelf) : Request → Answer × Shelf
  | .load fs dirs name =>
    match shelf.load fs dirs name with
    | .ok (s, shelf) => (.snippet (.ok s), shelf)
    | .error p => (.snippet (.error p), shelf)
  | .get name => (.snippet (shelf.get name), shelf)
  | .size => (.size shelf.size, shelf)
  | .missing => (.problems shelf.missing, shelf)

def after : Shelf → List Request → Shelf
  | shelf, [] => shelf
  | shelf, r :: rs => after (shelf.answer r).2 rs

variable {shelf : Shelf} {fs : FileSystem} {dirs : List Path} {name : String} {s : Snippet}

theorem after_append (shelf : Shelf) (rs rs' : List Request) :
    shelf.after (rs ++ rs') = (shelf.after rs).after rs' := by
  induction rs generalizing shelf with
  | nil => rfl
  | cons r rs ih => exact ih _

theorem get_eq_ok_iff : shelf.get name = .ok s ↔ shelf.held.get? name = some s := by
  unfold get
  cases shelf.held.get? name <;> simp

/-! ### One request -/

theorem load_of_held (h : shelf.held.get? name = some s) :
    shelf.load fs dirs name = .ok (s, shelf) := by
  rw [load, h]

theorem load_of_not_held (h : shelf.held.get? name = none) : shelf.load fs dirs name =
    (fs.snippet dirs name).map fun s => (s, ⟨shelf.held.insert name s⟩) := by
  rw [load, h, FileSystem.snippet]
  cases fs.find dirs name with
  | error p => rfl
  | ok found =>
    obtain ⟨content, path⟩ := found
    dsimp only [bind, Except.bind]
    cases Snippet.ofContent content path name <;> rfl

theorem answer_load_of_held (h : shelf.held.get? name = some s) :
    shelf.answer (.load fs dirs name) = (.snippet (.ok s), shelf) := by
  rw [answer, load_of_held h]

theorem answer_load_of_not_held (h : shelf.held.get? name = none) :
    shelf.answer (.load fs dirs name) = (.snippet (fs.snippet dirs name),
      match fs.snippet dirs name with
      | .ok s => ⟨shelf.held.insert name s⟩
      | .error _ => shelf) := by
  rw [answer, load_of_not_held h]
  cases fs.snippet dirs name <;> rfl

/-- What a request leaves of a name: a request finds something for it only if nothing is held. -/
theorem get?_answer (shelf : Shelf) (r : Request) (name : String) :
    (shelf.answer r).2.held.get? name =
      (shelf.held.get? name).or (firstFound? [r] name) := by
  rw [firstFound?_singleton]
  cases r with
  | load fs dirs other =>
    cases hheld : shelf.held.get? other with
    | some t =>
      rw [answer_load_of_held hheld]
      cases hs : fs.snippet dirs other with
      | error p => simp [Request.found?, hs, Except.toOption]
      | ok u =>
        by_cases hname : name = other
        · rw [hname, hheld]
          rfl
        · simp [Request.found?, hs, Except.toOption, hname]
    | none =>
      rw [answer_load_of_not_held hheld]
      cases hs : fs.snippet dirs other with
      | error p => simp [Request.found?, hs, Except.toOption]
      | ok u =>
        have hinsert := NameMap.get?_insert shelf.held other name u
        by_cases hname : name = other
        · rw [if_pos hname] at hinsert
          simp [Request.found?, hs, Except.toOption, hname, hheld, hname ▸ hinsert]
        · rw [if_neg hname] at hinsert
          simp [Request.found?, hs, Except.toOption, hname, hinsert]
  | _ => exact (Option.or_none).symm

/-! ### Whole histories -/

theorem get?_after (shelf : Shelf) (rs : List Request) (name : String) :
    (shelf.after rs).held.get? name = (shelf.held.get? name).or (firstFound? rs name) := by
  induction rs generalizing shelf with
  | nil => exact (Option.or_none).symm
  | cons r rs ih =>
    have hrest := ih (shelf.answer r).2
    rw [get?_answer, Option.or_assoc, ← firstFound?_append] at hrest
    exact hrest

theorem get?_after_empty (rs : List Request) (name : String) :
    (after {} rs).held.get? name = firstFound? rs name :=
  get?_after {} rs name

theorem get?_after_of_held (h : shelf.held.get? name = some s) (rs : List Request) :
    (shelf.after rs).held.get? name = some s := by
  rw [get?_after, h, Option.some_or]

theorem held_of_answer {rs : List Request}
    (h : (shelf.answer (.load fs dirs name)).1 = .snippet (.ok s)) :
    (shelf.after (.load fs dirs name :: rs)).held.get? name = some s := by
  change (Shelf.after _ rs).held.get? name = some s
  apply get?_after_of_held
  cases hheld : shelf.held.get? name with
  | some t =>
    rw [answer_load_of_held hheld] at h ⊢
    cases h
    exact hheld
  | none =>
    rw [answer_load_of_not_held hheld] at h ⊢
    have hs : fs.snippet dirs name = .ok s := Answer.snippet.inj h
    have hinsert := NameMap.get?_insert shelf.held name name s
    rw [if_pos rfl] at hinsert
    rw [hs]
    exact hinsert

end Shelf

/-- A load of the name goes well after the requests in `past`, which are all of those before it. -/
def LoadedAfter (rs past : List Request) (fs : FileSystem) (dirs : List Path) (name : String)
    (s : Snippet) : Prop :=
  (∃ future, rs = past ++ .load fs dirs name :: future) ∧
    ((Shelf.after {} past).answer (.load fs dirs name)).1 = .snippet (.ok s)

namespace LoadedAfter

variable {rs past : List Request} {fs : FileSystem} {dirs : List Path} {name : String} {s : Snippet}

theorem held (h : LoadedAfter rs past fs dirs name s) :
    (Shelf.after {} rs).held.get? name = some s := by
  obtain ⟨⟨future, rfl⟩, hanswer⟩ := h
  rw [Shelf.after_append]
  exact Shelf.held_of_answer hanswer

theorem exists_first (h : (Shelf.after {} rs).held.get? name = some s) :
    ∃ past fs dirs, LoadedAfter rs past fs dirs name s ∧ fs.snippet dirs name = .ok s ∧
      ∀ earlier fs' dirs' t, ¬ LoadedAfter past earlier fs' dirs' name t := by
  rw [Shelf.get?_after_empty] at h
  obtain ⟨past, fs, dirs, future, hrs, hpast, hs⟩ := exists_of_firstFound? h
  have hnone : (Shelf.after {} past).held.get? name = none := by
    rw [Shelf.get?_after_empty, hpast]
  refine ⟨past, fs, dirs, ⟨⟨future, hrs⟩, ?_⟩, hs, ?_⟩
  · rw [Shelf.answer_load_of_not_held hnone, hs]
  · intro earlier fs' dirs' t hloaded
    have hsome := hloaded.held
    rw [hnone] at hsome
    cases hsome

end LoadedAfter

/-- The law of histories, for every sequence of requests with any files at any load: the names held
are those of which some load has gone well, each once; what is held under a name is what the first
of these loads read, and stays; a name that is held is answered with it; any other load answers
what reading and parsing give, and leaves the shelf as it was if that is a problem. -/
theorem shelf_holds_first_loads (rs : List Request) :
    let shelf := Shelf.after {} rs
    (∀ name, name ∈ shelf.held.keys ↔ ∃ past fs dirs s, LoadedAfter rs past fs dirs name s) ∧
    shelf.held.keys.Nodup ∧ shelf.size = shelf.held.keys.length ∧
    (∀ name s, shelf.get name = .ok s → s.name = name ∧
      (∃ past fs dirs content path, LoadedAfter rs past fs dirs name s ∧
        (∀ earlier fs' dirs' t, ¬ LoadedAfter past earlier fs' dirs' name t) ∧
        fs.find dirs name = .ok (content, path) ∧
        Snippet.ofContent content path name = .ok s) ∧
      (∀ later, (Shelf.after {} (rs ++ later)).get name = .ok s) ∧
      ∀ fs dirs, shelf.answer (.load fs dirs name) = (.snippet (.ok s), shelf)) ∧
    (∀ name, name ∉ shelf.held.keys → shelf.get name = .error (.notHeld name) ∧
      ∀ fs dirs, (shelf.answer (.load fs dirs name)).1 = .snippet (fs.snippet dirs name)) ∧
    (∀ name, name ∈ shelf.held.keys ↔ ∃ s, shelf.get name = .ok s) ∧
    (∀ fs dirs name p, (shelf.answer (.load fs dirs name)).1 = .snippet (.error p) →
      (shelf.answer (.load fs dirs name)).2 = shelf) ∧
    ∀ r, (∀ fs dirs name, r ≠ .load fs dirs name) → (shelf.answer r).2 = shelf := by
  intro shelf
  have hheld : ∀ name, name ∈ shelf.held.keys ↔ ∃ s, shelf.held.get? name = some s :=
    fun _ => NameMap.mem_keys_iff
  refine ⟨?_, NameMap.nodup_keys _, ?_, ?_, ?_, ?_, ?_, ?_⟩
  · intro name
    rw [hheld]
    constructor
    · rintro ⟨s, hs⟩
      obtain ⟨past, fs, dirs, hloaded, -⟩ := LoadedAfter.exists_first hs
      exact ⟨past, fs, dirs, s, hloaded⟩
    · rintro ⟨past, fs, dirs, s, hloaded⟩
      exact ⟨s, hloaded.held⟩
  · exact (List.length_map _).symm
  · intro name s hget
    have hs := Shelf.get_eq_ok_iff.1 hget
    obtain ⟨past, fs, dirs, hloaded, hsnippet, hfirst⟩ := LoadedAfter.exists_first hs
    obtain ⟨content, path, hfind, hparse⟩ := FileSystem.snippet_eq_ok_iff.1 hsnippet
    refine ⟨(Snippet.name_of_ofContent hparse).1,
      ⟨past, fs, dirs, content, path, hloaded, hfirst, hfind, hparse⟩, ?_, ?_⟩
    · intro later
      rw [Shelf.get_eq_ok_iff, Shelf.after_append]
      exact Shelf.get?_after_of_held hs later
    · intro fs' dirs'
      exact Shelf.answer_load_of_held hs
  · intro name hname
    have hnone : shelf.held.get? name = none := by
      rw [hheld, not_exists] at hname
      exact Option.eq_none_iff_forall_ne_some.2 hname
    refine ⟨?_, ?_⟩
    · rw [Shelf.get, hnone]
    · intro fs dirs
      rw [Shelf.answer_load_of_not_held hnone]
  · intro name
    simp only [hheld, Shelf.get_eq_ok_iff]
  · intro fs dirs name p h
    cases hs : shelf.held.get? name with
    | some s => rw [Shelf.answer_load_of_held hs]
    | none =>
      rw [Shelf.answer_load_of_not_held hs] at h ⊢
      have hp : fs.snippet dirs name = .error p := Answer.snippet.inj h
      rw [hp]
  · intro r hr
    cases r with
    | load fs dirs name => exact absurd rfl (hr fs dirs name)
    | _ => rfl

end SnippetCatalog
