import SnippetCatalog.Proofs.PlainResolving

/-!
Where paths lead, links and all, told by rules. Main statements: following a path finds a location
exactly if a route with few enough links leads there, a route leads to one location only, and a
route along more pieces is a route along the first and then one along the others.
-/

namespace SnippetCatalog

def Entry.isReal : Entry → Bool
  | .link _ | .untold _ => false
  | _ => true

namespace FileSystem

inductive Route (fs : FileSystem) : Nat → Location → List Bytes → Location → Prop
  | arrived {place : Location} : Route fs 0 place [] place
  | stay {links : Nat} {place loc : Location} {piece : Bytes} {rest : List Bytes}
      (directory : fs.entry? place = some .directory) (free : fs.barred place piece = none)
      (here : piece = [] ∨ piece = Path.dot)
      (go_on : Route fs links place rest loc) : Route fs links place (piece :: rest) loc
  | up {links : Nat} {place loc : Location} {rest : List Bytes}
      (directory : fs.entry? place = some .directory) (free : fs.barred place Path.dotDot = none)
      (go_on : Route fs links place.dropLast rest loc) :
      Route fs links place (Path.dotDot :: rest) loc
  | down {links : Nat} {place loc : Location} {piece : Bytes} {rest : List Bytes} {entry : Entry}
      (directory : fs.entry? place = some .directory) (free : fs.barred place piece = none)
      (proper : Proper piece) (short : piece.length ≤ 255)
      (found : fs.entry? (place ++ [piece]) = some entry) (real : entry.isReal = true)
      (go_on : Route fs links (place ++ [piece]) rest loc) :
      Route fs links place (piece :: rest) loc
  | along {links : Nat} {place loc : Location} {piece : Bytes} {rest : List Bytes} {target : Path}
      (directory : fs.entry? place = some .directory) (free : fs.barred place piece = none)
      (proper : Proper piece) (short : piece.length ≤ 255)
      (found : fs.entry? (place ++ [piece]) = some (.link target))
      (somewhere : target.bytes ≠ [])
      (go_on : Route fs links (startOf place target) (target.pieces ++ rest) loc) :
      Route fs (links + 1) place (piece :: rest) loc

variable {fs : FileSystem} {place loc : Location} {piece : Bytes} {rest : List Bytes} {n : Nat}

theorem walkLinks_cons (n : Nat) (place : Location) (piece : Bytes) (rest : List Bytes) :
    fs.walkLinks n place (piece :: rest) =
      if fs.entry? place ≠ some .directory then .error .notDirectory
      else
        match fs.barred place piece with
        | some reason => .error reason.fault
        | none =>
          if piece = [] ∨ piece = Path.dot then fs.walkLinks n place rest
          else if piece = Path.dotDot then fs.walkLinks n place.dropLast rest
          else if 255 < piece.length then .error .nameTooLong
          else
            match fs.entry? (place ++ [piece]) with
            | none => .error .notFound
            | some (.untold reason) => .error reason.fault
            | some (.link target) =>
              match n with
              | 0 => .error .linkLoop
              | links + 1 =>
                if target.bytes = [] then .error .notFound
                else fs.walkLinks links (startOf place target) (target.pieces ++ rest)
            | some _ => fs.walkLinks n (place ++ [piece]) rest := by
  cases n <;> rfl

theorem Route.walkLinks_append {links : Nat} {ps : List Bytes} (h : fs.Route links place ps loc)
    (hn : links ≤ n) (qs : List Bytes) :
    fs.walkLinks n place (ps ++ qs) = fs.walkLinks (n - links) loc qs := by
  have hnamed : ∀ {p : Bytes}, Proper p → ¬ (p = [] ∨ p = Path.dot) :=
    fun hp h => h.elim hp.1 hp.2.1
  induction h generalizing n with
  | arrived => rfl
  | stay directory free here _ ih =>
    rw [List.cons_append, walkLinks_cons, if_neg (not_not_intro directory), free]
    dsimp only
    rw [if_pos here, ih hn]
  | up directory free _ ih =>
    rw [List.cons_append, walkLinks_cons, if_neg (not_not_intro directory), free]
    dsimp only
    rw [if_neg (by decide), if_pos rfl, ih hn]
  | @down _ _ _ _ _ entry directory free proper short found real _ ih =>
    rw [List.cons_append, walkLinks_cons, if_neg (not_not_intro directory), free]
    dsimp only
    rw [if_neg (hnamed proper), if_neg proper.2.2, if_neg (Nat.not_lt.2 short), found]
    cases entry with
    | link _ | untold _ => cases real
    | _ => exact ih hn
  | along directory free proper short found somewhere _ ih =>
    obtain ⟨n, rfl⟩ := Nat.exists_eq_add_one_of_ne_zero (Nat.ne_zero_of_lt hn)
    rw [List.cons_append, walkLinks_cons, if_neg (not_not_intro directory), free]
    dsimp only
    rw [if_neg (hnamed proper), if_neg proper.2.2, if_neg (Nat.not_lt.2 short), found]
    dsimp only
    rw [if_neg somewhere, ← List.append_assoc, ih (Nat.le_of_succ_le_succ hn),
      Nat.succ_sub_succ]

theorem Route.walkLinks {links : Nat} {ps : List Bytes} (h : fs.Route links place ps loc)
    (hn : links ≤ n) : fs.walkLinks n place ps = .ok loc := by
  have hend : fs.walkLinks (n - links) loc [] = .ok loc := by
    cases n - links <;> rfl
  rw [← List.append_nil ps, h.walkLinks_append hn, hend]

theorem exists_route {ps : List Bytes} (h : fs.walkLinks n place ps = .ok loc) :
    ∃ links ≤ n, fs.Route links place ps loc := by
  -- behind a link the pieces are new but fewer links are left; elsewhere there is a piece less
  induction n using Nat.strongRecOn generalizing place ps with
  | ind n ihlinks =>
  induction ps generalizing place with
  | nil =>
    have hloc : place = loc := by
      cases n <;> exact Except.ok.inj h
    exact ⟨0, Nat.zero_le n, hloc ▸ .arrived⟩
  | cons piece rest ih =>
    rw [walkLinks_cons] at h
    split at h
    · cases h
    next directory =>
    have directory := Classical.not_not.1 directory
    split at h
    · cases h
    next free =>
    split at h
    · next here =>
      obtain ⟨links, hle, hroute⟩ := ih h
      exact ⟨links, hle, .stay directory free here hroute⟩
    next hnamed =>
    split at h
    · next hup =>
      subst hup
      obtain ⟨links, hle, hroute⟩ := ih h
      exact ⟨links, hle, .up directory free hroute⟩
    next hdown =>
    have proper : Proper piece := ⟨fun h => hnamed (.inl h), fun h => hnamed (.inr h), hdown⟩
    split at h
    · cases h
    next short =>
    have short := Nat.not_lt.1 short
    cases found : fs.entry? (place ++ [piece]) with
    | none =>
      rw [found] at h
      cases h
    | some entry =>
      rw [found] at h
      cases entry with
      | untold reason => cases h
      | link target =>
        cases n with
        | zero => cases h
        | succ n =>
          dsimp only at h
          split at h
          · cases h
          next somewhere =>
          obtain ⟨links, hle, hroute⟩ := ihlinks n (Nat.lt_succ_self n) h
          exact ⟨links + 1, Nat.succ_le_succ hle,
            .along directory free proper short found somewhere hroute⟩
      | _ =>
        obtain ⟨links, hle, hroute⟩ := ih h
        exact ⟨links, hle, .down directory free proper short found rfl hroute⟩

theorem walkLinks_eq_ok_iff {ps : List Bytes} :
    fs.walkLinks n place ps = .ok loc ↔ ∃ links ≤ n, fs.Route links place ps loc :=
  ⟨exists_route, fun ⟨_, hle, hroute⟩ => hroute.walkLinks hle⟩

theorem Route.unique {links links' : Nat} {ps : List Bytes} {loc' : Location}
    (h : fs.Route links place ps loc) (h' : fs.Route links' place ps loc') : loc = loc' := by
  have hloc := h.walkLinks (Nat.le_max_left links links')
  have hloc' := h'.walkLinks (Nat.le_max_right links links')
  exact Except.ok.inj (hloc.symm.trans hloc')

theorem Route.split {links : Nat} {ps qs : List Bytes} (h : fs.Route links place (ps ++ qs) loc) :
    ∃ before behind mid, links = before + behind ∧ fs.Route before place ps mid ∧
      fs.Route behind mid qs loc := by
  have hwhole : ∀ {links : Nat} {place loc : Location}, fs.Route links place qs loc →
      ∃ before behind mid, links = before + behind ∧ fs.Route before place [] mid ∧
        fs.Route behind mid qs loc :=
    fun h => ⟨0, _, _, (Nat.zero_add _).symm, .arrived, h⟩
  generalize hpieces : ps ++ qs = pieces at h
  -- the induction is on the route, the pieces of a link's target going with the first ones
  induction h generalizing ps with
  | arrived =>
    obtain ⟨rfl, rfl⟩ := List.append_eq_nil_iff.1 hpieces
    exact hwhole .arrived
  | stay directory free here go_on ih =>
    cases ps with
    | nil =>
      obtain rfl : qs = _ := hpieces
      exact hwhole (.stay directory free here go_on)
    | cons p ps =>
      cases hpieces
      obtain ⟨before, behind, mid, hlinks, hfirst, hothers⟩ := ih rfl
      exact ⟨before, behind, mid, hlinks, .stay directory free here hfirst, hothers⟩
  | up directory free go_on ih =>
    cases ps with
    | nil =>
      obtain rfl : qs = _ := hpieces
      exact hwhole (.up directory free go_on)
    | cons p ps =>
      cases hpieces
      obtain ⟨before, behind, mid, hlinks, hfirst, hothers⟩ := ih rfl
      exact ⟨before, behind, mid, hlinks, .up directory free hfirst, hothers⟩
  | down directory free proper short found real go_on ih =>
    cases ps with
    | nil =>
      obtain rfl : qs = _ := hpieces
      exact hwhole (.down directory free proper short found real go_on)
    | cons p ps =>
      cases hpieces
      obtain ⟨before, behind, mid, hlinks, hfirst, hothers⟩ := ih rfl
      exact ⟨before, behind, mid, hlinks, .down directory free proper short found real hfirst, hothers⟩
  | @along _ _ _ _ _ target directory free proper short found somewhere go_on ih =>
    cases ps with
    | nil =>
      obtain rfl : qs = _ := hpieces
      exact hwhole (.along directory free proper short found somewhere go_on)
    | cons p ps =>
      cases hpieces
      obtain ⟨before, behind, mid, rfl, hfirst, hothers⟩ := ih (List.append_assoc target.pieces ps qs)
      exact ⟨before + 1, behind, mid, Nat.add_right_comm before behind 1,
        .along directory free proper short found somewhere hfirst, hothers⟩

/-! ### A name at the start of a route -/

theorem Route.found {links : Nat} (h : fs.Route links place (piece :: rest) loc)
    (proper : Proper piece) : fs.entry? (place ++ [piece]) ≠ none := by
  cases h with
  | stay _ _ here _ => exact (here.elim proper.1 proper.2.1).elim
  | up _ _ _ => exact absurd rfl proper.2.2
  | down _ _ _ _ found _ _ | along _ _ _ _ found _ _ =>
    rw [found]
    exact Option.some_ne_none _

theorem Route.behind {links : Nat} (h : fs.Route links place (piece :: rest) loc)
    (proper : Proper piece) (directory : fs.entry? (place ++ [piece]) = some .directory) :
    fs.Route links (place ++ [piece]) rest loc := by
  cases h with
  | stay _ _ here _ => exact (here.elim proper.1 proper.2.1).elim
  | up _ _ _ => exact absurd rfl proper.2.2
  | down _ _ _ _ _ _ go_on => exact go_on
  | along _ _ _ _ found _ _ =>
    rw [directory] at found
    cases found

theorem Route.eq_of_nil {links : Nat} (h : fs.Route links place [] loc) : loc = place := by
  cases h
  rfl

/-! ### Paths -/

theorem resolve_eq_ok_iff {p : Path} : fs.resolve p = .ok loc ↔ Admitted p ∧
    ∃ links ≤ linkLimit, fs.Route links (startOf fs.workingDirectory p) p.pieces loc := by
  rw [← walkLinks_eq_ok_iff, resolve, Admitted]
  grind

theorem Route.stem {links : Nat} {start : Location} {p : Path}
    (h : fs.Route links start p.pieces loc) : ∃ links' ≤ links, fs.Route links' start p.stem loc := by
  rcases Path.pieces_eq_stem p with hp | hp
  · exact ⟨links, Nat.le_refl links, hp ▸ h⟩
  · rw [hp] at h
    obtain ⟨before, behind, mid, hlinks, hstem, hslash⟩ := h.split
    cases hslash with
    | stay _ _ _ go_on =>
      exact ⟨before, hlinks ▸ Nat.le_add_right before behind, go_on.eq_of_nil ▸ hstem⟩
    | down _ _ proper _ _ _ _ | along _ _ proper _ _ _ _ => exact absurd rfl proper.1

end FileSystem
end SnippetCatalog
