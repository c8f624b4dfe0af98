import SnippetCatalog.Proofs.Accounting
import SnippetCatalog.Proofs.PlainWalk
import SnippetCatalog.Proofs.Routes

/-!
Whether a block shows the entry that it was listed for. A walk goes by names as they read, so an
entry can be taken for another one that stands beside it and is what its name reads as. Main
statements: this is the only way to miss an entry, and it does happen.
-/

namespace SnippetCatalog

namespace FileSystem

/-- Opening a name in a directory, and following it if it is a link, gives the content. -/
def Opens (fs : FileSystem) (dir : Location) (name : Bytes) (content : Bytes) : Prop :=
  ∃ loc, fs.walkLinks linkLimit dir [name] = .ok loc ∧ fs.Offers loc content

def Stands (fs : FileSystem) : Location → Trail → Entry → Prop
  | place, [], entry => fs.entry? place = some entry
  | place, b :: t, entry => fs.entry? place = some .directory ∧ Stands fs (place ++ [b]) t entry

/-- No name on the trail reads as another one that stands beside it. -/
def Unmistakable (fs : FileSystem) : Location → Trail → Prop
  | _, [] => True
  | place, b :: t => (Utf8.reread b = b ∨ fs.entry? (place ++ [Utf8.reread b]) = none) ∧
      Unmistakable fs (place ++ [b]) t

variable {fs : FileSystem} {place loc : Location} {t u : Trail} {b : Bytes} {entry : Entry}
  {root : Path}

theorem Unmistakable.of_append (h : fs.Unmistakable place (t ++ u)) : fs.Unmistakable place t := by
  induction t generalizing place with
  | nil => trivial
  | cons b t ih => exact ⟨h.1, ih h.2⟩

theorem Stands.entry?_eq (h : fs.Stands place t entry) : fs.entry? (place ++ t) = some entry := by
  induction t generalizing place with
  | nil => rwa [List.append_nil]
  | cons b t ih =>
    rw [List.append_cons]
    exact ih h.2

theorem Stands.concat (h : fs.Stands place t .directory)
    (hentry : fs.entry? (place ++ t ++ [b]) = some entry) : fs.Stands place (t ++ [b]) entry := by
  induction t generalizing place with
  | nil =>
    rw [List.append_nil] at hentry
    exact ⟨h, hentry⟩
  | cons c t ih =>
    rw [List.append_cons place c t] at hentry
    exact ⟨h.1, ih h.2 hentry⟩

theorem Opens.eq_of_file {content own : Bytes} (h : fs.Opens place b content) (hb : IsName b)
    (hentry : fs.entry? (place ++ [b]) = some (.file own)) : content = own := by
  obtain ⟨loc, hwalk, -, hloc⟩ := h
  obtain ⟨links, -, hroute⟩ := exists_route hwalk
  have proper := proper_of_isName hb
  cases hroute with
  | stay _ _ here _ => exact (here.elim proper.1 proper.2.1).elim
  | up _ _ _ => exact absurd rfl proper.2.2
  | down _ _ _ _ _ _ go_on =>
    rw [go_on.eq_of_nil, hentry] at hloc
    rcases hloc with hfile | ⟨kind, hspecial, -⟩
    · exact (Entry.file.inj (Option.some.inj hfile)).symm
    · cases hspecial
  | along _ _ _ _ found _ _ =>
    rw [hentry] at found
    cases found

/-! ### The path of an entry -/

theorem Stands.route {links : Nat} (h : fs.Stands place (u ++ [b]) entry)
    (hvalid : Trail.Valid (u ++ [b])) (hclear : fs.Unmistakable place (u ++ [b]))
    (hroute : fs.Route links place (Trail.reread (u ++ [b])) loc) :
    Trail.Plain (u ++ [b]) ∧ fs.Route links (place ++ u) [b] loc := by
  have hself : ∀ {dir : Location} {name : Bytes} {rest : List Bytes}, IsName name →
      Utf8.reread name = name ∨ fs.entry? (dir ++ [Utf8.reread name]) = none →
      fs.Route links dir (Utf8.reread name :: rest) loc → Utf8.reread name = name :=
    fun hname hclear hroute =>
      hclear.resolve_right (hroute.found (Utf8.proper_reread hname))
  induction u generalizing place with
  | nil =>
    have hb : IsName b := hvalid b List.mem_cons_self
    have hread := hself hb hclear.1 hroute
    refine ⟨fun c hc => List.mem_singleton.1 hc ▸ ⟨hb, hread⟩, ?_⟩
    rw [List.append_nil]
    have hsingle : Trail.reread ([] ++ [b]) = [b] := congrArg (fun c => [c]) hread
    rwa [hsingle] at hroute
  | cons c u ih =>
    have hc : IsName c := hvalid c List.mem_cons_self
    have hread := hself hc hclear.1 hroute
    have hrest : Trail.Valid (u ++ [b]) := fun d hd => hvalid d (List.mem_cons_of_mem c hd)
    have hdirectory : fs.entry? (place ++ [c]) = some .directory := by
      cases u with
      | nil => exact h.2.1
      | cons d u => exact h.2.1
    have hcons : Trail.reread (c :: u ++ [b]) = c :: Trail.reread (u ++ [b]) :=
      congrArg (fun d => d :: Trail.reread (u ++ [b])) hread
    rw [hcons] at hroute
    obtain ⟨hplain, hbehind⟩ :=
      ih h.2 hrest hclear.2 (hroute.behind (proper_of_isName hc) hdirectory)
    rw [List.append_assoc] at hbehind
    refine ⟨?_, hbehind⟩
    intro d hd
    rcases List.mem_cons.1 hd with rfl | hd
    · exact ⟨hc, hread⟩
    · exact hplain d hd

theorem route_of_resolve_path (hroot : fs.resolve root = .ok place) (hne : t ≠ [])
    (hvalid : t.Valid) (h : fs.resolve (t.path root) = .ok loc) :
    ∃ links ≤ linkLimit, fs.Route links place t.reread loc := by
  obtain ⟨hadmitted, links, -, hstart⟩ := resolve_eq_ok_iff.1 hroot
  obtain ⟨-, links', hle, hroute⟩ := resolve_eq_ok_iff.1 h
  have hbytes : root.bytes ≠ [] := hadmitted.2.1
  have hsame : startOf fs.workingDirectory (t.path root) = startOf fs.workingDirectory root :=
    startOf_join _ hbytes (Trail.not_isAbsolute_name hne hvalid)
  rw [hsame, Trail.pieces_path hbytes hne hvalid] at hroute
  obtain ⟨before, behind, mid, hsum, hstem, htrail⟩ := hroute.split
  obtain ⟨links'', -, hplace⟩ := hstart.stem
  rw [hplace.unique hstem]
  exact ⟨behind, by omega, htrail⟩

/-- Whatever the path of an unmistakable entry leads to, the entry leads to. -/
theorem Stands.walkLinks_of_resolve (h : fs.Stands place (u ++ [b]) entry)
    (hroot : fs.resolve root = .ok place) (hvalid : Trail.Valid (u ++ [b]))
    (hclear : fs.Unmistakable place (u ++ [b]))
    (hresolve : fs.resolve (Trail.path root (u ++ [b])) = .ok loc) :
    Trail.Plain (u ++ [b]) ∧ fs.walkLinks linkLimit (place ++ u) [b] = .ok loc := by
  obtain ⟨links, hle, hroute⟩ := route_of_resolve_path hroot (by simp) hvalid hresolve
  obtain ⟨hplain, hentry⟩ := h.route hvalid hclear hroute
  exact ⟨hplain, hentry.walkLinks hle⟩

theorem Stands.children_of_readDirectory {inner : List (Bytes × Entry)}
    (h : fs.Stands place (u ++ [b]) .directory) (hroot : fs.resolve root = .ok place)
    (hvalid : Trail.Valid (u ++ [b])) (hclear : fs.Unmistakable place (u ++ [b]))
    (hread : fs.readDirectory (Trail.path root (u ++ [b])) = .ok inner) :
    inner = fs.children (place ++ (u ++ [b])) := by
  obtain ⟨loc, hresolve, -, rfl⟩ := readDirectory_eq_ok hread
  obtain ⟨-, hwalk⟩ := h.walkLinks_of_resolve hroot hvalid hclear hresolve
  obtain ⟨links, -, hroute⟩ := exists_route hwalk
  have hb : IsName b := hvalid b (List.mem_append_right u List.mem_cons_self)
  have hdirectory : fs.entry? (place ++ u ++ [b]) = some .directory := by
    rw [List.append_assoc]
    exact h.entry?_eq
  rw [(hroute.behind (proper_of_isName hb) hdirectory).eq_of_nil, List.append_assoc]

end FileSystem

/-! ### The entries of a walk -/

section

variable {fs : FileSystem} {root : Path} {place : Location} {trail : Trail}

/-- The meeting is with the entry at its trail, unless its directory was taken for another. -/
def Meeting.Real (fs : FileSystem) (place : Location) (m : Meeting) : Prop :=
  ∃ dir name, m.trail = dir ++ [name] ∧ m.trail.Valid ∧
    (fs.Unmistakable place dir → fs.Stands place m.trail m.entry)

structure Underway (fs : FileSystem) (place : Location) (trail : Trail)
    (entries : List (Bytes × Entry)) : Prop where
  valid : trail.Valid
  names : ∀ e ∈ entries, IsName e.1
  stands : fs.Unmistakable place trail → fs.Stands place trail .directory
  subset : fs.Unmistakable place trail → entries ⊆ fs.children (place ++ trail)

namespace Underway

variable {e : Bytes × Entry} {rest : List (Bytes × Entry)}

theorem start (hdirectory : fs.entry? place = some .directory) :
    Underway fs place [] (fs.children place) where
  valid := fun _ hb => nomatch hb
  names := fun _ => FileSystem.isName_of_mem_children
  stands := fun _ => hdirectory
  subset := by
    intro _
    rw [List.append_nil]
    exact List.Subset.refl _

theorem tail (h : Underway fs place trail (e :: rest)) : Underway fs place trail rest where
  valid := h.valid
  names := fun e' he' => h.names e' (List.mem_cons_of_mem e he')
  stands := h.stands
  subset := fun hclear _ he' => h.subset hclear (List.mem_cons_of_mem e he')

theorem valid_head (h : Underway fs place trail (e :: rest)) : Trail.Valid (trail ++ [e.1]) :=
  h.valid.append fun _ hb => List.mem_singleton.1 hb ▸ h.names e List.mem_cons_self

theorem stands_head (h : Underway fs place trail (e :: rest)) (hclear : fs.Unmistakable place trail) :
    fs.Stands place (trail ++ [e.1]) e.2 :=
  (h.stands hclear).concat (FileSystem.mem_children_iff.1 (h.subset hclear List.mem_cons_self))

theorem real_head (h : Underway fs place trail (e :: rest)) (selected : Bool) :
    Meeting.Real fs place ⟨trail ++ [e.1], e.2, selected⟩ :=
  ⟨trail, e.1, rfl, h.valid_head, h.stands_head⟩

theorem below {name : Bytes} {inner : List (Bytes × Entry)}
    (h : Underway fs place trail ((name, .directory) :: rest)) (hroot : fs.resolve root = .ok place)
    (readable : fs.readDirectory (Trail.path root (trail ++ [name])) = .ok inner) :
    Underway fs place (trail ++ [name]) inner where
  valid := h.valid_head
  names := FileSystem.isName_of_readDirectory readable
  stands := fun hclear => h.stands_head hclear.of_append
  subset := by
    intro hclear
    rw [(h.stands_head hclear.of_append).children_of_readDirectory hroot h.valid_head hclear readable]
    exact List.Subset.refl _

end Underway

theorem Walks.real {s : Selection} {entries : List (Bytes × Entry)} {ms : List Meeting}
    (h : Walks fs root s trail entries ms) (hroot : fs.resolve root = .ok place)
    (hunderway : Underway fs place trail entries) : ∀ m ∈ ms, m.Real fs place := by
  induction h with
  | nil => exact fun m hm => nomatch hm
  | leaf _ _ ih | passed _ _ ih | closed _ _ _ ih =>
    exact List.forall_mem_cons.2 ⟨hunderway.real_head _, ih hunderway.tail⟩
  | walked _ readable _ _ ihdown ihon =>
    exact List.forall_mem_cons.2 ⟨hunderway.real_head _, List.forall_mem_append.2
      ⟨ihdown (hunderway.below hroot readable), ihon hunderway.tail⟩⟩

theorem Meeting.trail_of_mem_visits {m : Meeting} {t : Trail} (h : .snippet t ∈ m.visits fs root) :
    m.trail = t := by
  obtain ⟨trail, entry, selected⟩ := m
  unfold visits at h
  cases selected with
  | false => simp at h
  | true =>
    cases entry with
    | file content | link target =>
      cases List.mem_singleton.1 h
      rfl
    | special kind | untold reason => simp at h
    | directory =>
      cases hread : fs.readDirectory (trail.path root) <;> simp [hread] at h

end

/-! ### The blocks of a walk -/

/-- The snippet is what the entry that the meeting is with has in it, a file its own content. -/
def Meeting.ShownBy (fs : FileSystem) (place : Location) (m : Meeting) (s : Snippet) : Prop :=
  ∃ dir name content, m.trail = dir ++ [name] ∧ fs.Stands place m.trail m.entry ∧
    fs.Opens (place ++ dir) name content ∧ (∀ own, m.entry = .file own → content = own) ∧
    Snippet.ofContent content s.path m.trail.name = .ok s

def Step.Clear (fs : FileSystem) (place : Location) (step : Step) : Prop :=
  ∀ root trail, step.encounter = .entry root (.snippet trail) → fs.Unmistakable place trail

section

variable {fs : FileSystem} {root : Path} {place : Location} {view : View} {step : Step}
  {root? : Option Path} {s : Snippet} {t : Trail}

theorem Step.content_of_block (hentry : step.encounter = .entry root (.snippet t))
    (h : .block root? s ∈ step.events fs) : root? = some root ∧ s.path = t.path root ∧
      ∃ content, fs.read (t.path root) = .ok content ∧
        Snippet.ofContent content (t.path root) t.name = .ok s := by
  obtain ⟨e, hfate, htold⟩ := Ledger.exists_told_snippet fs step.ledger root t
  have hmem : .block root? s ∈ Ledger.told fs step.ledger [.entry root (.snippet t)] := by
    rw [Ledger.told_singleton, ← hentry]
    exact List.mem_filter.2 ⟨h, rfl⟩
  rw [htold, List.mem_singleton] at hmem
  subst hmem
  cases hfate with
  | shown read parsed => exact ⟨rfl, (Snippet.name_of_ofContent parsed).2, _, read, parsed⟩

theorem Step.length_blocks_le {v : Visit} (hentry : step.encounter = .entry root v) :
    ((step.events fs).filterMap Event.block?).length ≤ 1 := by
  cases v with
  | snippet t =>
    obtain ⟨e, -, htold⟩ := Ledger.exists_told_snippet fs step.ledger root t
    have hdue : (step.events fs).filterMap Event.block? =
        ((step.events fs).filter Event.isDue).filterMap Event.block? := by
      rw [List.filterMap_filter]
      apply List.filterMap_congr
      intro event _
      cases event with
      | noted c p => exact (ite_self none).symm
      | _ => rfl
    have hevents : (step.events fs).filter Event.isDue = [e] := by
      rw [← htold, Ledger.told_singleton, ← hentry]
      rfl
    rw [hdue, hevents]
    exact List.length_filterMap_le Event.block? [e]
  | _ =>
    rw [events, outcome, hentry]
    exact Nat.zero_le 1

theorem Step.no_block {v : Visit} (hentry : step.encounter = .entry root v)
    (hother : ∀ t, v ≠ .snippet t) : .block root? s ∉ step.events fs := by
  obtain ⟨ledger, e⟩ := step
  cases hentry
  cases v with
  | snippet t => exact absurd rfl (hother t)
  | _ => simp [events, outcome, Ledger.meet, Ledger.visit]

theorem Trail.eq_of_same_path {t' : Trail} (hroot : root.bytes ≠ []) (hne : t ≠ [])
    (ht : t.Plain) (hne' : t' ≠ []) (ht' : t'.Plain) (h : (t.path root).Same (t'.path root)) :
    t = t' := by
  have hcounting : ∀ {u : Trail}, u.Plain → Path.counting u = u := by
    intro u hu
    apply List.filter_eq_self.2
    intro b hb
    have hproper := FileSystem.proper_of_isName (hu b hb).1
    exact decide_eq_true ⟨hproper.1, hproper.2.1⟩
  have hcomponents : ∀ {u : Trail}, u ≠ [] → u.Plain →
      (u.path root).components = root.components ++ u := by
    intro u hu hplain
    rw [Trail.path, Path.components_join hroot (Trail.not_isAbsolute_name hu hplain.valid),
      hplain.pieces_name hu, hcounting hplain]
  have heq := h.2
  rw [hcomponents hne ht, hcomponents hne' ht'] at heq
  exact List.append_cancel_left heq

theorem Listing.map_encounter_steps (l : Listing) :
    (l.steps fs).map (·.encounter) = l.encounters fs :=
  Ledger.map_encounter_steps {} (l.encounters fs)

theorem Listing.encounters_of_root {entries : List (Bytes × Entry)}
    (h : fs.readDirectory root = .ok entries) :
    (Listing.mk [root] .everything view).encounters fs =
      (Visit.below fs root .everything entries).map (.entry root) := by
  rw [encounters_everything, List.flatMap_singleton, Stop.atRoot, h]
  rfl

theorem Listing.pairwise_trails (h : fs.readDirectory root = .ok (fs.children place)) :
    ((Listing.mk [root] .everything view).steps fs).Pairwise fun step step' => ∀ t t',
      step.encounter = .entry root (.snippet t) → step'.encounter = .entry root (.snippet t') →
        t ≠ t' := by
  have hencounters : ((Listing.mk [root] .everything view).encounters fs).Pairwise fun e e' =>
      ∀ t t', e = .entry root (.snippet t) → e' = .entry root (.snippet t') → t ≠ t' := by
    have hnodup := Visit.nodup_below fs root .everything place
    rw [List.Nodup, List.pairwise_filterMap] at hnodup
    rw [encounters_of_root h, List.pairwise_map]
    apply hnodup.imp
    intro v v' hne t t' hv hv'
    cases hv
    cases hv'
    exact hne t rfl t' rfl
  rw [← map_encounter_steps, List.pairwise_map] at hencounters
  exact hencounters

theorem Listing.blocks_of_unreadable_root {fault : Fault} (h : fs.readDirectory root = .error fault) :
    ((Listing.mk [root] .everything view).events fs).filterMap Event.block? = [] := by
  rw [filterMap_events (fun _ => rfl) fun _ => rfl, steps, encounters_everything,
    List.flatMap_singleton, Stop.atRoot, h]
  cases fault <;> rfl

theorem Meeting.Real.trail_ne_nil {m : Meeting} (h : m.Real fs place) : m.trail ≠ [] := by
  obtain ⟨dir, name, htrail, -⟩ := h
  rw [htrail]
  exact List.concat_ne_nil name dir

theorem Meeting.Real.shownBy {m : Meeting} (h : m.Real fs place) (hroot : fs.resolve root = .ok place)
    (hclear : fs.Unmistakable place m.trail) {content : Bytes}
    (hread : fs.read (m.trail.path root) = .ok content)
    (hparse : Snippet.ofContent content s.path m.trail.name = .ok s) :
    m.trail.Plain ∧ m.ShownBy fs place s := by
  obtain ⟨dir, name, htrail, hvalid, hstands⟩ := h
  rw [htrail] at hvalid hclear hread hstands
  have hentry := hstands hclear.of_append
  obtain ⟨loc, hresolve, hloc⟩ := FileSystem.read_eq_ok_iff.1 hread
  obtain ⟨hplain, hwalk⟩ := hentry.walkLinks_of_resolve hroot hvalid hclear hresolve
  have hopens : fs.Opens (place ++ dir) name content := ⟨loc, hwalk, hloc⟩
  refine ⟨htrail ▸ hplain, dir, name, content, htrail, htrail ▸ hentry, hopens, ?_, hparse⟩
  intro own hown
  rw [hown] at hentry
  apply hopens.eq_of_file (hvalid name (List.mem_append_right dir List.mem_cons_self))
  rw [List.append_assoc]
  exact hentry.entry?_eq

theorem Listing.exists_meeting_of_step (l : Listing) {ms : List Meeting}
    (hencounters : l.encounters fs = (ms.flatMap (Meeting.visits fs root)).map (.entry root))
    (h : step ∈ l.steps fs) :
    ∃ m ∈ ms, ∃ v ∈ m.visits fs root, step.encounter = .entry root v := by
  have hmem : step.encounter ∈ l.encounters fs := by
    rw [← l.map_encounter_steps]
    exact List.mem_map_of_mem h
  rw [hencounters] at hmem
  obtain ⟨v, hv, heq⟩ := List.mem_map.1 hmem
  obtain ⟨m, hm, hv⟩ := List.mem_flatMap.1 hv
  exact ⟨m, hm, v, hv, heq.symm⟩

theorem Meeting.Real.of_block {m : Meeting} {v : Visit} (h : m.Real fs place)
    (hroot : fs.resolve root = .ok place) (hv : v ∈ m.visits fs root)
    (hentry : step.encounter = .entry root v) (hs : .block root? s ∈ step.events fs) :
    step.encounter = .entry root (.snippet m.trail) ∧ s.path = m.trail.path root ∧
      (fs.Unmistakable place m.trail → m.trail.Plain ∧ m.ShownBy fs place s) := by
  cases v with
  | snippet t =>
    have htrail : m.trail = t := Meeting.trail_of_mem_visits hv
    subst htrail
    obtain ⟨-, hpath, content, hcontent, hparse⟩ := Step.content_of_block hentry hs
    rw [← hpath] at hparse
    exact ⟨hentry, hpath, fun hclear => h.shownBy hroot hclear hcontent hparse⟩
  | _ => exact absurd hs (Step.no_block hentry nofun)

end

/-- In a listing of one root, whatever the names in it: what a walk meets is the entry at its trail,
a directory that is walked is that entry, and a block shows what the entry has in it, unless a name
on the trail reads as another one beside it; and no two blocks of entries that cannot be mistaken
have one path. The blocks are what is written, with the introduction. -/
theorem unmistakable_entries_are_shown (fs : FileSystem) (root : Path) (view : View) :
    let l := Listing.mk [root] .everything view
    (∀ sink, (l.run fs sink).complete = true →
      (l.run fs sink).output = (l.events fs).flatMap fun e => Utf8.encode (e.text view)) ∧
    (l.events fs).filterMap Event.block? =
      (l.steps fs).flatMap (fun step => (step.events fs).filterMap Event.block?) ∧
    (∀ fault, fs.readDirectory root = .error fault → (l.events fs).filterMap Event.block? = []) ∧
    ∀ entries, fs.readDirectory root = .ok entries → ∃ place ms,
      fs.resolve root = .ok place ∧ entries = fs.children place ∧
      Walks fs root .everything [] entries ms ∧
      l.encounters fs = (ms.flatMap (Meeting.visits fs root)).map (.entry root) ∧
      (∀ m ∈ ms, m.Real fs place) ∧
      (∀ m ∈ ms, m.entry = .directory → fs.Unmistakable place m.trail →
        ∀ inner, fs.readDirectory (m.trail.path root) = .ok inner →
          inner = fs.children (place ++ m.trail)) ∧
      (∀ step ∈ l.steps fs, ((step.events fs).filterMap Event.block?).length ≤ 1 ∧
        ∀ root? s, .block root? s ∈ step.events fs → ∃ m ∈ ms,
          step.encounter = .entry root (.snippet m.trail) ∧ s.path = m.trail.path root ∧
          (fs.Unmistakable place m.trail → m.ShownBy fs place s)) ∧
      (l.steps fs).Pairwise fun step step' => step.Clear fs place → step'.Clear fs place →
        ∀ root? s root?' s', .block root? s ∈ step.events fs → .block root?' s' ∈ step'.events fs →
          ¬ s.path.Same s'.path := by
  intro l
  refine ⟨fun _ => Listing.output_of_complete, l.filterMap_events (fun _ => rfl) fun _ => rfl,
    fun _ => Listing.blocks_of_unreadable_root, fun entries hread => ?_⟩
  obtain ⟨place, hroot, hdirectory, rfl⟩ := FileSystem.readDirectory_eq_ok hread
  obtain ⟨ms, hwalks, hvisits⟩ := Walks.exists_of_readDirectory .everything hread
  have hencounters : l.encounters fs = (ms.flatMap (Meeting.visits fs root)).map (.entry root) := by
    rw [← hvisits]
    exact Listing.encounters_of_root hread
  have hreal : ∀ m ∈ ms, m.Real fs place := hwalks.real hroot (.start hdirectory)
  have hstep : ∀ step ∈ l.steps fs, ∃ m ∈ ms, ∃ v ∈ m.visits fs root,
      step.encounter = .entry root v :=
    fun step hmem => l.exists_meeting_of_step hencounters hmem
  have hblock : ∀ step ∈ l.steps fs, ∀ root? s, .block root? s ∈ step.events fs → ∃ m ∈ ms,
      step.encounter = .entry root (.snippet m.trail) ∧ s.path = m.trail.path root ∧
      (fs.Unmistakable place m.trail → m.trail.Plain ∧ m.ShownBy fs place s) := by
    intro step hmem root? s hs
    obtain ⟨m, hm, v, hv, hentry⟩ := hstep step hmem
    exact ⟨m, hm, (hreal m hm).of_block hroot hv hentry hs⟩
  refine ⟨place, ms, hroot, rfl, hwalks, hencounters, hreal, ?_, ?_, ?_⟩
  · intro m hm hentry hclear inner hinner
    obtain ⟨dir, name, htrail, hvalid, hstands⟩ := hreal m hm
    rw [htrail] at hvalid hclear hinner hstands ⊢
    have hentry := hentry ▸ hstands hclear.of_append
    exact hentry.children_of_readDirectory hroot hvalid hclear hinner
  · intro step hmem
    refine ⟨?_, fun root? s hs => ?_⟩
    · obtain ⟨m, -, v, -, hentry⟩ := hstep step hmem
      exact Step.length_blocks_le hentry
    · obtain ⟨m, hm, hentry, hpath, hshown⟩ := hblock step hmem root? s hs
      exact ⟨m, hm, hentry, hpath, fun hclear => (hshown hclear).2⟩
  · apply (Listing.pairwise_trails hread).imp_of_mem
    intro step step' hmem hmem' hdistinct hclear hclear' root? s root?' s' hs hs' hsame
    obtain ⟨m, hm, hentry, hpath, hshown⟩ := hblock step hmem root? s hs
    obtain ⟨m', hm', hentry', hpath', hshown'⟩ := hblock step' hmem' root?' s' hs'
    obtain ⟨hplain, -⟩ := hshown (hclear root m.trail hentry)
    obtain ⟨hplain', -⟩ := hshown' (hclear' root m'.trail hentry')
    rw [hpath, hpath'] at hsame
    have hbytes : root.bytes ≠ [] := (FileSystem.resolve_eq_ok_iff.1 hroot).1.2.1
    exact hdistinct _ _ hentry hentry' (Trail.eq_of_same_path hbytes (hreal m hm).trail_ne_nil hplain
      (hreal m' hm').trail_ne_nil hplain' hsame)

/-- A directory `d` with a file named U+FFFD and a link to nothing whose name is no text. -/
def twins : FileSystem where
  workingDirectory := []
  records := [([[0x64]], .directory), ([[0x64], [0xEF, 0xBF, 0xBD]], .file [0x42, 0x0A]),
    ([[0x64], [0xFF]], .link (.ofText "nowhere"))]
  named := by decide

/-- The link has nothing in it and is listed with what the file has, under the path of the file. -/
theorem link_shows_its_twin :
    let l := Listing.mk [.ofText "d"] .everything {}
    twins.resolve (.ofText "d") = .ok [[0x64]] ∧
    twins.entry? [[0x64], [0xFF]] = some (.link (.ofText "nowhere")) ∧
    (∀ content, ¬ twins.Opens [[0x64]] [0xFF] content) ∧
    ∃ step step' s, l.steps twins = [step, step'] ∧
      step.encounter = .entry (.ofText "d") (.snippet [[0xEF, 0xBF, 0xBD]]) ∧
      step'.encounter = .entry (.ofText "d") (.snippet [[0xFF]]) ∧
      step.events twins = [.block (some (.ofText "d")) s] ∧
      step'.events twins = [.block (some (.ofText "d")) s] ∧
      s.path = .ofText "d/\ufffd" ∧ s.text = ["B"] := by
  intro l
  have hroot : twins.readDirectory (.ofText "d") = .ok (twins.children [[0x64]]) := by
    decide +kernel
  have hvisits : Visit.below twins (.ofText "d") .everything (twins.children [[0x64]]) =
      [.snippet [[0xEF, 0xBF, 0xBD]], .snippet [[0xFF]]] := by decide +kernel
  have hsteps : l.steps twins = Ledger.steps twins {}
      [.entry (.ofText "d") (.snippet [[0xEF, 0xBF, 0xBD]]),
        .entry (.ofText "d") (.snippet [[0xFF]])] := by
    rw [Listing.steps, Listing.encounters_of_root hroot, hvisits]
    rfl
  have hnowhere : twins.walkLinks FileSystem.linkLimit [[0x64]] [[0xFF]] = .error .notFound := by
    decide +kernel
  refine ⟨by decide +kernel, by decide +kernel, ?_, _, _, ⟨"\ufffd", .ofText "d/\ufffd", ["B"], [], [],
    [], [], .empty⟩, hsteps, rfl, rfl, by decide +kernel, by decide +kernel, rfl, rfl⟩
  rintro content ⟨loc, hwalk, -⟩
  rw [hnowhere] at hwalk
  cases hwalk

end SnippetCatalog
