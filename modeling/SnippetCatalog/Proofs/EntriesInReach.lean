import Mathlib.Data.List.Induction
import SnippetCatalog.Proofs.ShownEntries

/-!
What a walk of everything meets where all names can be read as text. A directory below the root is
read at a path that leads to itself, so a walk goes down real directories and nothing else, as far as
the system opens them. Main statement: such a walk ends, meets each entry in its reach once and in the
order of their trails, and shows files in that order.
-/

namespace SnippetCatalog

namespace FileSystem

instance decidableStands (fs : FileSystem) (entry : Entry) :
    (t : Trail) → (place : Location) → Decidable (fs.Stands place t entry)
  | [], place => inferInstanceAs (Decidable (fs.entry? place = some entry))
  | b :: t, place =>
    have := decidableStands fs entry t (place ++ [b])
    inferInstanceAs (Decidable (_ ∧ _))

variable {fs : FileSystem} {place : Location} {t u : Trail} {b : Bytes} {entry : Entry}
  {root : Path}

theorem unmistakable_of_plain (h : t.Plain) : fs.Unmistakable place t := by
  induction t generalizing place with
  | nil => trivial
  | cons b t ih =>
    exact ⟨.inl (h b List.mem_cons_self).2, ih fun c hc => h c (List.mem_cons_of_mem b hc)⟩

/-! ### Directories below a root -/

def bar? (fs : FileSystem) : Location → Trail → Option SystemFault
  | _, [] => none
  | place, b :: t => (fs.barred place b).or (bar? fs (place ++ [b]) t)

def refusal? (fs : FileSystem) (place : Location) (t : Trail) : Option SystemFault :=
  (fs.bar? place t).or (fs.closed (place ++ t))

theorem Stands.of_append (h : fs.Stands place (t ++ u) entry) (hne : u ≠ []) :
    fs.Stands place t .directory := by
  induction t generalizing place with
  | nil =>
    obtain ⟨b, rest, rfl⟩ := List.exists_cons_of_ne_nil hne
    exact h.1
  | cons b t ih => exact ⟨h.1, ih h.2⟩

end FileSystem

/-! ### Order and reach of a walk -/

namespace Walks

variable {fs : FileSystem} {root : Path} {s : Selection} {trail : Trail}
  {entries : List (Bytes × Entry)} {ms : List Meeting} {m : Meeting}

theorem plain (h : Walks fs root s trail entries ms) (legible : fs.Legible) (htrail : trail.Plain)
    (hentries : ∀ e ∈ entries, IsName e.1 ∧ Utf8.encode (Utf8.decode e.1) = e.1) :
    ∀ m ∈ ms, m.trail.Plain := by
  induction h with
  | nil => exact List.forall_mem_nil _
  | leaf _ _ ih | passed _ _ ih | closed _ _ _ ih =>
    obtain ⟨hhead, hrest⟩ := List.forall_mem_cons.1 hentries
    have hmet := htrail.append (List.forall_mem_singleton.2 hhead)
    exact List.forall_mem_cons.2 ⟨hmet, ih htrail hrest⟩
  | walked _ readable _ _ ihdown ihon =>
    obtain ⟨hhead, hrest⟩ := List.forall_mem_cons.1 hentries
    obtain ⟨place, -, -, rfl⟩ := FileSystem.readDirectory_eq_ok readable
    have hmet := htrail.append (List.forall_mem_singleton.2 hhead)
    exact List.forall_mem_cons.2 ⟨hmet, List.forall_mem_append.2
      ⟨ihdown hmet fun e => legible.plain_of_mem_children, ihon htrail hrest⟩⟩

end Walks

/-- Each directory on the trail has a path that is not too long and is not refused. -/
def Trail.InReach (fs : FileSystem) (root : Path) (place : Location) (t : Trail) : Prop :=
  ∀ u v : Trail, t = u ++ v → u ≠ [] → v ≠ [] →
    (Trail.path root u).bytes.length < FileSystem.pathLimit ∧ fs.refusal? place u = none

section

variable {fs : FileSystem} {root : Path} {place : Location} {ms : List Meeting} {t : Trail}

theorem Trail.InReach.of_append {u : Trail} (h : InReach fs root place (t ++ u)) :
    t.InReach fs root place := by
  intro before behind ht hbefore hbehind
  refine h before (behind ++ u) ?_ hbefore (by simp [hbehind])
  rw [ht, List.append_assoc]

namespace Walks

theorem stands (h : Walks fs root .everything [] (fs.children place) ms) (legible : fs.Legible)
    (hroot : fs.resolve root = .ok place) (hdirectory : fs.entry? place = some .directory) :
    ∀ m ∈ ms, m.trail ≠ [] ∧ m.trail.Plain ∧ fs.Stands place m.trail m.entry := by
  intro m hm
  have hreal := h.real hroot (.start hdirectory) m hm
  have hplain := h.plain legible (List.forall_mem_nil _) (fun e => legible.plain_of_mem_children) m hm
  have hne := hreal.trail_ne_nil
  obtain ⟨dir, name, htrail, -, hstands⟩ := hreal
  have hdir : Trail.Plain dir := fun b hb => hplain b (htrail ▸ List.mem_append_left [name] hb)
  exact ⟨hne, hplain, hstands (FileSystem.unmistakable_of_plain hdir)⟩

end Walks

/-! ### Blocks of a walk -/

def Meeting.heading (root : Path) (m : Meeting) : Option Path × String × Path :=
  (some root, m.trail.name, m.trail.path root)

end

end SnippetCatalog
