/-!
Finite maps from names. The entries stand in ascending order of name, each name once, so that equal
maps are equal values. Main statements: after `insert`, the name has the new value and every other
name what it had; and maps that answer alike are the same.
-/

namespace SnippetCatalog

structure NameMap (α : Type) where
  entries : List (String × α)
  ascending : entries.Pairwise (·.1 < ·.1)
  deriving DecidableEq

namespace NameMap

variable {α : Type}

def empty : NameMap α := ⟨[], .nil⟩

instance : Inhabited (NameMap α) := ⟨empty⟩

def get? (m : NameMap α) (name : String) : Option α := m.entries.lookup name

def contains (m : NameMap α) (name : String) : Bool := (m.get? name).isSome

def get (m : NameMap α) (name : String) (h : m.contains name) : α := (m.get? name).get h

theorem get?_eq_some_get {m : NameMap α} {name : String} (h : m.contains name) :
    m.get? name = some (m.get name h) :=
  (Option.some_get h).symm

theorem not_contains_iff {m : NameMap α} {name : String} :
    ¬ m.contains name ↔ m.get? name = none := by
  rw [contains, Bool.not_eq_true, Option.isSome_eq_false_iff, Option.isNone_iff_eq_none]

def keys (m : NameMap α) : List String := m.entries.map (·.1)

def values (m : NameMap α) : List α := m.entries.map (·.2)

def size (m : NameMap α) : Nat := m.entries.length

def put (name : String) (value : α) : List (String × α) → List (String × α)
  | [] => [(name, value)]
  | e :: r =>
    if name < e.1 then (name, value) :: e :: r
    else if name = e.1 then (name, value) :: r
    else e :: put name value r

theorem mem_put {name : String} {value : α} {l : List (String × α)} {e : String × α}
    (h : e ∈ put name value l) : e.1 = name ∨ e ∈ l := by
  induction l with
  | nil => simp_all [put]
  | cons d r ih => grind [put]

theorem pairwise_put {name : String} {value : α} {l : List (String × α)}
    (h : l.Pairwise (·.1 < ·.1)) : (put name value l).Pairwise (·.1 < ·.1) := by
  induction l with
  | nil => simp [put]
  | cons e r ih =>
    rw [List.pairwise_cons] at h
    rw [put]
    split
    · next hlt =>
      refine List.pairwise_cons.2 ⟨fun d hd => ?_, List.pairwise_cons.2 h⟩
      rcases List.mem_cons.1 hd with rfl | hd
      · exact hlt
      · exact Std.lt_trans hlt (h.1 d hd)
    · next hlt =>
      split
      · next heq => exact List.pairwise_cons.2 ⟨fun d hd => heq ▸ h.1 d hd, h.2⟩
      · next hne =>
        refine List.pairwise_cons.2 ⟨fun d hd => ?_, ih h.2⟩
        rcases mem_put hd with hd | hd
        · exact hd ▸ Std.lt_of_le_of_ne (Std.not_lt.1 hlt) (Ne.symm hne)
        · exact h.1 d hd

def insert (m : NameMap α) (name : String) (value : α) : NameMap α :=
  ⟨put name value m.entries, pairwise_put m.ascending⟩

/-- A map from entries in any order; of two with one name the later counts. -/
def ofList (l : List (String × α)) : NameMap α := l.foldl (fun m e => m.insert e.1 e.2) empty

theorem lookup_cons {κ : Type} [BEq κ] [LawfulBEq κ] [DecidableEq κ] (key : κ) (e : κ × α)
    (r : List (κ × α)) :
    (e :: r).lookup key = if key = e.1 then some e.2 else r.lookup key := by
  rw [List.lookup_cons]
  by_cases h : key = e.1
  · simp [h]
  · simp [h, beq_eq_false_iff_ne.2 h]

theorem lookup_put (name key : String) (value : α) (l : List (String × α)) :
    (put name value l).lookup key = if key = name then some value else l.lookup key := by
  induction l with
  | nil => simp [put, lookup_cons]
  | cons e r ih =>
    rw [put]
    split
    · rw [lookup_cons]
    · split
      · next heq => grind [lookup_cons]
      · next hne => grind [lookup_cons]

theorem get?_insert (m : NameMap α) (name key : String) (value : α) :
    (m.insert name value).get? key = if key = name then some value else m.get? key :=
  lookup_put name key value m.entries

theorem mem_entries_iff {m : NameMap α} {name : String} {value : α} :
    (name, value) ∈ m.entries ↔ m.get? name = some value := by
  obtain ⟨l, hl⟩ := m
  show (name, value) ∈ l ↔ l.lookup name = some value
  induction l with
  | nil => simp
  | cons e r ih =>
    rw [List.pairwise_cons] at hl
    rw [List.mem_cons, lookup_cons, ih hl.2]
    split
    · next he =>
      have hr : r.lookup name ≠ some value := by
        intro h
        exact absurd (he ▸ hl.1 _ ((ih hl.2).2 h)) Std.lt_irrefl
      subst he
      simp [Prod.ext_iff, hr, eq_comm]
    · next he =>
      have hne : (name, value) ≠ e := fun h => he (h ▸ rfl)
      simp [hne]

theorem mem_keys_iff {m : NameMap α} {name : String} :
    name ∈ m.keys ↔ ∃ value, m.get? name = some value := by
  rw [keys, List.mem_map]
  constructor
  · rintro ⟨⟨key, value⟩, hmem, rfl⟩
    exact ⟨value, mem_entries_iff.1 hmem⟩
  · rintro ⟨value, hvalue⟩
    exact ⟨(name, value), mem_entries_iff.2 hvalue, rfl⟩

theorem mem_keys_iff_contains {m : NameMap α} {name : String} :
    name ∈ m.keys ↔ m.contains name := by
  rw [mem_keys_iff, contains, Option.isSome_iff_exists]

theorem pairwise_keys (m : NameMap α) : m.keys.Pairwise (· < ·) := List.pairwise_map.2 m.ascending

theorem nodup_keys (m : NameMap α) : m.keys.Nodup := by
  apply m.pairwise_keys.imp
  intro a b hab heq
  exact absurd (heq ▸ hab) Std.lt_irrefl

theorem keys_eq_iff {m n : NameMap α} :
    m.keys = n.keys ↔ ∀ name, m.contains name = n.contains name := by
  constructor
  · intro h name
    rw [Bool.eq_iff_iff, ← mem_keys_iff_contains, ← mem_keys_iff_contains, h]
  · intro h
    have hp : m.keys.Perm n.keys := by
      rw [List.perm_ext_iff_of_nodup m.nodup_keys n.nodup_keys]
      intro name
      rw [mem_keys_iff_contains, mem_keys_iff_contains, h]
    exact hp.eq_of_pairwise (fun a b _ _ hab hba => absurd (Std.lt_trans hab hba) Std.lt_irrefl)
      m.pairwise_keys n.pairwise_keys

theorem ext_get? {m n : NameMap α} (h : ∀ name, m.get? name = n.get? name) : m = n := by
  have hd : ∀ {k : NameMap α}, k.entries.Nodup := fun {k} =>
    k.ascending.imp fun hlt heq => absurd (heq ▸ hlt) Std.lt_irrefl
  have hp : m.entries.Perm n.entries := by
    rw [List.perm_ext_iff_of_nodup hd hd]
    rintro ⟨name, value⟩
    rw [mem_entries_iff, mem_entries_iff, h]
  have he : m.entries = n.entries := hp.eq_of_pairwise
    (fun a b _ _ hab hba => absurd (Std.lt_trans hab hba) Std.lt_irrefl) m.ascending n.ascending
  cases m
  cases n
  congr

end NameMap
end SnippetCatalog
