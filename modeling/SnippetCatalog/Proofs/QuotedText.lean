import Mathlib.Data.List.Basic
import SnippetCatalog.Text.Quoted

/-!
Quoted texts side by side. What stands for a character tells where it ends and never begins with a
quote. Main statements: a quoted text and what follows it can be told apart, so that no quoted text is
the beginning of another one; two texts keep their order when they are quoted, whatever follows them,
unless they are crossed, which is told from where they differ first.
-/

namespace SnippetCatalog.Text

/-! ### Numbers in hexadecimal -/

theorem digitChar_injective :
    ∀ m < 16, ∀ n < 16, Nat.digitChar m = Nat.digitChar n → m = n := by decide

theorem exists_of_mem_toDigits {c : Char} {n : Nat} (h : c ∈ Nat.toDigits 16 n) :
    ∃ k < 16, c = Nat.digitChar k := by
  induction n using Nat.strongRecOn with
  | ind n ih =>
    rw [Nat.toDigits_eq_if (by decide)] at h
    split at h
    · next hsmall => exact ⟨n, hsmall, List.mem_singleton.1 h⟩
    · rcases List.mem_append.1 h with hhigh | hlow
      · exact ih (n / 16) (by omega) hhigh
      · exact ⟨n % 16, Nat.mod_lt n (by decide), List.mem_singleton.1 hlow⟩

theorem toDigits_injective {m n : Nat} (h : Nat.toDigits 16 m = Nat.toDigits 16 n) : m = n := by
  have hlonger : ∀ (k r : Nat) (c : Char), [Nat.digitChar k] ≠ Nat.toDigits 16 r ++ [c] := by
    intro k r c hone
    have hlength := congrArg List.length hone
    simp [Nat.toDigits_ne_nil] at hlength
  induction m using Nat.strongRecOn generalizing n with
  | ind m ih =>
    rw [Nat.toDigits_eq_if (by decide), Nat.toDigits_eq_if (n := n) (by decide)] at h
    split at h
    · next hm =>
      split at h
      · next hn => exact digitChar_injective m hm n hn (List.cons.inj h).1
      · exact absurd h (hlonger _ _ _)
    · next hm =>
      split at h
      · exact absurd h.symm (hlonger _ _ _)
      · obtain ⟨hhigh, hlow⟩ := List.append_inj' h rfl
        have hdiv : m / 16 = n / 16 := ih (m / 16) (by omega) hhigh
        have hmod : m % 16 = n % 16 := digitChar_injective _ (Nat.mod_lt m (by decide)) _
          (Nat.mod_lt n (by decide)) (List.cons.inj hlow).1
        omega

/-! ### What stands for a character -/

def letters : List (Char × Char) :=
  [('"', '"'), ('\\', '\\'), ('\n', 'n'), ('\r', 'r'), ('\t', 't'), ('\x00', '0')]

inductive Escapes (c : Char) : List Char → Prop
  | letter {l : Char} : (c, l) ∈ letters → Escapes c ['\\', l]
  | number : Escapes c ('\\' :: 'u' :: '\x7b' :: (Nat.toDigits 16 c.toNat ++ ['\x7d']))
  | plain : (∀ l, (c, l) ∉ letters) → Escapes c [c]

theorem escapes_escapeChar (c : Char) : Escapes c (escapeChar c) := by
  unfold escapeChar
  split
  · next h =>
    subst h
    exact .letter (by decide)
  split
  · next h =>
    subst h
    exact .letter (by decide)
  split
  · next h =>
    subst h
    exact .letter (by decide)
  split
  · next h =>
    subst h
    exact .letter (by decide)
  split
  · next h =>
    subst h
    exact .letter (by decide)
  split
  · next h =>
    obtain rfl : c = '\x00' := Char.toNat_inj.1 h
    exact .letter (by decide)
  · next hquote hslash hfeed hreturn htab hnul =>
    split
    · exact .number
    · refine .plain fun l hl => ?_
      have hc : c ≠ '\x00' := fun h => hnul (congrArg Char.toNat h)
      simp [letters, hquote, hslash, hfeed, hreturn, htab, hc] at hl

theorem letters_injective : ∀ p ∈ letters, ∀ q ∈ letters, p.2 = q.2 → p.1 = q.1 := by decide

theorem append_cons_injective {x : Char} {a b u v : List Char} (ha : x ∉ a) (hb : x ∉ b)
    (h : a ++ x :: u = b ++ x :: v) : a = b ∧ u = v := by
  induction a generalizing b with
  | nil =>
    cases b with
    | nil => exact ⟨rfl, (List.cons.inj h).2⟩
    | cons y b => exact absurd ((List.cons.inj h).1 ▸ List.mem_cons_self) hb
  | cons y a ih =>
    cases b with
    | nil => exact absurd ((List.cons.inj h).1 ▸ List.mem_cons_self) ha
    | cons z b =>
      obtain ⟨rfl, hrest⟩ := List.cons.inj h
      obtain ⟨rfl, huv⟩ :=
        ih (fun hmem => ha (List.mem_cons_of_mem y hmem)) (fun hmem => hb (List.mem_cons_of_mem y hmem))
          hrest
      exact ⟨rfl, huv⟩

theorem notMem_toDigits {c : Char} (h : ∀ d < 16, c ≠ Nat.digitChar d) (n : Nat) :
    c ∉ Nat.toDigits 16 n := by
  intro hmem
  obtain ⟨d, hd, hc⟩ := exists_of_mem_toDigits hmem
  exact h d hd hc

namespace Escapes

variable {c d : Char} {e f u v : List Char}

theorem append_injective (hc : Escapes c e) (hd : Escapes d f) (h : e ++ u = f ++ v) :
    c = d ∧ u = v := by
  have hslash : ∀ {c}, (∀ l, (c, l) ∉ letters) → c ≠ '\\' := by
    rintro c hplain rfl
    exact hplain '\\' (by decide)
  have hu : ∀ p ∈ letters, p.2 ≠ 'u' := by decide
  cases hc with
  | letter hl =>
    cases hd with
    | letter hm =>
      obtain ⟨-, hrest⟩ := List.cons.inj h
      obtain ⟨hsame, huv⟩ := List.cons.inj hrest
      exact ⟨letters_injective _ hl _ hm hsame, huv⟩
    | number => exact absurd (List.cons.inj (List.cons.inj h).2).1 (hu _ hl)
    | plain hplain => exact absurd (List.cons.inj h).1.symm (hslash hplain)
  | number =>
    cases hd with
    | letter hm => exact absurd (List.cons.inj (List.cons.inj h).2).1.symm (hu _ hm)
    | number =>
      have hdigits : Nat.toDigits 16 c.toNat ++ '\x7d' :: u =
          Nat.toDigits 16 d.toNat ++ '\x7d' :: v := by simpa using h
      have hbrace : ∀ n, '\x7d' ∉ Nat.toDigits 16 n := notMem_toDigits (by decide)
      obtain ⟨hsame, huv⟩ := append_cons_injective (hbrace _) (hbrace _) hdigits
      exact ⟨Char.toNat_inj.1 (toDigits_injective hsame), huv⟩
    | plain hplain => exact absurd (List.cons.inj h).1.symm (hslash hplain)
  | plain hplain =>
    cases hd with
    | letter hm => exact absurd (List.cons.inj h).1 (hslash hplain)
    | number => exact absurd (List.cons.inj h).1 (hslash hplain)
    | plain => exact List.cons.inj h

theorem exists_cons (h : Escapes c e) : ∃ x r, e = x :: r ∧ x ≠ '"' ∧ (x < '"' → e = [c]) := by
  have hslash : '\\' < '"' → e = [c] := fun hlt => absurd hlt (by decide)
  cases h with
  | letter hl => exact ⟨'\\', _, rfl, by decide, hslash⟩
  | number => exact ⟨'\\', _, rfl, by decide, hslash⟩
  | plain hplain =>
    refine ⟨c, [], rfl, ?_, fun _ => rfl⟩
    rintro rfl
    exact hplain '"' (by decide)

theorem feed_notMem (h : Escapes c e) : '\n' ∉ e := by
  cases h with
  | letter hl =>
    have hall : ∀ p ∈ letters, '\n' ∉ ['\\', p.2] := by decide
    exact hall _ hl
  | number =>
    have hdigits : '\n' ∉ Nat.toDigits 16 c.toNat := notMem_toDigits (by decide) _
    simp [hdigits]
  | plain hplain =>
    intro hmem
    rw [← List.mem_singleton.1 hmem] at hplain
    exact hplain 'n' (by decide)

end Escapes

/-! ### Quoted texts -/

def quoteBy (escape : Char → List Char) (s : String) : String :=
  .ofList ('"' :: s.toList.flatMap escape ++ ['"'])

theorem toList_quoteBy (escape : Char → List Char) (s : String) :
    (quoteBy escape s).toList = '"' :: (s.toList.flatMap escape ++ ['"']) := by
  rw [quoteBy, String.toList_ofList, List.cons_append]

theorem toList_quote (s : String) :
    (quote s).toList = '"' :: (s.toList.flatMap escapeChar ++ ['"']) := toList_quoteBy escapeChar s

theorem feed_notMem_quote (s : String) : '\n' ∉ (quote s).toList := by
  have hbody : '\n' ∉ s.toList.flatMap escapeChar := by
    intro h
    obtain ⟨c, -, hc⟩ := List.mem_flatMap.1 h
    exact (escapes_escapeChar c).feed_notMem hc
  rw [toList_quote]
  simp [hbody]

section

variable {escape : Char → List Char}

theorem escaped_append_injective (hescape : ∀ c, Escapes c (escape c)) {cs ds u v : List Char}
    (h : cs.flatMap escape ++ '"' :: u = ds.flatMap escape ++ '"' :: v) : cs = ds ∧ u = v := by
  have hend : ∀ {c : Char} {r w w' : List Char}, '"' :: w ≠ (c :: r).flatMap escape ++ w' := by
    intro c r w w' heq
    obtain ⟨x, s, hx, hne, -⟩ := (hescape c).exists_cons
    rw [List.flatMap_cons, hx] at heq
    exact hne (List.cons.inj heq).1.symm
  induction cs generalizing ds with
  | nil =>
    cases ds with
    | nil => exact ⟨rfl, (List.cons.inj h).2⟩
    | cons d ds => exact absurd h hend
  | cons c cs ih =>
    cases ds with
    | nil => exact absurd h.symm hend
    | cons d ds =>
      rw [List.flatMap_cons, List.flatMap_cons, List.append_assoc, List.append_assoc] at h
      obtain ⟨rfl, hrest⟩ := (hescape c).append_injective (hescape d) h
      obtain ⟨rfl, huv⟩ := ih hrest
      exact ⟨rfl, huv⟩

theorem quoteBy_append_injective (hescape : ∀ c, Escapes c (escape c)) {s t u v : String}
    (h : quoteBy escape s ++ u = quoteBy escape t ++ v) : s = t ∧ u = v := by
  have hchars := congrArg String.toList h
  rw [String.toList_append, String.toList_append, toList_quoteBy, toList_quoteBy] at hchars
  have hbody : s.toList.flatMap escape ++ '"' :: u.toList =
      t.toList.flatMap escape ++ '"' :: v.toList := by simpa using hchars
  obtain ⟨hst, huv⟩ := escaped_append_injective hescape hbody
  exact ⟨String.toList_inj.1 hst, String.toList_inj.1 huv⟩

end

theorem quote_append_injective {s t u v : String} (h : quote s ++ u = quote t ++ v) :
    s = t ∧ u = v :=
  quoteBy_append_injective escapes_escapeChar h

theorem quote_injective : Function.Injective quote := by
  intro s t h
  exact (quote_append_injective (u := "") (v := "") (by rw [h])).1

theorem not_quote_isPrefix {s t : String} (h : s ≠ t) :
    ¬ (quote s).toList <+: (quote t).toList := by
  rintro ⟨r, hr⟩
  have happend : quote s ++ String.ofList r = quote t ++ "" := by
    apply String.toList_inj.1
    simpa using hr
  exact h (quote_append_injective happend).1

/-! ### Order -/

theorem append_lt_append_of_not_isPrefix {x y : List Char} (h : x < y) (hnot : ¬ x <+: y)
    (u v : List Char) : x ++ u < y ++ v := by
  induction h with
  | nil => exact absurd (List.nil_prefix) hnot
  | rel hlt => exact List.Lex.rel hlt
  | cons _ ih => exact List.Lex.cons (ih fun hp => hnot (List.cons_prefix_cons.2 ⟨rfl, hp⟩))

theorem quote_append_lt {s t : String} (h : quote s < quote t) (u v : String) :
    quote s ++ u < quote t ++ v := by
  have hne : s ≠ t := fun heq => absurd (heq ▸ h) Std.lt_irrefl
  rw [String.lt_iff, String.toList_append, String.toList_append]
  exact append_lt_append_of_not_isPrefix h (not_quote_isPrefix hne) _ _

/-- Where two texts differ first, the first one ends and the other goes on with a character in front
of the quote, or the first one has the smaller character but the greater one as it is written. -/
inductive Crossed : List Char → List Char → Prop
  | ends {d : Char} {ds : List Char} : d = ' ' ∨ d = '!' → Crossed [] (d :: ds)
  | differ {c d : Char} {cs ds : List Char} :
      c < d → escapeChar d < escapeChar c → Crossed (c :: cs) (d :: ds)
  | agree {c : Char} {cs ds : List Char} : Crossed cs ds → Crossed (c :: cs) (c :: ds)

theorem not_escapeChar_isPrefix {c d : Char} (h : c ≠ d) : ¬ escapeChar c <+: escapeChar d := by
  rintro ⟨r, hr⟩
  have happend : escapeChar c ++ r = escapeChar d ++ [] := by rw [hr, List.append_nil]
  exact h ((escapes_escapeChar c).append_injective (escapes_escapeChar d) happend).1

/-- Of what is written as itself, only the space and the exclamation mark come before the quote. -/
theorem eq_of_lt_quote {c : Char} (hlt : c < '"') (hself : escapeChar c = [c]) :
    c = ' ' ∨ c = '!' := by
  have hall : ∀ n < 34, escapeChar (.ofNat n) = [.ofNat n] →
      Char.ofNat n = ' ' ∨ Char.ofNat n = '!' := by decide +kernel
  have hc := hall c.toNat hlt
  rw [Char.ofNat_toNat] at hc
  exact hc hself

theorem Crossed.lt {cs ds : List Char} (h : Crossed cs ds) : cs < ds := by
  induction h with
  | ends => exact List.Lex.nil
  | differ hlt => exact List.Lex.rel hlt
  | agree _ ih => exact List.Lex.cons ih

theorem Crossed.escaped_lt {cs ds : List Char} (h : Crossed cs ds) :
    ds.flatMap escapeChar ++ ['"'] < cs.flatMap escapeChar ++ ['"'] := by
  induction h with
  | @ends d ds hd =>
    have hself : escapeChar d = [d] ∧ d < '"' := by
      rcases hd with rfl | rfl <;> decide +kernel
    rw [List.flatMap_cons, hself.1]
    exact List.Lex.rel hself.2
  | @differ c d cs ds hlt hescaped =>
    rw [List.flatMap_cons, List.flatMap_cons, List.append_assoc, List.append_assoc]
    exact append_lt_append_of_not_isPrefix hescaped
      (not_escapeChar_isPrefix fun heq => absurd (heq ▸ hlt) Std.lt_irrefl) _ _
  | agree _ ih =>
    rw [List.flatMap_cons, List.flatMap_cons, List.append_assoc, List.append_assoc]
    exact List.append_left_lt ih

theorem escaped_lt_of_not_crossed {cs ds : List Char} (h : cs < ds) (hnot : ¬ Crossed cs ds) :
    cs.flatMap escapeChar ++ ['"'] < ds.flatMap escapeChar ++ ['"'] := by
  induction h with
  | @nil d ds =>
    obtain ⟨x, r, hx, hne, hself⟩ := (escapes_escapeChar d).exists_cons
    rw [List.flatMap_cons, hx]
    rcases Std.lt_trichotomy '"' x with hlt | heq | hgt
    · exact List.Lex.rel hlt
    · exact absurd heq.symm hne
    · have hd : escapeChar d = [d] := hself hgt
      have hxd : x = d := (List.cons.inj (hx.symm.trans hd)).1
      exact absurd (.ends (eq_of_lt_quote (hxd ▸ hgt) hd)) hnot
  | @rel c cs d ds hlt =>
    have hne : c ≠ d := fun heq => absurd (heq ▸ hlt) Std.lt_irrefl
    rw [List.flatMap_cons, List.flatMap_cons, List.append_assoc, List.append_assoc]
    rcases Std.lt_trichotomy (escapeChar c) (escapeChar d) with hsmaller | heq | hgreater
    · exact append_lt_append_of_not_isPrefix hsmaller (not_escapeChar_isPrefix hne) _ _
    · exact absurd (heq ▸ List.prefix_rfl) (not_escapeChar_isPrefix hne)
    · exact absurd (.differ hlt hgreater) hnot
  | cons _ ih =>
    rw [List.flatMap_cons, List.flatMap_cons, List.append_assoc, List.append_assoc]
    exact List.append_left_lt (ih fun hc => hnot (.agree hc))

theorem quote_lt_quote_iff {s t : String} (h : s < t) :
    quote s < quote t ↔ ¬ Crossed s.toList t.toList := by
  have hquote : ∀ {s t : String}, s.toList.flatMap escapeChar ++ ['"'] <
      t.toList.flatMap escapeChar ++ ['"'] → quote s < quote t := by
    intro s t hlt
    rw [String.lt_iff, toList_quote, toList_quote]
    exact List.Lex.cons hlt
  constructor
  · intro hlt hcrossed
    exact absurd (Std.lt_trans hlt (hquote hcrossed.escaped_lt)) Std.lt_irrefl
  · intro hnot
    exact hquote (escaped_lt_of_not_crossed h hnot)

end SnippetCatalog.Text
