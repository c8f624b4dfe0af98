/-!
UTF-8. `encode` writes a text as bytes. `decode` reads any bytes: a byte sequence that starts a
character and cannot be finished, taken as long as possible, and a byte that starts no character
each become one U+FFFD. Main statement: `decode` reads back what `encode` writes.
-/

namespace SnippetCatalog

abbrev Bytes := List UInt8

namespace Utf8

def encodeChar (c : Char) : Bytes :=
  let n := c.toNat
  if n < 0x80 then [.ofNat n]
  else if n < 0x800 then [.ofNat (0xC0 + n / 0x40), .ofNat (0x80 + n % 0x40)]
  else if n < 0x10000 then
    [.ofNat (0xE0 + n / 0x1000), .ofNat (0x80 + n / 0x40 % 0x40), .ofNat (0x80 + n % 0x40)]
  else
    [.ofNat (0xF0 + n / 0x40000), .ofNat (0x80 + n / 0x1000 % 0x40),
      .ofNat (0x80 + n / 0x40 % 0x40), .ofNat (0x80 + n % 0x40)]

def encode (s : String) : Bytes := s.toList.flatMap encodeChar

theorem encode_append (s t : String) : encode (s ++ t) = encode s ++ encode t := by
  simp [encode]

def replacement : Char := '\ufffd'

/-- Where a reader stands: between two characters, or inside one, where the next byte must lie
between `low` and `high`, `more` bytes follow it and `value` has been read so far. -/
inductive State where
  | between
  | inside (low high more value : Nat)
  deriving DecidableEq, Repr

/-- The characters that are finished by a first byte, and where the reader stands after it. The
bounds exclude overlong forms, surrogates and values above U+10FFFF. -/
def start (b : Nat) : List Char × State :=
  if b < 0x80 then ([.ofNat b], .between)
  else if b < 0xC2 then ([replacement], .between)
  else if b < 0xE0 then ([], .inside 0x80 0xBF 0 (b - 0xC0))
  else if b = 0xE0 then ([], .inside 0xA0 0xBF 1 0)
  else if b = 0xED then ([], .inside 0x80 0x9F 1 0xD)
  else if b < 0xF0 then ([], .inside 0x80 0xBF 1 (b - 0xE0))
  else if b = 0xF0 then ([], .inside 0x90 0xBF 2 0)
  else if b < 0xF4 then ([], .inside 0x80 0xBF 2 (b - 0xF0))
  else if b = 0xF4 then ([], .inside 0x80 0x8F 2 4)
  else ([replacement], .between)

/-- One byte. A byte that cannot go on with the character before it ends that one as U+FFFD and
is then read as a first byte. -/
def State.step : State → UInt8 → List Char × State
  | .between, b => start b.toNat
  | .inside low high more value, b =>
    if low ≤ b.toNat ∧ b.toNat ≤ high then
      let value := value * 0x40 + (b.toNat - 0x80)
      match more with
      | 0 => ([.ofNat value], .between)
      | more + 1 => ([], .inside 0x80 0xBF more value)
    else
      (replacement :: (start b.toNat).1, (start b.toNat).2)

def State.flush : State → List Char
  | .between => []
  | .inside .. => [replacement]

def decodeFrom : State → Bytes → List Char
  | s, [] => s.flush
  | s, b :: r => (s.step b).1 ++ decodeFrom (s.step b).2 r

def decode (b : Bytes) : String := .ofList (decodeFrom .between b)

def text? (b : Bytes) : Option String :=
  if encode (decode b) = b then some (decode b) else none

/-! ### Reading back -/

theorem toNat_ofNat_of_lt {n : Nat} (h : n < 256) : (UInt8.ofNat n).toNat = n := by
  simp [Nat.mod_eq_of_lt h]

theorem decodeFrom_start {n : Nat} (h : n < 256) (r : Bytes) :
    decodeFrom .between (.ofNat n :: r) = (start n).1 ++ decodeFrom (start n).2 r := by
  rw [decodeFrom, State.step, toNat_ofNat_of_lt h]

theorem decodeFrom_last {low high value n : Nat} (hl : low ≤ n) (hh : n ≤ high) (h : n < 256)
    (r : Bytes) : decodeFrom (.inside low high 0 value) (.ofNat n :: r) =
      .ofNat (value * 0x40 + (n - 0x80)) :: decodeFrom .between r := by
  rw [decodeFrom, State.step, toNat_ofNat_of_lt h, if_pos ⟨hl, hh⟩]
  rfl

theorem decodeFrom_next {low high more value n : Nat} (hl : low ≤ n) (hh : n ≤ high)
    (h : n < 256) (r : Bytes) : decodeFrom (.inside low high (more + 1) value) (.ofNat n :: r) =
      decodeFrom (.inside 0x80 0xBF more (value * 0x40 + (n - 0x80))) r := by
  rw [decodeFrom, State.step, toNat_ofNat_of_lt h, if_pos ⟨hl, hh⟩]
  rfl

theorem ofNat_eq (c : Char) {n : Nat} (h : n = c.toNat) : Char.ofNat n = c := by
  rw [h, Char.ofNat_toNat]

theorem decodeFrom_encodeChar (c : Char) (r : Bytes) :
    decodeFrom .between (encodeChar c ++ r) = c :: decodeFrom .between r := by
  have hv : c.toNat < 0xD800 ∨ (0xDFFF < c.toNat ∧ c.toNat < 0x110000) := c.valid
  rw [encodeChar]
  split
  · next h =>
    rw [List.singleton_append, decodeFrom_start (by omega), start, if_pos h]
    simp
  · split
    · next h =>
      have hs : start (0xC0 + c.toNat / 0x40) = ([], .inside 0x80 0xBF 0 (c.toNat / 0x40)) := by
        rw [start, if_neg (by omega), if_neg (by omega), if_pos (by omega), Nat.add_sub_cancel_left]
      rw [List.cons_append, List.singleton_append, decodeFrom_start (by omega), hs,
        List.nil_append, decodeFrom_last (by omega) (by omega) (by omega)]
      rw [ofNat_eq c (by omega)]
    · split
      · next h =>
        have hs : start (0xE0 + c.toNat / 0x1000) = ([], .inside
            (if c.toNat / 0x1000 = 0 then 0xA0 else 0x80)
            (if c.toNat / 0x1000 = 0xD then 0x9F else 0xBF) 1 (c.toNat / 0x1000)) := by
          grind [start]
        rw [List.cons_append, List.cons_append, List.singleton_append,
          decodeFrom_start (by omega), hs, List.nil_append,
          decodeFrom_next (by split <;> omega) (by split <;> omega) (by omega),
          decodeFrom_last (by omega) (by omega) (by omega), ofNat_eq c (by omega)]
      · next h =>
        have hs : start (0xF0 + c.toNat / 0x40000) = ([], .inside
            (if c.toNat / 0x40000 = 0 then 0x90 else 0x80)
            (if c.toNat / 0x40000 = 4 then 0x8F else 0xBF) 2 (c.toNat / 0x40000)) := by
          grind [start]
        rw [List.cons_append, List.cons_append, List.cons_append, List.singleton_append,
          decodeFrom_start (by omega), hs, List.nil_append,
          decodeFrom_next (by split <;> omega) (by split <;> omega) (by omega),
          decodeFrom_next (by omega) (by omega) (by omega),
          decodeFrom_last (by omega) (by omega) (by omega), ofNat_eq c (by omega)]

theorem decodeFrom_encode (cs : List Char) (r : Bytes) :
    decodeFrom .between (cs.flatMap encodeChar ++ r) = cs ++ decodeFrom .between r := by
  induction cs with
  | nil => rfl
  | cons c cs ih => rw [List.flatMap_cons, List.append_assoc, decodeFrom_encodeChar, ih]; rfl

theorem decode_encode (s : String) : decode (encode s) = s := by
  have h := decodeFrom_encode s.toList []
  rw [List.append_nil] at h
  rw [decode, encode, h]
  simp [decodeFrom, State.flush]

theorem encode_injective {s t : String} (h : encode s = encode t) : s = t := by
  rw [← decode_encode s, h, decode_encode]

/-! ### Lengths -/

theorem encodeChar_ne_nil (c : Char) : encodeChar c ≠ [] := by
  unfold encodeChar
  dsimp only
  repeat' split
  all_goals simp

theorem length_le_length_encode (s : String) : s.toList.length ≤ (encode s).length := by
  unfold encode
  induction s.toList with
  | nil => exact Nat.le_refl 0
  | cons c cs ih =>
    have hc : 0 < (encodeChar c).length := List.length_pos_iff.2 (encodeChar_ne_nil c)
    rw [List.flatMap_cons, List.length_append, List.length_cons]
    omega

/-- A byte finishes a character or is kept as the beginning of one. -/
theorem State.step_ne (s : State) (b : UInt8) : s.step b ≠ ([], .between) := by
  have hstart : ∀ n, start n ≠ ([], .between) := by
    intro n
    unfold start
    repeat' split
    all_goals simp
  cases s with
  | between => exact hstart _
  | inside low high more value =>
    rw [step]
    split
    · cases more <;> simp
    · simp

theorem eq_nil_of_decodeFrom {s : State} {b : Bytes} (h : decodeFrom s b = []) :
    s = .between ∧ b = [] := by
  induction b generalizing s with
  | nil =>
    cases s with
    | between => exact ⟨rfl, rfl⟩
    | inside low high more value => cases h
  | cons b r ih =>
    obtain ⟨hfinished, hrest⟩ := List.append_eq_nil_iff.1 h
    exact absurd (Prod.ext hfinished (ih hrest).1) (s.step_ne b)

theorem decode_ne_nil {b : Bytes} (h : b ≠ []) : (decode b).toList ≠ [] := by
  rw [decode, String.toList_ofList]
  exact fun hnil => h (eq_nil_of_decodeFrom hnil).2

/-! ### ASCII -/

/-- A reader inside a character will finish one beyond ASCII. -/
def State.Beyond : State → Prop
  | .between => True
  | .inside low _ more value =>
    0x80 ≤ low ∧ 0x80 ≤ (value * 0x40 + (low - 0x80)) * Nat.pow 0x40 more

/-- An ASCII character other than NUL. -/
def IsAscii (c : Char) : Prop := 0 < c.toNat ∧ c.toNat < 0x80

instance (c : Char) : Decidable (IsAscii c) := inferInstanceAs (Decidable (_ ∧ _))

/-- An ASCII character is written as one byte, which stands in no other character. -/
theorem mem_encodeChar_iff {a c : Char} (ha : a.toNat < 0x80) :
    UInt8.ofNat a.toNat ∈ encodeChar c ↔ c = a := by
  have hv : c.toNat < 0xD800 ∨ (0xDFFF < c.toNat ∧ c.toNat < 0x110000) := c.valid
  have heq : ∀ n, n < 256 → (UInt8.ofNat a.toNat = UInt8.ofNat n ↔ a.toNat = n) := by
    intro n hn
    rw [← UInt8.toNat_inj, toNat_ofNat_of_lt (by omega), toNat_ofNat_of_lt hn]
  have hchar : c = a ↔ a.toNat = c.toNat := by
    rw [← Char.toNat_inj, eq_comm]
  rw [hchar, encodeChar]
  -- all bytes of a character beyond ASCII are 0x80 or above
  split
  · rw [List.mem_singleton, heq _ (by omega)]
  · split
    · simp only [List.mem_cons, List.not_mem_nil, or_false]
      rw [heq _ (by omega), heq _ (by omega)]
      omega
    · split
      · simp only [List.mem_cons, List.not_mem_nil, or_false]
        rw [heq _ (by omega), heq _ (by omega), heq _ (by omega)]
        omega
      · simp only [List.mem_cons, List.not_mem_nil, or_false]
        rw [heq _ (by omega), heq _ (by omega), heq _ (by omega), heq _ (by omega)]
        omega

theorem beyond_start (b : Nat) : (start b).2.Beyond := by
  unfold start
  repeat' split
  all_goals simp only [State.Beyond, Nat.pow, Nat.mul_eq]
  all_goals omega

theorem toNat_ofNat_or (n : Nat) : (Char.ofNat n).toNat = n ∨ (Char.ofNat n).toNat = 0 := by
  unfold Char.ofNat
  by_cases h : n.isValidChar
  · rw [dif_pos h]
    exact .inl rfl
  · rw [dif_neg h]
    exact .inr rfl

theorem of_mem_start {c : Char} {b : Nat} (h : c ∈ (start b).1) (hc : IsAscii c) :
    b = c.toNat := by
  have hrep : replacement.toNat = 0xFFFD := rfl
  have hlast := hc.2
  unfold start at h
  repeat' split at h
  all_goals simp only [List.mem_singleton, List.not_mem_nil] at h
  · have hfirst := hc.1
    rw [h] at hfirst ⊢
    have := toNat_ofNat_or b
    omega
  all_goals
    rw [h] at hlast
    omega

theorem beyond_step {s : State} (hs : s.Beyond) (b : UInt8) : (s.step b).2.Beyond := by
  cases s with
  | between => exact beyond_start _
  | inside low high more value =>
    rw [State.step]
    split
    · next hb =>
      cases more with
      | zero => trivial
      | succ more =>
        refine ⟨Nat.le_refl _, ?_⟩
        have hle : value * 0x40 + (low - 0x80) ≤ value * 0x40 + (b.toNat - 0x80) := by omega
        have hmul := Nat.mul_le_mul_right (Nat.pow 0x40 (more + 1)) hle
        have hbeyond := hs.2
        have hpow : 0x40 * Nat.pow 0x40 more = Nat.pow 0x40 (more + 1) := Nat.mul_comm _ _
        rw [Nat.sub_self, Nat.add_zero, Nat.mul_assoc, hpow]
        exact Nat.le_trans hbeyond hmul
    · exact beyond_start _

theorem of_mem_step {c : Char} {s : State} {b : UInt8} (hs : s.Beyond)
    (h : c ∈ (s.step b).1) (hc : IsAscii c) : b.toNat = c.toNat := by
  cases s with
  | between => exact of_mem_start h hc
  | inside low high more value =>
    rw [State.step] at h
    split at h
    · next hb =>
      cases more with
      | zero =>
        have hbeyond : 0x80 ≤ (value * 0x40 + (low - 0x80)) * 1 := hs.2
        rw [List.mem_singleton.1 h] at hc
        have hcases := toNat_ofNat_or (value * 0x40 + (b.toNat - 0x80))
        have := hc.1
        have := hc.2
        omega
      | succ more => cases h
    · rcases List.mem_cons.1 h with h | h
      · have hlast := hc.2
        rw [h] at hlast
        have hrep : replacement.toNat = 0xFFFD := rfl
        omega
      · exact of_mem_start h hc

theorem of_mem_decodeFrom {c : Char} {s : State} {b : Bytes} (hs : s.Beyond)
    (h : c ∈ decodeFrom s b) (hc : IsAscii c) : UInt8.ofNat c.toNat ∈ b := by
  induction b generalizing s with
  | nil =>
    cases s with
    | between => cases h
    | inside low high more value =>
      have hlast := hc.2
      rw [List.mem_singleton.1 h] at hlast
      have hrep : replacement.toNat = 0xFFFD := rfl
      omega
  | cons b r ih =>
    rcases List.mem_append.1 h with h | h
    · rw [← of_mem_step hs h hc, UInt8.ofNat_toNat]
      exact List.mem_cons_self
    · exact List.mem_cons_of_mem b (ih (beyond_step hs b) h)

theorem mem_of_mem_decode {c : Char} {b : Bytes} (h : c ∈ (decode b).toList) (hc : IsAscii c) :
    UInt8.ofNat c.toNat ∈ b := by
  rw [decode, String.toList_ofList] at h
  have hbetween : State.between.Beyond := True.intro
  exact of_mem_decodeFrom hbetween h hc

/-- A byte that leaves nothing unfinished and finishes only ASCII characters is one of them. -/
theorem between_of_step {s : State} {b : UInt8} (hs : s.Beyond) (hnext : (s.step b).2 = .between)
    (h : ∀ c ∈ (s.step b).1, IsAscii c) : s = .between ∧ (s.step b).1.flatMap encodeChar = [b] := by
  have hreplacement : ¬ IsAscii replacement := by decide
  cases s with
  | between =>
    refine ⟨rfl, ?_⟩
    change (start b.toNat).2 = .between at hnext
    change ∀ c ∈ (start b.toNat).1, IsAscii c at h
    show (start b.toNat).1.flatMap encodeChar = [b]
    by_cases hb : b.toNat < 0x80
    · have hstart : start b.toNat = ([.ofNat b.toNat], .between) := if_pos hb
      rw [hstart] at h ⊢
      have hascii := h _ List.mem_cons_self
      have hvalue : (Char.ofNat b.toNat).toNat = b.toNat :=
        (toNat_ofNat_or b.toNat).resolve_right (Nat.ne_of_gt hascii.1)
      rw [List.flatMap_singleton, encodeChar, hvalue, if_pos hb, UInt8.ofNat_toNat]
    · -- above ASCII a first byte is a replacement or leaves a character unfinished
      have hend : (start b.toNat).1 = [replacement] := by
        unfold start at hnext ⊢
        grind
      exact absurd (h replacement (hend ▸ List.mem_cons_self)) hreplacement
  | inside low high more value =>
    rw [State.step] at hnext h
    split at h
    · next hb =>
      rw [if_pos hb] at hnext
      cases more with
      | zero =>
        have hbeyond : 0x80 ≤ (value * 0x40 + (low - 0x80)) * 1 := hs.2
        obtain ⟨hpositive, hsmall⟩ := h _ List.mem_cons_self
        have hvalue := toNat_ofNat_or (value * 0x40 + (b.toNat - 0x80))
        omega
      | succ more => cases hnext
    · exact absurd (h replacement List.mem_cons_self) hreplacement

theorem flatMap_encodeChar_decodeFrom {s : State} {b : Bytes} (hs : s.Beyond)
    (h : ∀ c ∈ decodeFrom s b, IsAscii c) :
    s = .between ∧ (decodeFrom s b).flatMap encodeChar = b := by
  induction b generalizing s with
  | nil =>
    cases s with
    | between => exact ⟨rfl, rfl⟩
    | inside low high more value => exact absurd (h replacement List.mem_cons_self) (by decide)
  | cons b r ih =>
    obtain ⟨hnext, hrest⟩ :=
      ih (beyond_step hs b) fun c hc => h c (List.mem_append_right _ hc)
    obtain ⟨hstate, hfirst⟩ := between_of_step hs hnext fun c hc => h c (List.mem_append_left _ hc)
    rw [decodeFrom, List.flatMap_append, hfirst, hrest]
    exact ⟨hstate, rfl⟩

theorem encode_decode_of_ascii {b : Bytes} (h : ∀ c ∈ (decode b).toList, IsAscii c) :
    encode (decode b) = b := by
  have hbetween : State.between.Beyond := True.intro
  rw [decode, String.toList_ofList] at h
  rw [encode, decode, String.toList_ofList]
  exact (flatMap_encodeChar_decodeFrom hbetween h).2

end Utf8
end SnippetCatalog
