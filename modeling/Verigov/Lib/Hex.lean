import Verigov.Lib.Path

/-!
# Hexadecimal digits

Bytes as text, two lower-case digits each. Reading accepts either letter case
(`unhex_of_lower`), so a text is determined by the bytes up to its case.
-/

namespace Hex

def digits (b : UInt8) : Text := [Nat.digitChar (b.toNat / 16), Nat.digitChar (b.toNat % 16)]

def hex (bytes : Bytes) : Text := bytes.flatMap digits

/-- The value of a digit of either case; other characters count as zero. -/
def value (c : Char) : Nat :=
  if '0' ≤ c ∧ c ≤ '9' then c.toNat - 48
  else if 'a' ≤ c ∧ c ≤ 'f' then c.toNat - 87
  else if 'A' ≤ c ∧ c ≤ 'F' then c.toNat - 55
  else 0

/-- Reads two digits for each byte; a last single one is a byte of its own. -/
def unhex : Text → Bytes
  | c :: c' :: t => UInt8.ofNat (16 * value c + value c') :: unhex t
  | [c] => [UInt8.ofNat (value c)]
  | [] => []

theorem digitChar_facts (n : Nat) (h : n < 16) :
    value n.digitChar = n ∧ n.digitChar.toLower = n.digitChar ∧
      n.digitChar ≠ '/' ∧ n.digitChar ≠ '.' ∧ n.digitChar ≠ Char.ofNat 0 ∧
      n.digitChar.toNat < 128 := by
  revert n
  decide

theorem high_lt (b : UInt8) : b.toNat / 16 < 16 := by
  have h := b.toNat_lt
  omega

theorem low_lt (b : UInt8) : b.toNat % 16 < 16 := Nat.mod_lt _ (by decide)

theorem hex_cons (b : UInt8) (bytes : Bytes) : hex (b :: bytes) =
    Nat.digitChar (b.toNat / 16) :: Nat.digitChar (b.toNat % 16) :: hex bytes := rfl

theorem length_hex (bytes : Bytes) : (hex bytes).length = 2 * bytes.length := by
  induction bytes with
  | nil => rfl
  | cons b bytes ih =>
    simp only [hex_cons, List.length_cons, ih]
    omega

theorem mem_hex {c : Char} {bytes : Bytes} (h : c ∈ hex bytes) :
    ∃ n < 16, c = Nat.digitChar n := by
  simp only [hex, digits, List.mem_flatMap, List.mem_cons, List.not_mem_nil, or_false] at h
  obtain ⟨b, -, rfl | rfl⟩ := h
  · exact ⟨_, high_lt b, rfl⟩
  · exact ⟨_, low_lt b, rfl⟩

@[simp] theorem unhex_hex (bytes : Bytes) : unhex (hex bytes) = bytes := by
  induction bytes with
  | nil => rfl
  | cons b bytes ih =>
    rw [hex_cons, unhex, ih, (digitChar_facts _ (high_lt b)).1, (digitChar_facts _ (low_lt b)).1,
      Nat.div_add_mod, UInt8.ofNat_toNat]

theorem hex_injective : Function.Injective hex := fun a b h => by
  rw [← unhex_hex a, h, unhex_hex]

@[simp] theorem lower_hex (bytes : Bytes) : (hex bytes).map Char.toLower = hex bytes := by
  rw [List.map_congr_left (g := id), List.map_id]
  intro c hc
  obtain ⟨n, hn, rfl⟩ := mem_hex hc
  exact (digitChar_facts n hn).2.1

theorem toLower_eq_self {c : Char} (h : ¬ ('A' ≤ c ∧ c ≤ 'Z')) : c.toLower = c := dif_neg h

theorem eq_ofNat_of_upper {c : Char} (h : 'A' ≤ c ∧ c ≤ 'Z') :
    ∃ k < 26, c = Char.ofNat (65 + k) := by
  have h65 : 65 ≤ c.toNat := h.1
  have h90 : c.toNat ≤ 90 := h.2
  refine ⟨c.toNat - 65, by omega, ?_⟩
  rw [show 65 + (c.toNat - 65) = c.toNat by omega, Char.ofNat_toNat]

theorem value_of_lower {c : Char} {n : Nat} (hn : n < 16) (h : c.toLower = n.digitChar) :
    value c = n := by
  by_cases hc : 'A' ≤ c ∧ c ≤ 'Z'
  · have hupper : ∀ k < 26, ∀ n < 16, (Char.ofNat (65 + k)).toLower = n.digitChar →
        value (Char.ofNat (65 + k)) = n := by decide
    obtain ⟨k, hk, rfl⟩ := eq_ofNat_of_upper hc
    exact hupper k hk n hn h
  · rw [toLower_eq_self hc] at h
    rw [h]
    exact (digitChar_facts n hn).1

theorem eq_zero_of_lower {c : Char} (h : c.toLower = '0') : c = '0' := by
  by_cases hc : 'A' ≤ c ∧ c ≤ 'Z'
  · have hupper : ∀ k < 26, (Char.ofNat (65 + k)).toLower ≠ '0' := by decide
    obtain ⟨k, hk, rfl⟩ := eq_ofNat_of_upper hc
    exact absurd h (hupper k hk)
  · rwa [toLower_eq_self hc] at h

theorem eq_x_of_lower {c : Char} (h : c.toLower = 'x') : c = 'x' ∨ c = 'X' := by
  by_cases hc : 'A' ≤ c ∧ c ≤ 'Z'
  · have hupper : ∀ k < 26, (Char.ofNat (65 + k)).toLower = 'x' → Char.ofNat (65 + k) = 'X' := by
      decide
    obtain ⟨k, hk, rfl⟩ := eq_ofNat_of_upper hc
    exact .inr (hupper k hk h)
  · exact .inl (by rwa [toLower_eq_self hc] at h)

theorem toNat_le_of_lower (c : Char) : c.toNat ≤ c.toLower.toNat := by
  by_cases hc : 'A' ≤ c ∧ c ≤ 'Z'
  · have hupper : ∀ k < 26, (Char.ofNat (65 + k)).toNat ≤ (Char.ofNat (65 + k)).toLower.toNat := by
      decide
    obtain ⟨k, hk, rfl⟩ := eq_ofNat_of_upper hc
    exact hupper k hk
  · exact Nat.le_of_eq (by rw [toLower_eq_self hc])

theorem unhex_of_lower {t : Text} {bytes : Bytes} (h : t.map Char.toLower = hex bytes) :
    unhex t = bytes := by
  induction bytes generalizing t with
  | nil =>
    rw [List.map_eq_nil_iff.mp h]
    rfl
  | cons b bytes ih =>
    rw [hex_cons] at h
    obtain ⟨c, t, rfl, hc, h⟩ := List.map_eq_cons_iff.mp h
    obtain ⟨c', t, rfl, hc', h⟩ := List.map_eq_cons_iff.mp h
    rw [unhex, ih h, value_of_lower (high_lt b) hc, value_of_lower (low_lt b) hc',
      Nat.div_add_mod, UInt8.ofNat_toNat]

theorem ascii_of_lower {t : Text} {bytes : Bytes}
    (h : t.map Char.toLower = '0' :: 'x' :: hex bytes) : ∀ c ∈ t, c.toNat < 128 := by
  intro c hc
  have hmem : c.toLower ∈ '0' :: 'x' :: hex bytes := h ▸ List.mem_map_of_mem hc
  refine Nat.lt_of_le_of_lt (toNat_le_of_lower c) ?_
  rcases List.mem_cons.mp hmem with heq | hmem
  · rw [heq]
    decide
  · rcases List.mem_cons.mp hmem with heq | hmem
    · rw [heq]
      decide
    · obtain ⟨n, hn, heq⟩ := mem_hex hmem
      rw [heq]
      exact (digitChar_facts n hn).2.2.2.2.2

theorem length_unhex (t : Text) : (unhex t).length = (t.length + 1) / 2 := by
  fun_induction unhex t with
  | case1 c c' t ih =>
    simp only [List.length_cons, ih]
    omega
  | case2 => simp
  | case3 => rfl

def isLowerDigit (c : Char) : Bool := ('0' ≤ c && c ≤ '9') || ('a' ≤ c && c ≤ 'f')

def isDigit (c : Char) : Bool := isLowerDigit c || ('A' ≤ c && c ≤ 'F')

theorem eq_digitChar_of_isLowerDigit {c : Char} (h : isLowerDigit c) :
    ∃ n < 16, c = Nat.digitChar n := by
  simp only [isLowerDigit, Bool.or_eq_true, Bool.and_eq_true, decide_eq_true_eq] at h
  rcases h with ⟨hlow, hhigh⟩ | ⟨hlow, hhigh⟩
  · have h48 : 48 ≤ c.toNat := hlow
    have h57 : c.toNat ≤ 57 := hhigh
    have hchar : ∀ k < 10, Char.ofNat (48 + k) = Nat.digitChar k := by decide
    refine ⟨c.toNat - 48, by omega, ?_⟩
    rw [← hchar _ (by omega), show 48 + (c.toNat - 48) = c.toNat by omega, Char.ofNat_toNat]
  · have h97 : 97 ≤ c.toNat := hlow
    have h102 : c.toNat ≤ 102 := hhigh
    have hchar : ∀ k < 6, Char.ofNat (97 + k) = Nat.digitChar (10 + k) := by decide
    refine ⟨10 + (c.toNat - 97), by omega, ?_⟩
    rw [← hchar _ (by omega), show 97 + (c.toNat - 97) = c.toNat by omega, Char.ofNat_toNat]

theorem isLowerDigit_toLower (c : Char) : isLowerDigit c.toLower = isDigit c := by
  by_cases hc : 'A' ≤ c ∧ c ≤ 'Z'
  · have hupper : ∀ k < 26, isLowerDigit (Char.ofNat (65 + k)).toLower =
        isDigit (Char.ofNat (65 + k)) := by decide
    obtain ⟨k, hk, rfl⟩ := eq_ofNat_of_upper hc
    exact hupper k hk
  · have hf : ¬ ('A' ≤ c ∧ c ≤ 'F') := fun h => hc ⟨h.1, Char.le_trans h.2 (by decide)⟩
    rw [toLower_eq_self hc]
    simpa [isDigit] using fun h1 h2 => absurd ⟨h1, h2⟩ hf

theorem hex_unhex {t : Text} (h : ∀ c ∈ t, isLowerDigit c) (heven : t.length % 2 = 0) :
    hex (unhex t) = t := by
  fun_induction unhex t with
  | case1 c c' t ih =>
    simp only [List.forall_mem_cons] at h
    obtain ⟨n, hn, rfl⟩ := eq_digitChar_of_isLowerDigit h.1
    obtain ⟨m, hm, rfl⟩ := eq_digitChar_of_isLowerDigit h.2.1
    simp only [List.length_cons] at heven
    have hbyte : (UInt8.ofNat (16 * value n.digitChar + value m.digitChar)).toNat = 16 * n + m := by
      rw [(digitChar_facts n hn).1, (digitChar_facts m hm).1, UInt8.toNat_ofNat']
      omega
    rw [hex_cons, hbyte, ih h.2.2 (by omega), show (16 * n + m) / 16 = n by omega,
      show (16 * n + m) % 16 = m by omega]
  | case2 => cases heven
  | case3 => rfl

theorem nul_notMem_hex (bytes : Bytes) : Char.ofNat 0 ∉ hex bytes := by
  intro hmem
  obtain ⟨n, hn, heq⟩ := mem_hex hmem
  exact (digitChar_facts n hn).2.2.2.2.1 heq.symm

theorem hex_simple {bytes : Bytes} (h : bytes ≠ []) : Path.Simple (hex bytes) := by
  obtain ⟨b, bytes, rfl⟩ := List.exists_cons_of_ne_nil h
  have hhead := digitChar_facts _ (high_lt b)
  constructor
  · simp [hex_cons]
  · simp [hex_cons, Path.dot, hhead.2.2.2.1]
  · simp [hex_cons, Path.dots, hhead.2.2.2.1]
  · intro hmem
    obtain ⟨n, hn, heq⟩ := mem_hex hmem
    exact (digitChar_facts n hn).2.2.1 heq.symm

end Hex
