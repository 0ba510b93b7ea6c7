import Verigov.Lib.Path
import Mathlib.Data.List.Sort

/-!
# Text as code units

UTF-8, in which text becomes bytes, and UTF-16, by whose code units strings are
sorted. Both are read back from the left one character at a time, which is what
makes a concatenation determine its parts (`flatMap_injOn`).
-/

namespace Unicode

/-- A concatenation determines its parts when each part can be split off at the left. -/
theorem flatMap_injOn {α β : Type} {P : α → Prop} {enc : α → List β}
    (hne : ∀ a, P a → enc a ≠ [])
    (hsplit : ∀ a b x y, P a → P b → enc a ++ x = enc b ++ y → a = b ∧ x = y)
    {xs ys : List α} (hx : ∀ a ∈ xs, P a) (hy : ∀ a ∈ ys, P a)
    (h : xs.flatMap enc = ys.flatMap enc) : xs = ys := by
  induction xs generalizing ys with
  | nil =>
    cases ys with
    | nil => rfl
    | cons b ys =>
      have hb := hne b (hy b List.mem_cons_self)
      simp [hb] at h
  | cons a xs ih =>
    have ha := hx a List.mem_cons_self
    cases ys with
    | nil =>
      have hea := hne a ha
      simp [hea] at h
    | cons b ys =>
      rw [List.flatMap_cons, List.flatMap_cons] at h
      obtain ⟨rfl, hrest⟩ := hsplit a b _ _ ha (hy b List.mem_cons_self) h
      rw [ih (fun a h => hx a (List.mem_cons_of_mem _ h))
        (fun a h => hy a (List.mem_cons_of_mem _ h)) hrest]

-- ---------------------------------------------------------------------------
-- UTF-8
-- ---------------------------------------------------------------------------

def utf8 (t : Text) : Bytes := (String.ofList t).toByteArray.data.toList

theorem utf8_injective : Function.Injective utf8 := by
  intro t t' h
  have hdata : (String.ofList t).toByteArray = (String.ofList t').toByteArray :=
    ByteArray.ext (Array.toList_inj.mp h)
  exact String.ofList_injective (String.toByteArray_inj.mp hdata)

theorem utf8_cons (c : Char) (t : Text) : utf8 (c :: t) = String.utf8EncodeChar c ++ utf8 t := by
  simp only [utf8, String.toByteArray_ofList]
  rw [List.utf8Encode_cons, List.utf8Encode_singleton]
  simp

theorem utf8_eq_flatMap (t : Text) : utf8 t = t.flatMap String.utf8EncodeChar := by
  induction t with
  | nil => rfl
  | cons c t ih => rw [utf8_cons, ih, List.flatMap_cons]

def firstChar (bytes : Bytes) : Option Char := bytes.toByteArray.utf8DecodeChar? 0

theorem firstChar_append (c : Char) (bytes : Bytes) :
    firstChar (String.utf8EncodeChar c ++ bytes) = some c := by
  unfold firstChar
  rw [List.toByteArray_append]
  exact ByteArray.utf8DecodeChar?_utf8EncodeChar_append

/-- How many bytes a lead byte asks for, and the bounds of the first of them. -/
def continued (b : UInt8) : Nat × UInt8 × UInt8 :=
  if 0xc2 ≤ b ∧ b ≤ 0xdf then (1, 0x80, 0xbf)
  else if b = 0xe0 then (2, 0xa0, 0xbf)
  else if b = 0xed then (2, 0x80, 0x9f)
  else if 0xe1 ≤ b ∧ b ≤ 0xef then (2, 0x80, 0xbf)
  else if b = 0xf0 then (3, 0x90, 0xbf)
  else if b = 0xf4 then (3, 0x80, 0x8f)
  else if 0xf1 ≤ b ∧ b ≤ 0xf3 then (3, 0x80, 0xbf)
  else (0, 0, 0)

/-- How many bytes that start no character one replacement character stands for. -/
def malformed : Bytes → Nat
  | b :: b' :: bytes =>
    let (n, low, high) := continued b
    if n = 0 ∨ b' < low ∨ high < b' then 1
    else 2 + ((bytes.take (n - 1)).takeWhile fun x => 0x80 ≤ x && x ≤ 0xbf).length
  | _ => 1

def toTextFrom : Nat → Bytes → Text
  | 0, _ => []
  | _ + 1, [] => []
  | n + 1, bytes =>
    match firstChar bytes with
    | some c => c :: toTextFrom n (bytes.drop c.utf8Size)
    | none => Char.ofNat 0xfffd :: toTextFrom n (bytes.drop (malformed bytes))

/-- Bytes as text, with replacement characters for what is not UTF-8. -/
def toText (bytes : Bytes) : Text := toTextFrom bytes.length bytes

theorem toTextFrom_utf8 {n : Nat} {t : Text} (h : (utf8 t).length ≤ n) :
    toTextFrom n (utf8 t) = t := by
  induction t generalizing n with
  | nil => cases n <;> rfl
  | cons c t ih =>
    have hsize := String.length_utf8EncodeChar c
    have hpos := c.utf8Size_pos
    rw [utf8_cons, List.length_append] at h
    obtain ⟨n, rfl⟩ := Nat.exists_eq_succ_of_ne_zero (n := n) (by omega)
    obtain ⟨b, bytes, hb⟩ := List.exists_cons_of_ne_nil
      (List.append_ne_nil_of_left_ne_nil String.utf8EncodeChar_ne_nil (utf8 t))
    rw [utf8_cons, hb, toTextFrom, ← hb, firstChar_append]
    · dsimp only
      rw [← hsize, List.drop_left, ih (by omega)]
    · simp

theorem toText_utf8 (t : Text) : toText (utf8 t) = t := toTextFrom_utf8 (Nat.le_refl _)

-- ---------------------------------------------------------------------------
-- UTF-16
-- ---------------------------------------------------------------------------

def units (c : Char) : List Nat :=
  if c.toNat < 0x10000 then [c.toNat]
  else [0xd800 + (c.toNat - 0x10000) / 0x400, 0xdc00 + (c.toNat - 0x10000) % 0x400]

def utf16 (t : Text) : List Nat := t.flatMap units

theorem not_surrogate (c : Char) : c.toNat < 0xd800 ∨ 0xdfff < c.toNat := by
  rcases c.valid with h | h
  · exact .inl h
  · exact .inr h.1

theorem toNat_lt (c : Char) : c.toNat < 0x110000 := by
  rcases c.valid with h | h
  · exact Nat.lt_trans h (by decide)
  · exact h.2

theorem units_ne_nil (c : Char) : units c ≠ [] := by
  unfold units
  split <;> simp

theorem units_split (c c' : Char) (x y : List Nat) (h : units c ++ x = units c' ++ y) :
    c = c' ∧ x = y := by
  have h1 := not_surrogate c
  have h2 := not_surrogate c'
  have h3 := toNat_lt c
  have h4 := toNat_lt c'
  have heq : c.toNat = c'.toNat ∧ x = y := by
    unfold units at h
    split at h
    · split at h
      · simpa using h
      · simp only [List.cons_append, List.nil_append, List.cons.injEq] at h
        omega
    · split at h
      · simp only [List.cons_append, List.nil_append, List.cons.injEq] at h
        omega
      · simp only [List.cons_append, List.nil_append, List.cons.injEq] at h
        exact ⟨by omega, h.2.2⟩
  exact ⟨Char.toNat_inj.mp heq.1, heq.2⟩

theorem utf16_injective : Function.Injective utf16 := fun _ _ h =>
  flatMap_injOn (P := fun _ => True) (fun c _ => units_ne_nil c)
    (fun c c' x y _ _ => units_split c c' x y) (by simp) (by simp) h

/-- JavaScript's default order on strings. -/
def le (a b : Text) : Bool := decide (¬ utf16 b < utf16 a)

def sort (ts : List Text) : List Text := ts.mergeSort le

theorem sort_perm (ts : List Text) : (sort ts).Perm ts := List.mergeSort_perm ts le

theorem pairwise_sort (ts : List Text) : (sort ts).Pairwise fun a b => le a b = true := by
  apply List.pairwise_mergeSort
  · intro a b c hab hbc
    simp only [le, decide_eq_true_eq] at *
    exact List.not_lt.mpr (List.le_trans (List.not_lt.mp hab) (List.not_lt.mp hbc))
  · intro a b
    simp only [le, Bool.or_eq_true, decide_eq_true_eq]
    exact (List.le_total (utf16 a) (utf16 b)).imp List.not_lt.mpr List.not_lt.mpr

theorem sort_eq_of_perm {ts ts' : List Text} (h : ts.Perm ts') : sort ts = sort ts' := by
  have hperm : (sort ts).Perm (sort ts') := (sort_perm ts).trans (h.trans (sort_perm ts').symm)
  refine hperm.eq_of_pairwise (fun a b _ _ hab hba => ?_) (pairwise_sort ts) (pairwise_sort ts')
  simp only [le, decide_eq_true_eq] at hab hba
  exact utf16_injective (List.le_antisymm (List.not_lt.mp hab) (List.not_lt.mp hba))

end Unicode
