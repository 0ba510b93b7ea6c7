import Mathlib.Data.List.Basic

/-!
# Bounded vectors, saturating arithmetic and parts per billion

The fixed-width data the runtime computes with. A `BoundedVec` carries its
length bound, so a longer one cannot be built: `tryPush` fails instead. The
saturating operations clip at the largest value of the type they model;
truncated subtraction on `Nat` is saturating subtraction already. `Perbill`
is a fraction in units of `1 / 10^9`.
-/

structure BoundedVec (α : Type) (n : Nat) where
  val : List α
  length_le : val.length ≤ n
  deriving DecidableEq, Repr

namespace BoundedVec

variable {α : Type} {n : Nat}

def empty : BoundedVec α n := ⟨[], Nat.zero_le n⟩

def tryPush (v : BoundedVec α n) (x : α) : Option (BoundedVec α n) :=
  if h : v.val.length < n then some ⟨v.val ++ [x], by simpa using Nat.succ_le_of_lt h⟩ else none

def retain (v : BoundedVec α n) (p : α → Bool) : BoundedVec α n :=
  ⟨v.val.filter p, Nat.le_trans (List.length_filter_le p v.val) v.length_le⟩

@[simp] theorem val_empty : (empty : BoundedVec α n).val = [] := rfl

theorem eq_empty {v : BoundedVec α n} (h : v.val = []) : v = empty := by
  cases v
  cases h
  rfl

theorem val_tryPush {v w : BoundedVec α n} {x : α} (h : v.tryPush x = some w) :
    w.val = v.val ++ [x] := by
  unfold tryPush at h
  split at h
  · cases h
    rfl
  · cases h

theorem tryPush_eq_none {v : BoundedVec α n} {x : α} : v.tryPush x = none ↔ v.val.length = n := by
  have hle := v.length_le
  unfold tryPush
  split
  · simp
    omega
  · simp
    omega

end BoundedVec

-- ---------------------------------------------------------------------------
-- Saturating arithmetic
-- ---------------------------------------------------------------------------

def u32Max : Nat := 0xffffffff
def u64Max : Nat := 0xffffffffffffffff
def u128Max : Nat := 0xffffffffffffffffffffffffffffffff

/-- Addition in the type whose largest value is `top`. -/
def saturatingAdd (top a b : Nat) : Nat := min (a + b) top

def saturatingMul (top a b : Nat) : Nat := min (a * b) top

def saturatedInto (top a : Nat) : Nat := min a top

theorem saturatingAdd_eq (h : a + b ≤ top) : saturatingAdd top a b = a + b := by
  simp [saturatingAdd, h]

theorem saturatingMul_mono (ha : a ≤ a') (hb : b ≤ b') :
    saturatingMul top a b ≤ saturatingMul top a' b' := by
  have h := Nat.mul_le_mul ha hb
  unfold saturatingMul
  omega

theorem saturatingMul_comm (top a b : Nat) : saturatingMul top a b = saturatingMul top b a := by
  unfold saturatingMul
  rw [Nat.mul_comm]

theorem saturatedInto_mono (h : a ≤ b) : saturatedInto top a ≤ saturatedInto top b := by
  unfold saturatedInto
  omega

-- ---------------------------------------------------------------------------
-- Parts per billion
-- ---------------------------------------------------------------------------

structure Perbill where
  parts : Nat
  le_accuracy : parts ≤ 1000000000
  deriving DecidableEq, Repr

namespace Perbill

def accuracy : Nat := 1000000000

def deconstruct (q : Perbill) : Nat := q.parts

/-- The exact floor of the fraction of `x`. -/
def mulFloor (q : Perbill) (x : Nat) : Nat := q.parts * x / accuracy

theorem mulFloor_le (q : Perbill) (x : Nat) : q.mulFloor x ≤ x := by
  unfold mulFloor accuracy
  apply Nat.div_le_of_le_mul
  exact Nat.mul_le_mul_right x q.le_accuracy

theorem mulFloor_lt {q : Perbill} (hq : q.parts < accuracy) (hx : 0 < x) : q.mulFloor x < x := by
  unfold mulFloor
  apply Nat.div_lt_of_lt_mul
  exact Nat.mul_lt_mul_of_pos_right hq hx

end Perbill
