import Mathlib.Data.List.Basic

/-!
# Parts of one width in a buffer

A buffer keeps its length and is written over in place. Parts of one width that
are written next to each other fill it with their concatenation, and
(`flatten_inj`) the concatenation determines the parts.
-/

namespace Layout

variable {α : Type*} {width lo i : Nat} {src out pre rest : List α} {parts parts' : List (List α)}

/-- `src` over `out`, from `lo` on. -/
def write (lo : Nat) (src out : List α) : List α :=
  out.take lo ++ src ++ out.drop (lo + src.length)

def put (lo : Nat) (src out : List α) : Option (List α) :=
  if lo + src.length ≤ out.length then some (write lo src out) else none

/-- The parts from the index `i` on, each at its index times the width. -/
def writeFrom (width i : Nat) (parts : List (List α)) (out : List α) : List α :=
  (parts.zipIdx i).foldl (fun out part => write (part.2 * width) part.1 out) out

def putFrom (width i : Nat) (parts : List (List α)) (out : List α) : Option (List α) :=
  (parts.zipIdx i).foldlM (fun out part => put (part.2 * width) part.1 out) out

-- ---------------------------------------------------------------------------
-- One write
-- ---------------------------------------------------------------------------

theorem length_write (h : lo + src.length ≤ out.length) :
    (write lo src out).length = out.length := by
  simp only [write, List.length_append, List.length_take, List.length_drop]
  omega

theorem put_eq_some (h : lo + src.length ≤ out.length) :
    put lo src out = some (write lo src out) := if_pos h

theorem write_append (hpre : pre.length = lo) :
    write lo src (pre ++ rest) = pre ++ src ++ rest.drop src.length := by
  subst hpre
  simp [write, List.drop_append]

-- ---------------------------------------------------------------------------
-- Parts of one width
-- ---------------------------------------------------------------------------

theorem writeFrom_append (hparts : ∀ part ∈ parts, part.length = width)
    (hpre : pre.length = i * width) :
    writeFrom width i parts (pre ++ rest) =
      pre ++ parts.flatten ++ rest.drop (parts.length * width) := by
  induction parts generalizing i pre rest with
  | nil => simp [writeFrom]
  | cons part parts ih =>
    have hpart : part.length = width := hparts part List.mem_cons_self
    have hnext : (pre ++ part).length = (i + 1) * width := by
      rw [List.length_append, hpre, hpart, Nat.succ_mul]
    have hstep : writeFrom width i (part :: parts) (pre ++ rest) =
        writeFrom width (i + 1) parts (pre ++ part ++ rest.drop width) := by
      rw [← hpart, ← write_append hpre, hpart]
      rfl
    rw [hstep, ih (fun p hp => hparts p (List.mem_cons_of_mem _ hp)) hnext, List.drop_drop,
      List.flatten_cons, List.length_cons, Nat.succ_mul, Nat.add_comm width]
    simp only [List.append_assoc]

/-- Parts that fill the buffer leave nothing of it. -/
theorem writeFrom_eq_flatten (hparts : ∀ part ∈ parts, part.length = width)
    (hout : out.length = parts.length * width) : writeFrom width 0 parts out = parts.flatten := by
  have h : writeFrom width 0 parts ([] ++ out) =
      [] ++ parts.flatten ++ out.drop (parts.length * width) := writeFrom_append hparts (by simp)
  rw [← hout, List.drop_length] at h
  simpa using h

theorem putFrom_eq_some (hparts : ∀ part ∈ parts, part.length = width)
    (hfit : (i + parts.length) * width ≤ out.length) :
    putFrom width i parts out = some (writeFrom width i parts out) := by
  induction parts generalizing i out with
  | nil => rfl
  | cons part parts ih =>
    have hpart : part.length = width := hparts part List.mem_cons_self
    rw [List.length_cons, ← Nat.succ_add_eq_add_succ] at hfit
    have hroom : i * width + part.length ≤ out.length := by
      rw [hpart, ← Nat.succ_mul]
      exact Nat.le_trans (Nat.mul_le_mul_right width (Nat.le_add_right _ _)) hfit
    have hstep : putFrom width i (part :: parts) out =
        (put (i * width) part out).bind (putFrom width (i + 1) parts) := rfl
    rw [hstep, put_eq_some hroom, Option.bind_some,
      ih (fun p hp => hparts p (List.mem_cons_of_mem _ hp)) (by rwa [length_write hroom])]
    rfl

theorem putFrom_eq_flatten (hparts : ∀ part ∈ parts, part.length = width)
    (hout : out.length = parts.length * width) :
    putFrom width 0 parts out = some parts.flatten := by
  rw [putFrom_eq_some hparts (by simp [hout]), writeFrom_eq_flatten hparts hout]

theorem flatten_inj (hparts : ∀ part ∈ parts, part.length = width)
    (hparts' : ∀ part ∈ parts', part.length = width) (hcount : parts.length = parts'.length) :
    parts.flatten = parts'.flatten ↔ parts = parts' := by
  have hwidths : parts.map List.length = parts'.map List.length := by
    rw [List.map_congr_left hparts, List.map_congr_left hparts', List.map_const', List.map_const',
      hcount]
  rw [List.eq_iff_flatten_eq]
  simp [hwidths]

end Layout
