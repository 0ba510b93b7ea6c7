import Mathlib.Data.List.Nodup
import Mathlib.Logic.Function.Basic

/-!
# Agendas

Items with an optional due date, and one slot per date listing the items due
then. The two are kept by separate writes: `Agrees` says that they tell the
same story and that no slot lists an item twice. `Covers` is the half of it
that no item can be forgotten, which survives even when an item's date is
overwritten without touching its slot. `Op` is a write that keeps both.
-/

namespace Agenda

open Function (update)

variable {B I : Type} [DecidableEq B] [DecidableEq I]
variable {slots : B → List I} {due : I → Option B} {i : I} {b : B} {rest : List I}

def Covers (slots : B → List I) (due : I → Option B) : Prop :=
  ∀ i b, due i = some b → i ∈ slots b

structure Agrees (slots : B → List I) (due : I → Option B) : Prop where
  nodup : ∀ b, (slots b).Nodup
  mem_iff : ∀ b i, i ∈ slots b ↔ due i = some b

theorem mem_filter_bne {j : I} {l : List I} : j ∈ l.filter (· != i) ↔ j ∈ l ∧ j ≠ i := by
  simp

-- ---------------------------------------------------------------------------
-- No item is forgotten
-- ---------------------------------------------------------------------------

omit [DecidableEq B] in
theorem covers_update {slots' : B → List I} {o : Option B} (hi : ∀ b, o = some b → i ∈ slots' b)
    (hother : ∀ j c, j ≠ i → due j = some c → j ∈ slots' c) : Covers slots' (update due i o) := by
  intro j c hj
  by_cases hji : j = i
  · subst hji
    rw [Function.update_self] at hj
    exact hi c hj
  · rw [Function.update_of_ne hji] at hj
    exact hother j c hji hj

omit [DecidableEq B] in
theorem Covers.drop (h : Covers slots due) (i : I) : Covers slots (update due i none) :=
  covers_update (by simp) fun j c _ hj => h j c hj

theorem Covers.push (h : Covers slots due) (i : I) (b : B) :
    Covers (update slots b (slots b ++ [i])) (update due i (some b)) := by
  refine covers_update ?_ fun j c _ hj => ?_
  · rintro c ⟨⟩
    simp
  · have hmem := h j c hj
    by_cases hc : c = b
    · subst hc
      simp [hmem]
    · simpa [Function.update_of_ne hc] using hmem

theorem Covers.cancel (h : Covers slots due) (i : I) (b : B) :
    Covers (update slots b ((slots b).filter (· != i))) (update due i none) := by
  refine covers_update (by simp) fun j c hji hj => ?_
  have hmem := h j c hj
  by_cases hc : c = b
  · subst hc
    simp [hmem, hji]
  · simpa [Function.update_of_ne hc] using hmem

theorem Covers.pop (h : Covers (update slots b (i :: rest)) due) :
    Covers (update slots b rest) (update due i none) := by
  refine covers_update (by simp) fun j c hji hj => ?_
  have hmem := h j c hj
  by_cases hc : c = b
  · subst hc
    simpa [hji] using hmem
  · simpa [Function.update_of_ne hc] using hmem

-- ---------------------------------------------------------------------------
-- Slots and dates agree
-- ---------------------------------------------------------------------------

omit [DecidableEq B] [DecidableEq I] in
theorem Agrees.covers (h : Agrees slots due) : Covers slots due :=
  fun i b hi => (h.mem_iff b i).mpr hi

theorem Agrees.push (h : Agrees slots due) (hi : due i = none) (b : B) :
    Agrees (update slots b (slots b ++ [i])) (update due i (some b)) := by
  have hout : ∀ c, i ∉ slots c := by
    intro c hm
    rw [h.mem_iff, hi] at hm
    cases hm
  refine ⟨fun c => ?_, fun c j => ⟨fun hm => ?_, h.covers.push i b j c⟩⟩
  · by_cases hc : c = b
    · subst hc
      rw [Function.update_self]
      exact List.nodup_append.mpr ⟨h.nodup c, by simp, by
        rintro x hx y hy rfl
        exact hout c (List.mem_singleton.mp hy ▸ hx)⟩
    · rw [Function.update_of_ne hc]
      exact h.nodup c
  · by_cases hc : c = b
    · subst hc
      rw [Function.update_self, List.mem_append, List.mem_singleton] at hm
      rcases hm with hm | rfl
      · have hji : j ≠ i := fun he => hout c (he ▸ hm)
        rw [Function.update_of_ne hji]
        exact (h.mem_iff c j).mp hm
      · exact Function.update_self ..
    · rw [Function.update_of_ne hc] at hm
      have hji : j ≠ i := fun he => hout c (he ▸ hm)
      rw [Function.update_of_ne hji]
      exact (h.mem_iff c j).mp hm

theorem Agrees.cancel (h : Agrees slots due) (hi : due i = some b) :
    Agrees (update slots b ((slots b).filter (· != i))) (update due i none) := by
  refine ⟨fun c => ?_, fun c j => ⟨fun hm => ?_, h.covers.cancel i b j c⟩⟩
  · by_cases hc : c = b
    · subst hc
      rw [Function.update_self]
      exact (h.nodup c).filter _
    · rw [Function.update_of_ne hc]
      exact h.nodup c
  · by_cases hc : c = b
    · subst hc
      rw [Function.update_self, mem_filter_bne] at hm
      rw [Function.update_of_ne hm.2]
      exact (h.mem_iff c j).mp hm.1
    · rw [Function.update_of_ne hc] at hm
      have hj := (h.mem_iff c j).mp hm
      have hji : j ≠ i := by
        rintro rfl
        rw [hi] at hj
        exact hc (Option.some.inj hj).symm
      rwa [Function.update_of_ne hji]

theorem Agrees.pop (h : Agrees (update slots b (i :: rest)) due) :
    Agrees (update slots b rest) (update due i none) := by
  have hslot := h.nodup b
  rw [Function.update_self, List.nodup_cons] at hslot
  have hi : due i = some b := (h.mem_iff b i).mp (by simp)
  refine ⟨fun c => ?_, fun c j => ⟨fun hm => ?_, h.covers.pop j c⟩⟩
  · by_cases hc : c = b
    · subst hc
      rw [Function.update_self]
      exact hslot.2
    · have hn := h.nodup c
      rw [Function.update_of_ne hc] at hn ⊢
      exact hn
  · by_cases hc : c = b
    · subst hc
      rw [Function.update_self] at hm
      have hji : j ≠ i := fun he => hslot.1 (he ▸ hm)
      rw [Function.update_of_ne hji]
      exact (h.mem_iff c j).mp (by simp [hm])
    · rw [Function.update_of_ne hc] at hm
      have hj := (h.mem_iff c j).mp (by rwa [Function.update_of_ne hc])
      have hji : j ≠ i := by
        rintro rfl
        rw [hi] at hj
        exact hc (Option.some.inj hj).symm
      rwa [Function.update_of_ne hji]

-- ---------------------------------------------------------------------------
-- One write
-- ---------------------------------------------------------------------------

/-- A write to both: nothing, a date given, or a date taken back. The dates that
may be given are those with `P`. -/
inductive Op (P : B → Prop) (slots : B → List I) (due : I → Option B) :
    (B → List I) → (I → Option B) → Prop
  | keep : Op P slots due slots due
  | push (i : I) (b : B) (hi : due i = none) (hb : P b) :
    Op P slots due (update slots b (slots b ++ [i])) (update due i (some b))
  | cancel (i : I) (b : B) (hi : due i = some b) :
    Op P slots due (update slots b ((slots b).filter (· != i))) (update due i none)

variable {P : B → Prop} {slots' : B → List I} {due' : I → Option B}

theorem Op.mono {Q : B → Prop} (h : Op P slots due slots' due') (hpq : ∀ b, P b → Q b) :
    Op Q slots due slots' due' := by
  cases h with
  | keep => exact .keep
  | push i b hi hb => exact .push i b hi (hpq b hb)
  | cancel i b hi => exact .cancel i b hi

theorem Op.agrees (h : Op P slots due slots' due') (hs : Agrees slots due) :
    Agrees slots' due' := by
  cases h with
  | keep => exact hs
  | push i b hi => exact hs.push hi b
  | cancel i b hi => exact hs.cancel hi

theorem Op.covers (h : Op P slots due slots' due') (hs : Covers slots due) :
    Covers slots' due' := by
  cases h with
  | keep => exact hs
  | push i b => exact hs.push i b
  | cancel i b => exact hs.cancel i b

theorem Op.date (h : Op P slots due slots' due') (hd : due' i = some b) : due i = some b ∨ P b := by
  cases h with
  | keep => exact .inl hd
  | push j c hi hb =>
    by_cases hij : i = j
    · subst hij
      rw [Function.update_self] at hd
      cases hd
      exact .inr hb
    · rw [Function.update_of_ne hij] at hd
      exact .inl hd
  | cancel j c hi =>
    by_cases hij : i = j
    · subst hij
      simp at hd
    · rw [Function.update_of_ne hij] at hd
      exact .inl hd

end Agenda
