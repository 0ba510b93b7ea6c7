import Mathlib.Data.List.Induction

/-!
# Placing values in order

Each placement puts a value at its place and a note beside it, unless the value
is there already. Places may coincide, so a placement can undo an earlier one.
What a place ends with is what the last placement to write there left, and so
all values stay exactly if whatever is overwritten is put back later
(`inPlace_iff`).
-/

structure Placement (K V : Type) where
  place : K
  value : V
  beside : K
  note : V
  beside_ne : beside ≠ place

namespace Placement

variable {K V : Type} [DecidableEq K] [DecidableEq V] {e : Placement K V}
  {es : List (Placement K V)} {f : K → Option V} {k : K} {v w : V}

def apply (e : Placement K V) (f : K → Option V) : K → Option V :=
  if f e.place = some e.value then f
  else fun k => if k = e.beside then some e.note else if k = e.place then some e.value else f k

def applyAll (es : List (Placement K V)) (f : K → Option V) : K → Option V :=
  es.foldl (fun f e => e.apply f) f

/-- Placement number `i` leaves `v` at `k`: its value, or its note when the value was missing. -/
def Leaves (f : K → Option V) (es : List (Placement K V)) (i : Nat) (k : K) (v : V) : Prop :=
  ∃ e, es[i]? = some e ∧ (e.place = k ∧ e.value = v ∨
    e.beside = k ∧ e.note = v ∧ applyAll (es.take i) f e.place ≠ some e.value)

/-- Whenever something else is left at an earlier placement's place, its value is left there
again. -/
def Restored (f : K → Option V) (es : List (Placement K V)) : Prop :=
  ∀ i e, es[i]? = some e → ∀ j v, i < j → Leaves f es j e.place v → v ≠ e.value →
    ∃ l, j < l ∧ Leaves f es l e.place e.value

@[simp] theorem applyAll_nil (f : K → Option V) : applyAll [] f = f := rfl

theorem applyAll_concat (es : List (Placement K V)) (e : Placement K V) (f : K → Option V) :
    applyAll (es ++ [e]) f = e.apply (applyAll es f) := List.foldl_append

theorem apply_place (e : Placement K V) (f : K → Option V) :
    e.apply f e.place = some e.value := by
  unfold apply
  split
  · assumption
  · simp [e.beside_ne.symm]

theorem apply_of_inPlace (h : f e.place = some e.value) : e.apply f = f := if_pos h

theorem apply_beside (h : f e.place ≠ some e.value) : e.apply f e.beside = some e.note := by
  simp [apply, h]

theorem apply_other (hplace : e.place ≠ k) (hbeside : e.beside = k → f e.place = some e.value) :
    e.apply f k = f k := by
  unfold apply
  split
  · rfl
  · rename_i hmissing
    have hne : k ≠ e.beside := fun h => hmissing (hbeside h.symm)
    simp [hne, hplace.symm]

theorem applyAll_other (h : ∀ e ∈ es, e.place ≠ k ∧ e.beside ≠ k) : applyAll es f k = f k := by
  induction es generalizing f with
  | nil => rfl
  | cons e es ih =>
    obtain ⟨⟨hplace, hbeside⟩, hes⟩ := List.forall_mem_cons.mp h
    exact (ih hes).trans (apply_other hplace fun hb => absurd hb hbeside)

-- ---------------------------------------------------------------------------
-- The last to write
-- ---------------------------------------------------------------------------

theorem Leaves.lt (h : Leaves f es i k v) : i < es.length := by
  obtain ⟨e, he, -⟩ := h
  exact (List.getElem?_eq_some_iff.mp he).1

theorem Leaves.unique (h : Leaves f es i k v) (h' : Leaves f es i k w) : v = w := by
  obtain ⟨e, he, hv⟩ := h
  obtain ⟨e', he', hw⟩ := h'
  obtain rfl : e = e' := Option.some.inj (he.symm.trans he')
  rcases hv with ⟨hp, rfl⟩ | ⟨hb, rfl, -⟩
  · rcases hw with ⟨-, rfl⟩ | ⟨hb, -, -⟩
    · rfl
    · exact absurd (hb.trans hp.symm) e.beside_ne
  · rcases hw with ⟨hp, -⟩ | ⟨-, rfl, -⟩
    · exact absurd (hb.trans hp.symm) e.beside_ne
    · rfl

theorem leaves_own (f : K → Option V) (h : es[i]? = some e) : Leaves f es i e.place e.value :=
  ⟨e, h, .inl ⟨rfl, rfl⟩⟩

theorem leaves_concat_of_lt (hi : i < es.length) :
    Leaves f (es ++ [e]) i k v ↔ Leaves f es i k v := by
  unfold Leaves
  rw [List.getElem?_append_left hi, List.take_append_of_le_length (Nat.le_of_lt hi)]

theorem leaves_concat_last : Leaves f (es ++ [e]) es.length k v ↔
    e.place = k ∧ e.value = v ∨
      e.beside = k ∧ e.note = v ∧ applyAll es f e.place ≠ some e.value := by
  simp [Leaves]

/-- A place has what the last placement to write there left, if one did. -/
theorem applyAll_last (f : K → Option V) (es : List (Placement K V)) (k : K) :
    (∀ i v, ¬ Leaves f es i k v) ∧ applyAll es f k = f k ∨
      ∃ i v, Leaves f es i k v ∧ (∀ j w, Leaves f es j k w → j ≤ i) ∧
        applyAll es f k = some v := by
  induction es using List.reverseRecOn with
  | nil =>
    refine .inl ⟨fun i v h => ?_, rfl⟩
    exact absurd h.lt (Nat.not_lt_zero i)
  | append_singleton es e ih =>
    have hbound : ∀ j w, Leaves f (es ++ [e]) j k w → j ≤ es.length := by
      intro j w hj
      have hlt := hj.lt
      simp only [List.length_append, List.length_singleton] at hlt
      omega
    rw [applyAll_concat]
    by_cases hplace : e.place = k
    · subst hplace
      exact .inr ⟨es.length, e.value, leaves_concat_last.mpr (.inl ⟨rfl, rfl⟩), hbound,
        apply_place e _⟩
    by_cases hbeside : e.beside = k ∧ applyAll es f e.place ≠ some e.value
    · obtain ⟨rfl, hmissing⟩ := hbeside
      exact .inr ⟨es.length, e.note, leaves_concat_last.mpr (.inr ⟨rfl, rfl, hmissing⟩), hbound,
        apply_beside hmissing⟩
    -- The last placement leaves nothing at `k`.
    have hnot : ∀ w, ¬ Leaves f (es ++ [e]) es.length k w := by
      intro w hw
      rcases leaves_concat_last.mp hw with ⟨hp, -⟩ | ⟨hb, -, hmissing⟩
      · exact hplace hp
      · exact hbeside ⟨hb, hmissing⟩
    have hlt : ∀ j w, Leaves f (es ++ [e]) j k w → j < es.length := by
      intro j w hj
      refine Nat.lt_of_le_of_ne (hbound j w hj) ?_
      rintro rfl
      exact hnot w hj
    rw [apply_other hplace fun hb => of_not_not fun hm => hbeside ⟨hb, hm⟩]
    rcases ih with ⟨hnone, hsame⟩ | ⟨i, v, hi, hlast, hv⟩
    · refine .inl ⟨fun j w hj => ?_, hsame⟩
      exact hnone j w ((leaves_concat_of_lt (hlt j w hj)).mp hj)
    · refine .inr ⟨i, v, (leaves_concat_of_lt hi.lt).mpr hi, fun j w hj => ?_, hv⟩
      exact hlast j w ((leaves_concat_of_lt (hlt j w hj)).mp hj)

-- ---------------------------------------------------------------------------
-- What stays in place
-- ---------------------------------------------------------------------------

theorem inPlace_iff :
    (∀ e ∈ es, applyAll es f e.place = some e.value) ↔ Restored f es := by
  constructor
  · intro h i e he j v hij hj hne
    rcases applyAll_last f es e.place with ⟨hnone, -⟩ | ⟨l, w, hl, hlast, hw⟩
    · exact absurd hj (hnone j v)
    · rw [h e (List.mem_of_getElem? he)] at hw
      obtain rfl : e.value = w := Option.some.inj hw
      refine ⟨l, Nat.lt_of_le_of_ne (hlast j v hj) ?_, hl⟩
      rintro rfl
      exact hne (hj.unique hl)
  · intro h e he
    obtain ⟨i, hi⟩ := List.mem_iff_getElem?.mp he
    rcases applyAll_last f es e.place with ⟨hnone, -⟩ | ⟨l, w, hl, hlast, hw⟩
    · exact absurd (leaves_own f hi) (hnone i _)
    · rw [hw]
      by_contra hne
      have hne : w ≠ e.value := fun heq => hne (by rw [heq])
      rcases Nat.lt_or_eq_of_le (hlast i _ (leaves_own f hi)) with hil | rfl
      · obtain ⟨m, hlm, hm⟩ := h i e hi l w hil hl hne
        have hml := hlast m _ hm
        omega
      · exact hne (hl.unique (leaves_own f hi))

theorem restored_of_apart (f : K → Option V)
    (h : es.Pairwise fun e e' => e'.place ≠ e.place ∧ e'.beside ≠ e.place) : Restored f es := by
  intro i e he j v hij hj _
  obtain ⟨e', he', hwrites⟩ := hj
  obtain ⟨hi, rfl⟩ := List.getElem?_eq_some_iff.mp he
  obtain ⟨hj, rfl⟩ := List.getElem?_eq_some_iff.mp he'
  obtain ⟨hplace, hbeside⟩ := List.pairwise_iff_getElem.mp h i j hi hj hij
  rcases hwrites with ⟨hp, -⟩ | ⟨hb, -, -⟩
  · exact absurd hp hplace
  · exact absurd hb hbeside

end Placement
