import Mathlib.Data.List.Basic

/-!
# Occurrences of a word in a text

`Free q t`: the word `q` does not occur in `t`. A letter that is not in `q` parts
every text into two that can be looked at on their own. A word `r` that has such a
letter, and neither the first nor the last letter of `q`, can stand between any two
texts without an occurrence coming about: `r` is `Inert`.
-/

namespace Occurrence

variable {α : Type} {q r s t : List α} {c : α}

def Free (q t : List α) : Prop := ¬ q <:+: t

instance [DecidableEq α] (q t : List α) : Decidable (Free q t) :=
  inferInstanceAs (Decidable (¬ _))

theorem Free.of_infix (h : Free q t) (hs : s <:+: t) : Free q s := fun hq => h (hq.trans hs)

theorem free_of_mem (hq : c ∈ q) (ht : c ∉ t) : Free q t := fun h => ht (h.subset hq)

theorem prefix_of_notMem (hc : c ∉ q) (h : q <+: s ++ c :: t) : q <+: s := by
  rcases Nat.lt_or_ge s.length q.length with hlt | hle
  · have hletter : s ++ [c] <+: s ++ c :: t := ⟨t, by simp⟩
    have hsc : s ++ [c] <+: q := List.prefix_of_prefix_length_le hletter h
      (by rwa [List.length_append, List.length_singleton])
    exact absurd (hsc.subset (by simp)) hc
  · exact List.prefix_of_prefix_length_le h (List.prefix_append _ _) hle

theorem infix_of_notMem (hc : c ∉ q) (h : q <:+: s ++ c :: t) : q <:+: s ∨ q <:+: t := by
  induction s with
  | nil =>
    rcases List.infix_cons_iff.mp h with hstart | hinfix
    · exact .inl (prefix_of_notMem hc hstart).isInfix
    · exact .inr hinfix
  | cons a s ih =>
    rcases List.infix_cons_iff.mp h with hstart | hinfix
    · exact .inl (prefix_of_notMem (s := a :: s) hc hstart).isInfix
    · exact (ih hinfix).imp_left List.infix_cons

theorem free_append_cons (hc : c ∉ q) : Free q (s ++ c :: t) ↔ Free q s ∧ Free q t := by
  constructor
  · intro h
    exact ⟨h.of_infix List.infix_append_left,
      h.of_infix ((List.suffix_cons c t).trans (List.suffix_append s _)).isInfix⟩
  · rintro ⟨hs, ht⟩ h
    exact (infix_of_notMem hc h).elim hs ht

theorem Free.append_of_head (hs : Free q s) (ht : Free q t) (h : ∀ c ∈ t.head?, c ∉ q) :
    Free q (s ++ t) := by
  cases t with
  | nil => simpa using hs
  | cons c t =>
    exact (free_append_cons (h c rfl)).mpr ⟨hs, ht.of_infix (List.suffix_cons c t).isInfix⟩

theorem Free.append_left (ht : Free (c :: q) t) (hs : c ∉ s) : Free (c :: q) (s ++ t) := by
  induction s with
  | nil => exact ht
  | cons a s ih =>
    rw [List.mem_cons, not_or] at hs
    intro h
    rcases List.infix_cons_iff.mp h with hstart | hinfix
    · exact hs.1 (List.cons_prefix_cons.mp hstart).1
    · exact ih hs.2 hinfix

theorem Free.append_right (hs : Free (q ++ [c]) s) (ht : c ∉ t) : Free (q ++ [c]) (s ++ t) := by
  have hrev : Free (c :: q.reverse) (t.reverse ++ s.reverse) := by
    refine Free.append_left (fun h => hs ?_) (by simpa using ht)
    simpa using h.reverse
  intro h
  exact hrev (by simpa using h.reverse)

/-- Between any two texts `r` is part of no occurrence of `q`. -/
structure Inert (q r : List α) : Prop where
  head : ∀ c ∈ q.head?, c ∉ r
  last : ∀ c ∈ q.getLast?, c ∉ r
  foreign : ∃ c ∈ r, c ∉ q

theorem Inert.free (h : Inert q r) (hs : Free q s) (ht : Free q t) : Free q (s ++ (r ++ t)) := by
  obtain ⟨c, hc, hforeign⟩ := h.foreign
  obtain ⟨r1, r2, rfl⟩ := List.append_of_mem hc
  have hsplit : s ++ (r1 ++ c :: r2 ++ t) = (s ++ r1) ++ c :: (r2 ++ t) := by simp
  rw [hsplit, free_append_cons hforeign]
  constructor
  · rcases List.eq_nil_or_concat' q with rfl | ⟨q', a, rfl⟩
    · exact absurd List.nil_infix hs
    · exact hs.append_right fun ha => h.last a (by simp) (by simp [ha])
  · cases q with
    | nil => exact absurd List.nil_infix ht
    | cons a q' => exact ht.append_left fun ha => h.head a rfl (by simp [ha])

def joined (sep part : List α) (parts : List (List α)) : List α :=
  part ++ parts.flatMap (sep ++ ·)

theorem infix_joined (sep : List α) {part : List α} {parts : List (List α)}
    (h : s ∈ part :: parts) : s <:+: joined sep part parts := by
  rcases List.mem_cons.mp h with rfl | h
  · exact List.infix_append_left
  · have hword : sep ++ s <:+: parts.flatMap (sep ++ ·) :=
      List.infix_of_mem_flatten (List.mem_map_of_mem h)
    exact (List.infix_append_right.trans hword).trans List.infix_append_right

theorem Inert.free_joined (h : Inert q r) {part : List α} {parts : List (List α)}
    (hfree : ∀ x ∈ part :: parts, Free q x) : Free q (joined r part parts) := by
  induction parts generalizing part with
  | nil => simpa [joined] using hfree
  | cons x xs ih =>
    rw [List.forall_mem_cons] at hfree
    rw [joined, List.flatMap_cons, List.append_assoc]
    exact h.free hfree.1 (ih hfree.2)

end Occurrence
