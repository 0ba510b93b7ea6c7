import Mathlib.Data.List.Basic

/-!
# Runs of a labelled transition relation

A run records its trace: each state it left, with the label of the step that
left it. Properties of every reached state, of the steps on the way and of the
order between them are all statements about the trace.

`Run.induct` is the one induction: everything else, invariants included, is an
instance of it. A step condition `P` restricts the runs a result is about to
those whose steps all meet `P`; `Run.toward` starts from a property of the last
state instead.
-/

namespace Transition

variable {σ α : Type}

/-- `Run step s tr t`: from `s`, the steps of `tr` lead to `t`. -/
inductive Run (step : σ → α → σ → Prop) (s : σ) : List (σ × α) → σ → Prop
  | nil : Run step s [] s
  | snoc : Run step s tr m → step m a t → Run step s (tr ++ [(m, a)]) t

/-- Every step of the trace meets `P` in the state it leaves. -/
def Along (P : σ → α → Prop) (tr : List (σ × α)) : Prop := ∀ x ∈ tr, P x.1 x.2

/-- The steps of a trace that ends in the given state, each with the states it
leaves and reaches. -/
def stepsOf : List (σ × α) → σ → List (σ × α × σ)
  | [], _ => []
  | [(m, a)], t => [(m, a, t)]
  | (m, a) :: (n, b) :: tr, t => (m, a, n) :: stepsOf ((n, b) :: tr) t

theorem stepsOf_snoc (tr : List (σ × α)) (m : σ) (a : α) (t : σ) :
    stepsOf (tr ++ [(m, a)]) t = stepsOf tr m ++ [(m, a, t)] := by
  induction tr, m using stepsOf.induct with
  | case1 => rfl
  | case2 => rfl
  | case3 m _ n _ _ _ ih => exact congrArg _ ih

theorem exists_mem_stepsOf {x : σ × α} (t : σ) (h : x ∈ tr) :
    ∃ n, (x.1, x.2, n) ∈ stepsOf tr t := by
  induction tr, t using stepsOf.induct with
  | case1 => cases h
  | case2 m a t =>
    obtain rfl := List.mem_singleton.mp h
    exact ⟨t, List.mem_singleton_self _⟩
  | case3 m a n b tr t ih =>
    rcases List.mem_cons.mp h with rfl | h
    · exact ⟨n, List.mem_cons_self⟩
    · obtain ⟨k, hk⟩ := ih h
      exact ⟨k, List.mem_cons_of_mem _ hk⟩

variable {step : σ → α → σ → Prop} {P : σ → α → Prop}

instance [∀ s a, Decidable (P s a)] (tr : List (σ × α)) : Decidable (Along P tr) :=
  inferInstanceAs (Decidable (∀ x ∈ tr, P x.1 x.2))

@[simp] theorem along_nil : Along P [] := by simp [Along]

@[simp] theorem along_append : Along P (tr ++ tr') ↔ Along P tr ∧ Along P tr' := by
  simp [Along, or_imp, forall_and]

@[simp] theorem along_cons : Along P ((s, a) :: tr) ↔ P s a ∧ Along P tr := by
  simp [Along]

theorem Along.mono {Q : σ → α → Prop} (h : Along P tr) (hpq : ∀ s a, P s a → Q s a) :
    Along Q tr := fun x hx => hpq _ _ (h x hx)

theorem Along.and {Q : σ → α → Prop} (h : Along P tr) (h' : Along Q tr) :
    Along (fun s a => P s a ∧ Q s a) tr := fun x hx => ⟨h x hx, h' x hx⟩

/-- Induction along a run whose steps meet `P`, with the trace so far. -/
theorem Run.induct {I : List (σ × α) → σ → Prop} (h : Run step s tr t) (hP : Along P tr)
    (h0 : I [] s)
    (hs : ∀ tr m a t, Run step s tr m → Along P tr → step m a t → P m a → I tr m →
      I (tr ++ [(m, a)]) t) : I tr t := by
  induction h with
  | nil => exact h0
  | snoc hr hst ih =>
    simp only [along_append, along_cons, along_nil, and_true] at hP
    exact hs _ _ _ _ hr hP.1 hst hP.2 (ih hP.1)

theorem Run.invariant {I : σ → Prop} (h : Run step s tr t) (hP : Along P tr) (h0 : I s)
    (hs : ∀ m a t, step m a t → P m a → I m → I t) : I t :=
  h.induct (I := fun _ t => I t) hP h0 fun _ _ _ _ _ _ hst hp hi => hs _ _ _ hst hp hi

theorem Run.always {I : σ → Prop} (h : Run step s tr t) (h0 : I s)
    (hs : ∀ m a t, step m a t → I m → I t) : I t :=
  h.invariant (P := fun _ _ => True) (fun _ _ => trivial) h0 fun _ _ _ hst _ => hs _ _ _ hst

theorem Run.trans (h : Run step s tr m) (h' : Run step m tr' t) : Run step s (tr ++ tr') t := by
  induction h' with
  | nil => simpa using h
  | snoc _ hst ih =>
    rw [← List.append_assoc]
    exact .snoc ih hst

theorem Run.single (h : step s a t) : Run step s [(s, a)] t := .snoc .nil h

/-- Induction along a run to a state with `G`, which no step can gain: every state
on the way had it already. -/
theorem Run.toward {G : σ → Prop} {I : List (σ × α) → σ → Prop} (h : Run step s tr t) (hG : G t)
    (hback : ∀ m a t, step m a t → G t → G m) (h0 : I [] s)
    (hs : ∀ tr m a t, step m a t → G t → I tr m → I (tr ++ [(m, a)]) t) : I tr t := by
  induction h with
  | nil => exact h0
  | snoc _ hst ih => exact hs _ _ _ _ hst hG (ih (hback _ _ _ hst hG))

end Transition
