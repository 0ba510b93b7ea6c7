import Mathlib.Data.Finmap
import Mathlib.Algebra.Order.BigOperators.Group.Multiset
import Mathlib.Algebra.Order.Ring.Nat

/-!
# Storage maps

A storage map is a finite map: two maps with the same lookups are the same
map. `get`, `insert` and `remove` are the storage primitives. `sum` adds a
weight over all entries; `sum_insert` says what one write does to it, in the
additive form that needs no subtraction, and is what every accounting proof
rests on.
-/

structure StorageMap (K V : Type) where
  toFinmap : Finmap fun _ : K => V

namespace StorageMap

variable {K V : Type}

def empty : StorageMap K V := ⟨∅⟩

def sum (m : StorageMap K V) (f : K → V → Nat) : Nat :=
  (m.toFinmap.entries.map fun e => f e.1 e.2).sum

@[simp] theorem sum_empty (f : K → V → Nat) : (empty : StorageMap K V).sum f = 0 := rfl

theorem sum_add (m : StorageMap K V) (f g : K → V → Nat) :
    m.sum (fun k v => f k v + g k v) = m.sum f + m.sum g :=
  Multiset.sum_map_add

variable [DecidableEq K]

def get (m : StorageMap K V) (k : K) : Option V := m.toFinmap.lookup k

def containsKey (m : StorageMap K V) (k : K) : Bool := (m.get k).isSome

def insert (m : StorageMap K V) (k : K) (v : V) : StorageMap K V := ⟨m.toFinmap.insert k v⟩

def remove (m : StorageMap K V) (k : K) : StorageMap K V := ⟨m.toFinmap.erase k⟩

/-- The value at `k` of a map whose absent keys read as `d`. -/
def getD (m : StorageMap K V) (k : K) (d : V) : V := (m.get k).getD d

-- ---------------------------------------------------------------------------
-- Lookups
-- ---------------------------------------------------------------------------

theorem ext {m n : StorageMap K V} (h : ∀ k, m.get k = n.get k) : m = n := by
  cases m
  cases n
  congr 1
  exact Finmap.ext_lookup h

@[simp] theorem get_empty (k : K) : (empty : StorageMap K V).get k = none :=
  Finmap.lookup_empty k

theorem get_insert (m : StorageMap K V) (k k' : K) (v : V) :
    (m.insert k v).get k' = if k' = k then some v else m.get k' := by
  split
  · rename_i h
    subst h
    exact Finmap.lookup_insert m.toFinmap
  · rename_i h
    exact Finmap.lookup_insert_of_ne m.toFinmap h

@[simp] theorem get_insert_self (m : StorageMap K V) (k : K) (v : V) :
    (m.insert k v).get k = some v := by
  simp [get_insert]

theorem get_insert_ne (m : StorageMap K V) (v : V) {k k' : K} (h : k' ≠ k) :
    (m.insert k v).get k' = m.get k' := by
  simp [get_insert, h]

theorem insert_comm (m : StorageMap K V) {k k' : K} (h : k ≠ k') (v v' : V) :
    (m.insert k v).insert k' v' = (m.insert k' v').insert k v := by
  apply ext
  intro i
  simp only [get_insert]
  by_cases hi : i = k'
  · simp [hi, Ne.symm h]
  · simp [hi]

theorem get_remove (m : StorageMap K V) (k k' : K) :
    (m.remove k).get k' = if k' = k then none else m.get k' := by
  split
  · rename_i h
    subst h
    exact Finmap.lookup_erase k' m.toFinmap
  · rename_i h
    exact Finmap.lookup_erase_ne h

theorem getD_insert (m : StorageMap K V) (k k' : K) (v d : V) :
    (m.insert k v).getD k' d = if k' = k then v else m.getD k' d := by
  simp only [getD, get_insert]
  split <;> rfl

theorem getD_remove (m : StorageMap K V) (k k' : K) (d : V) :
    (m.remove k).getD k' d = if k' = k then d else m.getD k' d := by
  simp only [getD, get_remove]
  split <;> rfl

@[simp] theorem getD_empty (k : K) (d : V) : (empty : StorageMap K V).getD k d = d := by
  simp [getD]

theorem new_key_iff {m n : StorageMap K V} {k : K} (hself : (n.get k).isSome)
    (hother : ∀ k', k' ≠ k → n.get k' = m.get k') :
    (∃ k', m.get k' = none ∧ (n.get k').isSome) ↔ m.get k = none := by
  refine ⟨?_, fun h => ⟨k, h, hself⟩⟩
  rintro ⟨k', hnone, hsome⟩
  by_cases hk : k' = k
  · exact hk ▸ hnone
  · rw [hother k' hk, hnone] at hsome
    cases hsome

-- ---------------------------------------------------------------------------
-- Sums
-- ---------------------------------------------------------------------------

theorem mem_entries {m : StorageMap K V} {k : K} {v : V} :
    (⟨k, v⟩ : Sigma fun _ : K => V) ∈ m.toFinmap.entries ↔ m.get k = some v := by
  obtain ⟨m⟩ := m
  induction m using Finmap.induction_on with
  | H a => exact (AList.mem_lookup_iff (a := k) (b := v) (s := a)).symm

theorem forall_entries {m : StorageMap K V} {P : K → V → Prop} :
    (∀ e ∈ m.toFinmap.entries, P e.1 e.2) ↔ ∀ k v, m.get k = some v → P k v :=
  ⟨fun h k v hk => h ⟨k, v⟩ (mem_entries.mpr hk), fun h e he => h e.1 e.2 (mem_entries.mp he)⟩

instance {m : StorageMap K V} {P : K → V → Prop} [∀ k v, Decidable (P k v)] :
    Decidable (∀ k v, m.get k = some v → P k v) :=
  decidable_of_iff _ forall_entries

theorem forall_keys {m : StorageMap K V} {P : K → Prop} :
    (∀ e ∈ m.toFinmap.entries, P e.1) ↔ ∀ k, (m.get k).isSome → P k := by
  refine ⟨fun h k hk => ?_, fun h e he => h e.1 ?_⟩
  · obtain ⟨v, hv⟩ := Option.isSome_iff_exists.mp hk
    exact h ⟨k, v⟩ (mem_entries.mpr hv)
  · rw [mem_entries.mp he]
    rfl

theorem forall_getD {m : StorageMap K V} {P : V → Prop} {d : V} (hd : P d) :
    (∀ e ∈ m.toFinmap.entries, P e.2) ↔ ∀ k, P (m.getD k d) := by
  refine ⟨fun h k => ?_, fun h e he => ?_⟩
  · unfold getD
    cases hk : m.get k with
    | none => exact hd
    | some v => exact h ⟨k, v⟩ (mem_entries.mpr hk)
  · have hk := h e.1
    unfold getD at hk
    rwa [mem_entries.mp he] at hk

theorem sum_insert_of_none {m : StorageMap K V} (f : K → V → Nat) {k : K} (v : V)
    (h : m.get k = none) : (m.insert k v).sum f = m.sum f + f k v := by
  have hk : k ∉ m.toFinmap := Finmap.lookup_eq_none.mp h
  simp only [sum, insert]
  rw [Finmap.entries_insert_of_notMem hk, Multiset.map_cons, Multiset.sum_cons, Nat.add_comm]

theorem sum_remove (m : StorageMap K V) (f : K → V → Nat) (k : K) :
    (m.remove k).sum f + (m.get k).elim 0 (f k) = m.sum f := by
  cases h : m.get k with
  | none =>
    have hm : m.remove k = m := by
      apply ext
      intro k'
      by_cases hk : k' = k <;> simp [get_remove, hk, h]
    simp [hm]
  | some v =>
    have hrem : (m.remove k).get k = none := by simp [get_remove]
    have hm : m = (m.remove k).insert k v := by
      apply ext
      intro k'
      by_cases hk : k' = k <;> simp [get_insert, get_remove, hk, h]
    have hs := sum_insert_of_none f v hrem
    rw [← hm] at hs
    simp [hs]

/-- One write replaces the weight of what it overwrites by the new one. -/
theorem sum_insert (m : StorageMap K V) (f : K → V → Nat) (k : K) (v : V) :
    (m.insert k v).sum f + (m.get k).elim 0 (f k) = m.sum f + f k v := by
  -- Both maps lose the same entries when `k` is removed.
  have hrem : (m.insert k v).remove k = m.remove k := by
    apply ext
    intro k'
    by_cases hk : k' = k <;> simp [get_insert, get_remove, hk]
  have h1 := sum_remove (m.insert k v) f k
  have h2 := sum_remove m f k
  rw [hrem] at h1
  simp only [get_insert_self, Option.elim_some] at h1
  omega

theorem sum_congr {m : StorageMap K V} {f g : K → V → Nat}
    (h : ∀ k v, m.get k = some v → f k v = g k v) : m.sum f = m.sum g := by
  unfold sum
  congr 1
  exact Multiset.map_congr rfl fun e he => h e.1 e.2 (mem_entries.mp he)

theorem sum_le_sum {m : StorageMap K V} {f g : K → V → Nat}
    (h : ∀ k v, m.get k = some v → f k v ≤ g k v) : m.sum f ≤ m.sum g :=
  Multiset.sum_map_le_sum_map _ _ fun e he => h e.1 e.2 (mem_entries.mp he)

theorem sum_eq_zero {m : StorageMap K V} {f : K → V → Nat}
    (h : ∀ k v, m.get k = some v → f k v = 0) : m.sum f = 0 := by
  rw [sum_congr (g := fun _ _ => 0) h]
  simp [sum]

theorem sum_congr_except {m : StorageMap K V} {f g : K → V → Nat} (k : K)
    (h : ∀ k' v, k' ≠ k → m.get k' = some v → f k' v = g k' v) :
    m.sum f + (m.get k).elim 0 (g k) = m.sum g + (m.get k).elim 0 (f k) := by
  have hrest : (m.remove k).sum f = (m.remove k).sum g := by
    apply sum_congr
    intro k' v hk'
    rw [get_remove] at hk'
    split at hk'
    · cases hk'
    · rename_i hne
      exact h k' v hne hk'
  have hf := sum_remove m f k
  have hg := sum_remove m g k
  omega

theorem sum_keys_le (m : StorageMap K V) (f : K → V → Nat) {ks : List K} (hks : ks.Nodup) :
    (ks.map fun k => (m.get k).elim 0 (f k)).sum ≤ m.sum f := by
  induction ks generalizing m with
  | nil => simp
  | cons k ks ih =>
    obtain ⟨hk, hks⟩ := List.nodup_cons.mp hks
    have hrest : (ks.map fun k => (m.get k).elim 0 (f k)) =
        ks.map fun k' => ((m.remove k).get k').elim 0 (f k') := by
      apply List.map_congr_left
      intro k' hk'
      have hne : k' ≠ k := fun h => hk (h ▸ hk')
      simp [get_remove, hne]
    have hle := ih (m.remove k) hks
    have hrem := sum_remove m f k
    simp only [List.map_cons, List.sum_cons, hrest]
    omega

/-- A map is built up by writing keys that are not in use. -/
theorem induction {P : StorageMap K V → Prop} (empty : P .empty)
    (insert : ∀ m k v, get m k = none → P m → P (m.insert k v)) (m : StorageMap K V) : P m := by
  obtain ⟨m⟩ := m
  induction m using Finmap.induction_on with
  | H a =>
    induction a using AList.insertRec with
    | H0 => exact empty
    | IH k v l hk ih => exact insert ⟨l.toFinmap⟩ k v (AList.lookup_eq_none.mpr hk) ih

theorem sum_le_of_get {m n : StorageMap K V} {f g : K → V → Nat}
    (h : ∀ k, (m.get k).elim 0 (f k) ≤ (n.get k).elim 0 (g k)) : m.sum f ≤ n.sum g := by
  induction m using StorageMap.induction generalizing n with
  | empty => exact Nat.zero_le _
  | insert m k v hk ih =>
    have hrest : m.sum f ≤ (n.remove k).sum g := by
      apply ih
      intro k'
      have hk' := h k'
      by_cases heq : k' = k
      · simp [heq, hk]
      · simpa [get_insert, get_remove, heq] using hk'
    have hself : f k v ≤ (n.get k).elim 0 (g k) := by simpa using h k
    have hn := sum_remove n g k
    have hm := sum_insert_of_none f v hk
    omega

theorem sum_congr_get {m n : StorageMap K V} {f g : K → V → Nat}
    (h : ∀ k, (m.get k).elim 0 (f k) = (n.get k).elim 0 (g k)) : m.sum f = n.sum g :=
  Nat.le_antisymm (sum_le_of_get fun k => Nat.le_of_eq (h k))
    (sum_le_of_get fun k => Nat.le_of_eq (h k).symm)

theorem le_sum {m : StorageMap K V} (f : K → V → Nat) {k : K} {v : V} (h : m.get k = some v) :
    f k v ≤ m.sum f := by
  have hs := sum_remove m f k
  simp only [h, Option.elim_some] at hs
  omega

end StorageMap
