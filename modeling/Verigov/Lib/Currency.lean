import Verigov.Lib.StorageMap

/-!
# A currency with named holds

`Currency` is the interface a pallet sees of the token it holds funds in: part
of an account's balance can be put on hold under a reason, released again or
burned. What callers rely on is stated operation by operation, so that a result
names exactly the laws it needs.

`Ledger` is one currency obeying all of them: free and held amounts in two
maps, with the total bounded by the largest representable balance.
-/

structure Currency (Reason Account Err : Type) where
  Ledger : Type
  balanceOnHold : Reason → Account → Ledger → Nat
  totalIssuance : Ledger → Nat
  hold : Reason → Account → Nat → Ledger → Except Err Ledger
  /-- Best effort; returns what was released. -/
  release : Reason → Account → Nat → Ledger → Except Err (Nat × Ledger)
  /-- Best effort and forced; returns what was burned. -/
  burnHeld : Reason → Account → Nat → Ledger → Except Err (Nat × Ledger)

namespace Currency

variable {Reason Account Err : Type} [DecidableEq Reason] [DecidableEq Account]
variable (cur : Currency Reason Account Err)

def HoldExact : Prop :=
  ∀ reason who n b b', cur.hold reason who n b = .ok b' → ∀ r a,
    cur.balanceOnHold r a b' =
      cur.balanceOnHold r a b + if r = reason ∧ a = who then n else 0

/-- A release moves what it can of the amount out of the one hold it names, and
does not fail when the hold covers the amount. -/
structure ReleaseExact : Prop where
  moves : ∀ reason who n b m b', cur.release reason who n b = .ok (m, b') →
    m = min n (cur.balanceOnHold reason who b) ∧ ∀ r a,
      cur.balanceOnHold r a b' =
        cur.balanceOnHold r a b - if r = reason ∧ a = who then m else 0
  succeeds : ∀ reason who n b, n ≤ cur.balanceOnHold reason who b →
    ∃ m b', cur.release reason who n b = .ok (m, b')

def BurnAtMost : Prop :=
  ∀ reason who n b m b', cur.burnHeld reason who n b = .ok (m, b') → m ≤ n

def BurnKeepsReasons : Prop :=
  ∀ reason who n b m b', cur.burnHeld reason who n b = .ok (m, b') →
    ∀ r a, r ≠ reason → cur.balanceOnHold r a b' = cur.balanceOnHold r a b

/-- A burn removes what it can of the amount from the one hold it names. -/
def BurnExact : Prop :=
  ∀ reason who n b m b', cur.burnHeld reason who n b = .ok (m, b') →
    m = min n (cur.balanceOnHold reason who b) ∧ ∀ r a,
      cur.balanceOnHold r a b' =
        cur.balanceOnHold r a b - if r = reason ∧ a = who then m else 0

def BurnSucceeds : Prop :=
  ∀ reason who n b, n ≤ cur.balanceOnHold reason who b →
    ∃ m b', cur.burnHeld reason who n b = .ok (m, b')

def ReleaseKeepsReasons : Prop :=
  ∀ reason who n b m b', cur.release reason who n b = .ok (m, b') →
    ∀ r a, r ≠ reason → cur.balanceOnHold r a b' = cur.balanceOnHold r a b

structure IssuanceExact : Prop where
  hold : ∀ reason who n b b', cur.hold reason who n b = .ok b' →
    cur.totalIssuance b' = cur.totalIssuance b
  release : ∀ reason who n b m b', cur.release reason who n b = .ok (m, b') →
    cur.totalIssuance b' = cur.totalIssuance b
  burn : ∀ reason who n b m b', cur.burnHeld reason who n b = .ok (m, b') →
    cur.totalIssuance b' + m = cur.totalIssuance b

/-- What distinct accounts hold under a reason is part of the issuance, which
is a representable balance. -/
def Backed (top : Nat) : Prop :=
  ∀ b, cur.totalIssuance b ≤ top ∧ ∀ reason (accounts : List Account), accounts.Nodup →
    (accounts.map fun a => cur.balanceOnHold reason a b).sum ≤ cur.totalIssuance b

/-- A hold reads and writes the balance of its own account: holds on two accounts
do not decide about each other, and can be placed in either order. -/
structure HoldsIndependent : Prop where
  can_iff : ∀ reason who who' n n' b b', who ≠ who' → cur.hold reason who n b = .ok b' →
    ((∃ c, cur.hold reason who' n' b' = .ok c) ↔ ∃ c, cur.hold reason who' n' b = .ok c)
  commutes : ∀ reason who who' n n' b b' b'', who ≠ who' → cur.hold reason who n b = .ok b' →
    cur.hold reason who' n' b' = .ok b'' →
    ∃ c, cur.hold reason who' n' b = .ok c ∧ cur.hold reason who n c = .ok b''

def holdAll (reason : Reason) : List (Account × Nat) → cur.Ledger → Except Err cur.Ledger
  | [], b => .ok b
  | (who, n) :: xs, b => cur.hold reason who n b >>= holdAll reason xs

variable {cur}

omit [DecidableEq Reason] [DecidableEq Account] in
theorem holdAll_cons {xs : List (Account × Nat)} :
    cur.holdAll reason ((who, n) :: xs) b = .ok b' ↔
      ∃ c, cur.hold reason who n b = .ok c ∧ cur.holdAll reason xs c = .ok b' := by
  cases h : cur.hold reason who n b with
  | error e => simp [holdAll, h, bind, Except.bind]
  | ok c => simp [holdAll, h, bind, Except.bind]

omit [DecidableEq Reason] [DecidableEq Account] in
/-- Holds on distinct accounts can be placed together iff each of them can. -/
theorem HoldsIndependent.holdAll_iff (h : cur.HoldsIndependent) {xs : List (Account × Nat)}
    (hnd : (xs.map Prod.fst).Nodup) :
    (∃ b', cur.holdAll reason xs b = .ok b') ↔
      ∀ x ∈ xs, ∃ c, cur.hold reason x.1 x.2 b = .ok c := by
  induction xs generalizing b with
  | nil => simp [holdAll]
  | cons x xs ih =>
    obtain ⟨who, n⟩ := x
    simp only [List.map_cons, List.nodup_cons] at hnd
    have hne : ∀ x ∈ xs, who ≠ x.1 := by
      rintro x hx rfl
      exact hnd.1 (List.mem_map_of_mem hx)
    simp only [holdAll_cons, List.forall_mem_cons]
    constructor
    · rintro ⟨b', c, hc, hxs⟩
      refine ⟨⟨c, hc⟩, fun x hx => ?_⟩
      exact (h.can_iff _ _ _ _ _ _ _ (hne x hx) hc).mp ((ih hnd.2).mp ⟨b', hxs⟩ x hx)
    · rintro ⟨⟨c, hc⟩, hall⟩
      obtain ⟨b', hb'⟩ := (ih (b := c) hnd.2).mpr fun x hx =>
        (h.can_iff _ _ _ _ _ _ _ (hne x hx) hc).mpr (hall x hx)
      exact ⟨b', c, hc, hb'⟩

omit [DecidableEq Reason] [DecidableEq Account] in
theorem HoldsIndependent.holdAll_perm (h : cur.HoldsIndependent) {xs ys : List (Account × Nat)}
    (hperm : xs.Perm ys) (hnd : (xs.map Prod.fst).Nodup)
    (hxs : cur.holdAll reason xs b = .ok b') : cur.holdAll reason ys b = .ok b' := by
  induction hperm generalizing b with
  | nil => exact hxs
  | cons x _ ih =>
    obtain ⟨who, n⟩ := x
    simp only [List.map_cons, List.nodup_cons] at hnd
    obtain ⟨c, hc, hrest⟩ := holdAll_cons.mp hxs
    exact holdAll_cons.mpr ⟨c, hc, ih hnd.2 hrest⟩
  | swap x y _ =>
    obtain ⟨who, n⟩ := x
    obtain ⟨who', n'⟩ := y
    simp only [List.map_cons, List.nodup_cons, List.mem_cons, not_or] at hnd
    obtain ⟨c, hc, hrest⟩ := holdAll_cons.mp hxs
    obtain ⟨d, hd, hrest⟩ := holdAll_cons.mp hrest
    obtain ⟨c', hc', hd'⟩ := h.commutes _ _ _ _ _ _ _ _ hnd.1.1 hc hd
    exact holdAll_cons.mpr ⟨c', hc', holdAll_cons.mpr ⟨d, hd', hrest⟩⟩
  | trans hperm _ ih1 ih2 =>
    exact ih2 ((hperm.map Prod.fst).nodup_iff.mp hnd) (ih1 hnd hxs)

omit [DecidableEq Reason] in
theorem sum_eq_zero_of_unlisted {xs : List (Account × Nat)} (h : ∀ x ∈ xs, x.1 ≠ a) :
    (xs.map fun x => if x.1 = a then x.2 else 0).sum = 0 := by
  apply List.sum_eq_zero
  intro n hn
  obtain ⟨x, hx, rfl⟩ := List.mem_map.mp hn
  exact if_neg (h x hx)

omit [DecidableEq Reason] in
theorem sum_eq_of_listed {xs : List (Account × Nat)} (hnd : (xs.map Prod.fst).Nodup)
    (hx : (a, n) ∈ xs) : (xs.map fun x => if x.1 = a then x.2 else 0).sum = n := by
  induction xs with
  | nil => cases hx
  | cons x xs ih =>
    simp only [List.map_cons, List.nodup_cons] at hnd
    rw [List.map_cons, List.sum_cons]
    rcases List.mem_cons.mp hx with rfl | hx
    · have hrest : ∀ y ∈ xs, y.1 ≠ a := by
        rintro y hy rfl
        exact hnd.1 (List.mem_map.mpr ⟨y, hy, rfl⟩)
      rw [if_pos rfl, sum_eq_zero_of_unlisted hrest, Nat.add_zero]
    · have hhead : x.1 ≠ a := by
        rintro rfl
        exact hnd.1 (List.mem_map.mpr ⟨_, hx, rfl⟩)
      rw [if_neg hhead, ih hnd.2 hx, Nat.zero_add]

theorem HoldExact.holdAll (h : cur.HoldExact) {xs : List (Account × Nat)}
    (hxs : cur.holdAll reason xs b = .ok b') (r : Reason) (a : Account) :
    cur.balanceOnHold r a b' = cur.balanceOnHold r a b +
      if r = reason then (xs.map fun x => if x.1 = a then x.2 else 0).sum else 0 := by
  induction xs generalizing b with
  | nil =>
    cases hxs
    simp
  | cons x xs ih =>
    obtain ⟨who, n⟩ := x
    obtain ⟨c, hc, hrest⟩ := holdAll_cons.mp hxs
    rw [ih hrest, h _ _ _ _ _ hc r a, Nat.add_assoc]
    by_cases hr : r = reason
    · simp [hr, eq_comm]
    · simp [hr]

theorem ReleaseExact.whole (h : cur.ReleaseExact) (hn : n ≤ cur.balanceOnHold reason who b) :
    ∃ b', cur.release reason who n b = .ok (n, b') ∧ ∀ r a,
      cur.balanceOnHold r a b' =
        cur.balanceOnHold r a b - if r = reason ∧ a = who then n else 0 := by
  obtain ⟨m, b', hr⟩ := h.succeeds reason who n b hn
  obtain ⟨hm, hheld⟩ := h.moves _ _ _ _ _ _ hr
  have hmn : m = n := by omega
  subst hmn
  exact ⟨b', hr, hheld⟩

theorem ReleaseExact.eq_of_le (h : cur.ReleaseExact) (hn : n ≤ cur.balanceOnHold reason who b)
    (hr : cur.release reason who n b = .ok (m, b')) : m = n ∧ ∀ a,
      cur.balanceOnHold reason a b' + (if a = who then n else 0) =
        cur.balanceOnHold reason a b := by
  obtain ⟨hm, hheld⟩ := h.moves _ _ _ _ _ _ hr
  have hmn : m = n := by omega
  subst hmn
  refine ⟨rfl, fun a => ?_⟩
  have ha := hheld reason a
  by_cases hw : a = who
  · subst hw
    simp only [and_self, if_true] at ha ⊢
    omega
  · simp only [hw, and_false, if_false] at ha ⊢
    omega

end Currency

-- ---------------------------------------------------------------------------
-- A ledger
-- ---------------------------------------------------------------------------

structure Ledger (Reason Account : Type) (top : Nat) where
  free : StorageMap Account Nat
  held : StorageMap (Reason × Account) Nat
  fits : free.sum (fun _ n => n) + held.sum (fun _ n => n) ≤ top

namespace Ledger

variable {Reason Account Err : Type} [DecidableEq Reason] [DecidableEq Account] {top : Nat}

def freeOf (b : Ledger Reason Account top) (a : Account) : Nat := b.free.getD a 0

def heldOf (b : Ledger Reason Account top) (r : Reason) (a : Account) : Nat := b.held.getD (r, a) 0

theorem sum_insert_getD {K : Type} [DecidableEq K] (m : StorageMap K Nat) (k : K) (n : Nat) :
    (m.insert k n).sum (fun _ n => n) + m.getD k 0 = m.sum (fun _ n => n) + n := by
  have h := m.sum_insert (fun _ n => n) k n
  unfold StorageMap.getD
  cases hk : m.get k with
  | none => simpa [hk] using h
  | some _ => simpa [hk] using h

def move (b : Ledger Reason Account top) (r : Reason) (a : Account) (free held : Nat)
    (h : free + held ≤ b.freeOf a + b.heldOf r a) : Ledger Reason Account top where
  free := b.free.insert a free
  held := b.held.insert (r, a) held
  fits := by
    have h1 := sum_insert_getD b.free a free
    have h2 := sum_insert_getD b.held (r, a) held
    have h3 := b.fits
    unfold freeOf heldOf at h
    omega

theorem heldOf_move (b : Ledger Reason Account top) {r : Reason} {a : Account} {x y : Nat}
    (h : x + y ≤ b.freeOf a + b.heldOf r a) (r' : Reason) (a' : Account) :
    (b.move r a x y h).heldOf r' a' = if r' = r ∧ a' = a then y else b.heldOf r' a' := by
  simp [move, heldOf, StorageMap.getD_insert]

/-- An account exists while it has `deposit` free, and holding leaves it that much. -/
def hold (deposit : Nat) (err : Err) (r : Reason) (a : Account) (n : Nat)
    (b : Ledger Reason Account top) : Except Err (Ledger Reason Account top) :=
  if h : n + deposit ≤ b.freeOf a then
    .ok (b.move r a (b.freeOf a - n) (b.heldOf r a + n) (by omega))
  else .error err

def release (r : Reason) (a : Account) (n : Nat) (b : Ledger Reason Account top) :
    Nat × Ledger Reason Account top :=
  (min n (b.heldOf r a), b.move r a (b.freeOf a + min n (b.heldOf r a))
    (b.heldOf r a - min n (b.heldOf r a)) (by omega))

def burnHeld (r : Reason) (a : Account) (n : Nat) (b : Ledger Reason Account top) :
    Nat × Ledger Reason Account top :=
  (min n (b.heldOf r a), b.move r a (b.freeOf a) (b.heldOf r a - min n (b.heldOf r a)) (by omega))

variable {deposit : Nat} {err : Err} {b b' : Ledger Reason Account top}

theorem heldOf_hold (h : hold deposit err reason who n b = .ok b') (r : Reason) (a : Account) :
    b'.heldOf r a = b.heldOf r a + if r = reason ∧ a = who then n else 0 := by
  unfold hold at h
  split at h
  · cases h
    rw [heldOf_move]
    split <;> simp_all
  · cases h

theorem heldOf_release (reason r : Reason) (who a : Account) (n : Nat) :
    (b.release reason who n).2.heldOf r a =
      b.heldOf r a - if r = reason ∧ a = who then (b.release reason who n).1 else 0 := by
  simp only [release]
  rw [heldOf_move]
  split <;> simp_all

theorem heldOf_burnHeld (reason r : Reason) (who a : Account) (n : Nat) :
    (b.burnHeld reason who n).2.heldOf r a =
      b.heldOf r a - if r = reason ∧ a = who then (b.burnHeld reason who n).1 else 0 := by
  simp only [burnHeld]
  rw [heldOf_move]
  split <;> simp_all

theorem sum_heldOf_le (b : Ledger Reason Account top) (reason : Reason) {accounts : List Account}
    (hnd : accounts.Nodup) :
    (accounts.map fun a => b.heldOf reason a).sum ≤ b.held.sum (fun _ n => n) := by
  have hkeys : (accounts.map fun a => (reason, a)).Nodup :=
    hnd.map fun _ _ h => congrArg Prod.snd h
  have hsum := b.held.sum_keys_le (fun _ n => n) hkeys
  rw [List.map_map] at hsum
  have heq : ∀ a, b.heldOf reason a = (b.held.get (reason, a)).elim 0 (fun n => n) := by
    intro a
    unfold heldOf StorageMap.getD
    cases b.held.get (reason, a) <;> rfl
  simp only [heq]
  exact hsum

variable (Reason Account top) in
def currency (deposit : Nat) (err : Err) : Currency Reason Account Err where
  Ledger := Ledger Reason Account top
  balanceOnHold r a b := b.heldOf r a
  totalIssuance b := b.free.sum (fun _ n => n) + b.held.sum (fun _ n => n)
  hold := hold deposit err
  release r a n b := .ok (b.release r a n)
  burnHeld r a n b := .ok (b.burnHeld r a n)

theorem holdExact : (currency Reason Account top deposit err).HoldExact :=
  fun _ _ _ _ _ h => heldOf_hold h

theorem freeOf_move (b : Ledger Reason Account top) {r : Reason} {a : Account} {x y : Nat}
    (h : x + y ≤ b.freeOf a + b.heldOf r a) (a' : Account) :
    (b.move r a x y h).freeOf a' = if a' = a then x else b.freeOf a' := by
  simp [move, freeOf, StorageMap.getD_insert]

theorem hold_eq_ok : hold deposit err r a n b = .ok b' ↔
    ∃ h : n + deposit ≤ b.freeOf a,
      b.move r a (b.freeOf a - n) (b.heldOf r a + n) (by omega) = b' := by
  unfold hold
  split <;> simp_all

theorem freeOf_le_release (r : Reason) (who a : Account) (n : Nat) :
    b.freeOf a ≤ (b.release r who n).2.freeOf a := by
  simp only [release, freeOf_move]
  split
  · rename_i ha
    rw [ha]
    exact Nat.le_add_right _ _
  · exact Nat.le_refl _

theorem freeOf_burnHeld (r : Reason) (who a : Account) (n : Nat) :
    (b.burnHeld r who n).2.freeOf a = b.freeOf a := by
  simp only [burnHeld, freeOf_move]
  split
  · rename_i ha
    rw [ha]
  · rfl

theorem hold_zero (h : deposit ≤ b.freeOf a) :
    ∃ b', hold deposit err r a 0 b = .ok b' ∧ b'.freeOf a = b.freeOf a := by
  refine ⟨_, hold_eq_ok.mpr ⟨by omega, rfl⟩, ?_⟩
  rw [freeOf_move, if_pos rfl, Nat.sub_zero]

theorem move_comm {a a' : Account} (hne : a ≠ a') {x y x' y' : Nat}
    (h : x + y ≤ b.freeOf a + b.heldOf r a)
    (h' : x' + y' ≤ (b.move r a x y h).freeOf a' + (b.move r a x y h).heldOf r a')
    (k : x' + y' ≤ b.freeOf a' + b.heldOf r a')
    (k' : x + y ≤ (b.move r a' x' y' k).freeOf a + (b.move r a' x' y' k).heldOf r a) :
    (b.move r a x y h).move r a' x' y' h' = (b.move r a' x' y' k).move r a x y k' := by
  simp only [move, mk.injEq]
  exact ⟨StorageMap.insert_comm _ hne _ _, StorageMap.insert_comm _ (by simp [hne]) _ _⟩

theorem hold_can_iff (hne : a ≠ a') (h : hold deposit err r a n b = .ok b') :
    (∃ c, hold deposit err r a' n' b' = .ok c) ↔ ∃ c, hold deposit err r a' n' b = .ok c := by
  obtain ⟨hle, rfl⟩ := hold_eq_ok.mp h
  simp only [hold_eq_ok, freeOf_move, if_neg (Ne.symm hne)]
  constructor
  · rintro ⟨_, hle', -⟩
    exact ⟨_, hle', rfl⟩
  · rintro ⟨_, hle', -⟩
    exact ⟨_, hle', rfl⟩

theorem hold_comm {b'' : Ledger Reason Account top} (hne : a ≠ a')
    (h : hold deposit err r a n b = .ok b') (h' : hold deposit err r a' n' b' = .ok b'') :
    ∃ c, hold deposit err r a' n' b = .ok c ∧ hold deposit err r a n c = .ok b'' := by
  obtain ⟨hle, rfl⟩ := hold_eq_ok.mp h
  obtain ⟨hle', rfl⟩ := hold_eq_ok.mp h'
  rw [freeOf_move, if_neg (Ne.symm hne)] at hle'
  refine ⟨_, hold_eq_ok.mpr ⟨hle', rfl⟩, hold_eq_ok.mpr ⟨?_, ?_⟩⟩
  · rw [freeOf_move, if_neg hne]
    exact hle
  · simp only [freeOf_move, heldOf_move, hne, Ne.symm hne, and_false, if_false]
    exact (move_comm hne ..).symm

theorem holdsIndependent : (currency Reason Account top deposit err).HoldsIndependent where
  can_iff _ _ _ _ _ _ _ hne h := hold_can_iff hne h
  commutes _ _ _ _ _ _ _ _ hne h h' := hold_comm hne h h'

theorem releaseExact : (currency Reason Account top deposit err).ReleaseExact where
  moves _ who n b _ _ h := by
    cases h
    exact ⟨rfl, fun r a => heldOf_release _ r who a n⟩
  succeeds _ _ _ _ _ := ⟨_, _, rfl⟩

theorem burnAtMost : (currency Reason Account top deposit err).BurnAtMost := by
  intro reason who n b m b' h
  cases h
  exact Nat.min_le_left _ _

theorem burnExact : (currency Reason Account top deposit err).BurnExact := by
  intro reason who n b m b' h
  cases h
  exact ⟨rfl, fun r a => heldOf_burnHeld reason r who a n⟩

theorem burnSucceeds : (currency Reason Account top deposit err).BurnSucceeds :=
  fun _ _ _ _ _ => ⟨_, _, rfl⟩

theorem releaseKeepsReasons : (currency Reason Account top deposit err).ReleaseKeepsReasons := by
  intro reason who n b m b' h r a hr
  cases h
  have hb := heldOf_release (b := b) reason r who a n
  simp only [hr, false_and, if_false, Nat.sub_zero] at hb
  exact hb

theorem sum_move (b : Ledger Reason Account top) {r : Reason} {a : Account} {x y : Nat}
    (h : x + y ≤ b.freeOf a + b.heldOf r a) :
    (b.move r a x y h).free.sum (fun _ n => n) + (b.move r a x y h).held.sum (fun _ n => n) +
        (b.freeOf a + b.heldOf r a) =
      b.free.sum (fun _ n => n) + b.held.sum (fun _ n => n) + (x + y) := by
  have hfree := sum_insert_getD b.free a x
  have hheld := sum_insert_getD b.held (r, a) y
  unfold freeOf heldOf
  simp only [move]
  omega

theorem issuanceExact : (currency Reason Account top deposit err).IssuanceExact where
  hold r a n b b' h := by
    simp only [currency, hold] at h ⊢
    split at h
    · rename_i hn
      cases h
      have hsum := sum_move b (r := r) (a := a) (x := b.freeOf a - n) (y := b.heldOf r a + n)
        (by omega)
      omega
    · cases h
  release r a n b m b' h := by
    cases h
    have hsum := sum_move b (r := r) (a := a) (x := b.freeOf a + min n (b.heldOf r a))
      (y := b.heldOf r a - min n (b.heldOf r a)) (by omega)
    simp only [currency, release]
    omega
  burn r a n b m b' h := by
    cases h
    have hsum := sum_move b (r := r) (a := a) (x := b.freeOf a)
      (y := b.heldOf r a - min n (b.heldOf r a)) (by omega)
    simp only [currency, burnHeld]
    omega

theorem burnKeepsReasons : (currency Reason Account top deposit err).BurnKeepsReasons := by
  intro reason who n b m b' h r a hr
  cases h
  have hb := heldOf_burnHeld (b := b) reason r who a n
  simp only [hr, false_and, if_false, Nat.sub_zero] at hb
  exact hb

theorem backed : (currency Reason Account top deposit err).Backed top :=
  fun b => ⟨b.fits, fun reason _ hnd =>
    Nat.le_trans (sum_heldOf_le b reason hnd) (Nat.le_add_left _ _)⟩

end Ledger
