import Verigov.Registry

/-!
# What `project_genesis` accepts

The stakeholder loop checks for duplicates through the storage its earlier
iterations have written, places the holds one at a time and adds up the role
stakes as it goes. `registerAll_iff` reads the whole loop off the list: which
lists it accepts and the storage it leaves, in which the iterations are seen to
be independent of each other.
-/

namespace Verigov

open State Transition

variable {T : Config} {s s' t : State T} {p : Nat} {xs ys : List (StakeholderInit T.AccountId)}

def listedStake (xs : List (StakeholderInit AccountId)) (r : Role) : Nat :=
  (xs.map fun x => if x.role = r then x.stake else 0).sum

def stakesOf (xs : List (StakeholderInit AccountId)) : List (AccountId × Nat) :=
  xs.map fun x => (x.account, x.stake)

theorem stakesOf_accounts (xs : List (StakeholderInit AccountId)) :
    (stakesOf xs).map Prod.fst = xs.map StakeholderInit.account := by
  simp [stakesOf]

-- ---------------------------------------------------------------------------
-- The storage the loop leaves
-- ---------------------------------------------------------------------------

def enrol (p : Nat) (m : StorageMap (Nat × T.AccountId) Stakeholder)
    (x : StakeholderInit T.AccountId) : StorageMap (Nat × T.AccountId) Stakeholder :=
  m.insert (p, x.account) ⟨x.role, x.stake⟩

def addStake (top p : Nat) (m : StorageMap (Nat × Role) Nat) (x : StakeholderInit AccountId) :
    StorageMap (Nat × Role) Nat :=
  m.insert (p, x.role) (saturatingAdd top (m.getD (p, x.role) 0) x.stake)

def withRegistered (p : Nat) (xs : List (StakeholderInit T.AccountId))
    (balances : T.currency.Ledger) (s : State T) : State T :=
  { s with
    balances
    stakeholders := xs.foldl (enrol p) s.stakeholders
    roleStake := xs.foldl (addStake T.maxBalance p) s.roleStake
    events := if s.blockNumber = 0 then s.events else
      s.events ++ xs.map fun x => .stakeholderRegistered p x.account x.role x.stake }

theorem registerStakeholder_iff : registerStakeholder p s x = .ok s' ↔
    s.stakeholders.get (p, x.account) = none ∧
      ∃ b, T.currency.hold .stake x.account x.stake s.balances = .ok b ∧
        s' = withRegistered p [x] b s := by
  have hone : ∀ b, withRegistered p [x] b s =
      depositEvent (.stakeholderRegistered p x.account x.role x.stake)
        { s with
          balances := b
          stakeholders := s.stakeholders.insert (p, x.account) ⟨x.role, x.stake⟩
          roleStake := s.roleStake.insert (p, x.role)
            (saturatingAdd T.maxBalance (s.roleStakeOf p x.role) x.stake) } := fun _ => rfl
  constructor
  · intro h
    obtain ⟨b, hnone, hhold, rfl⟩ := registerStakeholder_ok h
    exact ⟨hnone, b, hhold, (hone b).symm⟩
  · rintro ⟨hnone, b, hhold, rfl⟩
    rw [hone]
    simp [registerStakeholder, StorageMap.containsKey, hnone, hhold, ensure, bind, Except.bind,
      pure, Except.pure]

theorem withRegistered_cons (b b' : T.currency.Ledger) (x : StakeholderInit T.AccountId) :
    withRegistered p xs b' (withRegistered p [x] b s) = withRegistered p (x :: xs) b' s := by
  simp only [withRegistered, List.foldl_cons, List.foldl_nil, List.map_cons, List.map_nil]
  congr 1
  split <;> simp

/-- The loop accepts a list of distinct accounts, none of them registered yet, on
which all the holds can be placed. -/
theorem registerAll_iff : xs.foldlM (registerStakeholder p) s = .ok s' ↔
    (xs.map StakeholderInit.account).Nodup ∧
      (∀ x ∈ xs, s.stakeholders.get (p, x.account) = none) ∧
      ∃ b, T.currency.holdAll .stake (stakesOf xs) s.balances = .ok b ∧
        s' = withRegistered p xs b s := by
  induction xs generalizing s with
  | nil =>
    simp only [List.foldlM_nil, pure_eq_ok, List.map_nil, List.nodup_nil, List.not_mem_nil,
      stakesOf, Currency.holdAll, withRegistered, List.foldl_nil, List.append_nil, ite_self]
    simp [eq_comm]
  | cons x xs ih =>
    have hgets : ∀ b y, (withRegistered p [x] b s).stakeholders.get (p, y) =
        if y = x.account then some ⟨x.role, x.stake⟩ else s.stakeholders.get (p, y) := by
      intro b y
      refine (StorageMap.get_insert ..).trans ?_
      simp
    simp only [List.foldlM_cons, bind_eq_ok, registerStakeholder_iff, List.map_cons,
      List.nodup_cons, List.forall_mem_cons, stakesOf, Currency.holdAll_cons]
    constructor
    · rintro ⟨m, ⟨hnone, b, hhold, rfl⟩, hrest⟩
      obtain ⟨hnd, hnew, b', hb', rfl⟩ := ih.mp hrest
      have hout : ∀ y ∈ xs, y.account ≠ x.account := by
        intro y hy heq
        have hget := hnew y hy
        rw [hgets, if_pos heq] at hget
        cases hget
      refine ⟨⟨?_, hnd⟩, ⟨hnone, fun y hy => ?_⟩, b', ⟨b, hhold, hb'⟩, withRegistered_cons ..⟩
      · intro hmem
        obtain ⟨y, hy, heq⟩ := List.mem_map.mp hmem
        exact hout y hy heq
      · have hget := hnew y hy
        rwa [hgets, if_neg (hout y hy)] at hget
    · rintro ⟨⟨hout, hnd⟩, ⟨hnone, hnew⟩, b', ⟨b, hhold, hb'⟩, rfl⟩
      refine ⟨_, ⟨hnone, b, hhold, rfl⟩, ih.mpr ⟨hnd, fun y hy => ?_, b', hb', ?_⟩⟩
      · rw [hgets, if_neg]
        · exact hnew y hy
        · intro heq
          exact hout (heq ▸ List.mem_map_of_mem hy)
      · exact (withRegistered_cons ..).symm

-- ---------------------------------------------------------------------------
-- Reading it back
-- ---------------------------------------------------------------------------

theorem enrol_get_other (m : StorageMap (Nat × T.AccountId) Stakeholder) (k : Nat × T.AccountId)
    (h : ∀ x ∈ xs, k ≠ (p, x.account)) : (xs.foldl (enrol p) m).get k = m.get k := by
  induction xs generalizing m with
  | nil => rfl
  | cons x xs ih =>
    simp only [List.forall_mem_cons] at h
    rw [List.foldl_cons, ih _ h.2, enrol, StorageMap.get_insert_ne _ _ h.1]

theorem enrol_get (m : StorageMap (Nat × T.AccountId) Stakeholder)
    (hnd : (xs.map StakeholderInit.account).Nodup) (hx : x ∈ xs) :
    (xs.foldl (enrol p) m).get (p, x.account) = some ⟨x.role, x.stake⟩ := by
  induction xs generalizing m with
  | nil => cases hx
  | cons y xs ih =>
    simp only [List.map_cons, List.nodup_cons] at hnd
    rw [List.foldl_cons]
    rcases List.mem_cons.mp hx with rfl | hx
    · rw [enrol_get_other, enrol, StorageMap.get_insert_self]
      intro z hz heq
      simp only [Prod.mk.injEq, true_and] at heq
      exact hnd.1 (heq ▸ List.mem_map_of_mem hz)
    · exact ih _ hnd.2 hx

theorem saturatingAdd_assoc (top a b c : Nat) :
    saturatingAdd top (saturatingAdd top a b) c = saturatingAdd top a (b + c) := by
  unfold saturatingAdd
  omega

theorem addStake_getD_other (top : Nat) (m : StorageMap (Nat × Role) Nat) (hq : q ≠ p) (r : Role) :
    (xs.foldl (addStake top p) m).getD (q, r) 0 = m.getD (q, r) 0 := by
  induction xs generalizing m with
  | nil => rfl
  | cons x xs ih =>
    rw [List.foldl_cons, ih, addStake, StorageMap.getD_insert, if_neg]
    simp [hq]

theorem addStake_getD (top : Nat) (m : StorageMap (Nat × Role) Nat) (r : Role)
    (hm : m.getD (p, r) 0 ≤ top) : (xs.foldl (addStake top p) m).getD (p, r) 0 =
      saturatingAdd top (m.getD (p, r) 0) (listedStake xs r) := by
  induction xs generalizing m with
  | nil => exact (Nat.min_eq_left hm).symm
  | cons x xs ih =>
    have hget : (addStake top p m x).getD (p, r) 0 =
        if x.role = r then saturatingAdd top (m.getD (p, r) 0) x.stake else m.getD (p, r) 0 := by
      rw [addStake, StorageMap.getD_insert]
      by_cases hr : x.role = r
      · simp [hr]
      · simp [hr, Ne.symm hr]
    rw [List.foldl_cons, ih]
    · rw [hget, listedStake, listedStake, List.map_cons, List.sum_cons]
      by_cases hr : x.role = r
      · rw [if_pos hr, if_pos hr, saturatingAdd_assoc]
      · rw [if_neg hr, if_neg hr, Nat.zero_add]
    · rw [hget]
      split
      · exact Nat.min_le_right _ _
      · exact hm

theorem listedStake_le (hback : T.currency.Backed T.maxBalance) (hhold : T.currency.HoldExact)
    (hnd : (xs.map StakeholderInit.account).Nodup)
    (hb : T.currency.holdAll .stake (stakesOf xs) b = .ok b') (r : Role) :
    listedStake xs r ≤ T.maxBalance := by
  have hheld : ∀ x ∈ xs, x.stake ≤ T.currency.balanceOnHold .stake x.account b' := by
    intro x hx
    rw [hhold.holdAll hb, if_pos rfl]
    refine Nat.le_trans ?_ (Nat.le_add_left _ _)
    apply List.single_le_sum (fun _ _ => Nat.zero_le _)
    exact List.mem_map.mpr ⟨(x.account, x.stake), List.mem_map_of_mem hx, if_pos rfl⟩
  calc listedStake xs r
      ≤ (xs.map fun x => T.currency.balanceOnHold .stake x.account b').sum := by
        apply List.sum_le_sum
        intro x hx
        split
        · exact hheld x hx
        · exact Nat.zero_le _
    _ = ((xs.map StakeholderInit.account).map fun a =>
        T.currency.balanceOnHold .stake a b').sum := by
        rw [List.map_map]
        rfl
    _ ≤ T.currency.totalIssuance b' := (hback b').2 _ _ hnd
    _ ≤ T.maxBalance := (hback b').1

theorem withRegistered_perm (hperm : xs.Perm ys) (hnd : (xs.map StakeholderInit.account).Nodup)
    (b : T.currency.Ledger) :
    { withRegistered p xs b s with events := [] } =
      { withRegistered p ys b s with events := [] } := by
  have hst : xs.foldl (enrol p) s.stakeholders = ys.foldl (enrol p) s.stakeholders := by
    apply hperm.foldl_eq'
    intro x hx y hy m
    by_cases hxy : x = y
    · rw [hxy]
    · have hne : x.account ≠ y.account := fun heq => hxy (List.inj_on_of_nodup_map hnd hx hy heq)
      exact StorageMap.insert_comm _ (by simp [hne]) _ _
  have hrs : xs.foldl (addStake T.maxBalance p) s.roleStake =
      ys.foldl (addStake T.maxBalance p) s.roleStake := by
    apply hperm.foldl_eq'
    intro x _ y _ m
    apply StorageMap.ext
    intro k
    simp only [addStake, StorageMap.getD_insert, StorageMap.get_insert, Prod.mk.injEq, true_and]
    by_cases hr : x.role = y.role
    · simp only [hr, if_true, saturatingAdd_assoc, Nat.add_comm x.stake]
      by_cases hk : k = (p, y.role) <;> simp [hk]
    · simp only [hr, Ne.symm hr, if_false]
      by_cases hk : k = (p, x.role) <;> simp [hk, hr]
  simp only [withRegistered, hst, hrs]

-- ---------------------------------------------------------------------------
-- The call
-- ---------------------------------------------------------------------------

theorem forM_of_ok {xs : List α} {f : α → Except ε PUnit} (h : ∀ x ∈ xs, f x = .ok ⟨⟩) :
    xs.forM f = .ok ⟨⟩ := by
  induction xs with
  | nil => rfl
  | cons x xs ih =>
    simp only [List.forall_mem_cons] at h
    exact bind_eq_ok.mpr ⟨⟨⟩, h.1, ih h.2⟩

def withProject (info : ProjectInfo) (s : State T) : State T :=
  depositEvent (.projectCreated s.nextProjectId info.name)
    { s with
      projects := s.projects.insert s.nextProjectId info
      nextProjectId := saturatingAdd u32Max s.nextProjectId 1 }

theorem projectGenesis_root {xs : BoundedVec (StakeholderInit T.AccountId) _} :
    projectGenesis .root name xs policy slashing bond s = .ok s' ↔
      policy.requiredRoles.val ≠ [] ∧ ∃ s1,
        xs.val.foldlM (registerStakeholder s.nextProjectId) s = .ok s1 ∧
        (∀ rq ∈ policy.requiredRoles.val, s1.roleStakeOf s.nextProjectId rq.role ≠ 0) ∧
        s' = withProject ⟨name, policy, slashing, bond⟩ s1 := by
  constructor
  · intro h
    obtain ⟨s1, -, hne, hs1, hroles, rfl⟩ := projectGenesis_ok h
    refine ⟨hne, s1, hs1, hroles, ?_⟩
    rw [withProject, (registerAll_frame hs1).nextProjectId]
  · rintro ⟨hne, s1, hs1, hroles, rfl⟩
    have hall : (policy.requiredRoles.val.forM fun rq =>
        ensure (s1.roleStakeOf s.nextProjectId rq.role != 0) .requiredRoleHasNoStake) = .ok ⟨⟩ := by
      apply forM_of_ok
      intro rq hrq
      rw [ensure_ok]
      simpa using hroles rq hrq
    simp only [projectGenesis, bind_eq_ok, ensureRoot_ok, ensure_ok, pure_eq_ok]
    refine ⟨(), trivial, (), by simpa using hne, s1, hs1, ⟨⟩, hall, ?_⟩
    rw [withProject, (registerAll_frame hs1).nextProjectId]

theorem holdAll_stakesOf_iff (hind : T.currency.HoldsIndependent)
    (hnd : (xs.map StakeholderInit.account).Nodup) :
    (∃ b', T.currency.holdAll .stake (stakesOf xs) b = .ok b') ↔
      ∀ x ∈ xs, ∃ b', T.currency.hold .stake x.account x.stake b = .ok b' := by
  rw [hind.holdAll_iff (by rwa [stakesOf_accounts])]
  simp [stakesOf]

/-- The list can be registered under the policy. -/
structure ValidGenesis (policy : ReleasePolicy) (xs : List (StakeholderInit T.AccountId))
    (s : State T) : Prop where
  roles : policy.requiredRoles.val ≠ []
  distinct : (xs.map StakeholderInit.account).Nodup
  holds : ∀ x ∈ xs, ∃ b, T.currency.hold .stake x.account x.stake s.balances = .ok b
  staked : ∀ rq ∈ policy.requiredRoles.val, listedStake xs rq.role ≠ 0

/-- Project `p` has exactly the list for stakeholders, and nothing else has changed. -/
structure Founded (p : Nat) (info : ProjectInfo) (xs : List (StakeholderInit T.AccountId))
    (s s' : State T) : Prop where
  project : s'.projects = s.projects.insert p info
  stakeholders : ∀ a x, s'.stakeholders.get (p, a) = some x ↔
    ∃ y ∈ xs, y.account = a ∧ x = ⟨y.role, y.stake⟩
  roleStake : ∀ r, s'.roleStakeOf p r = listedStake xs r
  held : ∀ y ∈ xs, T.currency.balanceOnHold .stake y.account s'.balances =
    T.currency.balanceOnHold .stake y.account s.balances + y.stake
  heldOther : ∀ reason a, reason ≠ .stake ∨ (∀ y ∈ xs, y.account ≠ a) →
    T.currency.balanceOnHold reason a s'.balances = T.currency.balanceOnHold reason a s.balances
  otherStakeholders : ∀ q a, q ≠ p → s'.stakeholders.get (q, a) = s.stakeholders.get (q, a)
  otherRoleStake : ∀ q r, q ≠ p → s'.roleStakeOf q r = s.roleStakeOf q r
  proposals : s'.proposals = s.proposals
  votes : s'.votes = s.votes
  tallies : s'.tallies = s.tallies
  releaseCount : s'.releaseCount = s.releaseCount
  releaseLog : s'.releaseLog = s.releaseLog
  counterAttestations : s'.counterAttestations = s.counterAttestations
  pendingEnactments : s'.pendingEnactments = s.pendingEnactments

structure Unfounded (s : State T) : Prop where
  stakeholders : ∀ a, s.stakeholders.get (s.nextProjectId, a) = none
  roleStake : ∀ r, s.roleStakeOf s.nextProjectId r = 0

theorem withRegistered_roleStake (hs : Unfounded s) (hle : listedStake xs r ≤ T.maxBalance)
    (b : T.currency.Ledger) :
    (withRegistered s.nextProjectId xs b s).roleStakeOf s.nextProjectId r = listedStake xs r := by
  have h0 : s.roleStake.getD (s.nextProjectId, r) 0 = 0 := hs.roleStake r
  refine (addStake_getD _ _ r (Nat.le_trans (Nat.le_of_eq h0) (Nat.zero_le _))).trans ?_
  rw [h0, saturatingAdd_eq (by rwa [Nat.zero_add]), Nat.zero_add]

/-- A root call succeeds iff its input is valid, and it then leaves this storage. -/
theorem projectGenesis_root_iff (hback : T.currency.Backed T.maxBalance)
    (hhold : T.currency.HoldExact) (hind : T.currency.HoldsIndependent) (hs : Unfounded s)
    {xs : BoundedVec (StakeholderInit T.AccountId) maxStakeholdersPerGenesis} :
    projectGenesis .root name xs policy slashing bond s = .ok s' ↔
      ValidGenesis policy xs.val s ∧
        ∃ b, T.currency.holdAll .stake (stakesOf xs.val) s.balances = .ok b ∧
          s' = withProject ⟨name, policy, slashing, bond⟩
            (withRegistered s.nextProjectId xs.val b s) := by
  rw [projectGenesis_root]
  simp only [registerAll_iff]
  constructor
  · rintro ⟨hne, s1, ⟨hnd, -, b, hb, rfl⟩, hroles, rfl⟩
    refine ⟨⟨hne, hnd, (holdAll_stakesOf_iff hind hnd).mp ⟨b, hb⟩, fun rq hrq => ?_⟩, b, hb, rfl⟩
    have hr := hroles rq hrq
    rwa [withRegistered_roleStake hs (listedStake_le hback hhold hnd hb _)] at hr
  · rintro ⟨hvalid, b, hb, rfl⟩
    refine ⟨hvalid.roles, _, ⟨hvalid.distinct, fun x _ => hs.stakeholders _, b, hb, rfl⟩,
      fun rq hrq => ?_, rfl⟩
    rw [withRegistered_roleStake hs (listedStake_le hback hhold hvalid.distinct hb _)]
    exact hvalid.staked rq hrq

theorem founded_of (hback : T.currency.Backed T.maxBalance) (hhold : T.currency.HoldExact)
    (hs : Unfounded s) (hnd : (xs.map StakeholderInit.account).Nodup)
    (hb : T.currency.holdAll .stake (stakesOf xs) s.balances = .ok b) (info : ProjectInfo) :
    Founded s.nextProjectId info xs s
      (withProject info (withRegistered s.nextProjectId xs b s)) where
  project := rfl
  stakeholders a x := by
    show (xs.foldl (enrol s.nextProjectId) s.stakeholders).get (s.nextProjectId, a) = some x ↔ _
    constructor
    · intro hget
      by_cases hlisted : ∃ y ∈ xs, y.account = a
      · obtain ⟨y, hy, rfl⟩ := hlisted
        rw [enrol_get _ hnd hy] at hget
        exact ⟨y, hy, rfl, (Option.some.inj hget).symm⟩
      · rw [enrol_get_other, hs.stakeholders] at hget
        · cases hget
        · intro y hy heq
          simp only [Prod.mk.injEq, true_and] at heq
          exact hlisted ⟨y, hy, heq.symm⟩
    · rintro ⟨y, hy, rfl, rfl⟩
      exact enrol_get _ hnd hy
  roleStake r := withRegistered_roleStake hs (listedStake_le hback hhold hnd hb r) b
  held y hy := by
    refine (hhold.holdAll hb .stake y.account).trans ?_
    have hlisted : (y.account, y.stake) ∈ stakesOf xs := List.mem_map_of_mem hy
    rw [if_pos rfl, Currency.sum_eq_of_listed (by rwa [stakesOf_accounts]) hlisted]
  heldOther reason a h := by
    refine (hhold.holdAll hb reason a).trans ?_
    by_cases hr : reason = .stake
    · have hnot := h.resolve_left (not_not.mpr hr)
      have hunlisted : ∀ x ∈ stakesOf xs, x.1 ≠ a := by
        intro x hx
        obtain ⟨y, hy, rfl⟩ := List.mem_map.mp hx
        exact hnot y hy
      rw [if_pos hr, Currency.sum_eq_zero_of_unlisted hunlisted, Nat.add_zero]
    · rw [if_neg hr, Nat.add_zero]
  otherStakeholders q a hq := enrol_get_other _ _ fun x _ heq => hq (congrArg Prod.fst heq)
  otherRoleStake q r hq := addStake_getD_other _ _ hq r
  proposals := rfl
  votes := rfl
  tallies := rfl
  releaseCount := rfl
  releaseLog := rfl
  counterAttestations := rfl
  pendingEnactments := rfl

theorem withRegistered_events (hperm : xs.Perm ys) (b : T.currency.Ledger) (info : ProjectInfo) :
    (withProject info (withRegistered p ys b s)).events.Perm
      (withProject info (withRegistered p xs b s)).events := by
  simp only [withProject, depositEvent, withRegistered]
  split
  · exact .refl _
  · exact ((hperm.symm.map _).append_left _).append_right _

theorem ValidGenesis.perm (hperm : xs.Perm ys) (h : ValidGenesis policy xs s) :
    ValidGenesis policy ys s where
  roles := h.roles
  distinct := (hperm.map _).nodup_iff.mp h.distinct
  holds x hx := h.holds x (hperm.mem_iff.mpr hx)
  staked rq hrq := by
    have hsum : listedStake ys rq.role = listedStake xs rq.role := (hperm.map _).sum_eq.symm
    rw [hsum]
    exact h.staked rq hrq

/-- While project ids are below the limit, a root call of `project_genesis`
succeeds iff there is a required role, the listed accounts are distinct, each of
them can place its hold and every required role has stake. The new project then
has exactly the list for stakeholders, and neither the outcome nor the storage
depends on the order of the list. -/
theorem projectGenesis_exact (hback : T.currency.Backed T.maxBalance)
    (hhold : T.currency.HoldExact) (hburn : T.currency.BurnAtMost)
    (hind : T.currency.HoldsIndependent) (h : Reachable s) (hids : ProjectIdsBelowMax s)
    (name : BoundedVec UInt8 nameLimit)
    (xs : BoundedVec (StakeholderInit T.AccountId) maxStakeholdersPerGenesis)
    (policy : ReleasePolicy) (slashing : SlashingParams) (bond : Nat) :
    ((∃ s', projectGenesis .root name xs policy slashing bond s = .ok s') ↔
      ValidGenesis policy xs.val s) ∧
    (∀ s', projectGenesis .root name xs policy slashing bond s = .ok s' →
      s.projects.get s.nextProjectId = none ∧
        Founded s.nextProjectId ⟨name, policy, slashing, bond⟩ xs.val s s') ∧
    ∀ ys : BoundedVec (StakeholderInit T.AccountId) maxStakeholdersPerGenesis,
      xs.val.Perm ys.val →
      ∀ s', projectGenesis .root name xs policy slashing bond s = .ok s' →
        ∃ t, projectGenesis .root name ys policy slashing bond s = .ok t ∧
          { t with events := [] } = { s' with events := [] } ∧ t.events.Perm s'.events := by
  obtain ⟨-, hfresh⟩ := roleStakeOf_eq_registered hback hhold hburn h hids
  obtain ⟨hrole, hnone⟩ := hfresh s.nextProjectId (Nat.le_refl _)
  have hs : Unfounded s := ⟨hnone, hrole⟩
  obtain ⟨tr, hr⟩ := h
  have hnew := (hr.freshProject hids).2 s.nextProjectId (Nat.le_refl _)
  simp only [projectGenesis_root_iff hback hhold hind hs]
  refine ⟨⟨?_, fun hvalid => ?_⟩, ?_, ?_⟩
  · rintro ⟨_, hvalid, -⟩
    exact hvalid
  · obtain ⟨b, hb⟩ := (holdAll_stakesOf_iff hind hvalid.distinct).mpr hvalid.holds
    exact ⟨_, hvalid, b, hb, rfl⟩
  · rintro _ ⟨hvalid, b, hb, rfl⟩
    exact ⟨hnew, founded_of hback hhold hs hvalid.distinct hb _⟩
  · rintro ys hperm _ ⟨hvalid, b, hb, rfl⟩
    have hnd : ((stakesOf xs.val).map Prod.fst).Nodup := by
      rw [stakesOf_accounts]
      exact hvalid.distinct
    have hb' : T.currency.holdAll .stake (stakesOf ys.val) s.balances = .ok b :=
      hind.holdAll_perm (hperm.map _) hnd hb
    refine ⟨_, ⟨hvalid.perm hperm, b, hb', rfl⟩, ?_, withRegistered_events hperm b _⟩
    have hsame := withRegistered_perm (p := s.nextProjectId) (s := s) hperm hvalid.distinct b
    exact congrArg (fun m => { withProject ⟨name, policy, slashing, bond⟩ m with events := [] })
      hsame.symm

theorem projectGenesis_exact_second :
    let s := Mock.after [Mock.genesis .coreDeveloper (Mock.percent 50) 10 3]
    let xs : BoundedVec (StakeholderInit Nat) maxStakeholdersPerGenesis :=
      ⟨[⟨1, .coreDeveloper, 40⟩, ⟨2, .securityAuditor, 50⟩], by decide⟩
    let policy : ReleasePolicy := ⟨⟨[⟨.securityAuditor, Mock.half⟩], by decide⟩, 5, 5⟩
    ∃ s', projectGenesis (T := Mock.Test) .root ⟨[0x62], by decide⟩ xs policy
        ⟨Mock.half, Mock.half, 9⟩ 0 s = .ok s' ∧
      Founded 1 ⟨⟨[0x62], by decide⟩, policy, ⟨Mock.half, Mock.half, 9⟩, 0⟩ xs.val s s' := by
  intro s xs policy
  have h := projectGenesis_exact Ledger.backed Ledger.holdExact Ledger.burnAtMost
    Ledger.holdsIndependent ⟨_, Mock.reaches _⟩ (by decide +kernel) ⟨[0x62], by decide⟩ xs policy
    ⟨Mock.half, Mock.half, 9⟩ 0 (s := s)
  have hholds : ∀ x ∈ xs.val, ∃ b, Mock.Test.currency.hold .stake x.account x.stake s.balances =
      .ok b := by
    intro x hx
    apply exists_ok
    simp only [xs, List.mem_cons, List.not_mem_nil, or_false] at hx
    rcases hx with rfl | rfl <;> decide +kernel
  obtain ⟨s', hs'⟩ := h.1.mpr ⟨by decide, by decide, hholds, by decide⟩
  have hnext : s.nextProjectId = 1 := by decide +kernel
  exact ⟨s', hs', hnext ▸ (h.2.1 s' hs').2⟩

end Verigov
