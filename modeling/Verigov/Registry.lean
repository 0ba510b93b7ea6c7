import Verigov.Ids
import Verigov.Mock

/-!
# The stakeholder registry

Genesis registers stakeholders, a counter-attestation lowers the stake of one
builder, and nothing else touches the registry (`Step.registry`). So a role is
for life and a stake only falls. `RoleStake` is a second copy of the same
data: `RegistryExact` says that it is the sum of the registered stakes, which
no addition of genesis clipped because the stakes are held in a token with a
representable supply.
-/

namespace Verigov

open State Transition

variable {T : Config} {s s' : State T} {id : Nat}

/-- The weight `w`, added over the accounts of role `r` in project `p`. -/
def State.roleSum (s : State T) (p : Nat) (r : Role) (w : T.AccountId → Stakeholder → Nat) : Nat :=
  s.stakeholders.sum fun k x => if k.1 = p ∧ x.role = r then w k.2 x else 0

def State.registered (s : State T) (p : Nat) (r : Role) : Nat := s.roleSum p r fun _ x => x.stake

def State.projectStake (s : State T) (p : Nat) : Nat :=
  s.stakeholders.sum fun k x => if k.1 = p then x.stake else 0

theorem registered_le_projectStake (s : State T) (p : Nat) (r : Role) :
    s.registered p r ≤ s.projectStake p := by
  unfold State.registered State.roleSum
  apply StorageMap.sum_le_sum
  intro k x _
  by_cases hk : k.1 = p
  · simp only [hk, true_and, if_true]
    split <;> omega
  · simp [hk]

-- ---------------------------------------------------------------------------
-- Sums over a role
-- ---------------------------------------------------------------------------

section RoleSum

variable {p : Nat} {r : Role} {w w' : T.AccountId → Stakeholder → Nat}

theorem roleSum_congr
    (h : ∀ a x, s.stakeholders.get (p, a) = some x → x.role = r → w a x = w' a x) :
    s.roleSum p r w = s.roleSum p r w' := by
  apply StorageMap.sum_congr
  rintro ⟨p', a⟩ x hx
  by_cases hk : p' = p ∧ x.role = r
  · obtain ⟨rfl, hr⟩ := hk
    simp [hr, h a x hx hr]
  · simp [hk]

theorem roleSum_eq_zero (h : ∀ a x, s.stakeholders.get (p, a) = some x → w a x = 0) :
    s.roleSum p r w = 0 := by
  apply StorageMap.sum_eq_zero
  rintro ⟨p', a⟩ x hx
  split
  · rename_i hk
    exact h a x (hk.1 ▸ hx)
  · rfl

theorem roleSum_add :
    s.roleSum p r (fun a x => w a x + w' a x) = s.roleSum p r w + s.roleSum p r w' := by
  unfold State.roleSum
  rw [← StorageMap.sum_add]
  apply StorageMap.sum_congr
  intro k x _
  split <;> rfl

theorem roleSum_except (w w' : T.AccountId → Stakeholder → Nat)
    (hx : s.stakeholders.get (p, who) = some x)
    (h : ∀ a x, a ≠ who → w a x = w' a x) :
    s.roleSum p r w + (if x.role = r then w' who x else 0) =
      s.roleSum p r w' + (if x.role = r then w who x else 0) := by
  have hsum := StorageMap.sum_congr_except (m := s.stakeholders)
    (f := fun k x => if k.1 = p ∧ x.role = r then w k.2 x else 0)
    (g := fun k x => if k.1 = p ∧ x.role = r then w' k.2 x else 0) (p, who) (by
      rintro ⟨p', a⟩ y hne _
      by_cases hk : p' = p ∧ y.role = r
      · obtain ⟨rfl, hr⟩ := hk
        have ha : a ≠ who := fun he => hne (by rw [he])
        simp [hr, h a y ha]
      · simp [hk])
  rw [hx] at hsum
  simpa [State.roleSum] using hsum

theorem le_roleSum (hx : s.stakeholders.get (p, who) = some x) (hr : x.role = r) :
    w who x ≤ s.roleSum p r w := by
  have hle := StorageMap.le_sum (fun k x => if k.1 = p ∧ x.role = r then w k.2 x else 0) hx
  simpa [hr, State.roleSum] using hle

theorem roleSum_of_stakeholders (h : s'.stakeholders = s.stakeholders) :
    s'.roleSum p r w = s.roleSum p r w := by
  unfold State.roleSum
  rw [h]

end RoleSum

-- ---------------------------------------------------------------------------
-- What a step does to the registry
-- ---------------------------------------------------------------------------

/-- An accepted counter-attestation on proposal `id`: what it read, and what it
wrote to the registry. -/
structure Slashes (s : State T) (id : Nat) (s' : State T) (pr : Proposal T.AccountId)
    (info : ProjectInfo) (y : Stakeholder) (slashed : Nat) : Prop where
  proposal : s.proposals.get id = some pr
  isOpen : pr.status.isOpen = true
  project : s.projects.get pr.projectId = some info
  builder : s.stakeholders.get (pr.projectId, pr.attestation.builder) = some y
  burned : ∃ b, T.currency.burnHeld .stake pr.attestation.builder
    (info.slashing.sigmaNeg.mulFloor y.stake) s.balances = .ok (slashed, b)
  stakeholders : s'.stakeholders =
    s.stakeholders.insert (pr.projectId, pr.attestation.builder)
      { y with stake := y.stake - slashed }
  roleStake : s'.roleStake =
    s.roleStake.insert (pr.projectId, .buildService)
      (s.roleStakeOf pr.projectId .buildService - slashed)
  proposals : s'.proposals = s.proposals.insert id { pr with status := .rejected }

theorem Slashes.roleStakeOf_eq (h : Slashes s id s' pr info y slashed) (p : Nat) (r : Role) :
    s'.roleStakeOf p r = if p = pr.projectId ∧ r = .buildService then
      s.roleStakeOf pr.projectId .buildService - slashed else s.roleStakeOf p r := by
  simp only [State.roleStakeOf, h.roleStake, StorageMap.getD_insert, Prod.mk.injEq]

theorem submitCounterAttestation_slashes
    (h : submitCounterAttestation origin id rebuilt s = .ok s') :
    ∃ pr info y slashed, Slashes s id s' pr info y slashed := by
  obtain ⟨who, pr, info, y, slashed, burned, released, balances, -, hpr, hproj, -, -, -, hopen,
    hy, hburn, -, rfl⟩ := submitCounterAttestation_ok h
  refine ⟨pr, info, y, slashed, hpr, hopen, hproj, hy, ⟨burned, hburn⟩, ?_, ?_, ?_⟩ <;>
    cases pr.status <;> rfl

theorem Slashes.slashed_le (hburn : T.currency.BurnAtMost)
    (h : Slashes s id s' pr info y slashed) : slashed ≤ y.stake := by
  obtain ⟨b, hb⟩ := h.burned
  exact Nat.le_trans (hburn _ _ _ _ _ _ hb) (info.slashing.sigmaNeg.mulFloor_le y.stake)

/-- Everything a step can do to the registry. -/
theorem Step.registry (h : Step s a s') :
    (s'.stakeholders = s.stakeholders ∧ s'.roleStake = s.roleStake) ∨
      (∃ origin name xs policy slashing bond s1,
        a = .call origin (.projectGenesis name xs policy slashing bond) ∧
        xs.val.foldlM (registerStakeholder s.nextProjectId) s = .ok s1 ∧
        s'.stakeholders = s1.stakeholders ∧ s'.roleStake = s1.roleStake) ∨
      ∃ origin id rebuilt pr info y slashed,
        a = .call origin (.submitCounterAttestation id rebuilt) ∧
        Slashes s id s' pr info y slashed := by
  cases h with
  | block => exact .inl ⟨(nextBlock_frame s).1.stakeholders, (nextBlock_frame s).1.roleStake⟩
  | failed => exact .inl ⟨rfl, rfl⟩
  | other => exact .inl ⟨rfl, rfl⟩
  | call origin c h =>
    cases c with
    | projectGenesis name xs policy slashing bond =>
      obtain ⟨s1, -, -, hs1, -, rfl⟩ := projectGenesis_ok h
      exact .inr (.inl ⟨_, _, _, _, _, _, s1, rfl, hs1, rfl, rfl⟩)
    | newRelease p version att cid sig =>
      exact .inl ⟨(newRelease_frame h).stakeholders, (newRelease_frame h).roleStake⟩
    | vote id aye =>
      exact .inl ⟨(vote_frame h).stakeholders, (vote_frame h).roleStake⟩
    | submitCounterAttestation id rebuilt =>
      obtain ⟨pr, info, y, slashed, hsl⟩ := submitCounterAttestation_slashes h
      exact .inr (.inr ⟨_, _, _, pr, info, y, slashed, rfl, hsl⟩)
    | closeExpired id =>
      obtain ⟨who, pr, released, balances, -, -, -, -, -, rfl⟩ := closeExpired_ok h
      exact .inl ⟨rfl, rfl⟩

theorem registerAll_get {xs : List (StakeholderInit T.AccountId)}
    (h : xs.foldlM (registerStakeholder p) s = .ok s') (hk : s.stakeholders.get k = some x) :
    s'.stakeholders.get k = some x := by
  refine foldlM_induct (I := fun m => m.stakeholders.get k = some x) h hk ?_
  intro y m m' hy hm
  obtain ⟨balances, hnone, -, rfl⟩ := registerStakeholder_ok hy
  refine (StorageMap.get_insert_ne _ _ ?_).trans hm
  rintro rfl
  rw [hnone] at hm
  cases hm

/-- A role is for life, and a stake only falls. -/
theorem Step.stakeholder (h : Step s a s') (hk : s.stakeholders.get k = some x) :
    ∃ x', s'.stakeholders.get k = some x' ∧ x'.role = x.role ∧ x'.stake ≤ x.stake := by
  rcases h.registry with ⟨hsame, -⟩ | ⟨_, _, _, _, _, _, s1, -, hs1, hst, -⟩ |
    ⟨_, id, _, pr, info, y, slashed, -, hsl⟩
  · exact ⟨x, hsame ▸ hk, rfl, Nat.le_refl _⟩
  · exact ⟨x, hst ▸ registerAll_get hs1 hk, rfl, Nat.le_refl _⟩
  · rw [hsl.stakeholders, StorageMap.get_insert]
    split
    · rename_i heq
      rw [heq, hsl.builder] at hk
      cases hk
      exact ⟨_, rfl, rfl, Nat.sub_le ..⟩
    · exact ⟨x, hk, rfl, Nat.le_refl _⟩

def HasRole (s : State T) (p : Nat) (who : T.AccountId) (r : Role) : Prop :=
  ∃ x, s.stakeholders.get (p, who) = some x ∧ x.role = r

theorem Step.hasRole (h : Step s a s') (hr : HasRole s p who r) : HasRole s' p who r := by
  obtain ⟨x, hx, rfl⟩ := hr
  obtain ⟨x', hx', hrole, -⟩ := h.stakeholder hx
  exact ⟨x', hx', hrole⟩

def PartiesRegistered (s : State T) : Prop :=
  ∀ id pr, s.proposals.get id = some pr → HasRole s pr.projectId pr.proposer .coreDeveloper ∧
    HasRole s pr.projectId pr.attestation.builder .buildService

theorem Step.partiesRegistered (h : Step s a s') (hs : PartiesRegistered s) :
    PartiesRegistered s' := by
  intro id pr hpr
  rcases h.proposal id with ⟨-, -, hx, hxr, hy, hyr, -, -, -, hf⟩ | ⟨-, hn⟩ | ⟨pr0, st, h0, h1, -⟩
  · rw [hf] at hpr
    cases hpr
    exact ⟨h.hasRole ⟨_, hx, hxr⟩, h.hasRole ⟨_, hy, hyr⟩⟩
  · rw [hn] at hpr
    cases hpr
  · rw [h1] at hpr
    cases hpr
    obtain ⟨hprop, hb⟩ := hs id pr0 h0
    exact ⟨h.hasRole hprop, h.hasRole hb⟩

-- ---------------------------------------------------------------------------
-- Registering adds up
-- ---------------------------------------------------------------------------

theorem registerStakeholder_sum (h : registerStakeholder p s x = .ok s')
    (f : Nat × T.AccountId → Stakeholder → Nat) :
    s'.stakeholders.sum f = s.stakeholders.sum f + f (p, x.account) ⟨x.role, x.stake⟩ := by
  obtain ⟨balances, hnone, -, rfl⟩ := registerStakeholder_ok h
  exact StorageMap.sum_insert_of_none f _ hnone

theorem registerStakeholder_get (h : registerStakeholder p s x = .ok s') (q : Nat)
    (a : T.AccountId) :
    s'.stakeholders.get (q, a) =
      if (q, a) = (p, x.account) then some ⟨x.role, x.stake⟩ else s.stakeholders.get (q, a) := by
  obtain ⟨balances, -, -, rfl⟩ := registerStakeholder_ok h
  exact StorageMap.get_insert ..

theorem registerStakeholder_roleStakeOf (h : registerStakeholder p s x = .ok s') (q : Nat)
    (r : Role) :
    s'.roleStakeOf q r = if (q, r) = (p, x.role) then
      saturatingAdd T.maxBalance (s.roleStakeOf p x.role) x.stake else s.roleStakeOf q r := by
  obtain ⟨balances, -, -, rfl⟩ := registerStakeholder_ok h
  exact StorageMap.getD_insert ..

theorem registerAll_other {xs : List (StakeholderInit T.AccountId)}
    (h : xs.foldlM (registerStakeholder p) s = .ok s') (hq : q ≠ p) :
    (∀ a, s'.stakeholders.get (q, a) = s.stakeholders.get (q, a)) ∧
      (∀ r, s'.roleStakeOf q r = s.roleStakeOf q r) ∧
      (∀ r w, s'.roleSum q r w = s.roleSum q r w) ∧ s'.projectStake q = s.projectStake q := by
  refine foldlM_induct (I := fun m => (∀ a, m.stakeholders.get (q, a) = s.stakeholders.get (q, a)) ∧
      (∀ r, m.roleStakeOf q r = s.roleStakeOf q r) ∧
      (∀ r w, m.roleSum q r w = s.roleSum q r w) ∧ m.projectStake q = s.projectStake q) h
    ⟨fun _ => rfl, fun _ => rfl, fun _ _ => rfl, rfl⟩ ?_
  rintro x m m' hx ⟨hst, hrs, hby, hproj⟩
  have hsum := registerStakeholder_sum hx
  refine ⟨fun a => ?_, fun r => ?_, fun r w => ?_, ?_⟩
  · rw [registerStakeholder_get hx, if_neg (by simp [hq]), hst]
  · rw [registerStakeholder_roleStakeOf hx, if_neg (by simp [hq]), hrs]
  · refine Eq.trans ?_ (hby r w)
    exact (hsum _).trans (by simp [Ne.symm hq, roleSum])
  · refine Eq.trans ?_ hproj
    exact (hsum _).trans (by simp [Ne.symm hq, projectStake])

/-- Project `p` while its stakeholders are being registered. -/
structure Registering (p : Nat) (m : State T) (accounts : List T.AccountId) : Prop where
  nodup : accounts.Nodup
  mem_iff : ∀ a, a ∈ accounts ↔ (m.stakeholders.get (p, a)).isSome
  roleStake : ∀ r, m.roleStakeOf p r = m.registered p r
  held : m.projectStake p ≤
    (accounts.map fun a => T.currency.balanceOnHold .stake a m.balances).sum

theorem Registering.fits (hback : T.currency.Backed T.maxBalance)
    (h : Registering p s accounts) : s.projectStake p ≤ T.maxBalance := by
  obtain ⟨htop, hsum⟩ := hback s.balances
  exact Nat.le_trans h.held (Nat.le_trans (hsum _ _ h.nodup) htop)

theorem Registering.held_cons (hhold : T.currency.HoldExact)
    (h : registerStakeholder p s x = .ok s') (hs : Registering p s accounts)
    (hout : x.account ∉ accounts) :
    s'.projectStake p ≤
      ((x.account :: accounts).map fun a =>
        T.currency.balanceOnHold .stake a s'.balances).sum := by
  have hproj : s'.projectStake p = s.projectStake p + x.stake :=
    (registerStakeholder_sum h _).trans (by simp [projectStake])
  obtain ⟨balances, -, hok, rfl⟩ := registerStakeholder_ok h
  have hheld := hhold _ _ _ _ _ hok
  have hsame : (accounts.map fun a => T.currency.balanceOnHold .stake a balances) =
      accounts.map fun a => T.currency.balanceOnHold .stake a s.balances := by
    apply List.map_congr_left
    intro a ha
    have hne : a ≠ x.account := fun he => hout (he ▸ ha)
    simp [hheld, hne]
  have hx := hheld .stake x.account
  have hle := hs.held
  simp only [and_self, if_true] at hx
  show _ ≤ ((x.account :: accounts).map fun a => T.currency.balanceOnHold .stake a balances).sum
  simp only [List.map_cons, List.sum_cons, hsame]
  omega

theorem Registering.roleStake_cons (h : registerStakeholder p s x = .ok s')
    (hs : Registering p s accounts) (hfits : s'.projectStake p ≤ T.maxBalance) (r : Role) :
    s'.roleStakeOf p r = s'.registered p r := by
  have hsum := registerStakeholder_sum h
  have hproj : s'.projectStake p = s.projectStake p + x.stake :=
    (hsum _).trans (by simp [projectStake])
  have hreg : s'.registered p r = s.registered p r + if x.role = r then x.stake else 0 := by
    simp only [registered, roleSum, hsum]
    simp
  have hle := registered_le_projectStake s p r
  rw [registerStakeholder_roleStakeOf h, hreg]
  by_cases hr : x.role = r
  · subst hr
    rw [if_pos rfl, if_pos rfl, hs.roleStake]
    apply saturatingAdd_eq
    omega
  · rw [if_neg (by simpa using Ne.symm hr), if_neg hr, hs.roleStake]
    rfl

theorem registerStakeholder_registering (hback : T.currency.Backed T.maxBalance)
    (hhold : T.currency.HoldExact) (h : registerStakeholder p s x = .ok s')
    (hs : Registering p s accounts) : Registering p s' (x.account :: accounts) := by
  have hout : x.account ∉ accounts := by
    obtain ⟨balances, hnone, -, -⟩ := registerStakeholder_ok h
    rw [hs.mem_iff, hnone]
    simp
  have hnodup : (x.account :: accounts).Nodup := List.nodup_cons.mpr ⟨hout, hs.nodup⟩
  have hheld := hs.held_cons hhold h hout
  have hfits : s'.projectStake p ≤ T.maxBalance :=
    Nat.le_trans hheld (Nat.le_trans ((hback s'.balances).2 _ _ hnodup) (hback s'.balances).1)
  refine ⟨hnodup, fun a => ?_, hs.roleStake_cons h hfits, hheld⟩
  rw [registerStakeholder_get h, List.mem_cons, hs.mem_iff]
  by_cases ha : a = x.account <;> simp [ha]

theorem registerAll_registering (hback : T.currency.Backed T.maxBalance)
    (hhold : T.currency.HoldExact) {xs : List (StakeholderInit T.AccountId)}
    (h : xs.foldlM (registerStakeholder p) s = .ok s') (hs : Registering p s []) :
    ∃ accounts, Registering p s' accounts := by
  refine foldlM_induct (I := fun m => ∃ accounts, Registering p m accounts) h ⟨[], hs⟩ ?_
  rintro x m m' hx ⟨accounts, hm⟩
  exact ⟨_, registerStakeholder_registering hback hhold hx hm⟩

-- ---------------------------------------------------------------------------
-- The registry is exact
-- ---------------------------------------------------------------------------

structure RegistryExact (s : State T) : Prop where
  roleStake : ∀ p r, s.roleStakeOf p r = s.registered p r
  fits : ∀ p, s.projectStake p ≤ T.maxBalance
  fresh : ∀ p a, s.projects.get p = none → s.stakeholders.get (p, a) = none

theorem RegistryExact.fresh_registered (h : RegistryExact s) (hp : s.projects.get p = none)
    (r : Role) : s.registered p r = 0 := by
  apply roleSum_eq_zero
  intro a x hx
  rw [h.fresh p a hp] at hx
  cases hx

theorem RegistryExact.fresh_projectStake (h : RegistryExact s) (hp : s.projects.get p = none) :
    s.projectStake p = 0 := by
  apply StorageMap.sum_eq_zero
  rintro ⟨p', a⟩ x hx
  rw [if_neg]
  rintro rfl
  rw [h.fresh _ a hp] at hx
  cases hx

theorem Slashes.roleSum (h : Slashes s id s' pr info y slashed) (p : Nat) (r : Role)
    (w : T.AccountId → Stakeholder → Nat) :
    s'.roleSum p r w +
        (if pr.projectId = p ∧ y.role = r then w pr.attestation.builder y else 0) =
      s.roleSum p r w + (if pr.projectId = p ∧ y.role = r then
        w pr.attestation.builder { y with stake := y.stake - slashed } else 0) := by
  have hsum := s.stakeholders.sum_insert
    (fun k x => if k.1 = p ∧ x.role = r then w k.2 x else 0)
    (pr.projectId, pr.attestation.builder) { y with stake := y.stake - slashed }
  rw [h.builder, ← h.stakeholders] at hsum
  exact hsum

theorem Step.roleSum (h : Step s a s') (hf : FreshProject s a) (hp : (s.projects.get p).isSome) :
    (∀ r w, s'.roleSum p r w = s.roleSum p r w) ∨
      ∃ id pr info y slashed, a.challenged = some id ∧ Slashes s id s' pr info y slashed := by
  rcases h.registry with ⟨hst, -⟩ | ⟨_, _, _, _, _, _, s1, rfl, hs1, hst, -⟩ |
    ⟨_, id, _, pr, info, y, slashed, rfl, hsl⟩
  · exact .inl fun r w => roleSum_of_stakeholders hst
  · have hne : p ≠ s.nextProjectId := by
      rintro rfl
      rw [hf rfl] at hp
      cases hp
    refine .inl fun r w => ?_
    rw [roleSum_of_stakeholders hst]
    exact (registerAll_other hs1 hne).2.2.1 r w
  · exact .inr ⟨id, pr, info, y, slashed, rfl, hsl⟩

theorem Step.roleSum_le {w : T.AccountId → Stakeholder → Nat} (h : Step s a s')
    (hf : FreshProject s a) (hp : (s.projects.get p).isSome)
    (hw : ∀ a x n, n ≤ x.stake → w a { x with stake := n } ≤ w a x) (r : Role) :
    s'.roleSum p r w ≤ s.roleSum p r w := by
  rcases h.roleSum hf hp with heq | ⟨id, pr, info, y, slashed, -, hsl⟩
  · exact Nat.le_of_eq (heq r w)
  · have hsum := hsl.roleSum p r w
    have hle := hw pr.attestation.builder y (y.stake - slashed) (Nat.sub_le _ _)
    split at hsum <;> omega

theorem Step.roleSum_eq (h : Step s a s') (hf : FreshProject s a)
    (hp : (s.projects.get p).isSome) (r : Role) (g : T.AccountId → Nat) :
    s'.roleSum p r (fun a _ => g a) = s.roleSum p r fun a _ => g a := by
  rcases h.roleSum hf hp with heq | ⟨id, pr, info, y, slashed, -, hsl⟩
  · exact heq r _
  · exact Nat.add_right_cancel (hsl.roleSum p r fun a _ => g a)

theorem Slashes.projectStake_le (h : Slashes s id s' pr info y slashed) (p : Nat) :
    s'.projectStake p ≤ s.projectStake p := by
  have hsum := s.stakeholders.sum_insert (fun k x => if k.1 = p then x.stake else 0)
    (pr.projectId, pr.attestation.builder) { y with stake := y.stake - slashed }
  rw [h.builder, ← h.stakeholders] at hsum
  simp only [Option.elim_some] at hsum
  unfold State.projectStake
  split at hsum <;> omega

theorem RegistryExact.of_same (hs : RegistryExact s) (hst : s'.stakeholders = s.stakeholders)
    (hrs : s'.roleStake = s.roleStake)
    (hproj : ∀ p, s'.projects.get p = none → s.projects.get p = none) : RegistryExact s' := by
  refine ⟨fun p r => ?_, fun p => ?_, fun p a hn => ?_⟩
  · have h0 := hs.roleStake p r
    unfold roleStakeOf registered State.roleSum at h0 ⊢
    rwa [hst, hrs]
  · have h0 := hs.fits p
    unfold projectStake at h0 ⊢
    rwa [hst]
  · rw [hst]
    exact hs.fresh p a (hproj p hn)

theorem projectGenesis_registryExact (hback : T.currency.Backed T.maxBalance)
    (hhold : T.currency.HoldExact) (hnew : s.projects.get s.nextProjectId = none)
    (h : projectGenesis origin name xs policy slashing bond s = .ok s') (hs : RegistryExact s) :
    RegistryExact s' := by
  obtain ⟨s1, -, -, hs1, -, rfl⟩ := projectGenesis_ok h
  have hempty : Registering s.nextProjectId s [] := by
    refine ⟨List.nodup_nil, fun a => ?_, fun r => ?_, ?_⟩
    · simp [hs.fresh _ a hnew]
    · exact hs.roleStake _ r
    · rw [hs.fresh_projectStake hnew]
      exact Nat.zero_le _
  obtain ⟨accounts, hreg⟩ := registerAll_registering hback hhold hs1 hempty
  refine ⟨fun p r => ?_, fun p => ?_, fun p a hn => ?_⟩
  · by_cases hp : p = s.nextProjectId
    · subst hp
      exact hreg.roleStake r
    · obtain ⟨-, hrole, hby, -⟩ := registerAll_other hs1 hp
      exact (hrole r).trans ((hs.roleStake p r).trans (hby r _).symm)
  · by_cases hp : p = s.nextProjectId
    · subst hp
      have hfits := hreg.fits hback
      exact hfits
    · obtain ⟨-, -, -, hproj⟩ := registerAll_other hs1 hp
      exact Nat.le_trans (Nat.le_of_eq hproj) (hs.fits p)
  · have hget := (StorageMap.get_insert s1.projects s.nextProjectId p
      ⟨name, policy, slashing, bond⟩).symm.trans hn
    split at hget
    · cases hget
    · rename_i hp
      rw [(registerAll_frame hs1).projects] at hget
      exact ((registerAll_other hs1 hp).1 a).trans (hs.fresh p a hget)

theorem Slashes.registryExact (hburn : T.currency.BurnAtMost)
    (h : Slashes s id s' pr info y slashed) (hrole : y.role = .buildService)
    (hproj : ∀ p, s'.projects.get p = none → s.projects.get p = none) (hs : RegistryExact s) :
    RegistryExact s' := by
  have hle := h.slashed_le hburn
  refine ⟨fun p r => ?_, fun p => ?_, fun p a hn => ?_⟩
  · have h0 := hs.roleStake p r
    have hsum : s'.registered p r + _ = s.registered p r + _ := h.roleSum p r fun _ x => x.stake
    unfold roleStakeOf at h0 ⊢
    rw [h.roleStake, StorageMap.getD_insert]
    by_cases hk : (p, r) = (pr.projectId, Role.buildService)
    · cases hk
      rw [if_pos rfl]
      simp only [hrole, and_self, if_true] at hsum
      unfold roleStakeOf
      omega
    · have hne : ¬(pr.projectId = p ∧ y.role = r) := by
        rintro ⟨rfl, rfl⟩
        exact hk (by rw [hrole])
      rw [if_neg hk, h0]
      simp only [if_neg hne] at hsum
      exact hsum.symm
  · exact Nat.le_trans (h.projectStake_le p) (hs.fits p)
  · rw [h.stakeholders, StorageMap.get_insert_ne]
    · exact hs.fresh p a (hproj p hn)
    · rintro ⟨⟩
      have hnone := hproj _ hn
      rw [h.project] at hnone
      cases hnone

theorem PartiesRegistered.builder (hp : PartiesRegistered s)
    (h : Slashes s id s' pr info y slashed) : y.role = .buildService := by
  obtain ⟨y', hy', hrole⟩ := (hp id pr h.proposal).2
  rw [h.builder] at hy'
  cases hy'
  exact hrole

theorem Step.registryExact (hback : T.currency.Backed T.maxBalance)
    (hhold : T.currency.HoldExact) (hburn : T.currency.BurnAtMost) (h : Step s a s')
    (hf : FreshProject s a) (hp : PartiesRegistered s) (hs : RegistryExact s) :
    RegistryExact s' := by
  have hproj : ∀ p, s'.projects.get p = none → s.projects.get p = none :=
    fun p hn => h.projects_none hn
  rcases h.registry with ⟨hst, hrs⟩ | ⟨_, _, _, _, _, _, _, rfl, -⟩ |
    ⟨_, id, _, pr, info, y, slashed, -, hsl⟩
  · exact hs.of_same hst hrs hproj
  · cases h with
    | call _ _ h => exact projectGenesis_registryExact hback hhold (hf rfl) h hs
  · exact hsl.registryExact hburn (hp.builder hsl) hproj hs

theorem Init.registryExact (h : Init s) : RegistryExact s := by
  obtain ⟨n, b, rfl, -⟩ := h
  refine ⟨fun p r => ?_, fun p => ?_, fun p a _ => ?_⟩
  · simp [roleStakeOf, registered, roleSum]
  · exact Nat.zero_le _
  · exact StorageMap.get_empty _

theorem Reaches.partiesRegistered (h : Reaches tr s) : PartiesRegistered s := by
  obtain ⟨s0, ⟨n, b, rfl, -⟩, hr⟩ := h
  refine hr.always ?_ fun _ _ _ hst => hst.partiesRegistered
  intro id pr hpr
  simp at hpr

theorem Reaches.registryExact (hback : T.currency.Backed T.maxBalance)
    (hhold : T.currency.HoldExact) (hburn : T.currency.BurnAtMost) (h : Reaches tr s)
    (hf : Along FreshProject tr) : RegistryExact s := by
  refine h.induct (I := fun _ t => RegistryExact t) hf (fun _ hinit => hinit.registryExact) ?_
  intro tr m a t hr _ hst hfresh hm
  exact hst.registryExact hback hhold hburn hfresh hr.partiesRegistered hm

/-- The quorum denominator is the exact sum of the registered stakes of its
role, and an id that was not handed out has neither stake nor stakeholders. -/
theorem roleStakeOf_eq_registered (hback : T.currency.Backed T.maxBalance)
    (hhold : T.currency.HoldExact) (hburn : T.currency.BurnAtMost) (h : Reachable s)
    (hids : ProjectIdsBelowMax s) :
    (∀ p r, s.roleStakeOf p r =
      s.stakeholders.sum fun k x => if k.1 = p ∧ x.role = r then x.stake else 0) ∧
    ∀ p, s.nextProjectId ≤ p →
      (∀ r, s.roleStakeOf p r = 0) ∧ ∀ a, s.stakeholders.get (p, a) = none := by
  obtain ⟨tr, hr⟩ := h
  obtain ⟨hfresh, hcount⟩ := hr.freshProject hids
  have hexact := hr.registryExact hback hhold hburn hfresh
  refine ⟨fun p r => ?_, fun p hp => ⟨fun r => ?_, fun a => hexact.fresh p a (hcount p hp)⟩⟩
  · exact hexact.roleStake p r
  · rw [hexact.roleStake]
    exact hexact.fresh_registered (hcount p hp) r

theorem roleStakeOf_eq_registered_slashed :
    let s := Mock.after [Mock.genesis .coreDeveloper (Mock.percent 50) 10 7, Mock.propose 8 1,
      Mock.challenge 0 2]
    s.roleStakeOf 0 .buildService = 1500 ∧
      s.stakeholders.sum (fun k x => if k.1 = 0 ∧ x.role = .buildService then x.stake else 0) =
        1500 ∧
      s.roleStakeOf 1 .buildService = 0 := by
  intro s
  have h := roleStakeOf_eq_registered (s := s) Ledger.backed Ledger.holdExact Ledger.burnAtMost
    ⟨_, Mock.reaches _⟩ (by decide +kernel)
  have h0 : s.roleStakeOf 0 .buildService = 1500 := by decide +kernel
  exact ⟨h0, (h.1 0 .buildService).symm.trans h0, (h.2 1 (by decide +kernel)).1 .buildService⟩

end Verigov
