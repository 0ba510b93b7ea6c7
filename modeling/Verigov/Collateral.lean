import Verigov.Registry

/-!
# Stake escrow

The stakes of an account in all its projects are pooled under one hold, while
the registry keeps them apart. `Step.funds` says which steps move more than
bonds: genesis holds what it registers and a counter-attestation burns what it
takes off, so the pool stays the sum of its parts and no burn falls short.
-/

namespace Verigov

open State Transition

variable {T : Config} {s s' : State T} {id : Nat}

namespace State

def stakes (s : State T) (a : T.AccountId) : Nat :=
  s.stakeholders.sum fun k x => if k.2 = a then x.stake else 0

def heldStake (s : State T) (a : T.AccountId) : Nat :=
  T.currency.balanceOnHold .stake a s.balances

end State

def Escrowed (s : State T) : Prop := ∀ a, s.heldStake a = s.stakes a

theorem stake_le_stakes {p : Nat} {a : T.AccountId} (hx : s.stakeholders.get (p, a) = some x) :
    x.stake ≤ s.stakes a := by
  have hle := StorageMap.le_sum (fun k (x : Stakeholder) => if k.2 = a then x.stake else 0) hx
  simpa [State.stakes] using hle

-- ---------------------------------------------------------------------------
-- Steps that move bonds only
-- ---------------------------------------------------------------------------

/-- A reading of the balances that is the same wherever the bonds are. -/
structure BondFree (f : T.currency.Ledger → β) : Prop where
  hold : ∀ who n b b', T.currency.hold .proposalBond who n b = .ok b' → f b' = f b
  release : ∀ who n b m b', T.currency.release .proposalBond who n b = .ok (m, b') → f b' = f b

variable {f : T.currency.Ledger → β}

theorem logRelease_funds (hf : BondFree f) (id now : Nat) (pr : Proposal T.AccountId)
    (s : State T) : f (logRelease id pr now s).balances = f s.balances := by
  unfold logRelease depositEvent
  cases hr : T.currency.release .proposalBond pr.proposer pr.bond s.balances with
  | ok mb => exact hf.release _ _ _ _ _ hr
  | error e => rfl

theorem nextBlock_funds (hf : BondFree f) (s : State T) :
    f (nextBlock s).balances = f s.balances := by
  refine nextBlock_induct (I := fun _ m => f m.balances = f s.balances) rfl ?_
  intro id ids m hm
  rcases enact_cases id (s.blockNumber + 1) m with
    ⟨pr, e, info, -, -, -, ⟨-, heq⟩ | ⟨-, heq⟩⟩ | ⟨heq, -⟩ <;> rw [heq]
  · exact (logRelease_funds hf id _ pr m).trans hm
  · exact hm
  · exact hm

/-- Everything a step can do to the registry and, bonds apart, to the balances. -/
theorem Step.funds (hf : BondFree f) (h : Step s act s') :
    (act.challenged = none ∧ act.isProjectGenesis = false ∧ s'.stakeholders = s.stakeholders ∧
        f s'.balances = f s.balances) ∨
      (∃ origin name xs policy slashing bond s1,
        act = .call origin (.projectGenesis name xs policy slashing bond) ∧
        xs.val.foldlM (registerStakeholder s.nextProjectId) s = .ok s1 ∧
        s'.stakeholders = s1.stakeholders ∧ s'.balances = s1.balances) ∨
      (∃ id pr info y slashed burned, act.challenged = some id ∧
        Slashes s id s' pr info y slashed ∧
        T.currency.burnHeld .stake pr.attestation.builder
          (info.slashing.sigmaNeg.mulFloor y.stake) s.balances = .ok (slashed, burned) ∧
        f s'.balances = f burned) ∨
      ∃ balances, act = .other balances ∧ s' = { s with balances } ∧ ∀ reason a,
        T.currency.balanceOnHold reason a balances =
          T.currency.balanceOnHold reason a s.balances := by
  cases h with
  | block => exact .inl ⟨rfl, rfl, (nextBlock_frame s).1.stakeholders, nextBlock_funds hf s⟩
  | failed => exact .inl ⟨rfl, rfl, rfl, rfl⟩
  | other balances h => exact .inr (.inr (.inr ⟨balances, rfl, rfl, h⟩))
  | call origin c h =>
    cases c with
    | projectGenesis name xs policy slashing bond =>
      obtain ⟨s1, -, -, hs1, -, rfl⟩ := projectGenesis_ok h
      exact .inr (.inl ⟨_, _, _, _, _, _, s1, rfl, hs1, rfl, rfl⟩)
    | newRelease p version att cid sig =>
      obtain ⟨who, info, x, y, balances, -, -, -, -, -, -, -, hhold, hv⟩ := newRelease_ok h
      refine .inl ⟨rfl, rfl, (doVote_frame hv).stakeholders, ?_⟩
      rw [(doVote_frame hv).balances]
      exact hf.hold _ _ _ _ hhold
    | vote id aye =>
      exact .inl ⟨rfl, rfl, (vote_frame h).stakeholders, by rw [(vote_frame h).balances]⟩
    | submitCounterAttestation id rebuilt =>
      obtain ⟨pr, info, y, slashed, hsl⟩ := submitCounterAttestation_slashes h
      obtain ⟨who, pr', info', y', slashed', burned, released, balances, -, hpr, hproj, -, -, -, -,
        hy, hburn, hrel, rfl⟩ := submitCounterAttestation_ok h
      have hb := hsl.burned
      rw [hsl.proposal] at hpr
      cases hpr
      rw [hsl.project] at hproj
      cases hproj
      rw [hsl.builder] at hy
      cases hy
      rw [hburn] at hb
      obtain ⟨_, hb⟩ := hb
      cases hb
      refine .inr (.inr (.inl ⟨id, pr, info, y, slashed, burned, rfl, hsl, hburn, ?_⟩))
      exact hf.release _ _ _ _ _ hrel
    | closeExpired id =>
      obtain ⟨who, pr, released, balances, -, -, -, -, hrel, rfl⟩ := closeExpired_ok h
      exact .inl ⟨rfl, rfl, rfl, hf.release _ _ _ _ _ hrel⟩

-- ---------------------------------------------------------------------------
-- The pool is the sum of its parts
-- ---------------------------------------------------------------------------

theorem stake_bondFree (hhold : T.currency.HoldExact) (hrel : T.currency.ReleaseKeepsReasons)
    (a : T.AccountId) : BondFree (T.currency.balanceOnHold .stake a) where
  hold who n b b' h := by simpa using hhold _ _ _ _ _ h .stake a
  release who n b m b' h := hrel _ _ _ _ _ _ h .stake a (by decide)

theorem registerAll_escrowed (hhold : T.currency.HoldExact)
    {xs : List (StakeholderInit T.AccountId)}
    (h : xs.foldlM (registerStakeholder p) s = .ok s') (hs : Escrowed s) : Escrowed s' := by
  refine foldlM_induct (I := Escrowed) h hs ?_
  intro x m m' hx hm a
  have hsum : m'.stakes a = m.stakes a + _ :=
    registerStakeholder_sum hx fun k x => if k.2 = a then x.stake else 0
  obtain ⟨balances, -, hok, rfl⟩ := registerStakeholder_ok hx
  have hheld : _ = m.heldStake a + _ := hhold _ _ _ _ _ hok .stake a
  rw [hsum, ← hm a]
  refine hheld.trans ?_
  simp only [true_and, eq_comm]

theorem Slashes.stakes (h : Slashes s id s' pr info y slashed) (hle : slashed ≤ y.stake)
    (a : T.AccountId) :
    s'.stakes a + (if a = pr.attestation.builder then slashed else 0) = s.stakes a := by
  have hsum := s.stakeholders.sum_insert (fun k x => if k.2 = a then x.stake else 0)
    (pr.projectId, pr.attestation.builder) { y with stake := y.stake - slashed }
  rw [h.builder, ← h.stakeholders] at hsum
  unfold State.stakes
  by_cases ha : a = pr.attestation.builder
  · subst ha
    simp only [Option.elim_some, if_true] at hsum ⊢
    omega
  · simpa [ha, Ne.symm ha] using hsum

theorem Escrowed.burn (hburn : T.currency.BurnExact) (hs : Escrowed s) {p : Nat} {q : Perbill}
    (hy : s.stakeholders.get (p, who) = some y)
    (h : T.currency.burnHeld .stake who (q.mulFloor y.stake) s.balances = .ok (m, b)) :
    m = q.mulFloor y.stake ∧ ∀ a, T.currency.balanceOnHold .stake a b +
      (if a = who then m else 0) = s.heldStake a := by
  obtain ⟨hm, hheld⟩ := hburn _ _ _ _ _ _ h
  have hcover : y.stake ≤ T.currency.balanceOnHold .stake who s.balances :=
    Nat.le_trans (stake_le_stakes hy) (Nat.le_of_eq (hs who).symm)
  have hle := q.mulFloor_le y.stake
  refine ⟨by omega, fun a => ?_⟩
  have ha := hheld .stake a
  unfold heldStake
  by_cases hw : a = who
  · subst hw
    simp only [and_self, if_true] at ha ⊢
    omega
  · simp only [hw, and_false, if_false] at ha ⊢
    omega

theorem Step.escrowed (hhold : T.currency.HoldExact) (hburn : T.currency.BurnExact)
    (hrel : T.currency.ReleaseKeepsReasons) (h : Step s act s') (hs : Escrowed s) :
    Escrowed s' := by
  intro a
  rcases h.funds (stake_bondFree hhold hrel a) with ⟨-, -, hst, hheld⟩ |
    ⟨_, _, _, _, _, _, s1, -, hs1, hst, hb⟩ |
    ⟨id, pr, info, y, slashed, burned, -, hsl, hb, hheld⟩ | ⟨balances, -, rfl, hb⟩
  · have hsame : s'.stakes a = s.stakes a := by
      unfold State.stakes
      rw [hst]
    exact hheld.trans ((hs a).trans hsame.symm)
  · have h1 := registerAll_escrowed hhold hs1 hs a
    unfold heldStake State.stakes at h1 ⊢
    rwa [hst, hb]
  · obtain ⟨hm, hall⟩ := hs.burn hburn hsl.builder hb
    have hle : slashed ≤ y.stake := hm ▸ info.slashing.sigmaNeg.mulFloor_le y.stake
    have hsum := hsl.stakes hle a
    have hpool := hall a
    have h0 := hs a
    unfold heldStake at hpool h0 ⊢
    omega
  · exact (hb .stake a).trans (hs a)

theorem Reaches.escrowed (hhold : T.currency.HoldExact) (hburn : T.currency.BurnExact)
    (hrel : T.currency.ReleaseKeepsReasons) (h : Reaches tr s) : Escrowed s := by
  obtain ⟨s0, ⟨n, b, rfl, hb⟩, hr⟩ := h
  refine hr.always (fun a => ?_) fun m act t hst hm => hst.escrowed hhold hburn hrel hm
  exact (hb .stake a).trans (StorageMap.sum_empty _).symm

/-- What is held of an account under the stake reason is the sum of its stakes
in all projects. So the burn of a counter-attestation is never short, and it
comes off one stake: that of the builder in the proposal's project. -/
theorem heldStake_eq_stakes (hhold : T.currency.HoldExact) (hburn : T.currency.BurnExact)
    (hrel : T.currency.ReleaseKeepsReasons) (h : Reachable s) :
    (∀ a, T.currency.balanceOnHold .stake a s.balances =
      s.stakeholders.sum fun k x => if k.2 = a then x.stake else 0) ∧
    (∀ id pr info y m b, s.proposals.get id = some pr →
      s.projects.get pr.projectId = some info →
      s.stakeholders.get (pr.projectId, pr.attestation.builder) = some y →
      T.currency.burnHeld .stake pr.attestation.builder
        (info.slashing.sigmaNeg.mulFloor y.stake) s.balances = .ok (m, b) →
      m = info.slashing.sigmaNeg.mulFloor y.stake) ∧
    ∀ origin id rebuilt s', submitCounterAttestation origin id rebuilt s = .ok s' →
      ∃ pr info y, s.proposals.get id = some pr ∧ s.projects.get pr.projectId = some info ∧
        s.stakeholders.get (pr.projectId, pr.attestation.builder) = some y ∧
        s'.stakeholders = s.stakeholders.insert (pr.projectId, pr.attestation.builder)
          { y with stake := y.stake - info.slashing.sigmaNeg.mulFloor y.stake } ∧
        ∀ a, T.currency.balanceOnHold .stake a s'.balances +
            (if a = pr.attestation.builder then info.slashing.sigmaNeg.mulFloor y.stake else 0) =
          T.currency.balanceOnHold .stake a s.balances ∧
          T.currency.balanceOnHold .stake a s'.balances =
            s'.stakeholders.sum fun k x => if k.2 = a then x.stake else 0 := by
  obtain ⟨tr, hr⟩ := h
  have hs := hr.escrowed hhold hburn hrel
  refine ⟨hs, fun id pr info y m b _ _ hy hb => (hs.burn hburn hy hb).1, ?_⟩
  intro origin id rebuilt s' hcall
  have hst : Step s _ s' := .call origin (.submitCounterAttestation id rebuilt) hcall
  have hs' := hst.escrowed hhold hburn hrel hs
  obtain ⟨pr, info, y, slashed, hsl⟩ := submitCounterAttestation_slashes hcall
  obtain ⟨b, hb⟩ := hsl.burned
  obtain ⟨rfl, -⟩ := hs.burn hburn hsl.builder hb
  refine ⟨pr, info, y, hsl.proposal, hsl.project, hsl.builder, hsl.stakeholders,
    fun a => ⟨?_, hs' a⟩⟩
  have hsum := hsl.stakes (info.slashing.sigmaNeg.mulFloor_le y.stake) a
  rw [← hs' a, ← hs a] at hsum
  exact hsum

theorem heldStake_eq_stakes_shared :
    let s := Mock.after [Mock.genesis .coreDeveloper (Mock.percent 50) 10 5,
      Mock.genesis .buildService (Mock.percent 50) 10 5, Mock.propose 8 1, Mock.challenge 0 2]
    Mock.Test.currency.balanceOnHold .stake 8 s.balances = 1500 ∧
      s.stakeholders.sum (fun k x => if k.2 = 8 then x.stake else 0) = 1500 ∧
      s.stakeholders.get (1, 8) = some ⟨.buildService, 1000⟩ := by
  intro s
  have h := heldStake_eq_stakes (s := s) Ledger.holdExact Ledger.burnExact
    Ledger.releaseKeepsReasons ⟨_, Mock.reaches _⟩
  have hheld : Mock.Test.currency.balanceOnHold .stake 8 s.balances = 1500 := by decide +kernel
  exact ⟨hheld, (h.1 8).symm.trans hheld, by decide +kernel⟩

end Verigov
