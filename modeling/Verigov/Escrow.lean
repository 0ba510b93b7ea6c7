import Verigov.Ids
import Verigov.Mock

/-!
# Bond escrow

All bonds of an account are pooled under one hold. `Step.escrow` accounts for
every step: what a step adds to or takes from the hold of an account, it adds
to or takes from the bonds of the account's open proposals. The one exception is
a `new_release` that overwrites an open proposal, whose bond then stays behind.
-/

namespace Verigov

open State Transition

variable {T : Config} {s s' : State T} {id : Nat}

def Proposal.bondOf [DecidableEq AccountId] (pr : Proposal AccountId) (a : AccountId) : Nat :=
  if pr.proposer = a ∧ pr.status.isOpen then pr.bond else 0

namespace State

def bonds (s : State T) (a : T.AccountId) : Nat := s.proposals.sum fun _ pr => pr.bondOf a

def heldBond (s : State T) (a : T.AccountId) : Nat :=
  T.currency.balanceOnHold .proposalBond a s.balances

end State

/-- The hold of every account covers the bonds of its open proposals. -/
def Covered (s : State T) : Prop := ∀ a, s.bonds a ≤ s.heldBond a

theorem bond_le_bonds (hpr : s.proposals.get id = some pr) (ho : pr.status.isOpen = true) :
    pr.bond ≤ s.bonds pr.proposer := by
  have hle := StorageMap.le_sum (fun _ (q : Proposal T.AccountId) => q.bondOf pr.proposer) hpr
  have hself : pr.bondOf pr.proposer = pr.bond := by simp [Proposal.bondOf, ho]
  exact hself ▸ hle

theorem bonds_withStatus (hpr : s.proposals.get id = some pr)
    (h : ∀ id', s'.proposals.get id' = withStatus s.proposals id status id') (a : T.AccountId) :
    s'.bonds a + pr.bondOf a = s.bonds a + { pr with status }.bondOf a := by
  have heq : s'.proposals = s.proposals.insert id { pr with status } := by
    apply StorageMap.ext
    intro id'
    rw [h, withStatus_insert hpr]
  have hsum := s.proposals.sum_insert (fun _ (q : Proposal T.AccountId) => q.bondOf a) id
    { pr with status }
  rw [hpr, ← heq] at hsum
  exact hsum

theorem bonds_of_open (hpr : s.proposals.get id = some pr) (ho : pr.status.isOpen = true)
    (ho' : status.isOpen = true)
    (h : ∀ id', s'.proposals.get id' = withStatus s.proposals id status id') (a : T.AccountId) :
    s'.bonds a = s.bonds a := by
  have hb := bonds_withStatus hpr h a
  simp only [Proposal.bondOf, ho, ho'] at hb
  omega

theorem bonds_of_closed (hpr : s.proposals.get id = some pr) (ho : pr.status.isOpen = true)
    (ho' : status.isOpen = false)
    (h : ∀ id', s'.proposals.get id' = withStatus s.proposals id status id') (a : T.AccountId) :
    s'.bonds a + (if a = pr.proposer then pr.bond else 0) = s.bonds a := by
  have hb := bonds_withStatus hpr h a
  simp only [Proposal.bondOf, ho, ho', and_true, Bool.false_eq_true, and_false, if_false] at hb
  by_cases ha : a = pr.proposer
  · subst ha
    simpa using hb
  · simpa [ha, Ne.symm ha] using hb

theorem bonds_congr (h : s'.proposals = s.proposals) : s'.bonds = s.bonds := by
  funext a
  simp [bonds, h]

-- ---------------------------------------------------------------------------
-- Calls
-- ---------------------------------------------------------------------------

theorem doVote_bonds (h : doVote id p info who voter aye now s = .ok s')
    (ho : ∀ pr, s.proposals.get id = some pr → pr.status.isOpen = true) (a : T.AccountId) :
    s'.bonds a = s.bonds a := by
  obtain ⟨pr, hpr, ⟨-, -, ids, -, rfl⟩ | ⟨enactAt, -, -, rfl⟩ | ⟨rfl, -⟩⟩ := doVote_ok h
  · exact bonds_of_open hpr (ho pr hpr) rfl
      (approve_get (recordVote id who voter aye s) id _ ids) a
  · exact bonds_of_open hpr (ho pr hpr) rfl
      (revokeApproval_get (recordVote id who voter aye s) id enactAt) a
  · rfl

theorem registerAll_heldBond (hhold : T.currency.HoldExact)
    {xs : List (StakeholderInit T.AccountId)}
    (h : xs.foldlM (registerStakeholder p) s = .ok s') : s'.heldBond = s.heldBond := by
  refine foldlM_induct (I := fun m => m.heldBond = s.heldBond) h rfl ?_
  intro x m m' hx hm
  obtain ⟨balances, -, hok, rfl⟩ := registerStakeholder_ok hx
  rw [← hm]
  funext a
  have hheld := hhold _ _ _ _ _ hok .proposalBond a
  simp only [reduceCtorEq, false_and, if_false, Nat.add_zero] at hheld
  exact hheld

def overwritten (s : State T) (act : Action T) (a : T.AccountId) : Nat :=
  match act with
  | .call _ (.newRelease ..) => (s.proposals.get s.nextProposalId).elim 0 (·.bondOf a)
  | _ => 0

theorem newRelease_escrow (hhold : T.currency.HoldExact)
    (h : newRelease origin p version att cid sig s = .ok s') (a : T.AccountId) :
    s'.heldBond a + s.bonds a = s.heldBond a + s'.bonds a +
      overwritten s (.call origin (.newRelease p version att cid sig)) a := by
  obtain ⟨who, info, x, y, balances, -, -, -, -, -, -, -, hok, hv⟩ := newRelease_ok h
  have hheld := hhold _ _ _ _ _ hok .proposalBond a
  have hbal : s'.heldBond a = T.currency.balanceOnHold .proposalBond a balances := by
    unfold heldBond
    rw [(doVote_frame hv).balances]
    rfl
  have hbonds : s'.bonds a =
      (addProposal (newProposal info who p version att cid s) balances s).bonds a := by
    refine doVote_bonds hv ?_ a
    intro pr hpr
    rw [addProposal_get_self] at hpr
    cases hpr
    rfl
  have hsum := s.proposals.sum_insert (fun _ (q : Proposal T.AccountId) => q.bondOf a)
    s.nextProposalId (newProposal info who p version att cid s)
  have hnew : (newProposal info who p version att cid s).bondOf a =
      if a = who then info.proposalBond else 0 := by
    by_cases ha : a = who
    · simp [Proposal.bondOf, newProposal, ProposalStatus.isOpen, ha]
    · simp [Proposal.bondOf, newProposal, ha, Ne.symm ha]
  have hadd : (addProposal (newProposal info who p version att cid s) balances s).bonds a +
      overwritten s (.call origin (.newRelease p version att cid sig)) a =
      s.bonds a + if a = who then info.proposalBond else 0 := by
    rw [← hnew]
    exact hsum
  rw [hbal, hbonds, hheld]
  unfold heldBond
  simp only [true_and]
  omega

theorem closing_escrow (s' : State T) (status : ProposalStatus) (hrel : T.currency.ReleaseExact)
    (hpr : s.proposals.get id = some pr) (ho : pr.status.isOpen = true)
    (ho' : status.isOpen = false)
    (hcov : s.bonds pr.proposer ≤ T.currency.balanceOnHold .proposalBond pr.proposer b)
    (hr : T.currency.release .proposalBond pr.proposer pr.bond b = .ok (m, s'.balances))
    (hget : ∀ id', s'.proposals.get id' = withStatus s.proposals id status id') :
    m = pr.bond ∧ ∀ a, s'.heldBond a + s.bonds a =
      T.currency.balanceOnHold .proposalBond a b + s'.bonds a := by
  obtain ⟨hm, hheld⟩ := hrel.eq_of_le (Nat.le_trans (bond_le_bonds hpr ho) hcov) hr
  refine ⟨hm, fun a => ?_⟩
  have ha := hheld a
  have hb := bonds_of_closed hpr ho ho' hget a
  unfold heldBond
  omega

/-- The whole bond leaves the hold of the proposer. -/
theorem bond_released (hrel : T.currency.ReleaseExact) (hpr : s.proposals.get id = some pr)
    (ho : pr.status.isOpen = true)
    (hcov : s.bonds pr.proposer ≤ T.currency.balanceOnHold .proposalBond pr.proposer b)
    (hr : T.currency.release .proposalBond pr.proposer pr.bond b = .ok (m, b')) :
    T.currency.balanceOnHold .proposalBond pr.proposer b' + pr.bond =
      T.currency.balanceOnHold .proposalBond pr.proposer b := by
  have hheld := (hrel.eq_of_le (Nat.le_trans (bond_le_bonds hpr ho) hcov) hr).2 pr.proposer
  rwa [if_pos rfl] at hheld

theorem closeExpired_escrow (hrel : T.currency.ReleaseExact) (hs : Covered s)
    (h : closeExpired origin id s = .ok s') :
    (∃ pr, s.proposals.get id = some pr ∧
      T.currency.release .proposalBond pr.proposer pr.bond s.balances =
        .ok (pr.bond, s'.balances)) ∧
    ∀ a, s'.heldBond a + s.bonds a = s.heldBond a + s'.bonds a := by
  obtain ⟨who, pr, released, balances, -, hpr, hst, -, hr, rfl⟩ := closeExpired_ok h
  have ho : pr.status.isOpen = true := by rw [hst]; rfl
  obtain ⟨rfl, hacc⟩ := closing_escrow (depositEvent (.proposalExpired id)
    { s with balances, proposals := s.proposals.insert id { pr with status := .expired } })
    .expired hrel hpr ho rfl (hs pr.proposer) hr (withStatus_insert hpr _)
  exact ⟨⟨pr, hpr, hr⟩, hacc⟩

theorem submitCounterAttestation_escrow (hrel : T.currency.ReleaseExact)
    (hburn : T.currency.BurnKeepsReasons) (hs : Covered s)
    (h : submitCounterAttestation origin id rebuilt s = .ok s') :
    (∃ pr n slashed burned, s.proposals.get id = some pr ∧
      T.currency.burnHeld .stake pr.attestation.builder n s.balances = .ok (slashed, burned) ∧
      T.currency.release .proposalBond pr.proposer pr.bond burned = .ok (pr.bond, s'.balances)) ∧
    ∀ a, s'.heldBond a + s.bonds a = s.heldBond a + s'.bonds a := by
  obtain ⟨who, pr, info, y, slashed, burned, released, balances, -, hpr, -, -, -, -, ho, -, hb, hr,
    rfl⟩ := submitCounterAttestation_ok h
  have hsame : ∀ a, T.currency.balanceOnHold .proposalBond a burned = s.heldBond a :=
    fun a => hburn _ _ _ _ _ _ hb .proposalBond a (by decide)
  obtain ⟨rfl, hacc⟩ := closing_escrow
    (rejectProposal who id pr rebuilt y slashed balances (unscheduled id pr.status s)) .rejected
    hrel hpr ho rfl (hsame pr.proposer ▸ hs pr.proposer) hr
    (fun id' => by rw [← withStatus_insert hpr]; cases pr.status <;> rfl)
  exact ⟨⟨pr, _, slashed, burned, hpr, hb, hr⟩, fun a => hsame a ▸ hacc a⟩

-- ---------------------------------------------------------------------------
-- The hook
-- ---------------------------------------------------------------------------

theorem logRelease_escrow (hrel : T.currency.ReleaseExact) (hs : Covered s)
    (hpr : s.proposals.get id = some pr) (hst : pr.status = .approved e) (now : Nat) :
    T.currency.release .proposalBond pr.proposer pr.bond s.balances =
        .ok (pr.bond, (logRelease id pr now s).balances) ∧
      ∀ a, (logRelease id pr now s).heldBond a + s.bonds a =
        s.heldBond a + (logRelease id pr now s).bonds a := by
  have ho : pr.status.isOpen = true := by rw [hst]; rfl
  obtain ⟨b, hr, -⟩ := hrel.whole (Nat.le_trans (bond_le_bonds hpr ho) (hs pr.proposer))
  have hb : (logRelease id pr now s).balances = b := by simp [logRelease, hr, depositEvent]
  rw [← hb] at hr
  exact ⟨hr, (closing_escrow _ .enacted hrel hpr ho rfl (hs pr.proposer) hr
    (withStatus_insert hpr _)).2⟩

theorem enact_escrow (hrel : T.currency.ReleaseExact) (hs : Covered s) (id now : Nat)
    (a : T.AccountId) :
    (enact id now s).heldBond a + s.bonds a = s.heldBond a + (enact id now s).bonds a := by
  rcases enact_cases id now s with ⟨pr, e, info, hpr, hst, -, ⟨-, heq⟩ | ⟨-, heq⟩⟩ | ⟨heq, -⟩ <;>
    rw [heq]
  · exact (logRelease_escrow hrel hs hpr hst now).2 a
  · have ho : pr.status.isOpen = true := by rw [hst]; rfl
    rw [bonds_of_open hpr ho rfl (revokeAtEnactment_get s id) a]
    rfl

theorem Covered.of_escrow {n : T.AccountId → Nat} (hs : Covered s)
    (h : ∀ a, s'.heldBond a + s.bonds a = s.heldBond a + s'.bonds a + n a) : Covered s' := by
  intro a
  have h1 := hs a
  have h2 := h a
  omega

theorem hookState_escrow (hrel : T.currency.ReleaseExact) (hs : Covered s) (ids : List Nat) :
    Covered (hookState s ids) ∧ ∀ a,
      (hookState s ids).heldBond a + s.bonds a = s.heldBond a + (hookState s ids).bonds a := by
  refine hookState_induct ids [] (I := fun _ m => Covered m ∧ ∀ a, m.heldBond a + s.bonds a =
    s.heldBond a + m.bonds a) ⟨hs, fun a => rfl⟩ ?_
  rintro id ids m ⟨hm, hacc⟩
  have he := enact_escrow hrel hm id (s.blockNumber + 1)
  refine ⟨hm.of_escrow (n := fun _ => 0) he, fun a => ?_⟩
  have h1 := hacc a
  have h2 := he a
  omega

-- ---------------------------------------------------------------------------
-- Every step
-- ---------------------------------------------------------------------------

theorem Step.escrow (hhold : T.currency.HoldExact) (hrel : T.currency.ReleaseExact)
    (hburn : T.currency.BurnKeepsReasons) (h : Step s act s') (hs : Covered s) (a : T.AccountId) :
    s'.heldBond a + s.bonds a = s.heldBond a + s'.bonds a + overwritten s act a := by
  cases h with
  | block =>
    rw [nextBlock_eq]
    exact (hookState_escrow hrel hs _).2 a
  | failed => rfl
  | other balances h =>
    have hheld : State.heldBond { s with balances } a = s.heldBond a := h .proposalBond a
    rw [hheld]
    rfl
  | call origin c h =>
    cases c with
    | projectGenesis name xs policy slashing bond =>
      obtain ⟨s1, -, -, hs1, -, rfl⟩ := projectGenesis_ok h
      have hheld := congrFun (registerAll_heldBond hhold hs1) a
      have hbonds := congrFun (bonds_congr (registerAll_frame hs1).proposals) a
      change s1.heldBond a + s.bonds a = s.heldBond a + s1.bonds a
      omega
    | newRelease p version att cid sig => exact newRelease_escrow hhold h a
    | vote id aye =>
      obtain ⟨who, pr, info, voter, -, hpr, ho, -, -, -, hv⟩ := vote_ok h
      have hheld : s'.heldBond a = s.heldBond a := by
        unfold heldBond
        rw [(doVote_frame hv).balances]
      rw [hheld, doVote_bonds hv (fun pr' hpr' => by rw [hpr] at hpr'; cases hpr'; exact ho) a]
      rfl
    | submitCounterAttestation id rebuilt =>
      exact (submitCounterAttestation_escrow hrel hburn hs h).2 a
    | closeExpired id => exact (closeExpired_escrow hrel hs h).2 a

theorem Reaches.covered (hhold : T.currency.HoldExact) (hrel : T.currency.ReleaseExact)
    (hburn : T.currency.BurnKeepsReasons) (h : Reaches tr s) : Covered s := by
  obtain ⟨s0, ⟨n, b, rfl, hb⟩, hr⟩ := h
  refine hr.always (fun a => Nat.zero_le _) fun m act t hst hm => ?_
  exact hm.of_escrow (hst.escrow hhold hrel hburn hm)

theorem Reaches.heldBond (hhold : T.currency.HoldExact) (hrel : T.currency.ReleaseExact)
    (hburn : T.currency.BurnKeepsReasons) (h : Reaches tr s) (hf : Along FreshProposal tr)
    (a : T.AccountId) : s.heldBond a = s.bonds a := by
  refine h.induct (I := fun _ t => t.heldBond a = t.bonds a) hf ?_ ?_
  · rintro _ ⟨n, b, rfl, hb⟩
    exact (hb .proposalBond a).trans (StorageMap.sum_empty _).symm
  · intro tr m act t hr _ hst hfresh hm
    have hcov : Covered m := hr.covered hhold hrel hburn
    have hacc := hst.escrow hhold hrel hburn hcov a
    have hnone : overwritten m act a = 0 := by
      cases act with
      | call origin c =>
        cases c with
        | newRelease => simp [overwritten, hfresh rfl]
        | _ => rfl
      | _ => rfl
    omega

-- ---------------------------------------------------------------------------
-- Each bond once
-- ---------------------------------------------------------------------------

/-- The step held a proposal's bond or gave it back whole. -/
def BondMoved (s : State T) (act : Action T) (s' : State T) : Prop :=
  match act with
  | .call _ (.newRelease ..) => ∃ pr, s'.proposals.get s.nextProposalId = some pr ∧
      T.currency.hold .proposalBond pr.proposer pr.bond s.balances = .ok s'.balances
  | .call _ (.submitCounterAttestation id _) => ∃ pr n slashed burned,
      s.proposals.get id = some pr ∧
      T.currency.burnHeld .stake pr.attestation.builder n s.balances = .ok (slashed, burned) ∧
      T.currency.release .proposalBond pr.proposer pr.bond burned = .ok (pr.bond, s'.balances)
  | .call _ (.closeExpired id) => ∃ pr, s.proposals.get id = some pr ∧
      T.currency.release .proposalBond pr.proposer pr.bond s.balances = .ok (pr.bond, s'.balances)
  | .block => ∀ before id rest, (s.pendingAt (s.blockNumber + 1)).val = before ++ id :: rest →
      ∀ pr enactAt project, (hookState s before).proposals.get id = some pr →
        pr.status = .approved enactAt →
        (hookState s before).projects.get pr.projectId = some project →
        meetsQuorums pr.projectId project id (hookState s before) = true →
        T.currency.release .proposalBond pr.proposer pr.bond (hookState s before).balances =
          .ok (pr.bond, (hookState s (before ++ [id])).balances)
  | _ => True

theorem Step.bondMoved (hrel : T.currency.ReleaseExact) (hburn : T.currency.BurnKeepsReasons)
    (h : Step s act s') (hs : Covered s) : BondMoved s act s' := by
  cases h with
  | block =>
    intro before id rest _ pr enactAt project hpr hst hproj hmet
    have hcov := (hookState_escrow hrel hs before).1
    rw [hookState_append]
    rcases enact_cases id (s.blockNumber + 1) (hookState s before) with
      ⟨pr', e, info, hpr', -, hproj', ⟨-, heq⟩ | ⟨hno, -⟩⟩ | ⟨-, hno⟩
    · rw [hpr] at hpr'
      cases hpr'
      rw [heq]
      exact (logRelease_escrow hrel hcov hpr hst _).1
    · rw [hpr] at hpr'
      cases hpr'
      rw [hproj] at hproj'
      cases hproj'
      rw [hmet] at hno
      cases hno
    · have hnone := hno pr enactAt hpr hst
      rw [hproj] at hnone
      cases hnone
  | failed => trivial
  | other => trivial
  | call origin c h =>
    cases c with
    | newRelease p version att cid sig =>
      obtain ⟨-, -, -, -, -, -, -, hhold, -, hput⟩ := newRelease_filed h
      exact ⟨_, hput, hhold⟩
    | submitCounterAttestation id rebuilt =>
      exact (submitCounterAttestation_escrow hrel hburn hs h).1
    | closeExpired id => exact (closeExpired_escrow hrel hs h).1
    | _ => trivial

def files (id : Nat) (x : State T × Action T × State T) : Bool :=
  !x.1.proposals.containsKey id && x.2.2.proposals.containsKey id

def settles (id : Nat) (status : ProposalStatus) (x : State T × Action T × State T) : Bool :=
  (x.1.proposals.get id).any (·.status.isOpen) && (x.2.2.proposals.get id).any (·.status == status)

theorem Step.files_settles (h : Step s act s') (id : Nat) (hf : FreshProposal s act)
    (hclosed : status.isOpen = false) :
    (if files id (s, act, s') then 1 else 0) + (if s.proposals.containsKey id then 1 else 0) =
        (if s'.proposals.containsKey id then 1 else 0) ∧
      (if settles id status (s, act, s') then 1 else 0) +
          (if (s.proposals.get id).any (·.status == status) then 1 else 0) =
        if (s'.proposals.get id).any (·.status == status) then 1 else 0 := by
  rcases h.proposal id with hfiled | ⟨h0, h1⟩ | ⟨pr, st, h0, h1, hm⟩
  · obtain ⟨rfl, -, -, -, -, -, -, -, hor, hput⟩ := hfiled
    have hnone := hf rfl
    simp only [files, settles, StorageMap.containsKey, hnone, hput]
    rcases hor with rfl | ⟨e, rfl⟩ <;> cases status <;> simp_all [ProposalStatus.isOpen]
  · simp [files, settles, StorageMap.containsKey, h0, h1]
  · refine ⟨by simp [files, StorageMap.containsKey, h0, h1], ?_⟩
    cases ho : pr.status.isOpen with
    | true =>
      have hne : pr.status ≠ status := by
        rintro rfl
        rw [ho] at hclosed
        cases hclosed
      simp [settles, h0, h1, ho, hne]
    | false => simp [settles, h0, h1, ho, hm.closed ho]

theorem Reaches.files_settles (h : Reaches tr s) (id : Nat) (status : ProposalStatus)
    (hf : Along FreshProposal tr)
    (hclosed : status.isOpen = false) :
    (stepsOf tr s).countP (files id) = (if s.proposals.containsKey id then 1 else 0) ∧
      (stepsOf tr s).countP (settles id status) =
        if (s.proposals.get id).any (·.status == status) then 1 else 0 := by
  obtain ⟨s0, ⟨n, b, rfl, -⟩, hr⟩ := h
  refine hr.induct (I := fun tr t =>
    (stepsOf tr t).countP (files id) = (if t.proposals.containsKey id then 1 else 0) ∧
      (stepsOf tr t).countP (settles id status) =
        if (t.proposals.get id).any (·.status == status) then 1 else 0) hf
    (by simp [stepsOf, StorageMap.containsKey]) ?_
  rintro tr m act t - - hst hfresh ⟨ih1, ih2⟩
  obtain ⟨h1, h2⟩ := hst.files_settles id hfresh hclosed
  simp only [stepsOf_snoc, List.countP_append, List.countP_singleton, ih1, ih2]
  omega

/-- What is held of an account under the bond reason is the sum of the bonds of
its open proposals. Every bond is held when its proposal is filed, which happens
once, and given back whole when it closes, which happens at most once and in
one way. -/
theorem heldBond_eq_bonds (hhold : T.currency.HoldExact) (hrel : T.currency.ReleaseExact)
    (hburn : T.currency.BurnKeepsReasons) (h : Reaches tr s) (hids : ProposalIdsBelowMax s) :
    (∀ a, T.currency.balanceOnHold .proposalBond a s.balances = s.proposals.sum fun _ pr =>
      if pr.proposer = a ∧ pr.status.isOpen then pr.bond else 0) ∧
    (∀ x ∈ stepsOf tr s, BondMoved x.1 x.2.1 x.2.2) ∧
    ∀ id pr, s.proposals.get id = some pr →
      (stepsOf tr s).countP (files id) = 1 ∧
      ∀ status, status.isOpen = false →
        (stepsOf tr s).countP (settles id status) = if pr.status = status then 1 else 0 := by
  have hf := (h.freshProposal hids).1
  refine ⟨fun a => h.heldBond hhold hrel hburn hf a, ?_, fun id pr hpr => ?_⟩
  · refine h.induct (I := fun tr t => ∀ x ∈ stepsOf tr t, BondMoved x.1 x.2.1 x.2.2) hf
      (by simp [stepsOf]) ?_
    intro tr m act t hr _ hst _ ih x hx
    rw [stepsOf_snoc, List.mem_append, List.mem_singleton] at hx
    rcases hx with hx | rfl
    · exact ih x hx
    · exact hst.bondMoved hrel hburn (hr.covered hhold hrel hburn)
  · refine ⟨?_, fun status hclosed => ?_⟩
    · rw [(h.files_settles id .expired hf rfl).1, StorageMap.containsKey, hpr]
      rfl
    · rw [(h.files_settles id status hf hclosed).2, hpr]
      simp

theorem heldBond_eq_bonds_challenged :
    let as := [Mock.genesis .coreDeveloper (Mock.percent 50) 10 7, Mock.propose 8 1,
      Mock.propose 9 2, Mock.challenge 0 3]
    Mock.Test.currency.balanceOnHold .proposalBond 1 (Mock.after as).balances = 7 ∧
      (stepsOf (Mock.trace as) (Mock.after as)).countP (settles 0 .rejected) = 1 := by
  intro as
  have h := heldBond_eq_bonds Ledger.holdExact Ledger.releaseExact Ledger.burnKeepsReasons
    (Mock.reaches as) (by decide +kernel)
  obtain ⟨pr, hpr, hst⟩ : ∃ pr, (Mock.after as).proposals.get 0 = some pr ∧ pr.status = .rejected :=
    ⟨((Mock.after as).proposals.get 0).get (by decide +kernel), by simp, by decide +kernel⟩
  refine ⟨(h.1 1).trans (by decide +kernel), ?_⟩
  rw [((h.2.2 0 pr hpr).2 .rejected rfl), if_pos hst]

end Verigov
