import Verigov.Laws

/-!
# What each function leaves alone

Each function writes a few of the storage items. The structures below list the
others, once per group of functions, so that a proof about one item can skip
the functions that do not touch it.
-/

namespace Verigov

open State

variable {T : Config} {s s' : State T} {id : Nat}

/-- What a vote leaves alone: it writes votes, tallies, statuses, the schedule
and events. -/
structure VoteFrame (s s' : State T) : Prop where
  blockNumber : s'.blockNumber = s.blockNumber
  balances : s'.balances = s.balances
  nextProjectId : s'.nextProjectId = s.nextProjectId
  nextProposalId : s'.nextProposalId = s.nextProposalId
  projects : s'.projects = s.projects
  stakeholders : s'.stakeholders = s.stakeholders
  roleStake : s'.roleStake = s.roleStake
  releaseCount : s'.releaseCount = s.releaseCount
  releaseLog : s'.releaseLog = s.releaseLog
  counterAttestations : s'.counterAttestations = s.counterAttestations

theorem VoteFrame.trans {s'' : State T} (h : VoteFrame s s') (h' : VoteFrame s' s'') :
    VoteFrame s s'' :=
  ⟨h'.1.trans h.1, h'.2.trans h.2, h'.3.trans h.3, h'.4.trans h.4, h'.5.trans h.5, h'.6.trans h.6,
    h'.7.trans h.7, h'.8.trans h.8, h'.9.trans h.9, h'.10.trans h.10⟩

theorem recordVote_frame (id : Nat) (who : T.AccountId) (voter : Stakeholder) (aye : Bool)
    (s : State T) : VoteFrame s (recordVote id who voter aye s) :=
  ⟨rfl, rfl, rfl, rfl, rfl, rfl, rfl, rfl, rfl, rfl⟩

theorem approve_frame (id enactAt : Nat) (ids : BoundedVec Nat maxEnactmentsPerBlock)
    (s : State T) : VoteFrame s (approve id enactAt ids s) :=
  ⟨rfl, rfl, rfl, rfl, rfl, rfl, rfl, rfl, rfl, rfl⟩

theorem revokeApproval_frame (id enactAt : Nat) (s : State T) :
    VoteFrame s (revokeApproval id enactAt s) :=
  ⟨rfl, rfl, rfl, rfl, rfl, rfl, rfl, rfl, rfl, rfl⟩

theorem doVote_frame (h : doVote id p project who voter aye now s = .ok s') : VoteFrame s s' := by
  have hrec := recordVote_frame id who voter aye s
  obtain ⟨pr, -, ⟨-, -, ids, -, rfl⟩ | ⟨enactAt, -, -, rfl⟩ | ⟨rfl, -⟩⟩ := doVote_ok h
  · exact hrec.trans (approve_frame ..)
  · exact hrec.trans (revokeApproval_frame ..)
  · exact hrec

theorem vote_frame (h : vote origin id aye s = .ok s') : VoteFrame s s' := by
  obtain ⟨who, pr, project, voter, -, -, -, -, -, -, hv⟩ := vote_ok h
  exact doVote_frame hv

theorem doVote_votes (h : doVote id p project who voter aye now s = .ok s') :
    s'.votes = (recordVote id who voter aye s).votes ∧
      s'.tallies = (recordVote id who voter aye s).tallies := by
  obtain ⟨pr, -, ⟨-, -, ids, -, rfl⟩ | ⟨enactAt, -, -, rfl⟩ | ⟨rfl, -⟩⟩ := doVote_ok h <;>
    exact ⟨rfl, rfl⟩

structure ReleaseFrame (s s' : State T) : Prop where
  blockNumber : s'.blockNumber = s.blockNumber
  nextProjectId : s'.nextProjectId = s.nextProjectId
  projects : s'.projects = s.projects
  stakeholders : s'.stakeholders = s.stakeholders
  roleStake : s'.roleStake = s.roleStake
  releaseCount : s'.releaseCount = s.releaseCount
  releaseLog : s'.releaseLog = s.releaseLog
  counterAttestations : s'.counterAttestations = s.counterAttestations

theorem newRelease_frame (h : newRelease origin p version att cid sig s = .ok s') :
    ReleaseFrame s s' := by
  obtain ⟨who, info, x, y, balances, -, -, -, -, -, -, -, -, hv⟩ := newRelease_ok h
  have hf := doVote_frame hv
  exact ⟨hf.blockNumber, hf.nextProjectId, hf.projects, hf.stakeholders, hf.roleStake,
    hf.releaseCount, hf.releaseLog, hf.counterAttestations⟩

structure CloseFrame (s s' : State T) : Prop where
  blockNumber : s'.blockNumber = s.blockNumber
  nextProjectId : s'.nextProjectId = s.nextProjectId
  nextProposalId : s'.nextProposalId = s.nextProposalId
  projects : s'.projects = s.projects
  votes : s'.votes = s.votes
  tallies : s'.tallies = s.tallies
  releaseCount : s'.releaseCount = s.releaseCount
  releaseLog : s'.releaseLog = s.releaseLog

theorem submitCounterAttestation_frame (h : submitCounterAttestation origin id rebuilt s = .ok s') :
    CloseFrame s s' := by
  obtain ⟨who, pr, project, builder, slashed, burned, released, balances, -, -, -, -, -, -, -, -,
    -, -, rfl⟩ := submitCounterAttestation_ok h
  cases pr.status <;> exact ⟨rfl, rfl, rfl, rfl, rfl, rfl, rfl, rfl⟩

theorem closeExpired_frame (h : closeExpired origin id s = .ok s') : CloseFrame s s' := by
  obtain ⟨who, pr, released, balances, -, -, -, -, -, rfl⟩ := closeExpired_ok h
  exact ⟨rfl, rfl, rfl, rfl, rfl, rfl, rfl, rfl⟩

structure RegisterFrame (s s' : State T) : Prop where
  blockNumber : s'.blockNumber = s.blockNumber
  nextProjectId : s'.nextProjectId = s.nextProjectId
  nextProposalId : s'.nextProposalId = s.nextProposalId
  projects : s'.projects = s.projects
  proposals : s'.proposals = s.proposals
  votes : s'.votes = s.votes
  tallies : s'.tallies = s.tallies
  releaseCount : s'.releaseCount = s.releaseCount
  releaseLog : s'.releaseLog = s.releaseLog
  counterAttestations : s'.counterAttestations = s.counterAttestations
  pendingEnactments : s'.pendingEnactments = s.pendingEnactments

theorem registerStakeholder_frame (h : registerStakeholder p s x = .ok s') :
    RegisterFrame s s' := by
  obtain ⟨balances, -, -, rfl⟩ := registerStakeholder_ok h
  exact ⟨rfl, rfl, rfl, rfl, rfl, rfl, rfl, rfl, rfl, rfl, rfl⟩

theorem RegisterFrame.trans {s'' : State T} (h : RegisterFrame s s') (h' : RegisterFrame s' s'') :
    RegisterFrame s s'' :=
  ⟨h'.1.trans h.1, h'.2.trans h.2, h'.3.trans h.3, h'.4.trans h.4, h'.5.trans h.5, h'.6.trans h.6,
    h'.7.trans h.7, h'.8.trans h.8, h'.9.trans h.9, h'.10.trans h.10, h'.11.trans h.11⟩

theorem registerAll_frame {xs : List (StakeholderInit T.AccountId)}
    (h : xs.foldlM (registerStakeholder p) s = .ok s') : RegisterFrame s s' := by
  refine foldlM_induct (I := RegisterFrame s) h ?_ ?_
  · exact ⟨rfl, rfl, rfl, rfl, rfl, rfl, rfl, rfl, rfl, rfl, rfl⟩
  · intro x m m' hx hm
    exact hm.trans (registerStakeholder_frame hx)

/-- What the hook leaves alone: it writes the block number, the schedule,
proposals, the log, balances and events. -/
structure HookFrame (s s' : State T) : Prop where
  nextProjectId : s'.nextProjectId = s.nextProjectId
  nextProposalId : s'.nextProposalId = s.nextProposalId
  projects : s'.projects = s.projects
  stakeholders : s'.stakeholders = s.stakeholders
  roleStake : s'.roleStake = s.roleStake
  votes : s'.votes = s.votes
  tallies : s'.tallies = s.tallies
  counterAttestations : s'.counterAttestations = s.counterAttestations

theorem enact_frame (id : Nat) (now : Nat) (s : State T) :
    HookFrame s (enact id now s) ∧ (enact id now s).blockNumber = s.blockNumber ∧
      (enact id now s).pendingEnactments = s.pendingEnactments := by
  rcases enact_cases id now s with ⟨pr, e, project, -, -, -, ⟨-, heq⟩ | ⟨-, heq⟩⟩ | ⟨heq, -⟩ <;>
    rw [heq] <;> exact ⟨⟨rfl, rfl, rfl, rfl, rfl, rfl, rfl, rfl⟩, rfl, rfl⟩

theorem HookFrame.trans {s'' : State T} (h : HookFrame s s') (h' : HookFrame s' s'') :
    HookFrame s s'' :=
  ⟨h'.1.trans h.1, h'.2.trans h.2, h'.3.trans h.3, h'.4.trans h.4, h'.5.trans h.5, h'.6.trans h.6,
    h'.7.trans h.7, h'.8.trans h.8⟩

theorem hookState_frame (s : State T) (ids : List Nat) :
    HookFrame s (hookState s ids) ∧ (hookState s ids).blockNumber = s.blockNumber + 1 ∧
      (hookState s ids).pendingEnactments = s.pendingEnactments.remove (s.blockNumber + 1) := by
  refine hookState_induct ids [] (I := fun _ m => HookFrame s m ∧
    m.blockNumber = s.blockNumber + 1 ∧
    m.pendingEnactments = s.pendingEnactments.remove (s.blockNumber + 1)) ?_ ?_
  · exact ⟨⟨rfl, rfl, rfl, rfl, rfl, rfl, rfl, rfl⟩, rfl, rfl⟩
  · rintro id ids m ⟨hf, hn, hp⟩
    obtain ⟨hf', hn', hp'⟩ := enact_frame id (s.blockNumber + 1) m
    exact ⟨hf.trans hf', hn'.trans hn, hp'.trans hp⟩

theorem nextBlock_frame (s : State T) :
    HookFrame s (nextBlock s) ∧ (nextBlock s).blockNumber = s.blockNumber + 1 ∧
      (nextBlock s).pendingEnactments = s.pendingEnactments.remove (s.blockNumber + 1) := by
  rw [nextBlock_eq]
  exact hookState_frame s _

structure CallFrame (s s' : State T) : Prop where
  blockNumber : s'.blockNumber = s.blockNumber
  releaseCount : s'.releaseCount = s.releaseCount
  releaseLog : s'.releaseLog = s.releaseLog

theorem dispatch_frame (h : dispatch origin c s = .ok s') : CallFrame s s' := by
  cases c with
  | projectGenesis name xs policy slashing bond =>
    obtain ⟨s1, -, -, hs1, -, rfl⟩ := projectGenesis_ok h
    have hf := registerAll_frame hs1
    exact ⟨hf.blockNumber, hf.releaseCount, hf.releaseLog⟩
  | newRelease p version att cid sig =>
    have hf := newRelease_frame h
    exact ⟨hf.blockNumber, hf.releaseCount, hf.releaseLog⟩
  | vote id aye =>
    have hf := vote_frame h
    exact ⟨hf.blockNumber, hf.releaseCount, hf.releaseLog⟩
  | submitCounterAttestation id rebuilt =>
    have hf := submitCounterAttestation_frame h
    exact ⟨hf.blockNumber, hf.releaseCount, hf.releaseLog⟩
  | closeExpired id =>
    have hf := closeExpired_frame h
    exact ⟨hf.blockNumber, hf.releaseCount, hf.releaseLog⟩

theorem Step.callFrame (h : Step s a s') (ha : a ≠ .block) : CallFrame s s' := by
  cases h with
  | block => exact absurd rfl ha
  | call origin c h => exact dispatch_frame h
  | failed => exact ⟨rfl, rfl, rfl⟩
  | other => exact ⟨rfl, rfl, rfl⟩

-- ---------------------------------------------------------------------------
-- Quorums
-- ---------------------------------------------------------------------------

theorem RoleQuorum.met_eq_true {rq : RoleQuorum} : rq.met total ayes = true ↔ total ≠ 0 ∧
    saturatingMul u128Max rq.quorum.deconstruct (saturatedInto u128Max total) ≤
      saturatingMul u128Max (saturatedInto u128Max ayes) Perbill.accuracy := by
  have hzero : saturatedInto u128Max total = 0 ↔ total = 0 := by
    unfold saturatedInto u128Max
    omega
  simp only [RoleQuorum.met, hzero]
  split <;> simp_all

/-- Eq. 1 reads the role stakes and the tallies, and nothing else. -/
theorem meetsQuorums_congr (hr : ∀ r, s'.roleStakeOf p r = s.roleStakeOf p r)
    (ht : ∀ r, s'.tallyOf id r = s.tallyOf id r) :
    meetsQuorums p project id s' = meetsQuorums p project id s := by
  simp only [meetsQuorums, hr, ht]

theorem HookFrame.meetsQuorums (h : HookFrame s s') :
    meetsQuorums p project id s' = meetsQuorums p project id s := by
  apply meetsQuorums_congr <;> intro r
  · unfold roleStakeOf
    rw [h.roleStake]
  · unfold tallyOf
    rw [h.tallies]

end Verigov
