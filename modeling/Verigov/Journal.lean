import Verigov.Frames
import Verigov.Mock

/-!
# The event stream

What an indexer can know: a fold over the events alone rebuilds the statuses,
votes, tallies, stakes and the release log. `Mirrors` compares the replay with
the storage, read by read. A step is `Journaled` if replaying the events it adds
turns a mirror of the storage before into one of the storage after.
-/

namespace Verigov

open State Transition

structure LoggedRelease where
  proposalId : Nat
  version : BoundedVec UInt8 versionLimit
  outputBinaryHash : Hash32
  deriving DecidableEq

def ReleaseEntry.logged (e : ReleaseEntry) : LoggedRelease :=
  ⟨e.proposalId, e.version, e.outputBinaryHash⟩

structure Journal (AccountId : Type) where
  status : StorageMap Nat ProposalStatus := .empty
  votes : StorageMap (Nat × AccountId) Bool := .empty
  tallies : StorageMap (Nat × Role) RoleTally := .empty
  stakeholders : StorageMap (Nat × AccountId) Stakeholder := .empty
  roleStake : StorageMap (Nat × Role) Nat := .empty
  log : StorageMap (Nat × Nat) LoggedRelease := .empty

namespace Journal

variable {AccountId : Type} [DecidableEq AccountId]

/-- One event; `top` is the largest balance. -/
def apply (top : Nat) (j : Journal AccountId) : Event AccountId → Journal AccountId
  | .projectCreated .. => j
  | .stakeholderRegistered p a role stake =>
    { j with
      stakeholders := j.stakeholders.insert (p, a) ⟨role, stake⟩
      roleStake := j.roleStake.insert (p, role)
        (saturatingAdd top (j.roleStake.getD (p, role) 0) stake) }
  | .releaseProposed id .. => { j with status := j.status.insert id .voting }
  | .voted id a role aye weight =>
    { j with
      votes := j.votes.insert (id, a) aye
      tallies := j.tallies.insert (id, role)
        ((j.tallies.getD (id, role) {}).record top (j.votes.get (id, a)) weight aye) }
  | .proposalApproved id enactAt => { j with status := j.status.insert id (.approved enactAt) }
  | .proposalApprovalRevoked id => { j with status := j.status.insert id .voting }
  | .releaseEnacted p id index version binary =>
    { j with
      status := j.status.insert id .enacted
      log := j.log.insert (p, index) ⟨id, version, binary⟩ }
  | .counterAttestationAccepted .. => j
  | .buildServiceSlashed p a amount remaining =>
    { j with
      stakeholders := match j.stakeholders.get (p, a) with
        | some x => j.stakeholders.insert (p, a) { x with stake := remaining }
        | none => j.stakeholders
      roleStake := j.roleStake.insert (p, .buildService)
        (j.roleStake.getD (p, .buildService) 0 - amount) }
  | .proposalRejected id => { j with status := j.status.insert id .rejected }
  | .proposalExpired id => { j with status := j.status.insert id .expired }

def replay (top : Nat) (events : List (Event AccountId)) : Journal AccountId :=
  events.foldl (apply top) {}

end Journal

variable {T : Config} {s s' m : State T} {j : Journal T.AccountId} {id p : Nat}

/-- The journal has every read that the storage has. -/
structure Mirrors (j : Journal T.AccountId) (s : State T) : Prop where
  status : ∀ id, j.status.get id = (s.proposals.get id).map Proposal.status
  votes : ∀ id a, j.votes.get (id, a) = s.votes.get (id, a)
  tallies : ∀ id r, j.tallies.getD (id, r) {} = s.tallyOf id r
  stakeholders : ∀ p a, j.stakeholders.get (p, a) = s.stakeholders.get (p, a)
  roleStake : ∀ p r, j.roleStake.getD (p, r) 0 = s.roleStakeOf p r
  log : ∀ p i, j.log.get (p, i) = (s.releaseLog.get (p, i)).map ReleaseEntry.logged

def Journaled (s s' : State T) : Prop :=
  ∃ es, s'.events = s.events ++ es ∧
    ∀ j, Mirrors j s → Mirrors (es.foldl (Journal.apply T.maxBalance) j) s'

theorem Journaled.trans (h : Journaled s m) (h' : Journaled m s') : Journaled s s' := by
  obtain ⟨es, hes, hm⟩ := h
  obtain ⟨es', hes', hm'⟩ := h'
  refine ⟨es ++ es', by rw [hes', hes, List.append_assoc], fun j hj => ?_⟩
  rw [List.foldl_append]
  exact hm' _ (hm j hj)

theorem Journaled.of_same (he : s'.events = s.events) (h : ∀ j, Mirrors j s → Mirrors j s') :
    Journaled s s' :=
  ⟨[], by simp [he], h⟩

theorem Journaled.refl (s : State T) : Journaled s s :=
  .of_same rfl fun _ hj => hj

theorem Journaled.deposit {e : Event T.AccountId} (hn : s'.blockNumber ≠ 0)
    (he : s'.events = s.events)
    (h : ∀ j, Mirrors j s → Mirrors (j.apply T.maxBalance e) s') :
    Journaled s (depositEvent e s') := by
  refine ⟨[e], by simp [depositEvent, hn, he], fun j hj => ?_⟩
  have hm := h j hj
  exact ⟨hm.status, hm.votes, hm.tallies, hm.stakeholders, hm.roleStake, hm.log⟩

-- ---------------------------------------------------------------------------
-- Writes
-- ---------------------------------------------------------------------------

theorem Mirrors.status_insert (h : Mirrors j s) (pr : Proposal T.AccountId)
    (hget : ∀ id', s'.proposals.get id' =
      if id' = id then some pr else s.proposals.get id') (id' : Nat) :
    (j.status.insert id pr.status).get id' = (s'.proposals.get id').map Proposal.status := by
  rw [StorageMap.get_insert, hget]
  split
  · rfl
  · exact h.status id'

theorem setStatus_get_if (hpr : s.proposals.get id = some pr) (status : ProposalStatus)
    (id' : Nat) : (setStatus id status s).proposals.get id' =
      if id' = id then some { pr with status } else s.proposals.get id' := by
  rw [setStatus_get, withStatus, hpr]
  rfl

theorem recordVote_journaled (hn : s.blockNumber ≠ 0) (id : Nat) (who : T.AccountId)
    (voter : Stakeholder) (aye : Bool) : Journaled s (recordVote id who voter aye s) := by
  refine Journaled.deposit hn rfl fun j hj => ?_
  refine ⟨hj.status, fun id' a => ?_, fun id' r => ?_, hj.stakeholders, hj.roleStake, hj.log⟩
  · simp only [Journal.apply, StorageMap.get_insert, hj.votes]
  · simp only [Journal.apply, tallyOf, StorageMap.getD_insert, hj.votes]
    split
    · rw [hj.tallies]
      rfl
    · exact hj.tallies id' r

theorem approve_journaled (hn : s.blockNumber ≠ 0) (hpr : s.proposals.get id = some pr)
    (enactAt : Nat) (ids : BoundedVec Nat maxEnactmentsPerBlock) :
    Journaled s (approve id enactAt ids s) := by
  refine Journaled.deposit hn rfl fun j hj => ?_
  refine ⟨?_, hj.votes, hj.tallies, hj.stakeholders, hj.roleStake, hj.log⟩
  exact hj.status_insert _ (setStatus_get_if
    (s := { s with pendingEnactments := s.pendingEnactments.insert enactAt ids }) hpr _)

theorem revokeApproval_journaled (hn : s.blockNumber ≠ 0) (hpr : s.proposals.get id = some pr)
    (enactAt : Nat) : Journaled s (revokeApproval id enactAt s) := by
  refine Journaled.deposit hn rfl fun j hj => ?_
  refine ⟨?_, hj.votes, hj.tallies, hj.stakeholders, hj.roleStake, hj.log⟩
  exact hj.status_insert _ (setStatus_get_if (s := unschedule enactAt id s) hpr _)

theorem revokeAtEnactment_journaled (hn : s.blockNumber ≠ 0)
    (hpr : s.proposals.get id = some pr) : Journaled s (revokeAtEnactment id s) := by
  refine Journaled.deposit hn rfl fun j hj => ?_
  refine ⟨?_, hj.votes, hj.tallies, hj.stakeholders, hj.roleStake, hj.log⟩
  exact hj.status_insert _ (setStatus_get_if hpr _)

theorem logRelease_journaled (hn : s.blockNumber ≠ 0) (id : Nat) (pr : Proposal T.AccountId)
    (now : Nat) : Journaled s (logRelease id pr now s) := by
  refine Journaled.deposit hn rfl fun j hj => ?_
  refine ⟨hj.status_insert { pr with status := .enacted }
    fun id' => StorageMap.get_insert .., hj.votes, hj.tallies, hj.stakeholders, hj.roleStake,
    fun p i => ?_⟩
  simp only [Journal.apply, StorageMap.get_insert]
  split
  · rfl
  · exact hj.log p i

theorem addProposal_journaled (hn : s.blockNumber ≠ 0) {pr : Proposal T.AccountId}
    (hpr : pr.status = .voting) (balances : T.currency.Ledger) :
    Journaled s (addProposal pr balances s) := by
  refine Journaled.deposit hn rfl fun j hj => ?_
  refine ⟨?_, hj.votes, hj.tallies, hj.stakeholders, hj.roleStake, hj.log⟩
  have hget : ∀ id', (addProposal pr balances s).proposals.get id' =
      if id' = s.nextProposalId then some pr else s.proposals.get id' :=
    fun _ => StorageMap.get_insert ..
  have h := hj.status_insert pr hget
  rwa [hpr] at h

theorem registerStakeholder_journaled (hn : s.blockNumber ≠ 0)
    (h : registerStakeholder p s x = .ok s') : Journaled s s' := by
  obtain ⟨balances, -, -, rfl⟩ := registerStakeholder_ok h
  refine Journaled.deposit hn rfl fun j hj => ?_
  refine ⟨hj.status, hj.votes, hj.tallies, fun p' a => ?_, fun p' r => ?_, hj.log⟩
  · simp only [Journal.apply, StorageMap.get_insert, hj.stakeholders]
  · simp only [Journal.apply, roleStakeOf, StorageMap.getD_insert]
    split
    · rw [hj.roleStake]
      rfl
    · exact hj.roleStake p' r

theorem rejectProposal_journaled (hn : s.blockNumber ≠ 0)
    (hx : s.stakeholders.get (pr.projectId, pr.attestation.builder) = some x)
    (who : T.AccountId) (id : Nat) (rebuilt : Hash32) (slashed : Nat)
    (balances : T.currency.Ledger) :
    Journaled s (rejectProposal who id pr rebuilt x slashed balances s) := by
  refine ⟨[.counterAttestationAccepted id who pr.attestation.outputBinaryHash rebuilt,
    .buildServiceSlashed pr.projectId pr.attestation.builder slashed (x.stake - slashed),
    .proposalRejected id], by simp [rejectProposal, depositEvent, hn], fun j hj => ?_⟩
  have hjx : j.stakeholders.get (pr.projectId, pr.attestation.builder) = some x := by
    rw [hj.stakeholders, hx]
  simp only [List.foldl_cons, List.foldl_nil, Journal.apply, hjx]
  refine ⟨hj.status_insert { pr with status := .rejected }
    fun id' => StorageMap.get_insert .., hj.votes, hj.tallies, fun p a => ?_, fun p r => ?_, hj.log⟩
  · simp only [rejectProposal, depositEvent, StorageMap.get_insert, hj.stakeholders]
  · simp only [rejectProposal, depositEvent, roleStakeOf, StorageMap.getD_insert]
    split
    · rw [hj.roleStake]
      rfl
    · exact hj.roleStake p r

-- ---------------------------------------------------------------------------
-- Steps
-- ---------------------------------------------------------------------------

theorem doVote_journaled (hn : s.blockNumber ≠ 0)
    (h : doVote id p info who voter aye now s = .ok s') : Journaled s s' := by
  have hrec := recordVote_journaled hn id who voter aye
  obtain ⟨pr, hpr, ⟨-, -, ids, -, rfl⟩ | ⟨enactAt, -, -, rfl⟩ | ⟨rfl, -⟩⟩ := doVote_ok h
  · exact hrec.trans (approve_journaled (s := recordVote id who voter aye s) hn hpr _ ids)
  · exact hrec.trans (revokeApproval_journaled (s := recordVote id who voter aye s) hn hpr enactAt)
  · exact hrec

theorem registerAll_journaled {xs : List (StakeholderInit T.AccountId)} (hn : s.blockNumber ≠ 0)
    (h : xs.foldlM (registerStakeholder p) s = .ok s') : Journaled s s' := by
  refine (foldlM_induct (I := fun m => m.blockNumber ≠ 0 ∧ Journaled s m) h ⟨hn, .refl s⟩ ?_).2
  rintro x m m' hx ⟨hm, hj⟩
  exact ⟨(registerStakeholder_frame hx).blockNumber ▸ hm,
    hj.trans (registerStakeholder_journaled hm hx)⟩

theorem enact_journaled (hn : s.blockNumber ≠ 0) (id now : Nat) :
    Journaled s (enact id now s) := by
  rcases enact_cases id now s with ⟨pr, e, info, hpr, -, -, ⟨-, heq⟩ | ⟨-, heq⟩⟩ | ⟨heq, -⟩
  · rw [heq]
    exact logRelease_journaled hn id pr now
  · rw [heq]
    exact revokeAtEnactment_journaled hn hpr
  · rw [heq]
    exact .refl s

theorem nextBlock_journaled (s : State T) : Journaled s (nextBlock s) := by
  refine (nextBlock_induct (I := fun _ m => m.blockNumber ≠ 0 ∧ Journaled s m) ?_ ?_).2
  · refine ⟨Nat.succ_ne_zero _, .of_same rfl fun j hj => ?_⟩
    exact ⟨hj.status, hj.votes, hj.tallies, hj.stakeholders, hj.roleStake, hj.log⟩
  · rintro id ids m ⟨hm, hj⟩
    exact ⟨(enact_frame id _ m).2.1 ▸ hm, hj.trans (enact_journaled hm id _)⟩

theorem dispatch_journaled (hn : s.blockNumber ≠ 0) (h : dispatch origin c s = .ok s') :
    Journaled s s' := by
  cases c with
  | projectGenesis name xs policy slashing bond =>
    obtain ⟨s1, -, -, hs1, -, rfl⟩ := projectGenesis_ok h
    refine (registerAll_journaled hn hs1).trans
      (.deposit ((registerAll_frame hs1).blockNumber ▸ hn) rfl fun j hj => ?_)
    exact ⟨hj.status, hj.votes, hj.tallies, hj.stakeholders, hj.roleStake, hj.log⟩
  | newRelease p version att cid sig =>
    obtain ⟨who, info, x, y, balances, -, -, -, -, -, -, -, -, hv⟩ := newRelease_ok h
    exact (addProposal_journaled hn rfl balances).trans (doVote_journaled hn hv)
  | vote id aye =>
    obtain ⟨who, pr, info, voter, -, -, -, -, -, -, hv⟩ := vote_ok h
    exact doVote_journaled hn hv
  | submitCounterAttestation id rebuilt =>
    obtain ⟨who, pr, info, x, slashed, burned, released, balances, -, -, -, -, -, -, -, hx, -, -,
      rfl⟩ := submitCounterAttestation_ok h
    cases hst : pr.status with
    | approved enactAt =>
      refine Journaled.trans (m := unschedule enactAt id s) (.of_same rfl fun j hj => ?_)
        (rejectProposal_journaled (s := unschedule enactAt id s) hn hx ..)
      exact ⟨hj.status, hj.votes, hj.tallies, hj.stakeholders, hj.roleStake, hj.log⟩
    | _ => exact rejectProposal_journaled hn hx ..
  | closeExpired id =>
    obtain ⟨who, pr, released, balances, -, -, -, -, -, rfl⟩ := closeExpired_ok h
    refine .deposit hn rfl fun j hj => ?_
    exact ⟨hj.status_insert { pr with status := .expired }
      fun id' => StorageMap.get_insert .., hj.votes, hj.tallies, hj.stakeholders, hj.roleStake,
      hj.log⟩

theorem Step.journaled (h : Step s a s') (hn : s.blockNumber ≠ 0) : Journaled s s' := by
  cases h with
  | block => exact nextBlock_journaled s
  | call origin c h => exact dispatch_journaled hn h
  | failed => exact .refl s
  | other balances =>
    refine .of_same rfl fun j hj => ?_
    exact ⟨hj.status, hj.votes, hj.tallies, hj.stakeholders, hj.roleStake, hj.log⟩

-- ---------------------------------------------------------------------------
-- Runs
-- ---------------------------------------------------------------------------

theorem Step.blockNumber_ne_zero (h : Step s a s') (hn : s.blockNumber ≠ 0) :
    s'.blockNumber ≠ 0 := by
  by_cases ha : a = .block
  · subst ha
    cases h
    rw [(nextBlock_frame s).2.1]
    exact Nat.succ_ne_zero _
  · rw [(h.callFrame ha).blockNumber]
    exact hn

theorem mirrors_init (h : Init s) : Mirrors {} s := by
  obtain ⟨n, b, rfl, -⟩ := h
  refine ⟨fun _ => ?_, fun _ _ => rfl, fun _ _ => ?_, fun _ _ => rfl, fun _ _ => ?_, fun _ _ => ?_⟩
  · simp
  · simp [tallyOf]
  · simp [roleStakeOf]
  · simp

/-- In a run that does not start in the genesis block, the replay of the events
mirrors the storage, every step adds its events behind those before it, and a
call that fails adds none. -/
theorem replay_mirrors (h0 : Init s0) (hn : 0 < s0.blockNumber) (h : Run Step s0 tr s) :
    Mirrors (Journal.replay T.maxBalance s.events) s ∧
      ∀ m a t, (m, a, t) ∈ stepsOf tr s →
        (∃ es, t.events = m.events ++ es) ∧
        ((∃ origin c, a = .failed origin c) → t.events = m.events) := by
  have hfirst : s0.events = [] := by
    obtain ⟨n, b, rfl, -⟩ := h0
    rfl
  refine (h.induct (P := fun _ _ => True) (I := fun tr t => t.blockNumber ≠ 0 ∧
    Mirrors (Journal.replay T.maxBalance t.events) t ∧ ∀ m a t', (m, a, t') ∈ stepsOf tr t →
      (∃ es, t'.events = m.events ++ es) ∧
      ((∃ origin c, a = .failed origin c) → t'.events = m.events)) (fun _ _ => trivial) ?_ ?_).2
  · refine ⟨Nat.pos_iff_ne_zero.mp hn, ?_, by simp [stepsOf]⟩
    rw [hfirst]
    exact mirrors_init h0
  · rintro tr m a t - - hst - ⟨hm, hmir, hsteps⟩
    obtain ⟨es, hes, hj⟩ := hst.journaled hm
    refine ⟨hst.blockNumber_ne_zero hm, ?_, ?_⟩
    · rw [hes, Journal.replay, List.foldl_append]
      exact hj _ hmir
    · intro m' a' t' hmem
      rw [stepsOf_snoc, List.mem_append, List.mem_singleton] at hmem
      rcases hmem with hmem | heq
      · exact hsteps m' a' t' hmem
      · cases heq
        refine ⟨⟨es, hes⟩, ?_⟩
        rintro ⟨origin, c, rfl⟩
        cases hst
        rfl

theorem replay_mirrors_enacted :
    let as := [Mock.genesis .coreDeveloper (Mock.percent 30) 1 7, Mock.propose 8 1, .block,
      Mock.propose 9 2, Mock.challenge 1 3]
    let j := Journal.replay Mock.Test.maxBalance (Mock.after as).events
    Mirrors j (Mock.after as) ∧ j.status.get 0 = some .enacted ∧
      j.status.get 1 = some .rejected ∧ j.log.get (0, 0) = some ⟨0, Mock.version, Mock.h 1⟩ ∧
      j.stakeholders.get (0, 9) = some ⟨.buildService, 500⟩ := by
  intro as j
  refine ⟨(replay_mirrors Mock.init_start Nat.one_pos (exec_run (Mock.exec_after as))).1, ?_⟩
  decide +kernel

end Verigov
