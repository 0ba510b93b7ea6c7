import Verigov.Machine

/-!
# What each function does

One inversion lemma per function: a success is read as the checks that passed
and the storage that was written. Later proofs use these and do not unfold the
functions again.
-/

namespace Verigov

open State

variable {T : Config} {s s' : State T} {id : Nat}

-- ---------------------------------------------------------------------------
-- The error monad
-- ---------------------------------------------------------------------------

theorem bind_eq_ok {m : Except ε α} {k : α → Except ε β} :
    m >>= k = .ok b ↔ ∃ a, m = .ok a ∧ k a = .ok b := by
  cases m with
  | error e => simp [bind, Except.bind]
  | ok a => simp [bind, Except.bind]

theorem pure_eq_ok : (pure a : Except ε α) = .ok b ↔ a = b := by
  simp [pure, Except.pure]

@[simp] theorem throw_eq_ok : (throw e : Except ε α) = .ok a ↔ False := by
  simp [throw, throwThe, MonadExceptOf.throw]

theorem exists_ok {m : Except ε α} (h : m.toOption.isSome) : ∃ a, m = .ok a := by
  cases m with
  | error e => simp [Except.toOption] at h
  | ok a => exact ⟨a, rfl⟩

theorem ensure_ok : ensure b e = .ok u ↔ b = true := by
  cases b <;> simp [ensure, pure_eq_ok]

theorem okOr_ok : okOr o e = .ok a ↔ o = some a := by
  cases o <;> simp [okOr, pure_eq_ok]

theorem ensureRoot_ok {origin : Origin T} : ensureRoot origin = .ok u ↔ origin = .root := by
  cases origin <;> simp [ensureRoot, pure_eq_ok]

theorem ensureSigned_ok {origin : Origin T} :
    ensureSigned origin = .ok who ↔ origin = .signed who := by
  cases origin <;> simp [ensureSigned, pure_eq_ok]

theorem forM_ok {xs : List α} {f : α → Except ε PUnit} (h : xs.forM f = .ok u) :
    ∀ x ∈ xs, f x = .ok ⟨⟩ := by
  induction xs with
  | nil => simp
  | cons y ys ih =>
    obtain ⟨_, hy, hys⟩ := bind_eq_ok.mp (show f y >>= (fun _ => ys.forM f) = .ok u from h)
    intro x hx
    rcases List.mem_cons.mp hx with rfl | hx
    · exact hy
    · exact ih hys x hx

theorem foldlM_induct {I : β → Prop} {f : β → α → Except ε β} {xs : List α}
    (h : xs.foldlM f b = .ok b') (h0 : I b) (hs : ∀ x m m', f m x = .ok m' → I m → I m') :
    I b' := by
  induction xs generalizing b with
  | nil =>
    simp only [List.foldlM_nil, pure_eq_ok] at h
    exact h ▸ h0
  | cons x xs ih =>
    simp only [List.foldlM_cons, bind_eq_ok] at h
    obtain ⟨m, hx, hxs⟩ := h
    exact ih hxs (hs x b m hx h0)

-- ---------------------------------------------------------------------------
-- Statuses
-- ---------------------------------------------------------------------------

def withStatus (m : StorageMap Nat (Proposal AccountId)) (id : Nat)
    (status : ProposalStatus) (id' : Nat) : Option (Proposal AccountId) :=
  if id' = id then (m.get id).map ({ · with status }) else m.get id'

theorem withStatus_self {m : StorageMap Nat (Proposal AccountId)}
    (h : m.get id = some pr) (status : ProposalStatus) :
    withStatus m id status id = some { pr with status } := by
  simp [withStatus, h]

theorem withStatus_ne {m : StorageMap Nat (Proposal AccountId)} {id' : Nat}
    (h : id' ≠ id) (status : ProposalStatus) : withStatus m id status id' = m.get id' := by
  simp [withStatus, h]

theorem withStatus_eq_some {m : StorageMap Nat (Proposal AccountId)} {id' : Nat}
    (h : withStatus m id status id' = some pr') :
    ∃ pr, m.get id' = some pr ∧ pr.projectId = pr'.projectId := by
  by_cases hid : id' = id
  · subst hid
    simp only [withStatus, if_true, Option.map_eq_some_iff] at h
    obtain ⟨pr, hpr, rfl⟩ := h
    exact ⟨pr, hpr, rfl⟩
  · exact ⟨pr', (withStatus_ne hid status).symm.trans h, rfl⟩

theorem setStatus_get (s : State T) (id : Nat) (status : ProposalStatus)
    (id' : Nat) :
    (setStatus id status s).proposals.get id' = withStatus s.proposals id status id' := by
  simp only [setStatus, withStatus]
  cases h : s.proposals.get id with
  | some pr => simp [StorageMap.get_insert]
  | none =>
    by_cases hid : id' = id
    · simp [hid, h]
    · simp [hid]

theorem approve_get (s : State T) (id : Nat) (enactAt : Nat)
    (ids : BoundedVec Nat maxEnactmentsPerBlock) (id' : Nat) :
    (approve id enactAt ids s).proposals.get id' =
      withStatus s.proposals id (.approved enactAt) id' :=
  setStatus_get { s with pendingEnactments := s.pendingEnactments.insert enactAt ids } ..

theorem revokeApproval_get (s : State T) (id : Nat) (enactAt : Nat)
    (id' : Nat) :
    (revokeApproval id enactAt s).proposals.get id' = withStatus s.proposals id .voting id' :=
  setStatus_get (unschedule enactAt id s) ..

-- ---------------------------------------------------------------------------
-- Votes
-- ---------------------------------------------------------------------------

/-- What a successful vote leaves: the vote recorded, and then the proposal
approved, its approval revoked, or its status in agreement with Eq. 1 already. -/
theorem doVote_ok (h : doVote id p project who voter aye now s = .ok s') :
    ∃ pr, s.proposals.get id = some pr ∧
      ((pr.status = .voting ∧ meetsQuorums p project id (recordVote id who voter aye s) = true ∧
        ∃ ids, (s.pendingAt
            (saturatingAdd T.maxBlockNumber now project.policy.enactmentDelay)).tryPush id =
              some ids ∧
          s' = approve id (saturatingAdd T.maxBlockNumber now project.policy.enactmentDelay) ids
            (recordVote id who voter aye s)) ∨
      (∃ enactAt, pr.status = .approved enactAt ∧
        meetsQuorums p project id (recordVote id who voter aye s) = false ∧
        s' = revokeApproval id enactAt (recordVote id who voter aye s)) ∨
      (s' = recordVote id who voter aye s ∧
        (pr.status = .voting → meetsQuorums p project id s' = false) ∧
        ∀ enactAt, pr.status = .approved enactAt → meetsQuorums p project id s' = true)) := by
  simp only [doVote, bind_eq_ok, okOr_ok] at h
  obtain ⟨pr, hpr, h⟩ := h
  refine ⟨pr, hpr, ?_⟩
  cases hst : pr.status with
  | voting =>
    simp only [hst] at h
    split at h
    · rename_i hmet
      simp only [bind_eq_ok, okOr_ok, pure_eq_ok] at h
      obtain ⟨ids, hids, rfl⟩ := h
      exact .inl ⟨rfl, hmet, ids, hids, rfl⟩
    · rename_i hmet
      simp only [pure_eq_ok] at h
      subst h
      exact .inr (.inr ⟨rfl, fun _ => by simpa using hmet, by simp⟩)
  | approved enactAt =>
    simp only [hst] at h
    split at h
    · rename_i hmet
      simp only [pure_eq_ok] at h
      subst h
      exact .inr (.inr ⟨rfl, by simp, fun _ _ => hmet⟩)
    · rename_i hmet
      simp only [pure_eq_ok] at h
      subst h
      exact .inr (.inl ⟨enactAt, rfl, by simpa using hmet, rfl⟩)
  | _ =>
    simp only [hst, pure_eq_ok] at h
    subst h
    exact .inr (.inr ⟨rfl, by simp, by simp⟩)

theorem doVote_of_not_met (hpr : s.proposals.get id = some pr) (hst : pr.status = .voting)
    (hmet : meetsQuorums p project id (recordVote id who voter aye s) = false) :
    doVote id p project who voter aye now s = .ok (recordVote id who voter aye s) := by
  have hget : (recordVote id who voter aye s).proposals.get id = some pr := hpr
  simp [doVote, okOr, hget, hst, hmet, bind, Except.bind, pure, Except.pure]

/-- One that does approves it, if there is room in the slot. -/
theorem doVote_of_met (hpr : s.proposals.get id = some pr) (hst : pr.status = .voting)
    (hmet : meetsQuorums p project id (recordVote id who voter aye s) = true)
    (hids : (s.pendingAt (saturatingAdd T.maxBlockNumber now project.policy.enactmentDelay)).tryPush
      id = some ids) :
    doVote id p project who voter aye now s = .ok
      (approve id (saturatingAdd T.maxBlockNumber now project.policy.enactmentDelay) ids
        (recordVote id who voter aye s)) := by
  have hget : (recordVote id who voter aye s).proposals.get id = some pr := hpr
  have hslot : ∀ b, (recordVote id who voter aye s).pendingAt b = s.pendingAt b := fun _ => rfl
  simp [doVote, okOr, hget, hst, hmet, hslot, hids, bind, Except.bind, pure, Except.pure]

theorem doVote_of_full (hpr : s.proposals.get id = some pr) (hst : pr.status = .voting)
    (hmet : meetsQuorums p project id (recordVote id who voter aye s) = true)
    (hids : (s.pendingAt (saturatingAdd T.maxBlockNumber now project.policy.enactmentDelay)).tryPush
      id = none) :
    doVote id p project who voter aye now s = .error (.pallet .tooManyEnactments) := by
  have hget : (recordVote id who voter aye s).proposals.get id = some pr := hpr
  have hslot : ∀ b, (recordVote id who voter aye s).pendingAt b = s.pendingAt b := fun _ => rfl
  simp [doVote, okOr, hget, hst, hmet, hslot, hids, bind, Except.bind, pure, Except.pure, throw,
    throwThe, MonadExceptOf.throw]

theorem doVote_of_approved (hpr : s.proposals.get id = some pr)
    (hst : pr.status = .approved enactAt) (p : Nat) (project : ProjectInfo) (who : T.AccountId)
    (voter : Stakeholder) (aye : Bool) (now : Nat) :
    ∃ s', doVote id p project who voter aye now s = .ok s' := by
  have hget : (recordVote id who voter aye s).proposals.get id = some pr := hpr
  cases hmet : meetsQuorums p project id (recordVote id who voter aye s) <;>
    simp [doVote, okOr, hget, hst, hmet, bind, Except.bind, pure, Except.pure]

theorem doVote_get (h : doVote id p project who voter aye now s = .ok s') (id' : Nat)
    (hid : id' ≠ id) : s'.proposals.get id' = s.proposals.get id' := by
  obtain ⟨pr, -, ⟨-, -, ids, -, rfl⟩ | ⟨enactAt, -, -, rfl⟩ | ⟨rfl, -⟩⟩ := doVote_ok h
  · exact (approve_get ..).trans (withStatus_ne hid _)
  · exact (revokeApproval_get ..).trans (withStatus_ne hid _)
  · rfl

theorem vote_ok (h : vote origin id aye s = .ok s') :
    ∃ who pr project voter, origin = .signed who ∧ s.proposals.get id = some pr ∧
      pr.status.isOpen = true ∧ s.blockNumber ≤ pr.votingEnds ∧
      s.projects.get pr.projectId = some project ∧
      s.stakeholders.get (pr.projectId, who) = some voter ∧
      doVote id pr.projectId project who voter aye s.blockNumber s = .ok s' := by
  simp only [vote, bind_eq_ok, ensureSigned_ok, okOr_ok, ensure_ok, decide_eq_true_eq] at h
  obtain ⟨who, ho, pr, hpr, _, hopen, _, hends, project, hproj, voter, hvoter, hv⟩ := h
  exact ⟨who, pr, project, voter, ho, hpr, hopen, hends, hproj, hvoter, hv⟩

theorem vote_of (hpr : s.proposals.get id = some pr) (hopen : pr.status.isOpen = true)
    (hends : s.blockNumber ≤ pr.votingEnds) (hproj : s.projects.get pr.projectId = some project)
    (hvoter : s.stakeholders.get (pr.projectId, who) = some voter) (aye : Bool) :
    vote (.signed who) id aye s =
      doVote id pr.projectId project who voter aye s.blockNumber s := by
  simp [vote, ensureSigned, okOr, ensure, hpr, hopen, hends, hproj, hvoter, bind, Except.bind, pure,
    Except.pure]

def newProposal (project : ProjectInfo) (who : T.AccountId) (p : Nat)
    (version : BoundedVec UInt8 versionLimit) (attestation : BuildAttestation T.AccountId)
    (cid : Hash32) (s : State T) : Proposal T.AccountId where
  projectId := p
  proposer := who
  version
  attestation
  attestationCid := cid
  bond := project.proposalBond
  submittedAt := s.blockNumber
  votingEnds := saturatingAdd T.maxBlockNumber s.blockNumber project.policy.votingPeriod
  status := .voting

theorem newRelease_ok (h : newRelease origin p version att cid sig s = .ok s') :
    ∃ who project proposer builder balances, origin = .signed who ∧
      s.projects.get p = some project ∧
      s.stakeholders.get (p, who) = some proposer ∧ proposer.role = .coreDeveloper ∧
      s.stakeholders.get (p, att.builder) = some builder ∧ builder.role = .buildService ∧
      T.verify sig att.signingPayload att.builder = true ∧
      T.currency.hold .proposalBond who project.proposalBond s.balances = .ok balances ∧
      doVote s.nextProposalId p project who proposer true s.blockNumber
        (addProposal (newProposal project who p version att cid s) balances s) = .ok s' := by
  simp only [newRelease, bind_eq_ok, ensureSigned_ok, okOr_ok, ensure_ok, beq_iff_eq] at h
  obtain ⟨who, ho, project, hproj, proposer, hprop, _, hrole, builder, hb, _, hbrole, _, hsig,
    balances, hhold, hv⟩ := h
  exact ⟨who, project, proposer, builder, balances, ho, hproj, hprop, hrole, hb, hbrole, hsig,
    hhold, hv⟩

theorem newRelease_of (hproj : s.projects.get p = some project)
    (hprop : s.stakeholders.get (p, who) = some proposer) (hrole : proposer.role = .coreDeveloper)
    (hb : s.stakeholders.get (p, att.builder) = some builder)
    (hbrole : builder.role = .buildService)
    (hsig : T.verify sig att.signingPayload att.builder = true)
    (hhold : T.currency.hold .proposalBond who project.proposalBond s.balances = .ok bal) :
    newRelease (.signed who) p version att cid sig s =
      doVote s.nextProposalId p project who proposer true s.blockNumber
        (addProposal (newProposal project who p version att cid s) bal s) := by
  simp [newRelease, newProposal, ensureSigned, okOr, ensure, hproj, hprop, hrole, hb, hbrole, hsig,
    hhold, bind, Except.bind, pure, Except.pure]

-- ---------------------------------------------------------------------------
-- Closing a proposal
-- ---------------------------------------------------------------------------

def unscheduled (id : Nat) (status : ProposalStatus) (s : State T) : State T :=
  match status with
  | .approved enactAt => unschedule enactAt id s
  | _ => s

theorem takeOffSchedule_ok (h : takeOffSchedule id status s = .ok s') :
    status.isOpen = true ∧ s' = unscheduled id status s := by
  cases status <;> simp_all [takeOffSchedule, pure_eq_ok, ProposalStatus.isOpen, unscheduled]

theorem submitCounterAttestation_ok (h : submitCounterAttestation origin id rebuilt s = .ok s') :
    ∃ who pr project builder slashed burned released balances, origin = .signed who ∧
      s.proposals.get id = some pr ∧ s.projects.get pr.projectId = some project ∧
      (s.stakeholders.get (pr.projectId, who)).isSome ∧ who ≠ pr.attestation.builder ∧
      rebuilt ≠ pr.attestation.outputBinaryHash ∧ pr.status.isOpen = true ∧
      s.stakeholders.get (pr.projectId, pr.attestation.builder) = some builder ∧
      T.currency.burnHeld .stake pr.attestation.builder
        (project.slashing.sigmaNeg.mulFloor builder.stake) s.balances = .ok (slashed, burned) ∧
      T.currency.release .proposalBond pr.proposer pr.bond burned = .ok (released, balances) ∧
      s' = rejectProposal who id pr rebuilt builder slashed balances
        (unscheduled id pr.status s) := by
  simp only [submitCounterAttestation, bind_eq_ok, ensureSigned_ok, okOr_ok, ensure_ok, bne_iff_ne,
    pure_eq_ok, StorageMap.containsKey] at h
  obtain ⟨who, ho, pr, hpr, project, hproj, _, hwho, _, hself, _, hdiff, s1, hs1, builder, hb,
    ⟨slashed, burned⟩, hburn, ⟨released, balances⟩, hrel, rfl⟩ := h
  obtain ⟨hopen, rfl⟩ := takeOffSchedule_ok hs1
  have hsame : (unscheduled id pr.status s).stakeholders = s.stakeholders ∧
      (unscheduled id pr.status s).balances = s.balances := by
    cases pr.status <;> exact ⟨rfl, rfl⟩
  rw [hsame.1] at hb
  rw [hsame.2] at hburn
  exact ⟨who, pr, project, builder, slashed, burned, released, balances, ho, hpr, hproj, hwho,
    hself, hdiff, hopen, hb, hburn, hrel, rfl⟩

theorem submitCounterAttestation_of (hpr : s.proposals.get id = some pr)
    (hopen : pr.status.isOpen = true) (hproj : s.projects.get pr.projectId = some project)
    (hwho : (s.stakeholders.get (pr.projectId, who)).isSome)
    (hself : who ≠ pr.attestation.builder) (hdiff : rebuilt ≠ pr.attestation.outputBinaryHash)
    (hy : s.stakeholders.get (pr.projectId, pr.attestation.builder) = some builder)
    (hburn : T.currency.burnHeld .stake pr.attestation.builder
      (project.slashing.sigmaNeg.mulFloor builder.stake) s.balances = .ok (slashed, burned))
    (hrel : T.currency.release .proposalBond pr.proposer pr.bond burned = .ok (released, bal)) :
    submitCounterAttestation (.signed who) id rebuilt s =
      .ok (rejectProposal who id pr rebuilt builder slashed bal (unscheduled id pr.status s)) := by
  have htake : takeOffSchedule id pr.status s = .ok (unscheduled id pr.status s) := by
    cases hst : pr.status <;> simp_all [takeOffSchedule, unscheduled, ProposalStatus.isOpen, pure,
      Except.pure]
  have hsame : (unscheduled id pr.status s).stakeholders = s.stakeholders ∧
      (unscheduled id pr.status s).balances = s.balances := by
    cases pr.status <;> exact ⟨rfl, rfl⟩
  simp [submitCounterAttestation, ensureSigned, okOr, ensure, StorageMap.containsKey, hpr, hproj,
    hwho, hself, hdiff, htake, hsame.1, hsame.2, hy, hburn, hrel, bind, Except.bind, pure,
    Except.pure]

theorem closeExpired_ok (h : closeExpired origin id s = .ok s') :
    ∃ who pr released balances, origin = .signed who ∧ s.proposals.get id = some pr ∧
      pr.status = .voting ∧ pr.votingEnds < s.blockNumber ∧
      T.currency.release .proposalBond pr.proposer pr.bond s.balances = .ok (released, balances) ∧
      s' = depositEvent (.proposalExpired id)
        { s with balances, proposals := s.proposals.insert id { pr with status := .expired } } := by
  simp only [closeExpired, bind_eq_ok, ensureSigned_ok, okOr_ok, ensure_ok, decide_eq_true_eq,
    beq_iff_eq, pure_eq_ok] at h
  obtain ⟨who, ho, pr, hpr, _, hst, _, hends, ⟨released, balances⟩, hrel, rfl⟩ := h
  exact ⟨who, pr, released, balances, ho, hpr, hst, hends, hrel, rfl⟩

-- ---------------------------------------------------------------------------
-- Genesis
-- ---------------------------------------------------------------------------

theorem registerStakeholder_ok (h : registerStakeholder p s x = .ok s') :
    ∃ balances, s.stakeholders.get (p, x.account) = none ∧
      T.currency.hold .stake x.account x.stake s.balances = .ok balances ∧
      s' = depositEvent (.stakeholderRegistered p x.account x.role x.stake)
        { s with
          balances
          stakeholders := s.stakeholders.insert (p, x.account) ⟨x.role, x.stake⟩
          roleStake := s.roleStake.insert (p, x.role)
            (saturatingAdd T.maxBalance (s.roleStakeOf p x.role) x.stake) } := by
  simp only [registerStakeholder, bind_eq_ok, ensure_ok, pure_eq_ok, StorageMap.containsKey,
    Bool.not_eq_true', Option.isSome_eq_false_iff, Option.isNone_iff_eq_none] at h
  obtain ⟨_, hnone, balances, hhold, rfl⟩ := h
  exact ⟨balances, hnone, hhold, rfl⟩

theorem projectGenesis_ok
    (h : projectGenesis origin name xs policy slashing bond s = .ok s') :
    ∃ s1, origin = .root ∧ policy.requiredRoles.val ≠ [] ∧
      xs.val.foldlM (registerStakeholder s.nextProjectId) s = .ok s1 ∧
      (∀ rq ∈ policy.requiredRoles.val, s1.roleStakeOf s.nextProjectId rq.role ≠ 0) ∧
      s' = depositEvent (.projectCreated s.nextProjectId name)
        { s1 with
          projects := s1.projects.insert s.nextProjectId ⟨name, policy, slashing, bond⟩
          nextProjectId := saturatingAdd u32Max s.nextProjectId 1 } := by
  simp only [projectGenesis, bind_eq_ok, ensureRoot_ok, ensure_ok, pure_eq_ok] at h
  obtain ⟨_, ho, _, hne, s1, hs1, _, hroles, rfl⟩ := h
  refine ⟨s1, ho, by simpa using hne, hs1, ?_, rfl⟩
  intro rq hrq
  have hr := forM_ok hroles rq hrq
  simpa [ensure_ok] using hr

-- ---------------------------------------------------------------------------
-- The hook
-- ---------------------------------------------------------------------------

def revokeAtEnactment (id : Nat) (s : State T) : State T :=
  depositEvent (.proposalApprovalRevoked id) (setStatus id .voting s)

theorem revokeAtEnactment_get (s : State T) (id id' : Nat) :
    (revokeAtEnactment id s).proposals.get id' = withStatus s.proposals id .voting id' :=
  setStatus_get s ..

/-- Enacting an approved proposal of a registered project logs it or revokes
its approval; enacting anything else does nothing. -/
theorem enact_cases (id : Nat) (now : Nat) (s : State T) :
    (∃ pr enactAt project, s.proposals.get id = some pr ∧ pr.status = .approved enactAt ∧
      s.projects.get pr.projectId = some project ∧
      ((meetsQuorums pr.projectId project id s = true ∧ enact id now s = logRelease id pr now s) ∨
        (meetsQuorums pr.projectId project id s = false ∧
          enact id now s = revokeAtEnactment id s))) ∨
    (enact id now s = s ∧ ∀ pr enactAt, s.proposals.get id = some pr →
      pr.status = .approved enactAt → s.projects.get pr.projectId = none) := by
  cases hpr : s.proposals.get id with
  | none => exact .inr ⟨by simp [enact, hpr], by simp⟩
  | some pr =>
    cases hst : pr.status with
    | approved enactAt =>
      cases hproj : s.projects.get pr.projectId with
      | none =>
        refine .inr ⟨by simp [enact, hpr, hst, hproj], ?_⟩
        rintro _ _ ⟨⟩ _
        exact hproj
      | some project =>
        refine .inl ⟨pr, enactAt, project, rfl, hst, hproj, ?_⟩
        cases hmet : meetsQuorums pr.projectId project id s
        · exact .inr ⟨rfl, by simp [enact, hpr, hst, hproj, hmet, revokeAtEnactment]⟩
        · exact .inl ⟨rfl, by simp [enact, hpr, hst, hproj, hmet]⟩
    | _ =>
      refine .inr ⟨by simp [enact, hpr, hst], ?_⟩
      rintro _ _ ⟨⟩ h
      simp [hst] at h

def takeSlot (s : State T) : State T :=
  { s with
    blockNumber := s.blockNumber + 1
    pendingEnactments := s.pendingEnactments.remove (s.blockNumber + 1) }

def hookState (s : State T) (ids : List Nat) : State T :=
  ids.foldl (fun m id => enact id (s.blockNumber + 1) m) (takeSlot s)

theorem nextBlock_eq (s : State T) :
    nextBlock s = hookState s (s.pendingAt (s.blockNumber + 1)).val := by
  have hfst : ∀ (ids : List Nat) (acc : State T × Weight) (now : Nat),
      (ids.foldl (fun acc id => (enact id now acc.1, acc.2.saturatingAdd (T.readsWrites 3 4)))
        acc).1 = ids.foldl (fun s' id => enact id now s') acc.1 := by
    intro ids
    induction ids with
    | nil => intros; rfl
    | cons id ids ih => intro acc now; exact ih _ now
  exact hfst _ _ _

theorem hookState_append (s : State T) (ids : List Nat) (id : Nat) :
    hookState s (ids ++ [id]) = enact id (s.blockNumber + 1) (hookState s ids) := by
  simp [hookState]

/-- Induction over the hook's loop, with the ids still to come. -/
theorem hookState_induct {I : List Nat → State T → Prop} (before rest : List Nat)
    (h0 : I (before ++ rest) (takeSlot s))
    (hs : ∀ id ids m, I (id :: ids) m → I ids (enact id (s.blockNumber + 1) m)) :
    I rest (hookState s before) := by
  unfold hookState
  generalize takeSlot s = m at h0
  induction before generalizing m with
  | nil => exact h0
  | cons id ids ih => exact ih _ (hs id _ m h0)

theorem nextBlock_induct {I : List Nat → State T → Prop}
    (h0 : I (s.pendingAt (s.blockNumber + 1)).val (takeSlot s))
    (hs : ∀ id ids m, I (id :: ids) m → I ids (enact id (s.blockNumber + 1) m)) :
    I [] (nextBlock s) := by
  rw [nextBlock_eq]
  refine hookState_induct _ [] ?_ hs
  simpa using h0

end Verigov
