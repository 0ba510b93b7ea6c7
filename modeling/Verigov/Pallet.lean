import Verigov.Types
import Verigov.Lib.Currency

/-!
# The pallet

The storage and the functions of `pallets/verigov/src/lib.rs`, in the source's
order. A dispatchable takes the storage to the new one or fails; a failure
carries no storage, which is what the runtime's storage transaction around
every call amounts to. The hook cannot fail.

The runtime's other parts are parameters of `Config`: the accounts, the
signature scheme, the token and the widths of its integers.
-/

namespace Verigov

structure Config where
  AccountId : Type
  [decEqAccountId : DecidableEq AccountId]
  Signature : Type
  /-- Whether the signature over the message is the account's. -/
  verify : Signature → List UInt8 → AccountId → Bool
  currency : Currency HoldReason AccountId DispatchError
  maxBalance : Nat
  maxBlockNumber : Nat
  /-- `DbWeight::reads_writes`. -/
  readsWrites : Nat → Nat → Weight

attribute [instance] Config.decEqAccountId

structure State (T : Config) where
  blockNumber : Nat
  balances : T.currency.Ledger
  nextProjectId : Nat := 0
  nextProposalId : Nat := 0
  projects : StorageMap Nat ProjectInfo := .empty
  stakeholders : StorageMap (Nat × T.AccountId) Stakeholder := .empty
  roleStake : StorageMap (Nat × Role) Nat := .empty
  proposals : StorageMap Nat (Proposal T.AccountId) := .empty
  votes : StorageMap (Nat × T.AccountId) Bool := .empty
  tallies : StorageMap (Nat × Role) RoleTally := .empty
  releaseCount : StorageMap Nat Nat := .empty
  releaseLog : StorageMap (Nat × Nat) ReleaseEntry := .empty
  counterAttestations : StorageMap Nat (CounterAttestation T.AccountId) := .empty
  pendingEnactments : StorageMap Nat (BoundedVec Nat maxEnactmentsPerBlock) := .empty
  /-- All events so far, oldest first. -/
  events : List (Event T.AccountId) := []

inductive Origin (T : Config)
  | root
  | signed (who : T.AccountId)
  | none

variable {T : Config}

def ensureRoot : Origin T → Except DispatchError Unit
  | .root => pure ()
  | _ => throw .badOrigin

def ensureSigned : Origin T → Except DispatchError T.AccountId
  | .signed who => pure who
  | _ => throw .badOrigin

def ensure (b : Bool) (e : Error) : Except DispatchError Unit :=
  if b then pure () else throw (.pallet e)

def okOr (o : Option α) (e : Error) : Except DispatchError α :=
  match o with
  | some a => pure a
  | none => throw (.pallet e)

namespace State

def roleStakeOf (s : State T) (p : Nat) (r : Role) : Nat := s.roleStake.getD (p, r) 0
def tallyOf (s : State T) (id : Nat) (r : Role) : RoleTally := s.tallies.getD (id, r) {}
def releaseCountOf (s : State T) (p : Nat) : Nat := s.releaseCount.getD p 0
def pendingAt (s : State T) (b : Nat) : BoundedVec Nat maxEnactmentsPerBlock :=
  s.pendingEnactments.getD b .empty

/-- The system pallet records no event in the genesis block. -/
def depositEvent (e : Event T.AccountId) (s : State T) : State T :=
  { s with events := if s.blockNumber = 0 then s.events else s.events ++ [e] }

/-- `ids.retain(|id| *id != proposal_id)` on one slot of the schedule. -/
def unschedule (b : Nat) (id : Nat) (s : State T) : State T :=
  { s with pendingEnactments := s.pendingEnactments.insert b ((s.pendingAt b).retain (· != id)) }

def setStatus (id : Nat) (status : ProposalStatus) (s : State T) : State T :=
  { s with
    proposals := match s.proposals.get id with
      | some p => s.proposals.insert id { p with status }
      | none => s.proposals }

end State

open State

-- ---------------------------------------------------------------------------
-- Votes
-- ---------------------------------------------------------------------------

/-- `total` is the role's stake, `ayes` its tally; both products saturate. -/
def RoleQuorum.met (rq : RoleQuorum) (total ayes : Nat) : Bool :=
  let total := saturatedInto u128Max total
  if total = 0 then false
  else
    let ayes := saturatedInto u128Max ayes
    decide (saturatingMul u128Max rq.quorum.deconstruct total ≤
      saturatingMul u128Max ayes Perbill.accuracy)

/-- Eq. 1: every required role's ayes reach its quorum. -/
def meetsQuorums (projectId : Nat) (project : ProjectInfo) (proposalId : Nat)
    (s : State T) : Bool :=
  project.policy.requiredRoles.val.all fun rq =>
    rq.met (s.roleStakeOf projectId rq.role) (s.tallyOf proposalId rq.role).ayes

/-- The tally after a vote of weight `stake`; a previous vote is taken back at
the weight the voter has now. -/
def RoleTally.record (top : Nat) (prev : Option Bool) (stake : Nat) (aye : Bool)
    (t : RoleTally) : RoleTally :=
  let t := match prev with
    | some true => { t with ayes := t.ayes - stake }
    | some false => { t with nays := t.nays - stake }
    | none => t
  if aye then { t with ayes := saturatingAdd top t.ayes stake }
  else { t with nays := saturatingAdd top t.nays stake }

/-- The first half of `do_vote`: tally, vote and event. -/
def recordVote (proposalId : Nat) (who : T.AccountId) (voter : Stakeholder) (aye : Bool)
    (s : State T) : State T :=
  let prev := s.votes.get (proposalId, who)
  let tally := (s.tallyOf proposalId voter.role).record T.maxBalance prev voter.stake aye
  depositEvent (.voted proposalId who voter.role aye voter.stake)
    { s with
      tallies := s.tallies.insert (proposalId, voter.role) tally
      votes := s.votes.insert (proposalId, who) aye }

def approve (proposalId : Nat) (enactAt : Nat)
    (ids : BoundedVec Nat maxEnactmentsPerBlock) (s : State T) : State T :=
  depositEvent (.proposalApproved proposalId enactAt)
    (setStatus proposalId (.approved enactAt)
      { s with pendingEnactments := s.pendingEnactments.insert enactAt ids })

/-- A changed vote broke a quorum before enactment: fall back to voting. -/
def revokeApproval (proposalId : Nat) (enactAt : Nat) (s : State T) : State T :=
  depositEvent (.proposalApprovalRevoked proposalId)
    (setStatus proposalId .voting (unschedule enactAt proposalId s))

def doVote (proposalId : Nat) (projectId : Nat) (project : ProjectInfo)
    (who : T.AccountId) (voter : Stakeholder) (aye : Bool) (now : Nat) (s : State T) :
    Except DispatchError (State T) := do
  let s := recordVote proposalId who voter aye s
  let met := meetsQuorums projectId project proposalId s
  let proposal ← okOr (s.proposals.get proposalId) .proposalNotFound
  match proposal.status with
  | .voting =>
    if met then
      let enactAt := saturatingAdd T.maxBlockNumber now project.policy.enactmentDelay
      let ids ← okOr ((s.pendingAt enactAt).tryPush proposalId) .tooManyEnactments
      pure (approve proposalId enactAt ids s)
    else pure s
  | .approved enactAt => if met then pure s else pure (revokeApproval proposalId enactAt s)
  | _ => pure s

-- ---------------------------------------------------------------------------
-- The hook
-- ---------------------------------------------------------------------------

/-- Eq. 1 holds at the enactment block: log the release, return the bond on a
best-effort basis (a failure is ignored) and settle the proposal. -/
def logRelease (proposalId : Nat) (proposal : Proposal T.AccountId) (now : Nat)
    (s : State T) : State T :=
  let projectId := proposal.projectId
  let index := s.releaseCountOf projectId
  let entry : ReleaseEntry := {
    proposalId
    version := proposal.version
    sourceCommitHash := proposal.attestation.sourceCommitHash
    outputBinaryHash := proposal.attestation.outputBinaryHash
    attestationCid := proposal.attestationCid
    enactedAt := now }
  let balances :=
    match T.currency.release .proposalBond proposal.proposer proposal.bond s.balances with
    | .ok (_, b) => b
    | .error _ => s.balances
  depositEvent
    (.releaseEnacted projectId proposalId index proposal.version
      proposal.attestation.outputBinaryHash)
    { s with
      releaseLog := s.releaseLog.insert (projectId, index) entry
      releaseCount := s.releaseCount.insert projectId (saturatingAdd u32Max index 1)
      balances
      proposals := s.proposals.insert proposalId { proposal with status := .enacted } }

/-- Append an approved proposal to the Official Release Log. -/
def enact (proposalId : Nat) (now : Nat) (s : State T) : State T :=
  match s.proposals.get proposalId with
  | none => s
  | some proposal =>
    match proposal.status with
    | .approved _ =>
      match s.projects.get proposal.projectId with
      | none => s
      | some project =>
        -- Eq. 1 is evaluated against the tally standing at the enactment block.
        if meetsQuorums proposal.projectId project proposalId s then
          logRelease proposalId proposal now s
        else
          depositEvent (.proposalApprovalRevoked proposalId) (setStatus proposalId .voting s)
    | _ => s

def onInitialize (now : Nat) (s : State T) : State T × Weight :=
  let ids := s.pendingAt now
  let s := { s with pendingEnactments := s.pendingEnactments.remove now }
  ids.val.foldl
    (fun acc id => (enact id now acc.1, acc.2.saturatingAdd (T.readsWrites 3 4)))
    (s, T.readsWrites 1 1)

-- ---------------------------------------------------------------------------
-- Dispatchables
-- ---------------------------------------------------------------------------

/-- One iteration of the stakeholder loop of `project_genesis`. -/
def registerStakeholder (projectId : Nat) (s : State T) (x : StakeholderInit T.AccountId) :
    Except DispatchError (State T) := do
  ensure (!s.stakeholders.containsKey (projectId, x.account)) .duplicateStakeholder
  let balances ← T.currency.hold .stake x.account x.stake s.balances
  let total := saturatingAdd T.maxBalance (s.roleStakeOf projectId x.role) x.stake
  pure (depositEvent (.stakeholderRegistered projectId x.account x.role x.stake)
    { s with
      balances
      stakeholders := s.stakeholders.insert (projectId, x.account) ⟨x.role, x.stake⟩
      roleStake := s.roleStake.insert (projectId, x.role) total })

def projectGenesis (origin : Origin T) (name : BoundedVec UInt8 nameLimit)
    (stakeholders : BoundedVec (StakeholderInit T.AccountId) maxStakeholdersPerGenesis)
    (policy : ReleasePolicy) (slashing : SlashingParams) (proposalBond : Nat) (s : State T) :
    Except DispatchError (State T) := do
  ensureRoot origin
  ensure (!policy.requiredRoles.val.isEmpty) .noRequiredRoles
  let projectId := s.nextProjectId
  let s ← stakeholders.val.foldlM (registerStakeholder projectId) s
  policy.requiredRoles.val.forM fun rq =>
    ensure (s.roleStakeOf projectId rq.role != 0) .requiredRoleHasNoStake
  pure (depositEvent (.projectCreated projectId name)
    { s with
      projects := s.projects.insert projectId ⟨name, policy, slashing, proposalBond⟩
      nextProjectId := saturatingAdd u32Max projectId 1 })

/-- The proposal `new_release` files, its bond held. -/
def addProposal (proposal : Proposal T.AccountId) (balances : T.currency.Ledger) (s : State T) :
    State T :=
  depositEvent
    (.releaseProposed s.nextProposalId proposal.projectId proposal.proposer proposal.version
      proposal.attestation.sourceCommitHash proposal.attestation.outputBinaryHash
      proposal.attestationCid proposal.votingEnds)
    { s with
      balances
      nextProposalId := saturatingAdd u32Max s.nextProposalId 1
      proposals := s.proposals.insert s.nextProposalId proposal }

def newRelease (origin : Origin T) (projectId : Nat)
    (version : BoundedVec UInt8 versionLimit) (attestation : BuildAttestation T.AccountId)
    (attestationCid : Hash32) (builderSignature : T.Signature) (s : State T) :
    Except DispatchError (State T) := do
  let who ← ensureSigned origin
  let project ← okOr (s.projects.get projectId) .projectNotFound
  let proposer ← okOr (s.stakeholders.get (projectId, who)) .notStakeholder
  ensure (proposer.role == .coreDeveloper) .notCoreDeveloper
  let builder ← okOr (s.stakeholders.get (projectId, attestation.builder)) .notBuildService
  ensure (builder.role == .buildService) .notBuildService
  ensure (T.verify builderSignature attestation.signingPayload attestation.builder)
    .invalidBuilderSignature
  let balances ← T.currency.hold .proposalBond who project.proposalBond s.balances
  let now := s.blockNumber
  let proposalId := s.nextProposalId
  let proposal : Proposal T.AccountId := {
    projectId, proposer := who, version, attestation, attestationCid
    bond := project.proposalBond
    submittedAt := now
    votingEnds := saturatingAdd T.maxBlockNumber now project.policy.votingPeriod
    status := .voting }
  -- The proposer's submission counts as their aye.
  doVote proposalId projectId project who proposer true now (addProposal proposal balances s)

def vote (origin : Origin T) (proposalId : Nat) (aye : Bool) (s : State T) :
    Except DispatchError (State T) := do
  let who ← ensureSigned origin
  let proposal ← okOr (s.proposals.get proposalId) .proposalNotFound
  ensure proposal.status.isOpen .proposalNotVoting
  let now := s.blockNumber
  ensure (decide (now ≤ proposal.votingEnds)) .votingPeriodOver
  let project ← okOr (s.projects.get proposal.projectId) .projectNotFound
  let voter ← okOr (s.stakeholders.get (proposal.projectId, who)) .notStakeholder
  doVote proposalId proposal.projectId project who voter aye now s

/-- An accepted counter-attestation: the builder loses `slashed`, the proposal
is rejected. `balances` has the slash burned and the bond returned. -/
def rejectProposal (who : T.AccountId) (proposalId : Nat) (proposal : Proposal T.AccountId)
    (rebuiltBinaryHash : Hash32) (builder : Stakeholder) (slashed : Nat)
    (balances : T.currency.Ledger) (s : State T) : State T :=
  let projectId := proposal.projectId
  let builderAcct := proposal.attestation.builder
  let remaining := builder.stake - slashed
  let attestedBinaryHash := proposal.attestation.outputBinaryHash
  let s := { s with
    balances
    stakeholders := s.stakeholders.insert (projectId, builderAcct)
      { builder with stake := remaining }
    roleStake := s.roleStake.insert (projectId, .buildService)
      (s.roleStakeOf projectId .buildService - slashed)
    proposals := s.proposals.insert proposalId { proposal with status := .rejected }
    counterAttestations := s.counterAttestations.insert proposalId
      ⟨who, attestedBinaryHash, rebuiltBinaryHash⟩ }
  let s := depositEvent
    (.counterAttestationAccepted proposalId who attestedBinaryHash rebuiltBinaryHash) s
  let s := depositEvent (.buildServiceSlashed projectId builderAcct slashed remaining) s
  depositEvent (.proposalRejected proposalId) s

/-- The match on the status in `submit_counter_attestation`. -/
def takeOffSchedule (proposalId : Nat) (status : ProposalStatus) (s : State T) :
    Except DispatchError (State T) :=
  match status with
  | .voting => pure s
  | .approved enactAt => pure (unschedule enactAt proposalId s)
  | _ => throw (.pallet .proposalNotChallengeable)

def submitCounterAttestation (origin : Origin T) (proposalId : Nat)
    (rebuiltBinaryHash : Hash32) (s : State T) : Except DispatchError (State T) := do
  let who ← ensureSigned origin
  let proposal ← okOr (s.proposals.get proposalId) .proposalNotFound
  let projectId := proposal.projectId
  let project ← okOr (s.projects.get projectId) .projectNotFound
  ensure (s.stakeholders.containsKey (projectId, who)) .notStakeholder
  let builderAcct := proposal.attestation.builder
  ensure (who != builderAcct) .builderCannotChallenge
  ensure (rebuiltBinaryHash != proposal.attestation.outputBinaryHash) .noDiscrepancy
  let s ← takeOffSchedule proposalId proposal.status s
  -- Negligence slash of the Build Service.
  let builder ← okOr (s.stakeholders.get (projectId, builderAcct)) .notBuildService
  let toSlash := project.slashing.sigmaNeg.mulFloor builder.stake
  let (slashed, balances) ← T.currency.burnHeld .stake builderAcct toSlash s.balances
  -- The good-faith proposer's bond is returned.
  let (_, balances) ← T.currency.release .proposalBond proposal.proposer proposal.bond balances
  pure (rejectProposal who proposalId proposal rebuiltBinaryHash builder slashed balances s)

def closeExpired (origin : Origin T) (proposalId : Nat) (s : State T) :
    Except DispatchError (State T) := do
  let _ ← ensureSigned origin
  let proposal ← okOr (s.proposals.get proposalId) .proposalNotFound
  ensure (proposal.status == .voting) .proposalNotVoting
  let now := s.blockNumber
  ensure (decide (proposal.votingEnds < now)) .votingPeriodNotOver
  let (_, balances) ← T.currency.release .proposalBond proposal.proposer proposal.bond s.balances
  pure (depositEvent (.proposalExpired proposalId)
    { s with
      balances
      proposals := s.proposals.insert proposalId { proposal with status := .expired } })

end Verigov
