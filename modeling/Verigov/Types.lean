import Verigov.Lib.Bounded
import Mathlib.Data.Vector.Defs

/-!
# The pallet's data

The types of `pallets/verigov/src/lib.rs`, field by field. Identifiers, block
numbers and balances are natural numbers; where the code's arithmetic on them
is bounded, the operation says so. Codec derives are left out: no modelled
function encodes a value.
-/

namespace Verigov

abbrev Hash32 := List.Vector UInt8 32

def nameLimit : Nat := 64
def versionLimit : Nat := 32
def maxStakeholdersPerGenesis : Nat := 64
def maxRequiredRoles : Nat := 4
def maxEnactmentsPerBlock : Nat := 32

inductive Role
  | coreDeveloper
  | securityAuditor
  | communityTrustee
  | buildService
  deriving DecidableEq, Repr

structure RoleQuorum where
  role : Role
  quorum : Perbill
  deriving DecidableEq, Repr

structure ReleasePolicy where
  requiredRoles : BoundedVec RoleQuorum maxRequiredRoles
  votingPeriod : Nat
  enactmentDelay : Nat
  deriving DecidableEq, Repr

/-- `sigmaMal` and `deltaMax` are recorded and never read. -/
structure SlashingParams where
  sigmaNeg : Perbill
  sigmaMal : Perbill
  deltaMax : Nat
  deriving DecidableEq, Repr

structure StakeholderInit (AccountId : Type) where
  account : AccountId
  role : Role
  stake : Nat
  deriving DecidableEq, Repr

structure Stakeholder where
  role : Role
  stake : Nat
  deriving DecidableEq, Repr

structure ProjectInfo where
  name : BoundedVec UInt8 nameLimit
  policy : ReleasePolicy
  slashing : SlashingParams
  proposalBond : Nat
  deriving DecidableEq, Repr

structure BuildAttestation (AccountId : Type) where
  sourceCommitHash : Hash32
  sourceTreeHash : Hash32
  buildEnvironmentHash : Hash32
  outputBinaryHash : Hash32
  builder : AccountId
  deriving DecidableEq

/-- `out[lo..].copy_from_slice(src)`. -/
def copyFromSlice (lo : Nat) (src : Hash32) (out : List UInt8) : List UInt8 :=
  out.take lo ++ src.toList ++ out.drop (lo + 32)

def BuildAttestation.signingPayload (a : BuildAttestation AccountId) : List UInt8 :=
  let out := List.replicate 128 0
  let out := copyFromSlice 0 a.sourceCommitHash out
  let out := copyFromSlice 32 a.sourceTreeHash out
  let out := copyFromSlice 64 a.buildEnvironmentHash out
  copyFromSlice 96 a.outputBinaryHash out

inductive ProposalStatus
  | voting
  | approved (enactAt : Nat)
  | enacted
  | rejected
  | expired
  deriving DecidableEq, Repr

/-- Votes are still taken, and the bond is still held. -/
def ProposalStatus.isOpen : ProposalStatus → Bool
  | .voting | .approved _ => true
  | _ => false

structure Proposal (AccountId : Type) where
  projectId : Nat
  proposer : AccountId
  version : BoundedVec UInt8 versionLimit
  attestation : BuildAttestation AccountId
  attestationCid : Hash32
  bond : Nat
  submittedAt : Nat
  votingEnds : Nat
  status : ProposalStatus
  deriving DecidableEq

@[ext] structure RoleTally where
  ayes : Nat := 0
  nays : Nat := 0
  deriving DecidableEq, Repr

structure ReleaseEntry where
  proposalId : Nat
  version : BoundedVec UInt8 versionLimit
  sourceCommitHash : Hash32
  outputBinaryHash : Hash32
  attestationCid : Hash32
  enactedAt : Nat
  deriving DecidableEq

structure CounterAttestation (AccountId : Type) where
  challenger : AccountId
  attestedBinaryHash : Hash32
  rebuiltBinaryHash : Hash32
  deriving DecidableEq

inductive HoldReason
  | stake
  | proposalBond
  deriving DecidableEq, Repr

inductive Event (AccountId : Type)
  | projectCreated (projectId : Nat) (name : BoundedVec UInt8 nameLimit)
  | stakeholderRegistered (projectId : Nat) (account : AccountId) (role : Role)
      (stake : Nat)
  | releaseProposed (proposalId : Nat) (projectId : Nat) (proposer : AccountId)
      (version : BoundedVec UInt8 versionLimit) (sourceCommitHash outputBinaryHash : Hash32)
      (attestationCid : Hash32) (votingEnds : Nat)
  | voted (proposalId : Nat) (voter : AccountId) (role : Role) (aye : Bool)
      (weight : Nat)
  | proposalApproved (proposalId : Nat) (enactAt : Nat)
  | proposalApprovalRevoked (proposalId : Nat)
  | releaseEnacted (projectId : Nat) (proposalId : Nat) (index : Nat)
      (version : BoundedVec UInt8 versionLimit) (outputBinaryHash : Hash32)
  | counterAttestationAccepted (proposalId : Nat) (challenger : AccountId)
      (attestedBinaryHash rebuiltBinaryHash : Hash32)
  | buildServiceSlashed (projectId : Nat) (builder : AccountId) (amount : Nat)
      (remainingStake : Nat)
  | proposalRejected (proposalId : Nat)
  | proposalExpired (proposalId : Nat)
  deriving DecidableEq

inductive Error
  | projectNotFound
  | proposalNotFound
  | notStakeholder
  | notCoreDeveloper
  | notBuildService
  | duplicateStakeholder
  | noRequiredRoles
  | requiredRoleHasNoStake
  | invalidBuilderSignature
  | proposalNotVoting
  | votingPeriodOver
  | votingPeriodNotOver
  | proposalNotChallengeable
  | noDiscrepancy
  | builderCannotChallenge
  | tooManyEnactments
  deriving DecidableEq, Repr

inductive DispatchError
  | badOrigin
  | pallet (error : Error)
  | token
  deriving DecidableEq, Repr

/-- What a hook reports as spent, in each of the two dimensions. -/
structure Weight where
  refTime : Nat
  proofSize : Nat
  deriving DecidableEq, Repr

def Weight.saturatingAdd (a b : Weight) : Weight where
  refTime := min (a.refTime + b.refTime) u64Max
  proofSize := min (a.proofSize + b.proofSize) u64Max

end Verigov
