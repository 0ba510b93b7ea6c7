import Verigov.Collateral
import Verigov.Escrow

/-!
# What a call is refused for

The checks of a signed call in the order in which they decide, on a state that a
run reaches. Some errors of the source are missing: a proposal always has its
project, its builder is always registered, and the funds it takes to burn a
slash or to return a bond are always on hold.
-/

namespace Verigov

open State Transition

variable {T : Config} {s s' : State T} {tr : Trace T} {id : Nat}

def errorOf : Except ε α → Option ε
  | .ok _ => none
  | .error e => some e

def refusal : List (Bool × Error) → Option DispatchError
  | [] => none
  | (b, e) :: checks => if b then refusal checks else some (.pallet e)

section

variable (s : State T) (who : T.AccountId) (id : Nat)

def roomToApprove (p : Nat) (status : ProposalStatus) (info : ProjectInfo) (voter : Stakeholder)
    (aye : Bool) : Bool :=
  !(status == .voting && meetsQuorums p info id (recordVote id who voter aye s)) ||
    decide ((s.pendingAt (saturatingAdd T.maxBlockNumber s.blockNumber
      info.policy.enactmentDelay)).val.length < maxEnactmentsPerBlock)

def voteChecks (aye : Bool) : List (Bool × Error) :=
  match s.proposals.get id with
  | none => [(false, .proposalNotFound)]
  | some pr => [(pr.status.isOpen, .proposalNotVoting),
      (decide (s.blockNumber ≤ pr.votingEnds), .votingPeriodOver)] ++
    match s.projects.get pr.projectId, s.stakeholders.get (pr.projectId, who) with
    | some info, some voter =>
      [(roomToApprove s who id pr.projectId pr.status info voter aye, .tooManyEnactments)]
    | _, _ => [(false, .notStakeholder)]

def counterChecks (rebuiltBinaryHash : Hash32) : List (Bool × Error) :=
  match s.proposals.get id with
  | none => [(false, .proposalNotFound)]
  | some pr => [(s.stakeholders.containsKey (pr.projectId, who), .notStakeholder),
      (who != pr.attestation.builder, .builderCannotChallenge),
      (rebuiltBinaryHash != pr.attestation.outputBinaryHash, .noDiscrepancy),
      (pr.status.isOpen, .proposalNotChallengeable)]

def closeChecks : List (Bool × Error) :=
  match s.proposals.get id with
  | none => [(false, .proposalNotFound)]
  | some pr => [(pr.status == .voting, .proposalNotVoting),
      (decide (pr.votingEnds < s.blockNumber), .votingPeriodNotOver)]

end

-- ---------------------------------------------------------------------------
-- Checks
-- ---------------------------------------------------------------------------

theorem errorOf_ensure_bind (b : Bool) (e : Error) (f : Unit → Except DispatchError α) :
    errorOf (ensure b e >>= f) = if b then errorOf (f ()) else some (.pallet e) := by
  cases b <;> rfl

theorem errorOf_okOr_bind (o : Option α) (e : Error) (f : α → Except DispatchError β) :
    errorOf (okOr o e >>= f) = o.elim (some (.pallet e)) fun a => errorOf (f a) := by
  cases o <;> rfl

theorem errorOf_signed_bind (who : T.AccountId) (f : T.AccountId → Except DispatchError α) :
    errorOf (ensureSigned (.signed who : Origin T) >>= f) = errorOf (f who) := rfl

theorem errorOf_takeOffSchedule_bind (status : ProposalStatus)
    (f : State T → Except DispatchError α) :
    errorOf (takeOffSchedule id status s >>= f) =
      if status.isOpen then errorOf (f (unscheduled id status s))
      else some (.pallet .proposalNotChallengeable) := by
  cases status <;> rfl

/-- Past its checks a vote is refused only for want of room. -/
theorem errorOf_doVote (hpr : s.proposals.get id = some pr) (ho : pr.status.isOpen = true)
    (p : Nat) (info : ProjectInfo) (who : T.AccountId) (voter : Stakeholder) (aye : Bool) :
    errorOf (doVote id p info who voter aye s.blockNumber s) =
      refusal [(roomToApprove s who id p pr.status info voter aye, .tooManyEnactments)] := by
  cases hst : pr.status with
  | voting =>
    cases hmet : meetsQuorums p info id (recordVote id who voter aye s) with
    | false =>
      rw [doVote_of_not_met hpr hst hmet]
      simp [roomToApprove, refusal, hmet, errorOf]
    | true =>
      have hnone := BoundedVec.tryPush_eq_none (x := id) (v := s.pendingAt
        (saturatingAdd T.maxBlockNumber s.blockNumber info.policy.enactmentDelay))
      have hle := (s.pendingAt
        (saturatingAdd T.maxBlockNumber s.blockNumber info.policy.enactmentDelay)).length_le
      cases hids : (s.pendingAt (saturatingAdd T.maxBlockNumber s.blockNumber
          info.policy.enactmentDelay)).tryPush id with
      | some ids =>
        rw [doVote_of_met hpr hst hmet hids]
        have hroom : (s.pendingAt (saturatingAdd T.maxBlockNumber s.blockNumber
            info.policy.enactmentDelay)).val.length < maxEnactmentsPerBlock := by
          refine Nat.lt_of_le_of_ne hle fun heq => ?_
          rw [hnone.mpr heq] at hids
          cases hids
        simp [roomToApprove, refusal, hmet, errorOf, hroom]
      | none =>
        rw [doVote_of_full hpr hst hmet hids]
        simp [roomToApprove, refusal, hmet, errorOf, hnone.mp hids]
  | approved enactAt =>
    obtain ⟨s', hs'⟩ := doVote_of_approved hpr hst p info who voter aye s.blockNumber
    rw [hs']
    simp [roomToApprove, refusal, errorOf]
  | _ => simp [hst, ProposalStatus.isOpen] at ho

-- ---------------------------------------------------------------------------
-- Calls
-- ---------------------------------------------------------------------------

theorem errorOf_vote (hs : HasProject s) (who : T.AccountId) (id : Nat) (aye : Bool) :
    errorOf (vote (.signed who) id aye s) = refusal (voteChecks s who id aye) := by
  unfold vote voteChecks
  rw [errorOf_signed_bind, errorOf_okOr_bind]
  cases hpr : s.proposals.get id with
  | none => rfl
  | some pr =>
    obtain ⟨info, hproj⟩ := Option.isSome_iff_exists.mp (hs id pr hpr)
    simp only [Option.elim_some, errorOf_ensure_bind, errorOf_okOr_bind, hproj, List.cons_append,
      List.nil_append, refusal]
    cases hopen : pr.status.isOpen with
    | false => rfl
    | true =>
      simp only [if_true]
      congr 1
      cases hvoter : s.stakeholders.get (pr.projectId, who) with
      | none => rfl
      | some voter => exact errorOf_doVote hpr hopen pr.projectId info who voter aye

theorem challenge_funds (hburn : T.currency.BurnSucceeds) (hkeeps : T.currency.BurnKeepsReasons)
    (hrel : T.currency.ReleaseExact) (hc : Covered s) (he : Escrowed s)
    (hpr : s.proposals.get id = some pr) (ho : pr.status.isOpen = true) (q : Perbill)
    (hy : s.stakeholders.get (p, who) = some y) :
    ∃ slashed burned released balances,
      T.currency.burnHeld .stake who (q.mulFloor y.stake) s.balances = .ok (slashed, burned) ∧
      T.currency.release .proposalBond pr.proposer pr.bond burned = .ok (released, balances) := by
  have hheld : q.mulFloor y.stake ≤ T.currency.balanceOnHold .stake who s.balances :=
    Nat.le_trans (q.mulFloor_le _) (Nat.le_trans (stake_le_stakes hy) (Nat.le_of_eq (he who).symm))
  obtain ⟨slashed, burned, hb⟩ := hburn _ _ _ _ hheld
  have hbond : pr.bond ≤ T.currency.balanceOnHold .proposalBond pr.proposer burned := by
    rw [hkeeps _ _ _ _ _ _ hb .proposalBond _ (by decide)]
    exact Nat.le_trans (bond_le_bonds hpr ho) (hc _)
  obtain ⟨released, balances, hr⟩ := hrel.succeeds _ _ _ _ hbond
  exact ⟨slashed, burned, released, balances, hb, hr⟩

theorem errorOf_submitCounterAttestation (hburn : T.currency.BurnSucceeds)
    (hkeeps : T.currency.BurnKeepsReasons) (hrel : T.currency.ReleaseExact) (hs : HasProject s)
    (hp : PartiesRegistered s) (hc : Covered s) (he : Escrowed s) (who : T.AccountId) (id : Nat)
    (rebuilt : Hash32) :
    errorOf (submitCounterAttestation (.signed who) id rebuilt s) =
      refusal (counterChecks s who id rebuilt) := by
  unfold submitCounterAttestation counterChecks
  rw [errorOf_signed_bind, errorOf_okOr_bind]
  cases hpr : s.proposals.get id with
  | none => rfl
  | some pr =>
    obtain ⟨info, hproj⟩ := Option.isSome_iff_exists.mp (hs id pr hpr)
    obtain ⟨y, hy, -⟩ := (hp id pr hpr).2
    have hsame : (unscheduled id pr.status s).stakeholders = s.stakeholders ∧
        (unscheduled id pr.status s).balances = s.balances := by
      cases pr.status <;> exact ⟨rfl, rfl⟩
    simp only [Option.elim_some, errorOf_ensure_bind, errorOf_okOr_bind,
      errorOf_takeOffSchedule_bind, hproj, hsame.1, hsame.2, hy, refusal]
    congr 3
    cases hopen : pr.status.isOpen with
    | false => rfl
    | true =>
      obtain ⟨slashed, burned, released, balances, hb, hr⟩ :=
        challenge_funds hburn hkeeps hrel hc he hpr hopen info.slashing.sigmaNeg hy
      rw [hb]
      simp only [if_true, bind, Except.bind, hr]
      rfl

theorem errorOf_closeExpired (hrel : T.currency.ReleaseExact) (hc : Covered s) (who : T.AccountId)
    (id : Nat) : errorOf (closeExpired (.signed who) id s) = refusal (closeChecks s id) := by
  unfold closeExpired closeChecks
  rw [errorOf_signed_bind, errorOf_okOr_bind]
  cases hpr : s.proposals.get id with
  | none => rfl
  | some pr =>
    simp only [Option.elim_some, errorOf_ensure_bind, refusal]
    by_cases hst : pr.status = .voting
    · have ho : pr.status.isOpen = true := by rw [hst]; rfl
      obtain ⟨b, hr, -⟩ := hrel.whole (Nat.le_trans (bond_le_bonds hpr ho) (hc pr.proposer))
      rw [hr]
      rfl
    · simp [hst]

/-- A call on a proposal is refused for the first check that fails, and for
nothing else: in no state that is reached do the project or the builder turn out
missing, or the funds of a slash or a bond. -/
theorem calls_refused (hhold : T.currency.HoldExact) (hrel : T.currency.ReleaseExact)
    (hkept : T.currency.ReleaseKeepsReasons) (hburn : T.currency.BurnExact)
    (hsucc : T.currency.BurnSucceeds) (hkeeps : T.currency.BurnKeepsReasons)
    (h : Reachable s) (who : T.AccountId) (id : Nat) :
    (∀ aye, errorOf (vote (.signed who) id aye s) = refusal (voteChecks s who id aye)) ∧
    (∀ rebuilt, errorOf (submitCounterAttestation (.signed who) id rebuilt s) =
      refusal (counterChecks s who id rebuilt)) ∧
    errorOf (closeExpired (.signed who) id s) = refusal (closeChecks s id) := by
  obtain ⟨tr, hr⟩ := h
  have hcov := hr.covered hhold hrel hkeeps
  exact ⟨errorOf_vote hr.hasProject who id,
    errorOf_submitCounterAttestation hsucc hkeeps hrel hr.hasProject hr.partiesRegistered hcov
      (hr.escrowed hhold hburn hkept) who id, errorOf_closeExpired hrel hcov who id⟩

theorem calls_refused_approved :
    let s := Mock.after [Mock.genesis .coreDeveloper (Mock.percent 30) 7 5, Mock.propose 8 1]
    errorOf (submitCounterAttestation (.signed (8 : Nat)) 0 (Mock.h 2) s) =
        some (.pallet .builderCannotChallenge) ∧
      errorOf (submitCounterAttestation (.signed (6 : Nat)) 0 (Mock.h 2) s) = none ∧
      errorOf (closeExpired (.signed (6 : Nat)) 0 s) = some (.pallet .proposalNotVoting) := by
  intro s
  have h := calls_refused (s := s) Ledger.holdExact Ledger.releaseExact Ledger.releaseKeepsReasons
    Ledger.burnExact Ledger.burnSucceeds Ledger.burnKeepsReasons ⟨_, Mock.reaches _⟩
  refine ⟨?_, ?_, ?_⟩
  · rw [(h 8 0).2.1]
    decide +kernel
  · rw [(h 6 0).2.1]
    decide +kernel
  · rw [(h 6 0).2.2]
    decide +kernel

end Verigov
